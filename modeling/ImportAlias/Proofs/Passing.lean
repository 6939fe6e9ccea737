import ImportAlias.Pipeline.Host

/-!
# Passing a request on

A resolution is a chain of calls and callbacks in which each link hands over to
the next one: a handler to a stage, a nested callback to the outer one, a
handler that declines to the handler behind it. One resolution leads to another
when running it is running the other a few calls later, with nothing answered and
no fault in between; logs, the stack and the missing paths may have grown. What a
whole stage does is put together from what its links lead to.
-/

namespace ImportAlias.Pipeline

variable {α β : Type}

/-- Nothing is called, answered or at fault. -/
def Silent (step : Resolution α) : Prop :=
  ∀ trail : Trail, (step.run trail).2.calls = trail.calls ∧
    (step.run trail).2.answers = trail.answers ∧ (step.run trail).2.fault = trail.fault

theorem silent_pure (a : α) : Silent (pure a : Resolution α) :=
  fun _ => ⟨rfl, rfl, rfl⟩

theorem Silent.bind {step : Resolution α} {next : α → Resolution β} (h : Silent step)
    (hn : ∀ a, Silent (next a)) : Silent (step >>= next) := by
  intro trail
  obtain ⟨hc, ha, hf⟩ := h trail
  obtain ⟨hc', ha', hf'⟩ := hn (step.run trail).1 (step.run trail).2
  exact ⟨hc'.trans hc, ha'.trans ha, hf'.trans hf⟩

theorem silent_forM {lines : List String} {step : String → Resolution Unit}
    (h : ∀ line, Silent (step line)) : Silent (lines.forM step) := by
  induction lines with
  | nil => exact silent_pure ()
  | cons line lines ih => exact (h line).bind fun _ => ih

theorem silent_write (channel : Channel) (line : String) : Silent (channel.write line) := by
  intro trail
  cases channel <;> exact ⟨rfl, rfl, rfl⟩

theorem Callback.silent_write (callback : Callback) (line : String) :
    Silent (callback.write line) := by
  unfold Callback.write
  split
  · exact Pipeline.silent_write _ line
  · exact silent_pure ()

theorem silent_trace (action : Action) : Silent (Resolution.trace action) :=
  fun _ => ⟨rfl, rfl, rfl⟩

theorem silent_push (entry : String) : Silent (Resolution.push entry) :=
  fun _ => ⟨rfl, rfl, rfl⟩

theorem silent_miss (path : String) : Silent (Resolution.miss path) :=
  fun _ => ⟨rfl, rfl, rfl⟩

theorem silent_newBuffer : Silent Resolution.newBuffer :=
  fun _ => ⟨rfl, rfl, rfl⟩

theorem silent_buffered (index : Nat) : Silent (Resolution.buffered index) :=
  fun _ => ⟨rfl, rfl, rfl⟩

/-- Running `first` is running `last` after so many calls, as far as the limit allows them. -/
def LeadsTo (first : Resolution Unit) (calls : Nat) (last : Resolution Unit) : Prop :=
  ∀ trail : Trail, trail.calls.length + calls ≤ Host.callLimit →
    ∃ later : Trail, first.run trail = last.run later ∧
      later.calls.length = trail.calls.length + calls ∧
      later.answers = trail.answers ∧ later.fault = trail.fault

namespace LeadsTo

variable {first middle last : Resolution Unit} {m n : Nat}

theorem refl (step : Resolution Unit) : LeadsTo step 0 step :=
  fun trail _ => ⟨trail, rfl, rfl, rfl, rfl⟩

theorem trans (h : LeadsTo first m middle) (h' : LeadsTo middle n last) :
    LeadsTo first (m + n) last := by
  intro trail hl
  obtain ⟨between, he, hc, ha, hf⟩ := h trail (by omega)
  obtain ⟨later, he', hc', ha', hf'⟩ := h' between (by omega)
  exact ⟨later, he.trans he', by omega, ha'.trans ha, hf'.trans hf⟩

theorem hand (h : LeadsTo first 0 middle) (h' : LeadsTo middle n last) : LeadsTo first n last := by
  have ht := h.trans h'
  rwa [Nat.zero_add] at ht

theorem silent {step : Resolution α} {next : α → Resolution Unit} (hs : Silent step)
    (hn : ∀ a, LeadsTo (next a) n last) : LeadsTo (step >>= next) n last := by
  intro trail hl
  obtain ⟨hc, ha, hf⟩ := hs trail
  obtain ⟨later, he', hc', ha', hf'⟩ :=
    hn (step.run trail).1 (step.run trail).2 (by rw [hc]; exact hl)
  exact ⟨later, he', by rw [hc', hc], ha'.trans ha, hf'.trans hf⟩

end LeadsTo

/-- Calling `callback` comes down to going on with its arguments. -/
def Callback.PassesTo (callback : Callback) (goOn : List Value → Resolution Unit) : Prop :=
  ∀ args, LeadsTo (callback.invoke args) 0 (goOn args)

theorem leadsTo_nested {goOn : List Value → Resolution Unit} {outer : Carried}
    {message : Option String} {isOptional : Bool} {next : Callback → Resolution Unit} {n : Nat}
    {last : Resolution Unit}
    (hn : ∀ callback : Callback, callback.PassesTo goOn → LeadsTo (next callback) n last) :
    LeadsTo (Callback.nested goOn outer message isOptional >>= next) n last := by
  unfold Callback.nested
  cases outer.log with
  | none => exact hn ⟨goOn, outer⟩ fun args => .refl (goOn args)
  | some channel =>
    rw [bind_assoc]
    refine LeadsTo.silent silent_newBuffer fun index => ?_
    rw [pure_bind]
    refine hn _ fun args => ?_
    refine LeadsTo.silent (silent_buffered index) fun lines => ?_
    exact LeadsTo.silent (silent_forM fun line => silent_write channel line) fun _ => .refl _

section Handlers

variable {resolve : Resolver} {request : Request} {callback : Callback} {n : Nat}
  {last : Resolution Unit}

theorem LeadsTo.ite {p : Prop} [Decidable p] {first other : Resolution Unit}
    (h : LeadsTo first n last) (ho : LeadsTo other n last) :
    LeadsTo (if p then first else other) n last := by
  split
  · exact h
  · exact ho

/-- What a delegated request finishes its callback with. -/
def finishing (args : List Value) : List Value :=
  if args.isEmpty then [.null, .null] else args

theorem finishing_isEmpty (args : List Value) : (finishing args).isEmpty = false := by
  cases args <;> rfl

theorem leadsTo_delegate {target : String} {traced : Bool} {redirect : Redirect}
    (hn : ∀ nested : Callback,
      nested.PassesTo (fun args => callback.invoke (finishing args)) →
      LeadsTo (resolve target { request with request := some redirect.specifier }
        redirect.description nested) n last) :
    LeadsTo (delegate resolve target traced request redirect callback) n last := by
  unfold delegate
  refine leadsTo_nested fun nested hp => hn nested fun args => ?_
  refine (hp args).hand ?_
  unfold finishing
  cases args with
  | nil =>
    change LeadsTo (ite (traced = true) _ _) 0 _
    exact .ite (.silent (silent_trace _) fun _ => .refl _) (.refl _)
  | cons first rest => exact .refl _

namespace AliasPlugin

variable {plugin : AliasPlugin} {mapping : Mapping}

theorem leadsTo_decline (hm : mapping.matchFrom? (plugin.subject request) = .ok none) :
    LeadsTo (plugin.handle mapping resolve request callback) 0 callback.decline := by
  unfold handle
  simp only [hm]
  exact .ite (.silent (silent_trace _) fun _ => .refl _) (.refl _)

theorem leadsTo_delegate {found : Match}
    (hm : mapping.matchFrom? (plugin.subject request) = .ok (some found)) :
    LeadsTo (plugin.handle mapping resolve request callback) 0
      (delegate resolve plugin.target plugin.traced request
        (found.toRedirect plugin.table.baseDirectory) callback) := by
  unfold handle
  simp only [hm]
  exact .ite (.silent (silent_trace _) fun _ => .refl _) (.refl _)

end AliasPlugin

theorem ModuleRoot.leadsTo_resolve {rule : ModuleRoot} {specifier : String}
    (hw : request.wanted? = some specifier)
    (hn : ∀ nested : Callback, nested.PassesTo callback.invoke →
      LeadsTo (resolve rule.target
        { request with path := rule.path, request := some ("./" ++ specifier) }
        s!"looking for modules in {rule.path}" nested) n last) :
    LeadsTo (rule.handle resolve request callback) n last := by
  unfold ModuleRoot.handle
  rw [hw]
  exact leadsTo_nested hn

end Handlers

namespace Host

variable {host : Host} {resolve : Resolver} {fallback : Resolution Unit} {stage message : String}
  {request : Request} {callback : Callback} {n : Nat} {last : Resolution Unit}

/-- The first handler is asked, and gets a callback that goes on to the others when it declines. -/
theorem leadsTo_inTurn {handler : Handler} {rest : List Handler} {index : Nat}
    (hn : ∀ nested : Callback,
      nested.PassesTo (fun args =>
        if args.isEmpty then inTurn resolve fallback stage request callback rest (index + 1)
        else callback.invoke args) →
      LeadsTo (handler.handle resolve request nested) n last) :
    LeadsTo (inTurn resolve fallback stage request callback (handler :: rest) index) n last := by
  rw [inTurn]
  exact leadsTo_nested hn

/-- Handlers that decline are passed by. -/
theorem leadsTo_rest (fallback : Resolution Unit) (stage : String) (callback : Callback)
    {handlers : List Handler} (rest : List Handler) (index : Nat)
    (hd : ∀ handler ∈ handlers, ∀ nested : Callback,
      LeadsTo (handler.handle resolve request nested) 0 nested.decline) :
    LeadsTo (inTurn resolve fallback stage request callback (handlers ++ rest) index) 0
      (inTurn resolve fallback stage request callback rest (index + handlers.length)) := by
  induction handlers generalizing index with
  | nil => exact .refl _
  | cons handler handlers ih =>
    obtain ⟨hh, hd⟩ := List.forall_mem_cons.mp hd
    refine leadsTo_inTurn fun nested hp => ?_
    have hnext := ih (index + 1) hd
    rw [Nat.add_right_comm] at hnext
    exact (hh nested).hand ((hp []).hand hnext)

theorem leadsTo_stage (host : Host) (stage message : String) (request : Request)
    (callback : Callback) (depth : Nat) :
    LeadsTo (host.resolveWithin (depth + 1) stage request message callback) 1
      (inTurn (host.resolveWithin depth)
        (host.fallback (host.resolveWithin depth) stage request callback) stage request callback
        (host.handlersOf stage) 0) := by
  intro trail hl
  let call : Call := ⟨stage, message, request, callback.carried⟩
  let entered : Trail := { trail with calls := trail.calls ++ [call] }
  have hlength : entered.calls.length = trail.calls.length + 1 := List.length_append
  have hcount : ¬ entered.calls.length > callLimit := by omega
  have hrest := LeadsTo.ite (p := callback.carried.stack = true) (.silent (silent_push
    (stage ++ ": " ++ request.request.getD "")) fun _ => .refl (inTurn (host.resolveWithin depth)
      (host.fallback (host.resolveWithin depth) stage request callback) stage request callback
      (host.handlersOf stage) 0)) (.refl _)
  obtain ⟨later, he, hc, ha, hf⟩ := hrest entered (by omega)
  refine ⟨later, ?_, by omega, ha, hf⟩
  rw [← he, resolveWithin]
  change (ite (entered.calls.length > callLimit) _ _ : Resolution Unit).run entered = _
  rw [if_neg hcount]

/-- A candidate is found or not. -/
def found (host : Host) (candidate : String) : List Value :=
  if candidate ∈ host.files then [.null, .string candidate] else []

theorem leadsTo_lookUp (candidate : String) :
    LeadsTo (host.lookUp candidate callback) 0 (callback.invoke (host.found candidate)) := by
  unfold lookUp found
  split
  · exact .refl _
  · refine .silent (callback.silent_write _) fun _ => ?_
    exact .ite (.silent (silent_miss _) fun _ => .refl _) (.refl _)

end Host

end ImportAlias.Pipeline
