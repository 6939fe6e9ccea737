import ImportAlias.Proofs.Passing

/-!
# What is traced on the way

A handler decides and then hands over: its last act is to call back, to send a
request into a stage or to fail. What it traces before that is kept here. A
resolution comes to another one when running it is running the other later, with
some actions traced in between and nothing called, answered or at fault. Since
nothing is known of the resolver, a stage is entered exactly where a resolution
comes to it.
-/

namespace ImportAlias.Pipeline

variable {α β : Type}

/-- A silent step that traces nothing either. -/
def Quiet (step : Resolution α) : Prop :=
  Silent step ∧ ∀ trail : Trail, (step.run trail).2.actions = trail.actions

theorem quiet_pure (a : α) : Quiet (pure a : Resolution α) :=
  ⟨silent_pure a, fun _ => rfl⟩

theorem Quiet.bind {step : Resolution α} {next : α → Resolution β} (h : Quiet step)
    (hn : ∀ a, Quiet (next a)) : Quiet (step >>= next) := by
  refine ⟨h.1.bind fun a => (hn a).1, fun trail => ?_⟩
  exact ((hn (step.run trail).1).2 (step.run trail).2).trans (h.2 trail)

theorem quiet_forM {lines : List String} {step : String → Resolution Unit}
    (h : ∀ line, Quiet (step line)) : Quiet (lines.forM step) := by
  induction lines with
  | nil => exact quiet_pure ()
  | cons line lines ih => exact (h line).bind fun _ => ih

theorem quiet_write (channel : Channel) (line : String) : Quiet (channel.write line) := by
  refine ⟨silent_write channel line, fun trail => ?_⟩
  cases channel <;> rfl

theorem quiet_newBuffer : Quiet Resolution.newBuffer :=
  ⟨silent_newBuffer, fun _ => rfl⟩

theorem quiet_buffered (index : Nat) : Quiet (Resolution.buffered index) :=
  ⟨silent_buffered index, fun _ => rfl⟩

/-- Running `first` is running one of the resolutions of `last` later, with these actions traced in
between. -/
def ComesTo (first : Resolution Unit) (actions : List Action) (last : Resolution Unit → Prop) :
    Prop :=
  ∀ trail : Trail, ∃ (next : Resolution Unit) (later : Trail), last next ∧
    first.run trail = next.run later ∧ later.actions = trail.actions ++ actions ∧
    later.calls = trail.calls ∧ later.answers = trail.answers ∧ later.fault = trail.fault

namespace ComesTo

variable {first : Resolution Unit} {actions more : List Action}
  {middle last : Resolution Unit → Prop}

theorem refl (h : last first) : ComesTo first [] last :=
  fun trail => ⟨first, trail, h, rfl, (List.append_nil _).symm, rfl, rfl, rfl⟩

theorem trans (h : ComesTo first actions middle)
    (h' : ∀ next, middle next → ComesTo next more last) :
    ComesTo first (actions ++ more) last := by
  intro trail
  obtain ⟨next, between, hm, he, ht, hc, ha, hf⟩ := h trail
  obtain ⟨final, later, hl, he', ht', hc', ha', hf'⟩ := h' next hm between
  refine ⟨final, later, hl, he.trans he', ?_, hc'.trans hc, ha'.trans ha, hf'.trans hf⟩
  rw [ht', ht, List.append_assoc]

theorem hand (h : ComesTo first [] middle) (h' : ∀ next, middle next → ComesTo next more last) :
    ComesTo first more last :=
  h.trans h'

theorem mono (h : ComesTo first actions middle) (hm : ∀ next, middle next → last next) :
    ComesTo first actions last := by
  intro trail
  obtain ⟨next, later, hn, hlater⟩ := h trail
  exact ⟨next, later, hm next hn, hlater⟩

theorem quiet {step : Resolution α} {next : α → Resolution Unit} (hs : Quiet step)
    (hn : ∀ a, ComesTo (next a) actions last) : ComesTo (step >>= next) actions last := by
  intro trail
  obtain ⟨⟨hc, ha, hf⟩, ht⟩ := And.intro (hs.1 trail) (hs.2 trail)
  obtain ⟨final, later, hl, he, ht', hc', ha', hf'⟩ :=
    hn (step.run trail).1 (step.run trail).2
  exact ⟨final, later, hl, he, by rw [ht', ht], hc'.trans hc, ha'.trans ha, hf'.trans hf⟩

end ComesTo

/-- The actions that are kept of a run, if any are. -/
def tracedActions (flag : Bool) (actions : List Action) : List Action :=
  if flag then actions else []

theorem tracedActions_append (flag : Bool) (first second : List Action) :
    tracedActions flag first ++ tracedActions flag second =
      tracedActions flag (first ++ second) := by
  cases flag <;> rfl

theorem comesTo_traced (flag : Bool) (action : Action) (next : Resolution Unit) :
    ComesTo (if flag then Resolution.trace action >>= fun _ => next else next)
      (tracedActions flag [action]) (· = next) := by
  intro trail
  cases flag with
  | false => exact ⟨next, trail, rfl, rfl, (List.append_nil _).symm, rfl, rfl, rfl⟩
  | true =>
    exact ⟨next, { trail with actions := trail.actions ++ [action] }, rfl, rfl, rfl, rfl, rfl, rfl⟩

/-- Calling `callback` comes to going on with its arguments. -/
def Callback.HandsTo (callback : Callback) (goOn : List Value → Resolution Unit) : Prop :=
  ∀ args, ComesTo (callback.invoke args) [] (· = goOn args)

/-- Whoever gets a nested callback may count on it to hand its arguments on. -/
theorem comesTo_nested {goOn : List Value → Resolution Unit} {outer : Carried}
    {message : Option String} {isOptional : Bool} {next : Callback → Resolution Unit}
    {actions : List Action} {last : Resolution Unit → Prop}
    (hn : ∀ callback : Callback, callback.HandsTo goOn → ComesTo (next callback) actions last) :
    ComesTo (Callback.nested goOn outer message isOptional >>= next) actions last := by
  unfold Callback.nested
  cases outer.log with
  | none => exact hn ⟨goOn, outer⟩ fun args => .refl rfl
  | some channel =>
    rw [bind_assoc]
    refine ComesTo.quiet quiet_newBuffer fun index => ?_
    rw [pure_bind]
    refine hn _ fun args => ?_
    refine ComesTo.quiet (quiet_buffered index) fun lines => ?_
    exact ComesTo.quiet (quiet_forM fun line => quiet_write channel line) fun _ => .refl rfl

section Handlers

variable {resolve : Resolver} {request : Request} {callback : Callback}

/-- A callback that finishes another one. When it is declined, the redirect is suppressed. -/
def Callback.Finishes (nested : Callback) (traced : Bool) (redirect : Redirect)
    (finish : List Value → Resolution Unit) : Prop :=
  ∀ args, ComesTo (nested.invoke args)
    (if args.isEmpty then
      tracedActions traced [.suppress redirect.specifier redirect.description] else [])
    (· = finish (finishing args))

/-- A request that is redirected. -/
def Request.redirected (request : Request) (redirect : Redirect) : Request :=
  { request with request := some redirect.specifier }

theorem comesTo_delegate (resolve : Resolver) (target : String) (traced : Bool)
    (request : Request) (redirect : Redirect) (callback : Callback) :
    ComesTo (delegate resolve target traced request redirect callback) [] fun next =>
      ∃ nested : Callback, nested.Finishes traced redirect callback.invoke ∧
        next = resolve target (request.redirected redirect) redirect.description nested := by
  unfold delegate
  refine comesTo_nested fun nested hp => .refl ⟨nested, fun args => ?_, rfl⟩
  refine (hp args).hand ?_
  rintro next rfl
  cases args with
  | nil => exact comesTo_traced traced _ _
  | cons first rest => exact .refl rfl

namespace AliasPlugin

variable {plugin : AliasPlugin} {mapping : Mapping}

theorem comesTo_decline (resolve : Resolver) (callback : Callback)
    (hm : mapping.matchFrom? (plugin.subject request) = .ok none) :
    ComesTo (plugin.handle mapping resolve request callback)
      (tracedActions plugin.traced [.passthrough]) (· = callback.decline) := by
  unfold handle
  simp only [hm]
  exact comesTo_traced plugin.traced _ _

theorem comesTo_delegate (resolve : Resolver) (callback : Callback) {found : Match}
    (hm : mapping.matchFrom? (plugin.subject request) = .ok (some found)) :
    ComesTo (plugin.handle mapping resolve request callback)
      (tracedActions plugin.traced [.redirect (found.toRedirect plugin.table.baseDirectory)])
      (· = delegate resolve plugin.target plugin.traced request
        (found.toRedirect plugin.table.baseDirectory) callback) := by
  unfold handle
  simp only [hm]
  exact comesTo_traced plugin.traced _ _

theorem comesTo_fail (resolve : Resolver) (callback : Callback) {fault : Unreported}
    (hm : mapping.matchFrom? (plugin.subject request) = .error fault) :
    ComesTo (plugin.handle mapping resolve request callback) []
      (· = Resolution.fail fault) := by
  unfold handle
  simp only [hm]
  exact .refl rfl

end AliasPlugin

theorem ModuleRoot.comesTo (rule : ModuleRoot) (resolve : Resolver) (request : Request)
    (callback : Callback) :
    ComesTo (rule.handle resolve request callback) [] fun next =>
      next = callback.decline ∨
      ∃ (specifier : String) (nested : Callback), request.wanted? = some specifier ∧
        nested.HandsTo callback.invoke ∧
        next = resolve rule.target
          { request with path := rule.path, request := some ("./" ++ specifier) }
          s!"looking for modules in {rule.path}" nested := by
  unfold ModuleRoot.handle
  cases request.wanted? with
  | none => exact .refl (.inl rfl)
  | some specifier =>
    exact comesTo_nested fun nested hp => .refl (.inr ⟨specifier, nested, rfl, hp, rfl⟩)

end Handlers

/-- A host asks the handlers of a list in turn. Asking from a position on hands the request to the
handler there, with a callback that goes on behind it when it is declined and finishes
otherwise. -/
def AsksInTurn (resolve : Resolver) (request : Request) (handlers : List Handler)
    (ask : Nat → Resolution Unit) (finish : List Value → Resolution Unit) : Prop :=
  ∀ (index : Nat) (h : index < handlers.length), ComesTo (ask index) [] fun next =>
    ∃ callback : Callback,
      callback.HandsTo (fun args => if args.isEmpty then ask (index + 1) else finish args) ∧
      next = handlers[index].handle resolve request callback

theorem Host.asksInTurn (resolve : Resolver) (fallback : Resolution Unit) (stage : String)
    (request : Request) (callback : Callback) (handlers : List Handler) :
    AsksInTurn resolve request handlers (fun index =>
      inTurn resolve fallback stage request callback (handlers.drop index) index)
      callback.invoke := by
  intro index h
  dsimp only
  rw [List.drop_eq_getElem_cons h, inTurn]
  exact comesTo_nested fun nested hp => .refl ⟨nested, hp, rfl⟩

end ImportAlias.Pipeline
