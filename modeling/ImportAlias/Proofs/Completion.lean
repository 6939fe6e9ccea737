import ImportAlias.Proofs.CallDepth
import ImportAlias.Proofs.Outcome
import ImportAlias.Proofs.Tracing

/-!
# One answer for every request

A handler that takes a request and one that declines it have in common that
their last act is to call back, or to hand the request to someone whose last act
it is. So whatever is installed on a host, a run ends in a single call of the
callback it was given. Plugins may lead to each other in circles; only the limit
on calls ends these, and the depth that the recursion is bounded by never does.
-/

namespace ImportAlias.Pipeline

variable {α β : Type}

/-- Running `step` is calling `goOn` once, later, and doing nothing else with an answer. Going on
without arguments only happens before the limit on calls is reached. -/
def EndsIn (step : Resolution Unit) (goOn : List Value → Resolution Unit) : Prop :=
  ∀ trail : Trail, trail.calls.length ≤ Host.callLimit →
    ∃ (args : List Value) (later : Trail), step.run trail = (goOn args).run later ∧
      later.answers = trail.answers ∧ later.fault = trail.fault ∧
      later.calls.length ≤ Host.callLimit + 1 ∧
      (args = [] → later.calls.length ≤ Host.callLimit)

namespace EndsIn

variable {step first : Resolution Unit} {actions : List Action} {last : Resolution Unit → Prop}
  {middle goOn : List Value → Resolution Unit}

theorem call (goOn : List Value → Resolution Unit) (args : List Value) : EndsIn (goOn args) goOn :=
  fun trail hl => ⟨args, trail, rfl, rfl, rfl, by omega, fun _ => hl⟩

theorem of_comesTo (h : ComesTo first actions last) (hn : ∀ next, last next → EndsIn next goOn) :
    EndsIn first goOn := by
  intro trail hl
  obtain ⟨next, between, hlast, he, -, hc, ha, hf⟩ := h trail
  obtain ⟨args, later, he', ha', hf', hlater⟩ := hn next hlast between (by rw [hc]; exact hl)
  exact ⟨args, later, he.trans he', ha'.trans ha, hf'.trans hf, hlater⟩

theorem silent {step : Resolution α} {next : α → Resolution Unit} (hs : Silent step)
    (hn : ∀ a, EndsIn (next a) goOn) : EndsIn (step >>= next) goOn := by
  intro trail hl
  obtain ⟨hc, ha, hf⟩ := hs trail
  obtain ⟨args, later, he', ha', hf', hlater⟩ :=
    hn (step.run trail).1 (step.run trail).2 (by rw [hc]; exact hl)
  exact ⟨args, later, he', ha'.trans ha, hf'.trans hf, hlater⟩

theorem through (h : EndsIn step middle) (hd : EndsIn (middle []) goOn)
    (hn : ∀ args ≠ [], ComesTo (middle args) [] (· = goOn args)) : EndsIn step goOn := by
  intro trail hl
  obtain ⟨args, between, he, ha, hf, hc, hempty⟩ := h trail hl
  by_cases hargs : args = []
  · subst hargs
    obtain ⟨args', later, he', ha', hf', hlater⟩ := hd between (hempty rfl)
    exact ⟨args', later, he.trans he', ha'.trans ha, hf'.trans hf, hlater⟩
  · obtain ⟨next, later, rfl, he', -, hc', ha', hf'⟩ := hn args hargs between
    exact ⟨args, later, he.trans he', ha'.trans ha, hf'.trans hf, by rw [hc']; exact hc,
      fun hnil => absurd hnil hargs⟩

end EndsIn

/-- A resolver that ends in the callback it is given. -/
def Completes (resolve : Resolver) : Prop :=
  ∀ stage request message callback,
    EndsIn (resolve stage request message callback) callback.invoke

/-- Whether a handler that does not decline calls back exactly once: a script has one list of
arguments, and the subject of a plugin is a text or absent, which no mapping fails on. -/
def Handler.AnswersOnce : Handler → Prop
  | .mapped plugin _ => ∀ request, ∃ inner : Option String,
      plugin.subject request = inner.elim .null .string
  | .moduleRoot _ => True
  | .scripted script => ∃ answer, script.answers = [answer]

section Handlers

variable {resolve : Resolver} {request : Request} {callback : Callback}

theorem Callback.HandsTo.endsIn {nested : Callback} {goOn : List Value → Resolution Unit}
    (h : nested.HandsTo goOn) {step : Resolution Unit} (hs : EndsIn step nested.invoke) :
    EndsIn step goOn := by
  refine hs.through (EndsIn.of_comesTo (h []) ?_) fun args _ => h args
  rintro next rfl
  exact .call goOn []

theorem Callback.Finishes.endsIn {nested : Callback} {traced : Bool} {redirect : Redirect}
    {finish : List Value → Resolution Unit} (h : nested.Finishes traced redirect finish)
    {step : Resolution Unit} (hs : EndsIn step nested.invoke) : EndsIn step finish := by
  refine hs.through (EndsIn.of_comesTo (h []) ?_) fun args hargs => ?_
  · rintro next rfl
    exact .call finish _
  · obtain ⟨first, rest, rfl⟩ := List.exists_cons_of_ne_nil hargs
    exact h (first :: rest)

theorem endsIn_delegate (hr : Completes resolve) (target : String) (traced : Bool)
    (request : Request) (redirect : Redirect) (callback : Callback) :
    EndsIn (delegate resolve target traced request redirect callback) callback.invoke := by
  refine .of_comesTo (comesTo_delegate resolve target traced request redirect callback) ?_
  rintro next ⟨nested, hfinishes, rfl⟩
  exact hfinishes.endsIn (hr _ _ _ nested)

theorem AliasPlugin.endsIn_handle {plugin : AliasPlugin} {inner : Option String}
    (hi : plugin.subject request = inner.elim .null .string) (hr : Completes resolve)
    (mapping : Mapping) (callback : Callback) :
    EndsIn (plugin.handle mapping resolve request callback) callback.invoke := by
  have hm : mapping.matchFrom? (plugin.subject request) = .ok (mapping.match? inner) := by
    rw [hi]
    cases inner <;> rfl
  cases hmatch : mapping.match? inner with
  | none =>
    rw [hmatch] at hm
    refine .of_comesTo (comesTo_decline resolve callback hm) ?_
    rintro next rfl
    exact .call callback.invoke []
  | some found =>
    rw [hmatch] at hm
    refine .of_comesTo (comesTo_delegate resolve callback hm) ?_
    rintro next rfl
    exact endsIn_delegate hr _ _ request _ callback

theorem ModuleRoot.endsIn_handle (rule : ModuleRoot) (hr : Completes resolve) (request : Request)
    (callback : Callback) : EndsIn (rule.handle resolve request callback) callback.invoke := by
  refine .of_comesTo (rule.comesTo resolve request callback) ?_
  rintro next (rfl | ⟨specifier, nested, -, hp, rfl⟩)
  · exact .call callback.invoke []
  · exact hp.endsIn (hr _ _ _ nested)

theorem Script.endsIn_handle {script : Script} {answer : List Value}
    (ha : script.answers = [answer]) (request : Request) (callback : Callback) :
    EndsIn (script.handle request callback) callback.invoke := by
  unfold handle
  split
  · exact .call callback.invoke []
  · refine .silent (silent_forM fun line => callback.silent_write line) fun _ => ?_
    have hone : [answer].forM callback.invoke = callback.invoke answer := by
      simp [List.forM]
    rw [ha, hone]
    exact .call callback.invoke answer

theorem Handler.endsIn_handle {handler : Handler} (h : handler.AnswersOnce)
    (hr : Completes resolve) (request : Request) (callback : Callback) :
    EndsIn (handler.handle resolve request callback) callback.invoke := by
  cases handler with
  | mapped plugin mapping =>
    obtain ⟨inner, hi⟩ := h request
    exact plugin.endsIn_handle hi hr mapping callback
  | moduleRoot rule => exact rule.endsIn_handle hr request callback
  | scripted script =>
    obtain ⟨answer, ha⟩ := h
    exact script.endsIn_handle ha request callback

/-- Handlers that are asked in turn answer once, by the first that does not decline or by what comes
behind all of them. -/
theorem endsIn_of_asksInTurn {handlers : List Handler} {ask : Nat → Resolution Unit}
    {finish : List Value → Resolution Unit} (h : AsksInTurn resolve request handlers ask finish)
    (hr : Completes resolve) (hh : ∀ handler ∈ handlers, handler.AnswersOnce)
    (hbehind : EndsIn (ask handlers.length) finish) : EndsIn (ask 0) finish := by
  -- from the last handler to the first one
  have hfrom : ∀ count index, index + count = handlers.length → EndsIn (ask index) finish := by
    intro count
    induction count with
    | zero =>
      rintro index rfl
      exact hbehind
    | succ count ih =>
      intro index hindex
      refine .of_comesTo (h index (by omega)) ?_
      rintro next ⟨callback, hp, rfl⟩
      refine (Handler.endsIn_handle (hh _ (List.getElem_mem _)) hr request callback).through ?_ ?_
      · refine .of_comesTo (hp []) ?_
        rintro next rfl
        exact ih (index + 1) (by omega)
      · intro args hargs
        obtain ⟨first, rest, rfl⟩ := List.exists_cons_of_ne_nil hargs
        exact hp (first :: rest)
  exact hfrom handlers.length 0 (Nat.zero_add _)

end Handlers

namespace Host

variable {host : Host} {resolve : Resolver} {stage message : String} {request : Request}
  {callback : Callback} {trail : Trail}

theorem endsIn_lookUp (host : Host) (candidate : String) (callback : Callback) :
    EndsIn (host.lookUp candidate callback) callback.invoke := by
  unfold lookUp
  split
  · exact .call callback.invoke _
  · refine .silent (callback.silent_write _) fun _ => ?_
    change EndsIn (ite (callback.carried.missing = true) _ _) _
    split
    · exact .silent (silent_miss candidate) fun _ => .call callback.invoke []
    · exact .call callback.invoke []

theorem endsIn_fallback (hr : Completes resolve) (host : Host) (stage : String)
    (request : Request) (callback : Callback) :
    EndsIn (host.fallback resolve stage request callback) callback.invoke := by
  unfold fallback
  split
  · exact hr _ _ _ callback
  · split
    · exact .call callback.invoke []
    · split
      · exact .call callback.invoke []
      · split
        · exact host.endsIn_lookUp _ callback
        · exact host.endsIn_lookUp _ callback
        · exact hr _ _ _ callback

theorem endsIn_attend (hr : Completes resolve)
    (hh : ∀ handler ∈ host.handlersOf stage, handler.AnswersOnce) (request : Request)
    (callback : Callback) : EndsIn (host.attend resolve stage request callback) callback.invoke := by
  let fallback := host.fallback resolve stage request callback
  let handlers := host.handlersOf stage
  let ask := fun index =>
    inTurn resolve fallback stage request callback (handlers.drop index) index
  have hask : AsksInTurn resolve request handlers ask callback.invoke :=
    asksInTurn resolve fallback stage request callback handlers
  have hbehind : EndsIn (ask handlers.length) callback.invoke := by
    simp only [ask, List.drop_length, inTurn]
    exact host.endsIn_fallback hr stage request callback
  have hturn : EndsIn (ask 0) callback.invoke := endsIn_of_asksInTurn hask hr hh hbehind
  unfold attend
  change EndsIn (ite (callback.carried.stack = true) _ _) _
  split
  · exact .silent (silent_push _) fun _ => hturn
  · exact hturn

/-- On a host whose handlers answer once, every request ends in the callback it came with. -/
theorem completes_resolveWithin (hh : ∀ stage, ∀ handler ∈ host.handlersOf stage,
    handler.AnswersOnce) (depth : Nat) : Completes (host.resolveWithin depth) := by
  -- induction on the depth: the handlers of a stage send requests one level deeper
  induction depth with
  | zero =>
    intro stage request message callback trail hl
    have hlonger := trail.length_entered ⟨stage, message, request, callback.carried⟩
    exact ⟨_, trail.entered _, rfl, rfl, rfl, by omega, by simp⟩
  | succ depth ih =>
    intro stage request message callback trail hl
    have hlonger := trail.length_entered ⟨stage, message, request, callback.carried⟩
    by_cases h : callLimit ≤ trail.calls.length
    · exact ⟨_, _, run_resolveWithin_of_limit h (depth + 1), rfl, rfl, by omega, by simp⟩
    · rw [run_resolveWithin (by omega)]
      exact endsIn_attend ih (hh stage) request callback (trail.entered _) (by omega)

end Host

/-- What a host is extended by: a plugin that asks its table about a text that it reads off the
request, or about none; a directory lookup; or a handler that calls back once. -/
inductive Extension where
  | aliases (table : Table) (inner : Request → Option String) (source target : String)
      (traced : Bool)
  | moduleRoot (rule : ModuleRoot)
  | answering (stage : String) (only : Option String) (lines : List String) (answer : List Value)

namespace Host

def install (host : Host) : Extension → Host
  | .aliases table inner source target traced =>
    host.applyAliases
      ⟨table, fun request => (inner request).elim .null .string, source, target, traced⟩
  | .moduleRoot rule => host.applyModuleRoot rule
  | .answering stage only lines answer => host.register stage (.scripted ⟨only, lines, [answer]⟩)

/-- A host with these files, extended step by step. -/
def installed (files : List String) (extensions : List Extension) : Host :=
  extensions.foldl install ⟨[], files⟩

/-- A host all of whose handlers answer once. -/
def AnswersOnce (host : Host) : Prop :=
  ∀ entry ∈ host.handlers, entry.2.AnswersOnce

theorem AnswersOnce.install {host : Host} (h : host.AnswersOnce) (extension : Extension) :
    (host.install extension).AnswersOnce := by
  have hregister : ∀ (stage : String) (handler : Handler), handler.AnswersOnce →
      (host.register stage handler).AnswersOnce := by
    intro stage handler hhandler
    exact List.forall_mem_append.mpr ⟨h, List.forall_mem_singleton.mpr hhandler⟩
  cases extension with
  | aliases table inner source target traced =>
    rw [Host.install, applyAliases_eq]
    refine List.forall_mem_append.mpr ⟨List.forall_mem_append.mpr ⟨h, ?_⟩, ?_⟩
    · exact List.forall_mem_map.mpr fun rule _ => trivial
    · exact List.forall_mem_map.mpr fun mapping _ request => ⟨inner request, rfl⟩
  | moduleRoot rule => exact hregister rule.source (.moduleRoot rule) trivial
  | answering stage only lines answer => exact hregister stage _ ⟨answer, rfl⟩

theorem answersOnce_installed (files : List String) (extensions : List Extension) :
    (installed files extensions).AnswersOnce := by
  have hfold : ∀ host : Host, host.AnswersOnce → (extensions.foldl install host).AnswersOnce := by
    induction extensions with
    | nil => exact fun host h => h
    | cons extension extensions ih => exact fun host h => ih _ (h.install extension)
  exact hfold _ (List.forall_mem_nil _)

theorem AnswersOnce.handlersOf {host : Host} (h : host.AnswersOnce) (stage : String) :
    ∀ handler ∈ host.handlersOf stage, handler.AnswersOnce := by
  intro handler hmem
  obtain ⟨entry, hentry, rfl⟩ := List.mem_map.mp hmem
  exact h entry (List.mem_filter.mp hentry).1

end Host

/-- Whatever is installed, and wherever a request enters: the run comes to an end without a fault,
and the caller has got one answer. Not more than one call over the limit has been made, and the
depth that the calls may lie in each other is not what ended the run, since with any other depth
above the limit it is the same. -/
theorem answers_once (files : List String) (extensions : List Extension) (caller : Caller)
    (stage : String) (request : Request) :
    ∃ (trail : Trail) (answer : List Value),
      (Host.installed files extensions).run caller stage request = .ok trail ∧
      trail.answers = [answer] ∧ trail.calls.length ≤ Host.callLimit + 1 ∧
      ∀ depth > Host.callLimit,
        (((Host.installed files extensions).resolveWithin depth stage request ""
          caller.callback).run caller.trail).2 = trail := by
  let host := Host.installed files extensions
  have hcompletes : Completes host.resolve :=
    Host.completes_resolveWithin (Host.answersOnce_installed files extensions).handlersOf _
  obtain ⟨args, later, he, ha, hf, hc, -⟩ :=
    hcompletes stage request "" caller.callback caller.trail (Nat.zero_le _)
  have ha : later.answers = [] := ha
  have hf : later.fault = none := hf
  have htrail : ((host.resolve stage request "" caller.callback).run caller.trail).2 =
      { later with answers := later.answers ++ [args] } := by
    rw [he]
    rfl
  refine ⟨{ later with answers := later.answers ++ [args] }, args, ?_, by rw [ha]; rfl, hc, ?_⟩
  · have hrun : host.run caller stage request =
        later.fault.elim (.ok { later with answers := later.answers ++ [args] }) .error := by
      rw [Host.run, he]
      rfl
    rw [hrun, hf]
    rfl
  · intro depth hd
    have halike : Resolver.RunAlike 0 (host.resolveWithin depth) host.resolve :=
      host.runAlike_resolveWithin (by omega) (by omega)
    have hrun := halike stage request "" caller.callback caller.callback ⟨rfl, fun args =>
      fun trail _ => ⟨rfl, Nat.le_refl _⟩⟩
    rw [(hrun caller.trail (Nat.zero_le _)).1]
    exact htrail

end ImportAlias.Pipeline
