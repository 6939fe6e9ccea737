import ImportAlias.Proofs.Passing

/-!
# The depth of calls

A request is resolved within a depth, which bounds how many calls lie inside each
other, while the number of all calls is bounded by a limit. The depth is there
for the recursion only: wherever the limit is reached first, two depths give the
same run, and a request with no call behind it needs no more depth than the limit
allows calls.
-/

namespace ImportAlias.Pipeline

variable {α β : Type}

/-- A trail with one more call. -/
def Trail.entered (trail : Trail) (call : Call) : Trail :=
  { trail with calls := trail.calls ++ [call] }

theorem Trail.length_entered (trail : Trail) (call : Call) :
    (trail.entered call).calls.length = trail.calls.length + 1 :=
  List.length_append

namespace Host

variable {host : Host} {stage message : String} {request : Request} {callback : Callback}
  {trail : Trail}

/-- What a stage does with a request once the call has been counted. -/
def attend (host : Host) (resolve : Resolver) (stage : String) (request : Request)
    (callback : Callback) : Resolution Unit := do
  if callback.carried.stack then Resolution.push (stage ++ ": " ++ request.request.getD "")
  inTurn resolve (host.fallback resolve stage request callback) stage request callback
    (host.handlersOf stage) 0

theorem run_resolveWithin (h : trail.calls.length < callLimit) (depth : Nat) :
    (host.resolveWithin (depth + 1) stage request message callback).run trail =
      (host.attend (host.resolveWithin depth) stage request callback).run
        (trail.entered ⟨stage, message, request, callback.carried⟩) := by
  have hcount : ¬ (trail.entered ⟨stage, message, request, callback.carried⟩).calls.length >
      callLimit := by
    rw [Trail.length_entered]
    omega
  rw [resolveWithin]
  change (ite ((trail.entered _).calls.length > callLimit) _ _ : Resolution Unit).run _ = _
  rw [if_neg hcount]
  rfl

theorem run_resolveWithin_of_limit (h : callLimit ≤ trail.calls.length) (depth : Nat) :
    (host.resolveWithin depth stage request message callback).run trail =
      (callback.invoke [.string "call limit"]).run
        (trail.entered ⟨stage, message, request, callback.carried⟩) := by
  have hcount : (trail.entered ⟨stage, message, request, callback.carried⟩).calls.length >
      callLimit := by
    rw [Trail.length_entered]
    omega
  cases depth with
  | zero => rfl
  | succ depth =>
    rw [resolveWithin]
    change (ite ((trail.entered _).calls.length > callLimit) _ _ : Resolution Unit).run _ = _
    rw [if_pos hcount]
    rfl

end Host

/-- Two steps that run alike wherever so many calls have been made, and take back none of them. -/
def RunAlike (count : Nat) (first other : Resolution α) : Prop :=
  ∀ trail : Trail, count ≤ trail.calls.length →
    first.run trail = other.run trail ∧ trail.calls.length ≤ (first.run trail).2.calls.length

/-- Callbacks that carry the same and run alike. -/
def Callback.RunAlike (count : Nat) (callback other : Callback) : Prop :=
  callback.carried = other.carried ∧
    ∀ args, Pipeline.RunAlike count (callback.invoke args) (other.invoke args)

/-- Resolvers that run alike on callbacks that do. -/
def Resolver.RunAlike (count : Nat) (resolve other : Resolver) : Prop :=
  ∀ (stage : String) (request : Request) (message : String) (callback callback' : Callback),
    callback.RunAlike count callback' →
      Pipeline.RunAlike count (resolve stage request message callback)
        (other stage request message callback')

namespace RunAlike

variable {count : Nat}

theorem refl_of_silent {step : Resolution α} (h : Silent step) : RunAlike count step step :=
  fun trail _ => ⟨rfl, Nat.le_of_eq (congrArg List.length (h trail).1).symm⟩

theorem bind {step other : Resolution α} {next next' : α → Resolution β}
    (h : RunAlike count step other) (hn : ∀ a, RunAlike count (next a) (next' a)) :
    RunAlike count (step >>= next) (other >>= next') := by
  intro trail hc
  obtain ⟨he, hl⟩ := h trail hc
  obtain ⟨he', hl'⟩ := hn (step.run trail).1 (step.run trail).2 (Nat.le_trans hc hl)
  refine ⟨?_, Nat.le_trans hl hl'⟩
  change (next (step.run trail).1).run (step.run trail).2 =
    (next' (other.run trail).1).run (other.run trail).2
  rw [← he]
  exact he'

theorem silent {step : Resolution α} {next next' : α → Resolution β} (h : Silent step)
    (hn : ∀ a, RunAlike count (next a) (next' a)) :
    RunAlike count (step >>= next) (step >>= next') :=
  (refl_of_silent h).bind hn

theorem mono {step other : Resolution α} {more : Nat} (h : RunAlike count step other)
    (hm : count ≤ more) : RunAlike more step other :=
  fun trail hc => h trail (Nat.le_trans hm hc)

theorem run_entered {step other : Resolution α} (h : RunAlike (count + 1) step other)
    {trail : Trail} (hc : count ≤ trail.calls.length) (call : Call) :
    step.run (trail.entered call) = other.run (trail.entered call) ∧
      trail.calls.length ≤ (step.run (trail.entered call)).2.calls.length := by
  have hl := trail.length_entered call
  obtain ⟨he, hle⟩ := h (trail.entered call) (by omega)
  exact ⟨he, by omega⟩

theorem when {step next next' : Resolution Unit} (h : Silent step) (flag : Bool)
    (hn : RunAlike count next next') :
    RunAlike count (if flag then step >>= fun _ => next else next)
      (if flag then step >>= fun _ => next' else next') := by
  cases flag with
  | false => exact hn
  | true => exact silent h fun _ => hn

end RunAlike

theorem Callback.RunAlike.mono {count more : Nat} {callback callback' : Callback}
    (h : callback.RunAlike count callback') (hm : count ≤ more) :
    callback.RunAlike more callback' :=
  ⟨h.1, fun args => (h.2 args).mono hm⟩

theorem Callback.RunAlike.write_eq {count : Nat} {callback callback' : Callback}
    (h : callback.RunAlike count callback') : callback.write = callback'.write := by
  funext line
  rw [Callback.write, Callback.write, h.1]

section Handlers

variable {count : Nat} {resolve other : Resolver} {request : Request}
  {callback callback' : Callback}

theorem runAlike_nested {goOn goOn' : List Value → Resolution Unit} {outer : Carried}
    {message : Option String} {isOptional : Bool} {next next' : Callback → Resolution Unit}
    (hg : ∀ args, RunAlike count (goOn args) (goOn' args))
    (hn : ∀ nested nested' : Callback, nested.RunAlike count nested' →
      RunAlike count (next nested) (next' nested')) :
    RunAlike count (Callback.nested goOn outer message isOptional >>= next)
      (Callback.nested goOn' outer message isOptional >>= next') := by
  unfold Callback.nested
  cases outer.log with
  | none => exact hn ⟨goOn, outer⟩ ⟨goOn', outer⟩ ⟨rfl, hg⟩
  | some channel =>
    simp only [bind_assoc, pure_bind]
    refine .silent silent_newBuffer fun index => hn _ _ ⟨rfl, fun args => ?_⟩
    refine .silent (silent_buffered index) fun lines => ?_
    exact .silent (silent_forM fun line => silent_write channel line) fun _ => hg args

theorem runAlike_delegate (hr : Resolver.RunAlike count resolve other) (target : String)
    (traced : Bool) (request : Request) (redirect : Redirect)
    (hc : callback.RunAlike count callback') :
    RunAlike count (delegate resolve target traced request redirect callback)
      (delegate other target traced request redirect callback') := by
  unfold delegate
  rw [hc.1]
  refine runAlike_nested (fun args => ?_) fun nested nested' hn => hr _ _ _ _ _ hn
  cases args with
  | nil => exact .when (silent_trace _) traced (hc.2 _)
  | cons first rest => exact hc.2 _

theorem AliasPlugin.runAlike_handle (hr : Resolver.RunAlike count resolve other)
    (plugin : AliasPlugin) (mapping : Mapping) (hc : callback.RunAlike count callback') :
    RunAlike count (plugin.handle mapping resolve request callback)
      (plugin.handle mapping other request callback') := by
  unfold handle
  cases mapping.matchFrom? (plugin.subject request) with
  | error fault => exact fun trail _ => ⟨rfl, Nat.le_refl _⟩
  | ok found =>
    cases found with
    | none => exact .when (silent_trace _) plugin.traced (hc.2 [])
    | some found =>
      exact .when (silent_trace _) plugin.traced (runAlike_delegate hr _ _ request _ hc)

theorem ModuleRoot.runAlike_handle (hr : Resolver.RunAlike count resolve other)
    (rule : ModuleRoot) (hc : callback.RunAlike count callback') :
    RunAlike count (rule.handle resolve request callback)
      (rule.handle other request callback') := by
  unfold handle
  cases request.wanted? with
  | none => exact hc.2 []
  | some specifier =>
    rw [hc.1]
    exact runAlike_nested hc.2 fun nested nested' hn => hr _ _ _ _ _ hn

theorem Script.runAlike_handle (script : Script) (hc : callback.RunAlike count callback') :
    RunAlike count (script.handle request callback) (script.handle request callback') := by
  have ha : ∀ answers : List (List Value),
      RunAlike count (answers.forM callback.invoke) (answers.forM callback'.invoke) := by
    intro answers
    induction answers with
    | nil => exact .refl_of_silent (silent_pure ())
    | cons answer answers ih => exact (hc.2 answer).bind fun _ => ih
  unfold handle
  split
  · exact hc.2 []
  · rw [← hc.write_eq]
    exact .silent (silent_forM fun line => callback.silent_write line) fun _ => ha script.answers

theorem Handler.runAlike_handle (hr : Resolver.RunAlike count resolve other) (handler : Handler)
    (hc : callback.RunAlike count callback') :
    RunAlike count (handler.handle resolve request callback)
      (handler.handle other request callback') := by
  cases handler with
  | mapped plugin mapping => exact plugin.runAlike_handle hr mapping hc
  | moduleRoot rule => exact rule.runAlike_handle hr hc
  | scripted script => exact script.runAlike_handle hc

end Handlers

namespace Host

variable {count : Nat} {resolve other : Resolver} {callback callback' : Callback}

theorem runAlike_inTurn (hr : Resolver.RunAlike count resolve other)
    {fallback fallback' : Resolution Unit} (hf : RunAlike count fallback fallback')
    (stage : String) (request : Request) (hc : callback.RunAlike count callback')
    (handlers : List Handler) (index : Nat) :
    RunAlike count (inTurn resolve fallback stage request callback handlers index)
      (inTurn other fallback' stage request callback' handlers index) := by
  induction handlers generalizing index with
  | nil => exact hf
  | cons handler rest ih =>
    rw [inTurn, inTurn, hc.1]
    refine runAlike_nested (fun args => ?_) fun nested nested' hn =>
      handler.runAlike_handle hr hn
    cases args with
    | nil => exact ih (index + 1)
    | cons first rest => exact hc.2 _

theorem runAlike_lookUp (host : Host) (candidate : String) (hc : callback.RunAlike count callback') :
    RunAlike count (host.lookUp candidate callback) (host.lookUp candidate callback') := by
  unfold lookUp
  split
  · exact hc.2 _
  · rw [← hc.write_eq, ← hc.1]
    refine .silent (callback.silent_write _) fun _ => ?_
    exact .when (silent_miss candidate) callback.carried.missing (hc.2 [])

theorem runAlike_fallback (hr : Resolver.RunAlike count resolve other) (host : Host)
    (stage : String) (request : Request) (hc : callback.RunAlike count callback') :
    RunAlike count (host.fallback resolve stage request callback)
      (host.fallback other stage request callback') := by
  unfold fallback
  split
  · exact hr _ _ _ _ _ hc
  · split
    · exact hc.2 []
    · split
      · exact hc.2 []
      · split
        · exact host.runAlike_lookUp _ hc
        · exact host.runAlike_lookUp _ hc
        · exact hr _ _ _ _ _ hc

theorem runAlike_attend (hr : Resolver.RunAlike count resolve other) (host : Host)
    (stage : String) (request : Request) (hc : callback.RunAlike count callback') :
    RunAlike count (host.attend resolve stage request callback)
      (host.attend other stage request callback') := by
  unfold attend
  rw [← hc.1]
  exact .when (silent_push _) callback.carried.stack
    (runAlike_inTurn hr (host.runAlike_fallback hr stage request hc) stage request hc _ 0)

/-- Depths make no difference where the calls so far leave no room for more calls than either of
them allows. -/
theorem runAlike_resolveWithin (host : Host) {count depth depth' : Nat}
    (h : callLimit < count + depth) (h' : callLimit < count + depth') :
    Resolver.RunAlike count (host.resolveWithin depth) (host.resolveWithin depth') := by
  -- over the limit no depth matters, and below it both depths leave room for a call
  have hover : ∀ {count depth depth' : Nat} {stage request message}
      {callback callback' : Callback} {trail : Trail}, callback.RunAlike count callback' →
      count ≤ trail.calls.length → callLimit ≤ trail.calls.length →
      (host.resolveWithin depth stage request message callback).run trail =
        (host.resolveWithin depth' stage request message callback').run trail ∧
      trail.calls.length ≤
        ((host.resolveWithin depth stage request message callback).run trail).2.calls.length := by
    intro count depth depth' stage request message callback callback' trail hc hcount hlimit
    rw [run_resolveWithin_of_limit hlimit, run_resolveWithin_of_limit hlimit, ← hc.1]
    exact ((hc.mono (Nat.le_succ count)).2 _).run_entered hcount _
  induction depth generalizing count depth' with
  | zero =>
    intro stage request message callback callback' hc trail hcount
    exact hover hc hcount (by omega)
  | succ depth ih =>
    intro stage request message callback callback' hc trail hcount
    by_cases hlimit : callLimit ≤ trail.calls.length
    · exact hover hc hcount hlimit
    obtain ⟨depth', rfl⟩ : ∃ less, depth' = less + 1 := ⟨depth' - 1, by omega⟩
    rw [run_resolveWithin (by omega), run_resolveWithin (by omega), ← hc.1]
    have hr : Resolver.RunAlike (count + 1) (host.resolveWithin depth)
        (host.resolveWithin depth') := ih (by omega) (by omega)
    exact (runAlike_attend hr host stage request (hc.mono (Nat.le_succ count))).run_entered
      hcount _

end Host

end ImportAlias.Pipeline
