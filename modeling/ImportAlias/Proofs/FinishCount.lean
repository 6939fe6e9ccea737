import ImportAlias.Proofs.Claiming

/-!
# How often a request is finished

A delegated request should be finished once. It is finished for each time that
the host calls the nested callback, and nothing keeps a host from calling it
again. To count this, the callback of the request notes what it is called with
among the answers, and a host that is known by its conduct adds no answers of its
own.
-/

namespace ImportAlias.Pipeline

/-- A resolver that behaves towards the callback of a request by a conduct. -/
def Conduct.resolver (conduct : String → Request → String → Conduct) : Resolver :=
  fun stage request message callback => do
    let _ ← (conduct stage request message).run callback.invoke

/-- Somebody whose own steps answer nobody. -/
def Conduct.Discreet : Conduct → Prop
  | ended => True
  | step own next =>
    (∀ trail : Trail, (own.run trail).2.answers = trail.answers) ∧ ∀ trail, (next trail).Discreet
  | call _ next => next.Discreet

/-- A callback that is seen among the answers each time it is called. -/
def Callback.Noted (callback : Callback) : Prop :=
  ∀ (args : List Value) (trail : Trail),
    ((callback.invoke args).run trail).2.answers = trail.answers ++ [args]

/-- At most one answer is added. -/
def AnswersAtMostOnce (step : Resolution Unit) (trail : Trail) : Prop :=
  (step.run trail).2.answers.length ≤ trail.answers.length + 1

/-- How a delegated request is finished when the nested resolution calls back. -/
def finisher (traced : Bool) (redirect : Redirect) (callback : Callback) (args : List Value) :
    Resolution Unit :=
  if args.isEmpty then do
    if traced then Resolution.trace (.suppress redirect.specifier redirect.description)
    callback.invoke [.null, .null]
  else callback.invoke args

/-- A delegated request on a host of this conduct, with what the host calls the nested callback
with. -/
def delegated (conduct : String → Request → String → Conduct) (target : String) (traced : Bool)
    (request : Request) (redirect : Redirect) (callback : Callback) :
    Resolution (List (List Value)) := do
  let nested ← Callback.nested (finisher traced redirect callback) callback.carried none false
  (conduct target (request.redirected redirect) redirect.description).run nested.invoke

section Delegated

variable {conduct : String → Request → String → Conduct} {callback nested : Callback}
  {traced : Bool} {redirect : Redirect}

theorem run_delegate (conduct : String → Request → String → Conduct) (target : String)
    (traced : Bool) (request : Request) (redirect : Redirect) (callback : Callback)
    (trail : Trail) :
    ((delegate (Conduct.resolver conduct) target traced request redirect callback).run trail).2 =
      ((delegated conduct target traced request redirect callback).run trail).2 :=
  rfl

theorem answers_finisher (h : callback.Noted) (traced : Bool) (redirect : Redirect)
    (args : List Value) (trail : Trail) :
    ((finisher traced redirect callback args).run trail).2.answers =
      trail.answers ++ [finishing args] := by
  cases args with
  | nil =>
    cases traced with
    | false => exact h _ trail
    | true => exact h _ { trail with actions := trail.actions ++
        [.suppress redirect.specifier redirect.description] }
  | cons first rest => exact h _ trail

theorem exists_nested (goOn : List Value → Resolution Unit) (outer : Carried)
    (message : Option String) (isOptional : Bool) (trail : Trail) :
    ∃ (nested : Callback) (later : Trail),
      (Callback.nested goOn outer message isOptional).run trail = (nested, later) ∧
      later.answers = trail.answers ∧ nested.HandsTo goOn := by
  unfold Callback.nested
  cases outer.log with
  | none => exact ⟨_, trail, rfl, rfl, fun args => .refl rfl⟩
  | some channel =>
    refine ⟨_, _, rfl, rfl, ?_⟩
    intro args
    apply ComesTo.quiet (quiet_buffered _)
    intro lines
    apply ComesTo.quiet (quiet_forM fun line => quiet_write channel line)
    intro _
    exact .refl rfl

/-- For each call of a nested callback the outer one is called once. -/
theorem Conduct.Discreet.answers_run {conduct : Conduct} (hd : conduct.Discreet)
    (hn : ∀ (args : List Value) (trail : Trail),
      ((nested.invoke args).run trail).2.answers = trail.answers ++ [finishing args])
    (trail : Trail) :
    ((conduct.run nested.invoke).run trail).2.answers =
      trail.answers ++ ((conduct.run nested.invoke).run trail).1.map finishing := by
  induction conduct generalizing trail with
  | ended => exact (List.append_nil _).symm
  | step own next ih =>
    rw [Conduct.run_step, ih _ (hd.2 _), hd.1]
  | call args next ih =>
    rw [Conduct.run_call, List.map_cons, ih hd, hn, List.append_assoc]
    rfl

end Delegated

/-- The callback of a delegated request is called once for each time that the host calls the nested
one, so it is called at most once if and only if the host does not call that one again. -/
theorem answersAtMostOnce_iff {conduct : String → Request → String → Conduct}
    (hd : ∀ stage request message, (conduct stage request message).Discreet) {callback : Callback}
    (hn : callback.Noted) (target : String) (traced : Bool) (request : Request)
    (redirect : Redirect) (trail : Trail) :
    ((delegate (Conduct.resolver conduct) target traced request redirect callback).run
        trail).2.answers =
      trail.answers ++ ((delegated conduct target traced request redirect callback).run
        trail).1.map finishing ∧
    (AnswersAtMostOnce
        (delegate (Conduct.resolver conduct) target traced request redirect callback) trail ↔
      ((delegated conduct target traced request redirect callback).run trail).1.length ≤ 1) := by
  have hanswers : ((delegated conduct target traced request redirect callback).run
      trail).2.answers = trail.answers ++ ((delegated conduct target traced request redirect
        callback).run trail).1.map finishing := by
    obtain ⟨nested, later, hrun, hsame, hhands⟩ :=
      exists_nested (finisher traced redirect callback) callback.carried none false trail
    have hnested : ∀ (args : List Value) (now : Trail),
        ((nested.invoke args).run now).2.answers = now.answers ++ [finishing args] := by
      intro args now
      obtain ⟨next, after, rfl, he, -, -, ha, -⟩ := hhands args now
      rw [he, answers_finisher hn, ha]
    have hconduct := hd target (request.redirected redirect) redirect.description
    rw [delegated, StateT.run_bind, hrun, ← hsame]
    exact hconduct.answers_run hnested later
  rw [AnswersAtMostOnce, run_delegate, hanswers]
  refine ⟨rfl, ?_⟩
  rw [List.length_append, List.length_map]
  omega

namespace Twice

def caller : Caller :=
  ⟨true, none, none⟩

def redirect : Redirect :=
  Match.toRedirect ⟨appMapping, "@app/x", "x"⟩ ⟨.root, ["p"]⟩

/-- A host that calls back once. -/
def singly (_ : String) (_ : Request) (_ : String) : Conduct :=
  .call [] .ended

/-- A host with a handler on the target stage that calls back twice. -/
def host : Host :=
  ⟨[(targetStage, .scripted ⟨none, [], [[.null, .string "/p/a"], [.null, .string "/p/b"]]⟩)], []⟩

theorem noted_caller : caller.callback.Noted :=
  fun _ _ => rfl

theorem answersAtMostOnce_iff_singly :
    (∀ stage request message, (singly stage request message).Discreet) ∧ caller.callback.Noted ∧
    AnswersAtMostOnce (delegate (Conduct.resolver singly) targetStage true appRequest redirect
      caller.callback) caller.trail := by
  have hdiscreet : ∀ stage request message, (singly stage request message).Discreet :=
    fun _ _ _ => trivial
  refine ⟨hdiscreet, noted_caller, ?_⟩
  apply (answersAtMostOnce_iff hdiscreet noted_caller targetStage true appRequest redirect
    caller.trail).2.mpr
  decide

theorem not_answersAtMostOnce_twice :
    ((delegate host.resolve targetStage true appRequest redirect caller.callback).run
      caller.trail).2.answers = [[.null, .string "/p/a"], [.null, .string "/p/b"]] ∧
    ¬ AnswersAtMostOnce (delegate host.resolve targetStage true appRequest redirect
      caller.callback) caller.trail := by
  have hanswers : ((delegate host.resolve targetStage true appRequest redirect
      caller.callback).run caller.trail).2.answers =
      [[.null, .string "/p/a"], [.null, .string "/p/b"]] := rfl
  refine ⟨hanswers, ?_⟩
  rw [AnswersAtMostOnce, hanswers]
  decide

end Twice

end ImportAlias.Pipeline
