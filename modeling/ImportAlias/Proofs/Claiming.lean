import ImportAlias.Proofs.Agreement
import Mathlib.Tactic.Choose

/-!
# Claimed requests do not fall back

Once a mapping has claimed a request, what becomes of it is up to the nested
resolution alone. The resolver gets one callback for it and may do with that
whatever it likes: it may take steps of its own, and it may call back never, once
or many times, with or without arguments. For each of its calls the outer callback
is called once, and never without arguments, so the handlers behind the mapping
and the fallback of the stage are as good as absent.
-/

namespace ImportAlias.Pipeline

/-- What somebody does with a callback: steps of their own and calls, each of which may depend on
what has become of the ones before. -/
inductive Conduct where
  | ended
  | step (own : Resolution Unit) (next : Trail → Conduct)
  | call (args : List Value) (next : Conduct)

namespace Conduct

/-- Behaves like this towards a callback, and gives back what it was called with. -/
def run (invoke : List Value → Resolution Unit) : Conduct → Resolution (List (List Value))
  | ended => return []
  | step own next => do
    own
    run invoke (next (← get))
  | call args next => do
    invoke args
    return args :: (← run invoke next)

/-- The same conduct towards an outer callback: its own steps stay, and each call finishes that
callback once the note is taken. -/
def finished (note : List Value → Resolution Unit) : Conduct → Conduct
  | ended => ended
  | step own next => step own fun trail => (next trail).finished note
  | call args next => step (note args) fun _ => call (finishing args) (next.finished note)

variable {invoke finish note : List Value → Resolution Unit}

theorem run_step (own : Resolution Unit) (next : Trail → Conduct) (trail : Trail) :
    ((step own next).run invoke).run trail =
      ((next (own.run trail).2).run invoke).run (own.run trail).2 := rfl

theorem run_call (args : List Value) (next : Conduct) (trail : Trail) :
    ((call args next).run invoke).run trail =
      (args :: ((next.run invoke).run ((invoke args).run trail).2).1,
        ((next.run invoke).run ((invoke args).run trail).2).2) := rfl

/-- If each call is a note and then a finish, a conduct makes the same run out of both callbacks,
and what it finishes the outer one with is what it called the inner one with. -/
theorem run_finished (h : ∀ args, invoke args = note args >>= fun _ => finish (finishing args))
    (conduct : Conduct) (trail : Trail) :
    ((conduct.finished note).run finish).run trail =
      (((conduct.run invoke).run trail).1.map finishing, ((conduct.run invoke).run trail).2) := by
  induction conduct generalizing trail with
  | ended => rfl
  | step own next ih =>
    rw [finished, run_step, run_step]
    exact ih _ _
  | call args next ih =>
    have hinvoke : ((invoke args).run trail).2 =
        ((finish (finishing args)).run ((note args).run trail).2).2 := by
      rw [h]
      rfl
    rw [finished, run_step, run_call, run_call, ih, hinvoke]
    rfl

end Conduct

/-- A note that a delegated request takes of a call: silent, but a request that found nothing is
traced as suppressed. -/
def TakesNote (traced : Bool) (redirect : Redirect) (note : List Value → Resolution Unit) : Prop :=
  ∀ args, Silent (note args) ∧ ∀ trail : Trail, ((note args).run trail).2.actions =
    trail.actions ++ if args.isEmpty then
      tracedActions traced [.suppress redirect.specifier redirect.description] else []

/-- However `nested` is used, `finish` is called once for each call, in the same order, with the
same arguments if there are any and with two nulls if there are none, and so never without. -/
def Callback.FinishesEach (nested : Callback) (traced : Bool) (redirect : Redirect)
    (finish : List Value → Resolution Unit) : Prop :=
  ∃ note, TakesNote traced redirect note ∧
    ∀ (conduct : Conduct) (trail later : Trail) (calls : List (List Value)),
      (conduct.run nested.invoke).run trail = (calls, later) →
      ((conduct.finished note).run finish).run trail = (calls.map finishing, later) ∧
      ∀ args ∈ calls.map finishing, args ≠ []

theorem Callback.Finishes.finishesEach {nested : Callback} {traced : Bool} {redirect : Redirect}
    {finish : List Value → Resolution Unit} (h : nested.Finishes traced redirect finish) :
    nested.FinishesEach traced redirect finish := by
  -- the trail on which an outer call starts, by the trail of the inner one
  choose next later hlast hrun hactions hcalls hanswers hfault using h
  let note : List Value → Resolution Unit := fun args => modify fun trail => later args trail
  have hnote : ∀ args trail, ((note args).run trail).2 = later args trail := fun args trail => rfl
  have hinvoke : ∀ args, nested.invoke args = note args >>= fun _ => finish (finishing args) := by
    intro args
    funext trail
    change (nested.invoke args).run trail = (finish (finishing args)).run (later args trail)
    rw [hrun, hlast]
  refine ⟨note, ?_, ?_⟩
  · intro args
    refine ⟨fun trail => ?_, fun trail => ?_⟩
    · rw [hnote]
      exact ⟨hcalls args trail, hanswers args trail, hfault args trail⟩
    · rw [hnote]
      exact hactions args trail
  · intro conduct trail later calls hconduct
    refine ⟨?_, ?_⟩
    · rw [Conduct.run_finished hinvoke, hconduct]
    · intro args hargs hempty
      obtain ⟨given, -, rfl⟩ := List.mem_map.mp hargs
      have hfinishing := finishing_isEmpty given
      rw [hempty] at hfinishing
      exact absurd hfinishing (by decide)

/-- Callbacks that do the same with any arguments and carry the same. -/
def Callback.SameAnswers (callback other : Callback) : Prop :=
  callback.carried = other.carried ∧ ∀ args ≠ [], callback.invoke args = other.invoke args

section Handlers

variable {resolve : Resolver} {request : Request}

theorem nested_congr {goOn goOn' : List Value → Resolution Unit} {outer : Carried}
    {message : Option String} {isOptional : Bool} {next : Callback → Resolution Unit}
    (hg : ∀ args ≠ [], goOn args = goOn' args)
    (hn : ∀ callback other : Callback, callback.SameAnswers other → next callback = next other) :
    (Callback.nested goOn outer message isOptional >>= next) =
      Callback.nested goOn' outer message isOptional >>= next := by
  unfold Callback.nested
  cases outer.log with
  | none =>
    apply hn
    exact ⟨rfl, hg⟩
  | some channel =>
    simp only [bind_assoc, pure_bind]
    refine bind_congr fun index => ?_
    apply hn
    refine ⟨rfl, fun args hargs => ?_⟩
    simp only [hg args hargs]

theorem delegate_congr {callback other : Callback} (h : callback.SameAnswers other)
    (target : String) (traced : Bool) (redirect : Redirect) :
    delegate resolve target traced request redirect callback =
      delegate resolve target traced request redirect other := by
  have hnull : callback.invoke [.null, .null] = other.invoke [.null, .null] := h.2 _ (by simp)
  have hdone : (fun args => if args.isEmpty then do
        if traced then Resolution.trace (.suppress redirect.specifier redirect.description)
        callback.invoke [.null, .null]
      else callback.invoke args) =
      fun args => if args.isEmpty then do
        if traced then Resolution.trace (.suppress redirect.specifier redirect.description)
        other.invoke [.null, .null]
      else other.invoke args := by
    funext args
    cases args with
    | nil => simp only [List.isEmpty_nil, if_true, hnull]
    | cons first rest => exact h.2 _ (by simp)
  unfold delegate
  rw [h.1]
  exact congrArg (fun done => Callback.nested done other.carried none false >>= _) hdone

theorem AliasPlugin.handle_congr {plugin : AliasPlugin} {mapping : Mapping}
    (hm : mapping.matchFrom? (plugin.subject request) ≠ .ok none)
    {callback other : Callback} (h : callback.SameAnswers other) :
    plugin.handle mapping resolve request callback =
      plugin.handle mapping resolve request other := by
  unfold handle
  cases hmatch : mapping.matchFrom? (plugin.subject request) with
  | error fault => rfl
  | ok found =>
    cases found with
    | none => exact absurd hmatch hm
    | some found => simp only [delegate_congr h]

end Handlers

/-- Behind a mapping that claims a request, or fails on it, other handlers and another fallback make
no difference. -/
theorem Host.inTurn_decided {plugin : AliasPlugin} {mapping : Mapping} {request : Request}
    (hm : mapping.matchFrom? (plugin.subject request) ≠ .ok none)
    (resolve : Resolver) (fallback fallback' : Resolution Unit) (stage : String)
    (callback : Callback) (before after after' : List Handler) (index : Nat) :
    inTurn resolve fallback stage request callback (before ++ .mapped plugin mapping :: after)
        index =
      inTurn resolve fallback' stage request callback
        (before ++ .mapped plugin mapping :: after') index := by
  induction before generalizing index with
  | nil =>
    rw [List.nil_append, List.nil_append, inTurn, inTurn]
    apply nested_congr
    · intro args hargs
      obtain ⟨first, rest, rfl⟩ := List.exists_cons_of_ne_nil hargs
      rfl
    · intro nested other h
      exact AliasPlugin.handle_congr hm h
  | cons handler before ih =>
    rw [List.cons_append, List.cons_append, inTurn, inTurn, ih]

theorem Host.inTurn_claimed {plugin : AliasPlugin} {mapping : Mapping} {request : Request}
    {found : Match} (hm : mapping.matchFrom? (plugin.subject request) = .ok (some found))
    (resolve : Resolver) (fallback fallback' : Resolution Unit) (stage : String)
    (callback : Callback) (before after after' : List Handler) (index : Nat) :
    inTurn resolve fallback stage request callback (before ++ .mapped plugin mapping :: after)
        index =
      inTurn resolve fallback' stage request callback
        (before ++ .mapped plugin mapping :: after') index := by
  have hdecided : mapping.matchFrom? (plugin.subject request) ≠ .ok none := by simp [hm]
  exact inTurn_decided hdecided resolve fallback fallback' stage callback before after after' index

/-- A redirect is delegated by one request into the target stage, and the callback of that request
finishes the outer one for each of its calls, whatever the resolver does with it. So where a plugin
is installed and one of its active mappings claims a request, neither the handlers behind that
mapping nor the fallback of the stage have a part in the run: with others in their place it is the
same. -/
theorem claimed_never_falls_back {plugin : AliasPlugin} {mapping : Mapping} {request : Request}
    {found : Match} (ha : mapping ∈ plugin.table.active)
    (hm : mapping.matchFrom? (plugin.subject request) = .ok (some found)) :
    (∀ (resolve : Resolver) (target : String) (traced : Bool) (request : Request)
        (redirect : Redirect) (callback : Callback),
      ComesTo (delegate resolve target traced request redirect callback) [] fun next =>
        ∃ nested : Callback, nested.FinishesEach traced redirect callback.invoke ∧
          next = resolve target (request.redirected redirect) redirect.description nested) ∧
    ∀ (host : Host) (others : List (String × Handler)), ∃ before after : List Handler,
      ((host.applyAliases plugin).registerAll others).handlersOf plugin.source =
        before ++ .mapped plugin mapping :: after ∧
      ∀ (resolve : Resolver) (fallback fallback' : Resolution Unit) (callback : Callback)
        (after' : List Handler),
        Host.inTurn resolve fallback plugin.source request callback
            (before ++ .mapped plugin mapping :: after) 0 =
          Host.inTurn resolve fallback' plugin.source request callback
            (before ++ .mapped plugin mapping :: after') 0 := by
  constructor
  · intro resolve target traced request redirect callback
    apply (comesTo_delegate resolve target traced request redirect callback).mono
    rintro next ⟨nested, hfinishes, rfl⟩
    exact ⟨nested, hfinishes.finishesEach, rfl⟩
  · intro host others
    obtain ⟨earlier, later, hactive⟩ := List.append_of_mem ha
    refine ⟨host.handlersOf plugin.source ++
      (plugin.moduleRoot?.toList.filter (·.source = plugin.source)).map .moduleRoot ++
        earlier.map (.mapped plugin),
      later.map (.mapped plugin) ++ (others.filter (·.1 = plugin.source)).map (·.2), ?_, ?_⟩
    · rw [Host.handlersOf_registerAll, Host.handlersOf_applyAliases, if_pos rfl, hactive]
      simp
    · intro resolve fallback fallback' callback after'
      exact Host.inTurn_claimed hm resolve fallback fallback' plugin.source callback _ _ after' 0

/-- A handler behind the plugin that would take the request. -/
def lateHandler : Handler :=
  .scripted ⟨none, [], [[.null, .string "/p/late"]]⟩

theorem claimed_never_falls_back_home :
    appMapping ∈ homePlugin.table.active ∧
    appMapping.matchFrom? (homePlugin.subject appRequest) =
      .ok (some ⟨appMapping, "@app/x", "x"⟩) ∧
    ∃ before after : List Handler,
      (homeHost.registerAll [(sourceStage, lateHandler)]).handlersOf sourceStage =
        before ++ .mapped homePlugin appMapping :: after ∧
      ∀ (resolve : Resolver) (fallback fallback' : Resolution Unit) (callback : Callback)
        (after' : List Handler),
        Host.inTurn resolve fallback sourceStage appRequest callback
            (before ++ .mapped homePlugin appMapping :: after) 0 =
          Host.inTurn resolve fallback' sourceStage appRequest callback
            (before ++ .mapped homePlugin appMapping :: after') 0 := by
  have ha : appMapping ∈ homePlugin.table.active := by decide
  have hm : appMapping.matchFrom? (homePlugin.subject appRequest) =
      .ok (some ⟨appMapping, "@app/x", "x"⟩) := by rfl
  exact ⟨ha, hm, (claimed_never_falls_back ha hm).2 Host.empty [(sourceStage, lateHandler)]⟩

end ImportAlias.Pipeline
