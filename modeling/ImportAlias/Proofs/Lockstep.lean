import ImportAlias.Proofs.Abreast
import ImportAlias.Proofs.CallDepth

/-!
# Runs in lockstep

Two hosts resolve the same request. A relation between their trails that every
call and every callback keeps is kept by the whole resolutions, as long as each
stage asks the same handlers on both sides, but for such that decline. Where a
stage does not, the relation has to be settled by the call itself: it must hold of
whatever comes later, however far the runs drift apart. Since no call is ever
taken back, that is so of every relation that only asks for a certain call.
-/

namespace ImportAlias.Pipeline

variable {α β : Type}

/-- A call without what its callback carries. -/
def Call.seen (call : Call) : String × Request × String :=
  (call.stage, call.request, call.message)

/-- A call as the stack tells of it. -/
def Call.entry (call : Call) : String :=
  call.stage ++ ": " ++ call.request.request.getD ""

/-- A trail with one more call. If it is below the limit and there is a stack, that tells of it. -/
def Trail.called (trail : Trail) (call : Call) : Trail :=
  { trail.entered call with
    stack :=
      if trail.calls.length < Host.callLimit ∧ call.carried.stack then
        trail.stack ++ [call.entry]
      else trail.stack }

theorem Call.of_seen {call call' : Call} (h : call.seen = call'.seen) :
    call.stage = call'.stage ∧ call.request = call'.request := by
  simp only [Call.seen, Prod.mk.injEq] at h
  exact ⟨h.1, h.2.1⟩

theorem Trail.length_of_seen {trail trail' : Trail}
    (h : trail.calls.map Call.seen = trail'.calls.map Call.seen) :
    trail.calls.length = trail'.calls.length := by
  simpa using congrArg List.length h

theorem Trail.seen_called {trail trail' : Trail} {call call' : Call}
    (h : trail.calls.map Call.seen = trail'.calls.map Call.seen) (hs : call.seen = call'.seen) :
    (trail.called call).calls.map Call.seen = (trail'.called call').calls.map Call.seen := by
  change (trail.calls ++ [call]).map Call.seen = (trail'.calls ++ [call']).map Call.seen
  rw [List.map_append, List.map_append, h, List.map_singleton, List.map_singleton, hs]

theorem Trail.length_called (trail : Trail) (call : Call) :
    (trail.called call).calls.length = trail.calls.length + 1 :=
  List.length_append

theorem Trail.called_of_limit {trail : Trail} (h : Host.callLimit ≤ trail.calls.length)
    (call : Call) : trail.called call = trail.entered call := by
  rw [Trail.called, if_neg (fun hc => by omega)]
  rfl

namespace Host

/-- Sends a request into a stage, with the lookup of paths left open. -/
def resolveBy (host : Host) (look : String → Callback → Resolution Unit) : Nat → Resolver
  | 0, stage, request, message, callback => fun trail =>
    (callback.invoke [.string "call limit"]).run
      (trail.entered ⟨stage, message, request, callback.carried⟩)
  | depth + 1, stage, request, message, callback => fun trail =>
    if trail.calls.length < callLimit then
      (serve look (host.resolveBy look depth) (host.handlersOf stage) stage request callback).run
        (trail.called ⟨stage, message, request, callback.carried⟩)
    else
      (callback.invoke [.string "call limit"]).run
        (trail.entered ⟨stage, message, request, callback.carried⟩)

variable {host : Host} {look : String → Callback → Resolution Unit} {stage message : String}
  {request : Request} {callback : Callback} {trail : Trail}

theorem run_resolveBy (h : trail.calls.length < callLimit) (depth : Nat) :
    (host.resolveBy look (depth + 1) stage request message callback).run trail =
      (serve look (host.resolveBy look depth) (host.handlersOf stage) stage request callback).run
        (trail.called ⟨stage, message, request, callback.carried⟩) :=
  if_pos h

theorem run_resolveBy_of_limit (h : callLimit ≤ trail.calls.length) (depth : Nat) :
    (host.resolveBy look depth stage request message callback).run trail =
      (callback.invoke [.string "call limit"]).run
        (trail.called ⟨stage, message, request, callback.carried⟩) := by
  rw [Trail.called_of_limit h]
  cases depth with
  | zero => rfl
  | succ depth => exact if_neg (Nat.not_lt.mpr h)

theorem run_attend (h : trail.calls.length < callLimit) (resolve : Resolver) :
    (host.attend resolve stage request callback).run
        (trail.entered ⟨stage, message, request, callback.carried⟩) =
      (serve host.lookUp resolve (host.handlersOf stage) stage request callback).run
        (trail.called ⟨stage, message, request, callback.carried⟩) := by
  rw [attend, serve, fallbackBy_lookUp, Trail.called]
  cases hs : callback.carried.stack with
  | false => simp only [h, Bool.false_eq_true, and_false, if_false]; rfl
  | true => simp only [h, and_self, if_true]; rfl

theorem resolveBy_lookUp (host : Host) (depth : Nat) :
    host.resolveBy host.lookUp depth = host.resolveWithin depth := by
  induction depth with
  | zero => rfl
  | succ depth ih =>
    funext stage request message callback trail
    by_cases h : trail.calls.length < callLimit
    · apply (run_resolveBy h depth).trans
      rw [ih, ← run_attend h]
      exact (run_resolveWithin h depth).symm
    · have hl := Nat.not_lt.mp h
      apply (run_resolveBy_of_limit hl (depth + 1)).trans
      rw [Trail.called_of_limit hl]
      exact (run_resolveWithin_of_limit hl (depth + 1)).symm

end Host

/-- Whatever was called before is still there. -/
def Grows (step : Resolution α) : Prop :=
  ∀ trail : Trail, trail.calls <+: (step.run trail).2.calls

namespace Grows

theorem of_unseen {step : Resolution α} (h : Unseen step) : Grows step := by
  intro trail
  have hc : (step.run trail).2.core.calls = trail.core.calls := congrArg Trail.calls (h trail)
  exact ⟨[], (List.append_nil _).trans hc.symm⟩

theorem bind {step : Resolution α} {next : α → Resolution β} (h : Grows step)
    (hn : ∀ a, Grows (next a)) : Grows (step >>= next) := by
  intro trail
  exact (h trail).trans (hn (step.run trail).1 (step.run trail).2)

theorem fail (fault : Unreported) : Grows (Resolution.fail fault) :=
  fun _ => List.prefix_rfl

theorem answer (args : List Value) : Grows (Resolution.answer args) :=
  fun _ => List.prefix_rfl

theorem miss (path : String) : Grows (Resolution.miss path) :=
  fun _ => List.prefix_rfl

theorem run_called {step : Resolution α} (h : Grows step) (trail : Trail) (call : Call) :
    trail.calls <+: (step.run (trail.called call)).2.calls :=
  (List.prefix_append trail.calls [call]).trans (h (trail.called call))

end Grows

theorem compatible_grows : Compatible fun step _ => Grows step where
  done := .of_unseen (unseen_pure ())
  fail := .fail
  seq h hn := h.bind fun _ => hn
  left hs hn := (Grows.of_unseen hs).bind hn
  right := fun {_ _ step' _} _ hn trail => hn (step'.run trail).1 trail

namespace Host

variable {look : String → Callback → Resolution Unit} {outer : Carried}

/-- A lookup that takes back no call, for any callback that takes back none. -/
def LookUpGrows (look : String → Callback → Resolution Unit) : Prop :=
  ∀ outer : Carried, LookUpsRelated outer (fun step _ => Grows step) look look

theorem grows_serve (hl : LookUpGrows look) {resolve : Resolver}
    (hr : Resolver.Related outer (fun step _ => Grows step) resolve resolve)
    (handlers : List Handler) (stage : String) (request : Request) {callback : Callback}
    (hc : callback.Related outer (fun step _ => Grows step) callback) :
    Grows (serve look resolve handlers stage request callback) :=
  compatible_grows.serve hr (hl outer) (.refl request handlers) stage hc

theorem grows_resolveBy (host : Host) (hl : LookUpGrows look) (outer : Carried) (depth : Nat) :
    Resolver.Related outer (fun step _ => Grows step) (host.resolveBy look depth)
      (host.resolveBy look depth) := by
  induction depth with
  | zero =>
    intro stage request message callback _ hc trail
    exact (List.prefix_append trail.calls [_]).trans (hc.invoke _ (trail.entered _))
  | succ depth ih =>
    intro stage request message callback callback' hc trail
    have hc : callback.Related outer (fun step _ => Grows step) callback :=
      ⟨hc.like, hc.like, hc.invoke⟩
    by_cases h : trail.calls.length < callLimit
    · rw [run_resolveBy h]
      exact (grows_serve hl ih _ _ _ hc).run_called trail _
    · rw [run_resolveBy_of_limit (Nat.not_lt.mp h)]
      exact (hc.invoke _).run_called trail _

theorem grows_lookUp (host : Host) : LookUpGrows host.lookUp := by
  intro outer candidate callback callback' hc
  unfold lookUp
  split
  · exact hc.invoke _
  · apply (Grows.of_unseen (callback.unseen_write _)).bind
    intro _
    split
    · exact (Grows.miss candidate).bind fun _ => hc.invoke _
    · exact hc.invoke _

end Host

/-- A relation that holds of whatever comes later. -/
def Settled (R : Trail → Trail → Prop) (trail trail' : Trail) : Prop :=
  ∀ later later' : Trail, trail.calls <+: later.calls → trail'.calls <+: later'.calls →
    R later later'

/-- A relation between trails that answers, faults and calls keep, and that only trails with as many
calls are in, unless it is settled. -/
structure Bond (outer : Carried) (R : Trail → Trail → Prop) : Prop where
  core : ∀ {trail trail' : Trail}, R trail trail' ↔ R trail.core trail'.core
  answer : ∀ {trail trail' : Trail} (args : List Value), R trail trail' →
    R ((Resolution.answer args).run trail).2 ((Resolution.answer args).run trail').2
  fail : ∀ {trail trail' : Trail} (fault : Unreported), R trail trail' →
    R ((Resolution.fail fault).run trail).2 ((Resolution.fail fault).run trail').2
  called : ∀ {trail trail' : Trail} {call call' : Call}, R trail trail' → call.seen = call'.seen →
    call.carried.Like outer → call'.carried.Like outer → R (trail.called call) (trail'.called call')
  level : ∀ {trail trail' : Trail}, R trail trail' →
    trail.calls.length = trail'.calls.length ∨ Settled R trail trail'

theorem Bond.of_core {outer : Carried} {R : Trail → Trail → Prop} (hR : Bond outer R)
    {trail trail' later later' : Trail} (h : later.core = trail.core)
    (h' : later'.core = trail'.core) (hr : R trail trail') : R later later' := by
  rw [hR.core] at hr ⊢
  rwa [h, h']

/-- Wherever so many calls have been made, these steps keep a relation, and no call is taken back on
either side. -/
structure Tied (R : Trail → Trail → Prop) (count : Nat) (step step' : Resolution Unit) : Prop where
  grows : Grows step
  grows' : Grows step'
  keeps : ∀ trail trail' : Trail, count ≤ trail.calls.length → R trail trail' →
    R (step.run trail).2 (step'.run trail').2

namespace Tied

variable {R : Trail → Trail → Prop} {count more : Nat} {step step' : Resolution Unit}
  {callback callback' : Callback} {outer : Carried}

theorem mono (h : Tied R count step step') (hm : count ≤ more) : Tied R more step step' :=
  ⟨h.grows, h.grows', fun trail trail' hc => h.keeps trail trail' (Nat.le_trans hm hc)⟩

theorem compatible (hR : Bond outer R) (count : Nat) : Compatible (Tied R count) where
  done := ⟨.of_unseen (unseen_pure ()), .of_unseen (unseen_pure ()), fun _ _ _ h => h⟩
  fail fault := ⟨.fail fault, .fail fault, fun _ _ _ h => hR.fail fault h⟩
  seq := by
    intro step step' next next' h hn
    refine ⟨h.grows.bind fun _ => hn.grows, h.grows'.bind fun _ => hn.grows', ?_⟩
    intro trail trail' hc hr
    exact hn.keeps _ _ (Nat.le_trans hc (h.grows trail).length_le) (h.keeps trail trail' hc hr)
  left := by
    intro γ step next step' hs hn
    have hg : ∀ a, Grows (next a) := fun a => (hn a).grows
    refine ⟨(Grows.of_unseen hs).bind hg, ?_, ?_⟩
    · intro trail
      exact (hn (step.run trail).1).grows' trail
    · intro trail trail' hc hr
      apply (hn (step.run trail).1).keeps
      · exact Nat.le_trans hc (Grows.of_unseen hs trail).length_le
      · exact hR.of_core (hs trail) rfl hr
  right := by
    intro γ step step' next' hs hn
    have hg : ∀ a, Grows (next' a) := fun a => (hn a).grows'
    refine ⟨?_, (Grows.of_unseen hs).bind hg, ?_⟩
    · intro trail
      exact (hn (step'.run trail).1).grows trail
    · intro trail trail' hc hr
      apply (hn (step'.run trail').1).keeps _ _ hc
      exact hR.of_core rfl (hs trail') hr

end Tied

namespace Callback.Related

variable {R : Trail → Trail → Prop} {count more : Nat} {callback callback' : Callback}
  {outer : Carried}

theorem mono (h : callback.Related outer (Tied R count) callback') (hm : count ≤ more) :
    callback.Related outer (Tied R more) callback' :=
  ⟨h.like, h.like', fun args => (h.invoke args).mono hm⟩

theorem grows (h : callback.Related outer (Tied R count) callback') :
    callback.Related outer (fun step _ => Grows step) callback :=
  ⟨h.like, h.like, fun args => (h.invoke args).grows⟩

theorem grows' (h : callback.Related outer (Tied R count) callback') :
    callback'.Related outer (fun step _ => Grows step) callback' :=
  ⟨h.like', h.like', fun args => (h.invoke args).grows'⟩

end Callback.Related

/-- A call that settles a relation wherever it is below the limit on both sides. -/
def Settles (R : Trail → Trail → Prop) (stage : String) (request : Request) : Prop :=
  ∀ (trail trail' : Trail) (call call' : Call), R trail trail' →
    trail.calls.length < Host.callLimit → trail'.calls.length < Host.callLimit →
    call.seen = call'.seen → call.stage = stage → call.request = request →
    Settled R (trail.called call) (trail'.called call')

namespace Host

variable {R : Trail → Trail → Prop} {outer : Carried} {host host' : Host}
  {look look' : String → Callback → Resolution Unit}

/-- Over the limit both runs call back at once, and a settled relation holds anyway. What is left are
calls that both hosts attend to. -/
theorem tied_of_below (hR : Bond outer R) (hg : LookUpGrows look) (hg' : LookUpGrows look')
    {count depth : Nat} {stage message : String} {request : Request}
    {callback callback' : Callback} (hc : callback.Related outer (Tied R count) callback')
    (hbelow : ∀ trail trail' : Trail, count ≤ trail.calls.length → R trail trail' →
      trail.calls.length < callLimit → trail'.calls.length < callLimit →
      R ((host.resolveBy look depth stage request message callback).run trail).2
        ((host'.resolveBy look' depth stage request message callback').run trail').2) :
    Tied R count (host.resolveBy look depth stage request message callback)
      (host'.resolveBy look' depth stage request message callback') := by
  have hgrows : Grows (host.resolveBy look depth stage request message callback) :=
    host.grows_resolveBy hg outer depth stage request message callback callback hc.grows
  have hgrows' : Grows (host'.resolveBy look' depth stage request message callback') :=
    host'.grows_resolveBy hg' outer depth stage request message callback' callback' hc.grows'
  refine ⟨hgrows, hgrows', ?_⟩
  intro trail trail' hcount hr
  obtain hlevel | hsettled := hR.level hr
  · by_cases hl : trail.calls.length < callLimit
    · exact hbelow trail trail' hcount hr hl (hlevel ▸ hl)
    · have hl := Nat.not_lt.mp hl
      rw [run_resolveBy_of_limit hl, run_resolveBy_of_limit (hlevel ▸ hl)]
      apply (hc.invoke _).keeps
      · rw [Trail.length_called]
        exact Nat.le_succ_of_le hcount
      · exact hR.called hr rfl hc.like hc.like'
  · exact hsettled _ _ (hgrows trail) (hgrows' trail')

/-- Two hosts keep a relation if their lookups do and every stage has the same handlers, but for such
that decline, or settles the relation. -/
theorem tied_resolveBy (hR : Bond outer R)
    (hl : ∀ count, LookUpsRelated outer (Tied R count) look look')
    (hg : LookUpGrows look) (hg' : LookUpGrows look')
    (hi : ∀ stage request,
      Interposed request (host.handlersOf stage) (host'.handlersOf stage) ∨ Settles R stage request)
    {count depth : Nat} (h : callLimit < count + depth) :
    Resolver.Related outer (Tied R count) (host.resolveBy look depth)
      (host'.resolveBy look' depth) := by
  -- each call leaves one less to the depth and one more to the count
  induction depth generalizing count with
  | zero =>
    intro stage request message callback callback' hc
    apply tied_of_below hR hg hg' hc
    intro trail _ hcount _ hlimit _
    omega
  | succ depth ih =>
    intro stage request message callback callback' hc
    apply tied_of_below hR hg hg' hc
    intro trail trail' hcount hr hlimit hlimit'
    let call : Call := ⟨stage, message, request, callback.carried⟩
    let call' : Call := ⟨stage, message, request, callback'.carried⟩
    have hcalled : R (trail.called call) (trail'.called call') :=
      hR.called hr rfl hc.like hc.like'
    rw [run_resolveBy hlimit, run_resolveBy hlimit']
    obtain hsame | hsettles := hi stage request
    · have hr : Resolver.Related outer (Tied R (count + 1)) (host.resolveBy look depth)
          (host'.resolveBy look' depth) := ih (by omega)
      apply ((Tied.compatible hR (count + 1)).serve hr (hl (count + 1)) hsame stage
        (hc.mono (Nat.le_succ count))).keeps _ _ _ hcalled
      rw [Trail.length_called]
      exact Nat.succ_le_succ hcount
    · apply hsettles trail trail' call call' hr hlimit hlimit' rfl rfl rfl
      · exact grows_serve hg (host.grows_resolveBy hg outer depth) _ _ _ hc.grows _
      · exact grows_serve hg' (host'.grows_resolveBy hg' outer depth) _ _ _ hc.grows' _

theorem lookUpsRelated (hR : Bond outer R)
    (hm : ∀ {trail trail' : Trail} (path : String), R trail trail' →
      R ((Resolution.miss path).run trail).2 ((Resolution.miss path).run trail').2)
    (host : Host) (count : Nat) :
    LookUpsRelated outer (Tied R count) host.lookUp host.lookUp := by
  intro candidate callback callback' hc
  have hs := Tied.compatible hR count
  have hmiss : Tied R count (Resolution.miss candidate) (Resolution.miss candidate) :=
    ⟨.miss candidate, .miss candidate, fun _ _ _ h => hm candidate h⟩
  unfold lookUp
  by_cases hfile : candidate ∈ host.files
  · simp only [if_pos hfile]
    exact hc.invoke _
  · simp only [if_neg hfile]
    apply hs.left (callback.unseen_write _)
    intro _
    apply hs.right (callback'.unseen_write _)
    intro _
    rw [hc.like.missing, hc.like'.missing]
    cases outer.missing with
    | false => exact hc.invoke []
    | true => exact hs.seq hmiss (hc.invoke [])

/-- What two hosts keep from call to call holds at the end of their resolutions for a caller. -/
theorem keeps_resolveBy {caller : Caller} (hR : Bond caller.carried R)
    (hl : ∀ count, LookUpsRelated caller.carried (Tied R count) look look')
    (hg : LookUpGrows look) (hg' : LookUpGrows look')
    (hi : ∀ stage request,
      Interposed request (host.handlersOf stage) (host'.handlersOf stage) ∨ Settles R stage request)
    (stage message : String) (request : Request) {trail trail' : Trail} (h : R trail trail') :
    R ((host.resolveBy look (callLimit + 1) stage request message caller.callback).run trail).2
      ((host'.resolveBy look' (callLimit + 1) stage request message caller.callback).run
        trail').2 := by
  have hc : caller.callback.Related caller.carried (Tied R 0) caller.callback :=
    ⟨.refl _, .refl _, fun args => ⟨.answer args, .answer args, fun _ _ _ => hR.answer args⟩⟩
  have hlimit : callLimit < 0 + (callLimit + 1) := by omega
  exact (tied_resolveBy hR hl hg hg' hi hlimit stage request message _ _ hc).keeps trail trail'
    (Nat.zero_le _) h

end Host

end ImportAlias.Pipeline
