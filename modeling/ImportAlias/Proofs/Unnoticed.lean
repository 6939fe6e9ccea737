import ImportAlias.Proofs.Agreement
import ImportAlias.Proofs.Context
import Mathlib.Data.List.Infix

/-!
# Plugins that go unnoticed

A plugin without a base URL only adds mappings to one stage. As long as none of
them matches what reaches that stage, the runs with and without the plugin are
alike: identical until a request is claimed. Once one is, the runs may drift
apart, but the call that it came with stays in both of them.
-/

namespace ImportAlias.Pipeline

/-- The same calls and answers, the same stack and missing paths, and the same fault if any. -/
structure Trail.Alike (trail trail' : Trail) : Prop where
  calls : trail.calls.map Call.seen = trail'.calls.map Call.seen
  answers : trail.answers = trail'.answers
  stack : trail.stack = trail'.stack
  missing : trail.missing = trail'.missing
  fault : trail.fault = trail'.fault

namespace Trail.Alike

variable {trail trail' : Trail}

theorem refl (trail : Trail) : trail.Alike trail :=
  ⟨rfl, rfl, rfl, rfl, rfl⟩

theorem core_iff : trail.Alike trail' ↔ trail.core.Alike trail'.core :=
  ⟨fun h => ⟨h.calls, h.answers, h.stack, h.missing, h.fault⟩,
    fun h => ⟨h.calls, h.answers, h.stack, h.missing, h.fault⟩⟩

theorem fail (h : trail.Alike trail') (fault : Unreported) :
    ((Resolution.fail fault).run trail).2.Alike ((Resolution.fail fault).run trail').2 :=
  ⟨h.calls, h.answers, h.stack, h.missing, congrArg (·.or (some fault)) h.fault⟩

theorem answer (h : trail.Alike trail') (args : List Value) :
    ((Resolution.answer args).run trail).2.Alike ((Resolution.answer args).run trail').2 :=
  ⟨h.calls, congrArg (· ++ [args]) h.answers, h.stack, h.missing, h.fault⟩

theorem miss (h : trail.Alike trail') (path : String) :
    ((Resolution.miss path).run trail).2.Alike ((Resolution.miss path).run trail').2 := by
  refine ⟨h.calls, h.answers, h.stack, ?_, h.fault⟩
  change (if path ∈ trail.missing then trail.missing else trail.missing ++ [path]) =
    if path ∈ trail'.missing then trail'.missing else trail'.missing ++ [path]
  rw [h.missing]

theorem called (h : trail.Alike trail') {call call' : Call} (hs : call.seen = call'.seen)
    (hc : call.carried.stack = call'.carried.stack) :
    (trail.called call).Alike (trail'.called call') := by
  obtain ⟨hstage, hrequest⟩ := Call.of_seen hs
  refine ⟨Trail.seen_called h.calls hs, h.answers, ?_, h.missing, h.fault⟩
  rw [Trail.called, Trail.called, Call.entry, Call.entry, Trail.length_of_seen h.calls, h.stack,
    hstage, hrequest, hc]

theorem bond (outer : Carried) : Bond outer Trail.Alike where
  core := core_iff
  answer args h := h.answer args
  fail fault h := h.fail fault
  called h hs hc hc' := h.called hs (hc.stack.trans hc'.stack.symm)
  level h := .inl (Trail.length_of_seen h.calls)

end Trail.Alike

namespace AliasPlugin

/-- No active mapping matches the request. -/
def LeavesAlone (plugin : AliasPlugin) (request : Request) : Prop :=
  ∀ m ∈ plugin.table.active, m.matchFrom? (plugin.subject request) = .ok none

/-- No active mapping matches a request that comes to the source stage of the plugin. -/
def Unconcerned (plugin : AliasPlugin) (trail : Trail) : Prop :=
  ∀ call ∈ trail.calls.take Host.callLimit, call.stage = plugin.source →
    plugin.LeavesAlone call.request

variable {plugin : AliasPlugin} {trail later : Trail}

theorem leavesAlone_iff {request : Request} {inner : Option String}
    (hs : plugin.subject request = inner.elim .null .string) :
    plugin.LeavesAlone request ↔ ∀ m ∈ plugin.table.active, m.match? inner = none := by
  have hmatch : ∀ m : Mapping,
      m.matchFrom? (plugin.subject request) = .ok (m.match? inner) := by
    intro m
    rw [hs]
    cases inner <;> rfl
  simp only [LeavesAlone, hmatch, Except.ok.injEq]

theorem Unconcerned.before (h : plugin.Unconcerned later) (hp : trail.calls <+: later.calls) :
    plugin.Unconcerned trail := by
  intro call hm
  exact h call ((hp.take Host.callLimit).subset hm)

theorem not_unconcerned_called (hl : trail.calls.length < Host.callLimit) {call : Call}
    (hs : call.stage = plugin.source) (hc : ¬ plugin.LeavesAlone call.request) :
    ¬ plugin.Unconcerned (trail.called call) := by
  intro h
  apply hc
  apply h call _ hs
  change call ∈ (trail.calls ++ [call]).take Host.callLimit
  rw [List.take_of_length_le (by rw [List.length_append]; exact hl)]
  exact List.mem_append_right _ (List.mem_singleton_self call)

/-- Alike, unless the plugin is concerned in both. -/
def AlikeUntil (plugin : AliasPlugin) (trail trail' : Trail) : Prop :=
  trail.Alike trail' ∨ ¬ plugin.Unconcerned trail ∧ ¬ plugin.Unconcerned trail'

theorem settled_of_concerned {trail' : Trail} (h : ¬ plugin.Unconcerned trail)
    (h' : ¬ plugin.Unconcerned trail') : Settled plugin.AlikeUntil trail trail' :=
  fun _ _ hp hp' => .inr ⟨fun hu => h (hu.before hp), fun hu => h' (hu.before hp')⟩

theorem bond (plugin : AliasPlugin) (outer : Carried) : Bond outer plugin.AlikeUntil where
  core := or_congr_left Trail.Alike.core_iff
  answer args := Or.imp_left fun h => h.answer args
  fail fault := Or.imp_left fun h => h.fail fault
  called := by
    intro trail trail' call call' h hs hc hc'
    obtain h | ⟨h, h'⟩ := h
    · exact .inl (h.called hs (hc.stack.trans hc'.stack.symm))
    · exact settled_of_concerned h h' _ _ (List.prefix_append _ _) (List.prefix_append _ _)
  level := by
    intro trail trail' h
    obtain h | ⟨h, h'⟩ := h
    · exact .inl (Trail.length_of_seen h.calls)
    · exact .inr (settled_of_concerned h h')

/-- Where the plugin claims a request, both runs are concerned from then on. -/
theorem settles {request : Request} (hc : ¬ plugin.LeavesAlone request) :
    Settles plugin.AlikeUntil plugin.source request := by
  intro trail trail' call call' _ hl hl' hs hstage hrequest
  obtain ⟨hstage', hrequest'⟩ := Call.of_seen hs
  apply settled_of_concerned
  · exact not_unconcerned_called hl hstage (hrequest ▸ hc)
  · exact not_unconcerned_called hl' (hstage' ▸ hstage) (hrequest' ▸ hrequest ▸ hc)

end AliasPlugin

namespace Host

variable {plugin : AliasPlugin}

theorem files_registerAll (host : Host) (others : List (String × Handler)) :
    (host.registerAll others).files = host.files := by
  unfold registerAll
  induction others generalizing host with
  | nil => rfl
  | cons entry others ih => exact ih (host.register entry.1 entry.2)

theorem lookUp_congr {host host' : Host} (h : host.files = host'.files) :
    host.lookUp = host'.lookUp := by
  funext candidate callback
  rw [lookUp, lookUp, h]

/-- A plugin stands between the handlers before and behind it, and declines what it leaves alone. -/
theorem interposed_applyAliases (hb : plugin.table.baseUrl.isVacant = true) (host : Host)
    (others : List (String × Handler)) {stage : String} {request : Request}
    (h : stage = plugin.source → plugin.LeavesAlone request) :
    Interposed request ((host.registerAll others).handlersOf stage)
      (((host.applyAliases plugin).registerAll others).handlersOf stage) := by
  have hnone : plugin.moduleRoot? = none := if_pos hb
  rw [handlersOf_registerAll, handlersOf_registerAll, handlersOf_applyAliases, hnone]
  apply Interposed.append _ (.refl request _)
  rw [Option.toList_none, List.filter_nil, List.map_nil, List.append_nil]
  by_cases hs : plugin.source = stage
  · rw [if_pos hs, ← List.append_nil (host.handlersOf stage), List.append_assoc]
    exact (Interposed.refl request _).append (.mapped (h hs.symm))
  · rw [if_neg hs, List.append_nil]
    exact .refl request _

/-- The runs with and without the plugin are alike until it is concerned in both. -/
theorem alikeUntil_trailOf (hb : plugin.table.baseUrl.isVacant = true) (host : Host)
    (others : List (String × Handler)) (caller : Caller) (stage : String) (request : Request) :
    plugin.AlikeUntil ((host.registerAll others).trailOf caller stage request)
      (((host.applyAliases plugin).registerAll others).trailOf caller stage request) := by
  let without := host.registerAll others
  let within := (host.applyAliases plugin).registerAll others
  have hfiles : within.lookUp = without.lookUp := by
    apply lookUp_congr
    rw [files_registerAll, files_registerAll, applyAliases_eq]
  have hstages : ∀ stage request,
      Interposed request (without.handlersOf stage) (within.handlersOf stage) ∨
        Settles plugin.AlikeUntil stage request := by
    intro stage request
    by_cases h : stage = plugin.source → plugin.LeavesAlone request
    · exact .inl (interposed_applyAliases hb host others h)
    · obtain ⟨rfl, hclaims⟩ := Classical.not_imp.mp h
      exact .inr (AliasPlugin.settles hclaims)
  rw [trailOf, trailOf, resolve, resolve, ← resolveBy_lookUp, ← resolveBy_lookUp, hfiles]
  have hlook := without.lookUpsRelated (plugin.bond caller.carried) fun path =>
    Or.imp_left fun h => h.miss path
  exact keeps_resolveBy (plugin.bond caller.carried) hlook without.grows_lookUp
    without.grows_lookUp hstages stage "" request (.inl (.refl _))

end Host

/-- A plugin without a base URL may be applied to any host, and any handlers may be registered behind
it. If none of its active mappings matches a request that comes to its source stage, in the run with
the plugin or in the one without it, both runs make the same calls, give the caller the same answers
and end with the same stack and the same missing paths. -/
theorem plugin_goes_unnoticed {plugin : AliasPlugin} {host : Host}
    {others : List (String × Handler)} {caller : Caller} {stage : String} {request : Request}
    (hb : plugin.table.baseUrl.isVacant = true)
    (h : plugin.Unconcerned ((host.registerAll others).trailOf caller stage request) ∨
      plugin.Unconcerned
        (((host.applyAliases plugin).registerAll others).trailOf caller stage request)) :
    ((host.registerAll others).trailOf caller stage request).Alike
      (((host.applyAliases plugin).registerAll others).trailOf caller stage request) := by
  obtain halike | ⟨hn, hn'⟩ := host.alikeUntil_trailOf hb others caller stage request
  · exact halike
  · exact (h.elim hn hn').elim

/-- A handler that declines twice, so that all that comes behind it is done twice. -/
def echoHandler : Handler :=
  .scripted ⟨none, [], [[], []]⟩

def moduleHost : Host :=
  Host.empty.applyModuleRoot ⟨moduleStage, "/m", targetStage⟩

def bareRequest : Request :=
  ⟨"/p", some "x", none, "", none, []⟩

theorem plugin_goes_unnoticed_home :
    homePlugin.table.baseUrl.isVacant = true ∧
    homePlugin.Unconcerned ((moduleHost.registerAll [(sourceStage, echoHandler)]).trailOf
      ⟨true, some [], some []⟩ sourceStage bareRequest) ∧
    ((moduleHost.registerAll [(sourceStage, echoHandler)]).trailOf
      ⟨true, some [], some []⟩ sourceStage bareRequest).Alike
      (((moduleHost.applyAliases homePlugin).registerAll [(sourceStage, echoHandler)]).trailOf
        ⟨true, some [], some []⟩ sourceStage bareRequest) := by
  have hb : homePlugin.table.baseUrl.isVacant = true := rfl
  have hinner : ∀ call ∈ ((moduleHost.registerAll [(sourceStage, echoHandler)]).trailOf
      ⟨true, some [], some []⟩ sourceStage bareRequest).calls.take Host.callLimit,
      call.stage = sourceStage → call.request.inner = some "x" := by
    decide +kernel
  have hnone : ∀ m ∈ homePlugin.table.active, m.match? (some "x") = none := by decide
  have hu : homePlugin.Unconcerned ((moduleHost.registerAll [(sourceStage, echoHandler)]).trailOf
      ⟨true, some [], some []⟩ sourceStage bareRequest) := by
    intro call hcall hs
    have hsubject : homePlugin.subject call.request = call.request.inner.elim .null .string := rfl
    rw [AliasPlugin.leavesAlone_iff hsubject, hinner call hcall hs]
    exact hnone
  exact ⟨hb, hu, plugin_goes_unnoticed hb (.inl hu)⟩

end ImportAlias.Pipeline
