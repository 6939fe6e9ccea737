import ImportAlias.Proofs.FirstPair
import ImportAlias.Proofs.Unnoticed

/-!
# The first runtime target decides

An alias with several targets has a mapping for each, and they all claim the same
specifiers. So only the first of those that are matched at all can ever be taken:
a configuration that keeps just these targets has a table that resolves
everything alike, and a plugin with that table makes the same calls and gives the
same answers on every host.
-/

namespace ImportAlias

/-- The first target of an alias that holds something to run. -/
def runtimeTarget? (targets : List String) : Option String :=
  targets.find? fun target => !isTypingsTarget target

/-- The same settings with the first runtime target of each alias alone, and without the aliases
that have none. -/
def Settings.leading (settings : Settings) : Settings :=
  { settings with
    paths := settings.paths.filterMap fun (key, targets) =>
      (runtimeTarget? targets).map fun target => (key, [target]) }

/-- Some of the mappings decide a subject just as all of them do. Left out are mappings that do not
match it, and any behind one that matches it or fails on it. -/
inductive DecideAs (subject : Value) : List Mapping → List Mapping → Prop
  | nil : DecideAs subject [] []
  | both {few all : List Mapping} (mapping : Mapping) :
      DecideAs subject few all → DecideAs subject (mapping :: few) (mapping :: all)
  | without {mapping : Mapping} {few all : List Mapping} :
      mapping.matchFrom? subject = .ok none →
      DecideAs subject few all → DecideAs subject few (mapping :: all)
  | decided {mapping : Mapping} (few all : List Mapping) :
      mapping.matchFrom? subject ≠ .ok none → DecideAs subject (mapping :: few) (mapping :: all)

namespace DecideAs

variable {subject : Value} {few all few' all' : List Mapping}

theorem append (h : DecideAs subject few all) (h' : DecideAs subject few' all') :
    DecideAs subject (few ++ few') (all ++ all') := by
  induction h with
  | nil => exact h'
  | both mapping _ ih => exact .both mapping ih
  | without hm _ ih => exact .without hm ih
  | decided few all hm => exact .decided _ _ hm

theorem nil_of_unmatched (h : ∀ m ∈ all, m.matchFrom? subject = .ok none) :
    DecideAs subject [] all := by
  induction all with
  | nil => exact .nil
  | cons mapping all ih =>
    obtain ⟨hfirst, hrest⟩ := List.forall_mem_cons.mp h
    exact .without hfirst (ih hrest)

theorem findSomeM?_eq (h : DecideAs subject few all) :
    few.findSomeM? (m := Except Unreported) (·.matchFrom? subject) =
      all.findSomeM? (·.matchFrom? subject) := by
  induction h with
  | nil => rfl
  | both mapping _ ih => rw [List.findSomeM?, List.findSomeM?, ih]
  | without hm _ ih =>
    rw [ih, List.findSomeM?, hm]
    rfl
  | @decided mapping few all hm =>
    rw [List.findSomeM?, List.findSomeM?]
    cases hmatch : mapping.matchFrom? subject with
    | error fault => rfl
    | ok found =>
      cases found with
      | none => exact absurd hmatch hm
      | some found => rfl

end DecideAs

namespace Mapping

theorem unmatched_ofPair {subject : Value} {key : String} (target other : String)
    (h : (ofPair (key, target)).matchFrom? subject = .ok none) :
    (ofPair (key, other)).matchFrom? subject = .ok none := by
  cases subject with
  | string specifier =>
    by_cases hs : specifier = ""
    · simp [matchFrom?, match?, hs]
    · simpa [matchFrom?, match?, hs] using h
  | _ => exact h

/-- The first target of an alias decides for all of them. -/
theorem decideAs_targets (subject : Value) (key : String) (targets : List String) :
    DecideAs subject (targets.head?.toList.map fun target => ofPair (key, target))
      (targets.map fun target => ofPair (key, target)) := by
  cases targets with
  | nil => exact .nil
  | cons first rest =>
    by_cases hm : (ofPair (key, first)).matchFrom? subject = .ok none
    · apply DecideAs.both
      apply DecideAs.nil_of_unmatched
      intro mapping hmem
      obtain ⟨other, -, rfl⟩ := List.mem_map.mp hmem
      exact unmatched_ofPair first other hm
    · exact .decided _ _ hm

/-- The mappings of some aliases, without those of typings targets. -/
def runtime (paths : Entries (List String)) : List Mapping :=
  ((pairs paths).map ofPair).filter (!·.isTypings)

theorem runtime_cons (key : String) (targets : List String) (paths : Entries (List String)) :
    runtime ((key, targets) :: paths) =
      (targets.filter fun target => !isTypingsTarget target).map
        (fun target => ofPair (key, target)) ++ runtime paths := by
  have hpairs : pairs ((key, targets) :: paths) =
      targets.map (fun target => (key, target)) ++ pairs paths := List.flatMap_cons
  rw [runtime, hpairs, List.map_append, List.filter_append, List.map_map, List.filter_map]
  rfl

end Mapping

namespace Settings

theorem leading_cons (file : String) (baseUrl : Value) (key : String) (targets : List String)
    (paths : Entries (List String)) :
    (leading ⟨file, baseUrl, (key, targets) :: paths⟩).paths =
      ((runtimeTarget? targets).toList.map fun target => (key, [target])) ++
        (leading ⟨file, baseUrl, paths⟩).paths := by
  unfold leading
  cases h : runtimeTarget? targets with
  | none => simp [h]
  | some target => simp [h]

theorem decideAs_leading (subject : Value) (settings : Settings) :
    DecideAs subject (Mapping.runtime settings.leading.paths) (Mapping.runtime settings.paths) := by
  obtain ⟨file, baseUrl, paths⟩ := settings
  induction paths with
  | nil => exact .nil
  | cons entry paths ih =>
    obtain ⟨key, targets⟩ := entry
    have hfirst : runtimeTarget? targets =
        (targets.filter fun target => !isTypingsTarget target).head? :=
      (List.head?_filter ..).symm
    have hgroup := Mapping.decideAs_targets subject key
      (targets.filter fun target => !isTypingsTarget target)
    rw [← hfirst] at hgroup
    rw [leading_cons, Mapping.runtime_cons]
    cases h : runtimeTarget? targets with
    | none =>
      rw [h] at hgroup
      exact hgroup.append ih
    | some target =>
      have hruns : isTypingsTarget target = false := by simpa using List.find?_some h
      rw [h] at hgroup
      rw [Option.toList_some, List.map_singleton, List.singleton_append, Mapping.runtime_cons,
        List.filter_cons_of_pos (by simp [hruns]), List.filter_nil]
      exact hgroup.append ih

end Settings

namespace Table

variable {current : Path} {settings : Settings} {table : Table}

theorem active_of_ofSettings (h : ofSettings current settings = .ok table) :
    table.active = Mapping.runtime settings.paths := by
  obtain ⟨mappings, base, hm, -, rfl⟩ := exists_of_ofSettings h
  rw [Mapping.ofPaths_eq] at hm
  split at hm
  · cases hm
  · cases hm
    rfl

/-- Keeping the first runtime targets of a configuration that builds gives one that builds, with the
same base directory. -/
theorem exists_leading (h : ofSettings current settings = .ok table) :
    ∃ leading, ofSettings current settings.leading = .ok leading ∧
      leading.baseDirectory = table.baseDirectory ∧ leading.baseUrl = table.baseUrl := by
  obtain ⟨mappings, base, hm, hb, rfl⟩ := exists_of_ofSettings h
  obtain ⟨file, baseUrl, paths⟩ := settings
  have hleading : ∃ first, Mapping.ofPaths (Settings.leading ⟨file, baseUrl, paths⟩).paths =
      .ok first := by
    rw [Mapping.ofPaths_eq] at hm ⊢
    split at hm
    · cases hm
    · rename_i hfind
      have hnone : (Settings.leading ⟨file, baseUrl, paths⟩).paths.find?
          (fun entry => 2 ≤ Pattern.wildcards entry.1) = none := by
        rw [List.find?_eq_none] at hfind ⊢
        intro entry hentry
        obtain ⟨⟨key, targets⟩, hmem, hsome⟩ := List.mem_filterMap.mp hentry
        obtain ⟨target, -, rfl⟩ := Option.map_eq_some_iff.mp hsome
        exact hfind (key, targets) hmem
      rw [hnone]
      exact ⟨_, rfl⟩
  obtain ⟨first, hfirst⟩ := hleading
  exact ⟨_, ofSettings_of_compiled hfirst hb, rfl, rfl⟩

end Table

namespace Pipeline

variable {plugin plugin' : AliasPlugin}

/-- Two plugins that differ in the mappings of their tables alone. -/
structure AliasPlugin.Twins (plugin plugin' : AliasPlugin) : Prop where
  baseDirectory : plugin.table.baseDirectory = plugin'.table.baseDirectory
  baseUrl : plugin.table.baseUrl = plugin'.table.baseUrl
  subject : plugin.subject = plugin'.subject
  source : plugin.source = plugin'.source
  target : plugin.target = plugin'.target
  traced : plugin.traced = plugin'.traced

namespace AliasPlugin.Twins

theorem handle_eq (h : plugin.Twins plugin') (mapping : Mapping) :
    (Handler.mapped plugin mapping).handle = (Handler.mapped plugin' mapping).handle := by
  funext resolve request callback
  rw [Handler.handle, Handler.handle, handle, handle, h.baseDirectory, h.subject, h.target,
    h.traced]

theorem moduleRoot?_eq (h : plugin.Twins plugin') : plugin.moduleRoot? = plugin'.moduleRoot? := by
  rw [moduleRoot?, moduleRoot?, h.baseUrl, h.baseDirectory, h.target]

theorem interposed (h : plugin.Twins plugin') {request : Request} {few all : List Mapping}
    (hd : DecideAs (plugin.subject request) few all) :
    Interposed request (few.map (.mapped plugin)) (all.map (.mapped plugin')) := by
  have hsubject : plugin'.subject request = plugin.subject request :=
    congrFun h.subject.symm request
  induction hd with
  | nil => exact .nil
  | both mapping _ ih => exact .both (h.handle_eq mapping) ih
  | without hm _ ih => exact .extra (hsubject ▸ hm) ih
  | decided few all hm => exact .decided _ _ hm (hsubject ▸ hm) (h.handle_eq _)

end AliasPlugin.Twins

namespace Host

/-- Hosts with the same files make alike runs if their handlers do the same, but for some that
decline or that nothing comes to. -/
theorem alike_trailOf {host host' : Host} (hf : host.files = host'.files)
    (hi : ∀ stage request,
      Interposed request (host.handlersOf stage) (host'.handlersOf stage))
    (caller : Caller) (stage : String) (request : Request) :
    (host.trailOf caller stage request).Alike (host'.trailOf caller stage request) := by
  rw [trailOf, trailOf, resolve, resolve, ← resolveBy_lookUp, ← resolveBy_lookUp,
    ← lookUp_congr hf]
  have hbond := Trail.Alike.bond caller.carried
  apply keeps_resolveBy hbond (host.lookUpsRelated hbond fun path h => h.miss path)
    host.grows_lookUp host.grows_lookUp
  · intro stage request
    exact .inl (hi stage request)
  · exact .refl caller.trail

/-- Plugins whose mappings decide alike stand for each other on every host, whatever is registered
before and behind them. -/
theorem interposed_twins (h : plugin.Twins plugin')
    (hd : ∀ subject, DecideAs subject plugin.table.active plugin'.table.active) (host : Host)
    (others : List (String × Handler)) (stage : String) (request : Request) :
    Interposed request (((host.applyAliases plugin).registerAll others).handlersOf stage)
      (((host.applyAliases plugin').registerAll others).handlersOf stage) := by
  rw [handlersOf_registerAll, handlersOf_registerAll, handlersOf_applyAliases,
    handlersOf_applyAliases, h.moduleRoot?_eq, h.source]
  apply Interposed.append _ (.refl request _)
  apply Interposed.append (.refl request _)
  split
  · exact h.interposed (hd (plugin.subject request))
  · exact .nil

end Host

/-- Of each alias only the first runtime target matters. If settings build a table, so do those that
keep, for each alias, its first target that holds no type declarations and drop the aliases without
one. Both tables do the same with every specifier, or value in place of one. So do plugins that are
alike but for these tables, on any host and with any handlers registered behind them: for each
request in each stage they make the same calls, give the caller the same answers, end with the same
stack and the same missing paths and come to the same fault, if any. -/
theorem first_targets_decide {current : Path} {settings : Settings} {table : Table}
    (h : Table.ofSettings current settings = .ok table) :
    ∃ leading, Table.ofSettings current settings.leading = .ok leading ∧
      (∀ specifier, leading.resolve specifier = table.resolve specifier) ∧
      (∀ subject, leading.resolveFrom subject = table.resolveFrom subject) ∧
      ∀ (plugin : AliasPlugin) (host : Host) (others : List (String × Handler)) (caller : Caller)
        (stage : String) (request : Request),
        (((host.applyAliases { plugin with table := leading }).registerAll others).trailOf caller
            stage request).Alike
          (((host.applyAliases { plugin with table := table }).registerAll others).trailOf caller
            stage request) := by
  obtain ⟨leading, hl, hbase, hurl⟩ := Table.exists_leading h
  have hdecide : ∀ subject, DecideAs subject leading.active table.active := by
    intro subject
    rw [Table.active_of_ofSettings hl, Table.active_of_ofSettings h]
    exact settings.decideAs_leading subject
  have hresolve : ∀ subject, leading.resolveFrom subject = table.resolveFrom subject := by
    intro subject
    rw [Table.resolveFrom, Table.resolveFrom, (hdecide subject).findSomeM?_eq, hbase]
  refine ⟨leading, hl, ?_, hresolve, ?_⟩
  · intro specifier
    apply Except.ok.inj
    cases specifier with
    | none => rw [← Table.resolveFrom_null, ← Table.resolveFrom_null, hresolve]
    | some specifier => rw [← Table.resolveFrom_string, ← Table.resolveFrom_string, hresolve]
  · intro plugin host others caller stage request
    have htwins :
        AliasPlugin.Twins { plugin with table := leading } { plugin with table := table } :=
      ⟨hbase, hurl, rfl, rfl, rfl, rfl⟩
    apply Host.alike_trailOf
    · rw [Host.files_registerAll, Host.files_registerAll, Host.applyAliases_eq,
        Host.applyAliases_eq]
    · exact Host.interposed_twins htwins hdecide host others

namespace Overlapping

/-- Two aliases claim `@app/x`; the first one comes with type declarations and a spare target. -/
def settings : Settings :=
  ⟨"/p/tsconfig.json", .null,
    [("@app/*", ["./types/*.d.ts", "./src/*", "./lib/*"]), ("@app/x", ["./x", "./y"]),
      ("@types/*", ["./@types/*"])]⟩

def table : Table :=
  ⟨(pairs settings.paths).map Mapping.ofPair, ⟨.root, ["p"]⟩, .null⟩

def caller : Caller :=
  ⟨true, some [], some []⟩

theorem first_targets_decide_overlapping :
    Table.ofSettings ⟨.root, []⟩ settings = .ok table ∧
    settings.leading.paths = [("@app/*", ["./src/*"]), ("@app/x", ["./x"])] ∧
    ∃ leading, Table.ofSettings ⟨.root, []⟩ settings.leading = .ok leading ∧
      leading.resolve (some "@app/x") = table.resolve (some "@app/x") ∧
      ((Host.aliased ["/p/lib/x", "/p/x"] leading true).trailOf caller sourceStage
          appRequest).Alike
        ((Host.aliased ["/p/lib/x", "/p/x"] table true).trailOf caller sourceStage appRequest) := by
  have hbuilds : Table.ofSettings ⟨.root, []⟩ settings = .ok table := by rfl
  have hleading : settings.leading.paths = [("@app/*", ["./src/*"]), ("@app/x", ["./x"])] := by
    decide
  obtain ⟨leading, hl, hresolve, -, halike⟩ := first_targets_decide hbuilds
  have hruns := halike (.standard table true) ⟨[], ["/p/lib/x", "/p/x"]⟩ [] caller sourceStage
    appRequest
  exact ⟨hbuilds, hleading, leading, hl, hresolve (some "@app/x"), hruns⟩

end Overlapping

end Pipeline

end ImportAlias
