import ImportAlias.Proofs.FirstPair
import ImportAlias.Proofs.Passing
import ImportAlias.Proofs.Places

/-!
# The outcome of an aliased request

On a host with one alias plugin and no other handler, what the caller is told can
be said without stages and callbacks: a claimed request is looked up where its
redirect points and nowhere else, any other request where it points itself.
-/

namespace ImportAlias

theorem Settings.isAbsolute_of_baseDirectory {current base : Path} {settings : Settings}
    (hc : current.isAbsolute = true) (h : settings.baseDirectory current = .ok base) :
    base.isAbsolute = true := by
  have ha : ∀ path : Path, (path.absolute current).isAbsolute = true :=
    fun path => Path.isAbsolute_div hc
  unfold baseDirectory at h
  dsimp only at h
  split at h
  · obtain rfl := Except.ok.inj h
    exact ha _
  · split at h
    · obtain rfl := Except.ok.inj h
      exact ha _
    · simp at h

theorem Table.isAbsolute_of_ofSettings {current : Path} {settings : Settings} {table : Table}
    (hc : current.isAbsolute = true) (h : Table.ofSettings current settings = .ok table) :
    table.baseDirectory.isAbsolute = true := by
  obtain ⟨mappings, base, -, hb, rfl⟩ := Table.exists_of_ofSettings h
  exact Settings.isAbsolute_of_baseDirectory hc hb

theorem Match.head?_destination (found : Match) {base : Path} (hb : base.isAbsolute = true) :
    (found.destination base).toList.head? ≠ some '.' := by
  rw [destination_eq]
  unfold anchored
  split
  · have hs : (base / Path.ofString found.filled).normalize.isAbsolute = true :=
      Path.isAbsolute_div hb
    rw [Path.head?_toString hs]
    decide
  · assumption

namespace Pipeline

/-- A specifier read from a directory. -/
def below (directory specifier : String) : String :=
  (Path.ofString directory / Path.ofString specifier).normalize.toString

/-- Where a bare specifier is looked up. -/
def bareCandidate? (table : Table) (specifier : String) : Option String :=
  if table.baseUrl.isVacant then none
  else some (below table.baseDirectory.toString ("./" ++ specifier))

/-- Where a redirect is looked up. -/
def redirectCandidate? (table : Table) (specifier : String) : Option String :=
  if specifier.toList.head? = some '/' then some specifier
  else if specifier = "" then none
  else bareCandidate? table specifier

/-- Where a request that nothing claims is looked up. -/
def requestCandidate? (table : Table) (request : Request) : Option String :=
  request.wanted?.bind fun specifier =>
    if specifier.toList.head? = some '/' then some specifier
    else if specifier.toList.head? = some '.' then some (below request.path specifier)
    else bareCandidate? table specifier

/-- What the caller of a request is told. -/
def outcome (table : Table) (files : List String) (request : Request) : List Value :=
  match table.resolve request.inner with
  | .redirect redirect =>
    match (redirectCandidate? table redirect.specifier).filter (· ∈ files) with
    | some candidate => [.null, .string candidate]
    | none => [.null, .null]
  | _ =>
    match (requestCandidate? table request).filter (· ∈ files) with
    | some candidate => [.null, .string candidate]
    | none => []

/-- An alias plugin as it is by default. -/
def AliasPlugin.standard (table : Table) (traced : Bool) : AliasPlugin :=
  ⟨table, Request.subject, sourceStage, targetStage, traced⟩

/-- A host with some files and one alias plugin. -/
def Host.aliased (files : List String) (table : Table) (traced : Bool) : Host :=
  Host.applyAliases ⟨[], files⟩ (.standard table traced)

namespace Host

theorem foldl_register (host : Host) (stage : String) (plugin : AliasPlugin)
    (mappings : List Mapping) :
    mappings.foldl (fun host mapping => host.register stage (.mapped plugin mapping)) host =
      { host with
        handlers := host.handlers ++
          mappings.map fun mapping => (stage, .mapped plugin mapping) } := by
  induction mappings generalizing host with
  | nil => simp
  | cons mapping mappings ih =>
    rw [List.foldl_cons, ih, register, List.map_cons, List.append_assoc, List.singleton_append]

theorem applyAliases_eq (host : Host) (plugin : AliasPlugin) :
    host.applyAliases plugin =
      { host with
        handlers := host.handlers ++
          plugin.moduleRoot?.toList.map (fun rule => (rule.source, .moduleRoot rule)) ++
          plugin.table.active.map fun mapping => (plugin.source, .mapped plugin mapping) } := by
  unfold applyAliases
  rw [foldl_register]
  cases plugin.moduleRoot? with
  | none => simp
  | some rule => simp [applyModuleRoot, register]

theorem handlersOf_applyAliases (host : Host) (plugin : AliasPlugin) (stage : String) :
    (host.applyAliases plugin).handlersOf stage =
      host.handlersOf stage ++
        (plugin.moduleRoot?.toList.filter (·.source = stage)).map .moduleRoot ++
        if plugin.source = stage then plugin.table.active.map (.mapped plugin) else [] := by
  have hrules : ∀ rules : List ModuleRoot,
      ((rules.map fun rule => (rule.source, Handler.moduleRoot rule)).filter
        (·.1 = stage)).map (·.2) = (rules.filter (·.source = stage)).map .moduleRoot := by
    intro rules
    rw [List.filter_map, List.map_map]
    rfl
  have hmappings : (((plugin.table.active.map fun mapping =>
      (plugin.source, Handler.mapped plugin mapping)).filter (·.1 = stage)).map (·.2)) =
        if plugin.source = stage then plugin.table.active.map (.mapped plugin) else [] := by
    rw [List.filter_map, List.map_map]
    by_cases hs : plugin.source = stage
    · have hall : plugin.table.active.filter ((fun entry : String × Handler =>
          decide (entry.1 = stage)) ∘ fun mapping => (plugin.source, .mapped plugin mapping)) =
          plugin.table.active := List.filter_eq_self.mpr fun _ _ => decide_eq_true hs
      rw [hall, if_pos hs]
      rfl
    · have hnone : plugin.table.active.filter ((fun entry : String × Handler =>
          decide (entry.1 = stage)) ∘ fun mapping => (plugin.source, .mapped plugin mapping)) =
          [] := List.filter_eq_nil_iff.mpr fun _ _ => by simpa using hs
      rw [hnone, if_neg hs]
      rfl
  rw [applyAliases_eq, handlersOf, List.filter_append, List.filter_append, List.map_append,
    List.map_append, hrules, hmappings]
  rfl

variable (files : List String) (table : Table) (traced : Bool)

theorem files_aliased : (aliased files table traced).files = files := by
  rw [aliased, applyAliases_eq]

theorem handlersOf_source :
    (aliased files table traced).handlersOf sourceStage =
      table.active.map (.mapped (.standard table traced)) := by
  have hs : moduleStage ≠ sourceStage := by decide
  rw [aliased, handlersOf_applyAliases, AliasPlugin.moduleRoot?]
  by_cases hb : table.baseUrl.isVacant = true <;>
    simp [AliasPlugin.standard, handlersOf, hb, hs]

theorem handlersOf_target : (aliased files table traced).handlersOf targetStage = [] := by
  have hm : moduleStage ≠ targetStage := by decide
  have hs : sourceStage ≠ targetStage := by decide
  rw [aliased, handlersOf_applyAliases, AliasPlugin.moduleRoot?]
  by_cases hb : table.baseUrl.isVacant = true <;>
    simp [AliasPlugin.standard, handlersOf, hb, hs, hm]

theorem handlersOf_module :
    (aliased files table traced).handlersOf moduleStage =
      if table.baseUrl.isVacant then []
      else [.moduleRoot ⟨moduleStage, table.baseDirectory.toString, targetStage⟩] := by
  have hs : sourceStage ≠ moduleStage := by decide
  rw [aliased, handlersOf_applyAliases, AliasPlugin.moduleRoot?]
  by_cases hb : table.baseUrl.isVacant = true <;>
    simp [AliasPlugin.standard, handlersOf, hb, hs]

variable {files table traced} {request : Request} {callback : Callback} {message : String}

/-- What is found at a candidate, if there is one. -/
def foundAt (host : Host) (candidate : Option String) : List Value :=
  candidate.elim [] host.found

theorem leadsTo_fallback (host : Host) {stage : String} (hs : host.handlersOf stage = [])
    (message : String) (request : Request) (callback : Callback) (depth : Nat) :
    LeadsTo (host.resolveWithin (depth + 1) stage request message callback) 1
      (host.fallback (host.resolveWithin depth) stage request callback) := by
  have h := leadsTo_stage host stage message request callback depth
  rw [hs, inTurn] at h
  exact h

theorem leadsTo_direct {specifier candidate : String} (depth : Nat)
    (hw : request.wanted? = some specifier)
    (hc : specifier.toList.head? = some '/' ∧ candidate = specifier ∨
      specifier.toList.head? = some '.' ∧ candidate = below request.path specifier) :
    LeadsTo ((aliased files table traced).resolveWithin (depth + 1) targetStage request message
        callback) 1
      (callback.invoke ((aliased files table traced).found candidate)) := by
  have hn : targetStage ≠ sourceStage := by decide
  refine (leadsTo_fallback _ (handlersOf_target files table traced) message request callback
    depth).trans (n := 0) ?_
  rw [fallback, if_neg hn, if_neg (by simp), hw]
  rcases hc with ⟨hh, rfl⟩ | ⟨hh, rfl⟩
  · simp only [hh]
    exact leadsTo_lookUp _
  · simp only [hh]
    exact leadsTo_lookUp _

theorem leadsTo_module_of_vacant (hb : table.baseUrl.isVacant = true) (depth : Nat) :
    LeadsTo ((aliased files table traced).resolveWithin (depth + 1) moduleStage request message
        callback) 1 callback.decline := by
  have hs : (aliased files table traced).handlersOf moduleStage = [] := by
    rw [handlersOf_module, if_pos hb]
  have hsource : moduleStage ≠ sourceStage := by decide
  have htarget : moduleStage ≠ targetStage := by decide
  have h := leadsTo_fallback (aliased files table traced) hs message request callback depth
  rwa [fallback, if_neg hsource, if_pos htarget] at h

/-- With a base URL a module is looked up below the base directory. -/
theorem leadsTo_module {specifier : String} (hb : table.baseUrl.isVacant = false)
    (hw : request.wanted? = some specifier) (depth : Nat) :
    LeadsTo ((aliased files table traced).resolveWithin (depth + 2) moduleStage request message
        callback) 2
      (callback.invoke ((aliased files table traced).found
        (below table.baseDirectory.toString ("./" ++ specifier)))) := by
  have hs : (aliased files table traced).handlersOf moduleStage =
      [.moduleRoot ⟨moduleStage, table.baseDirectory.toString, targetStage⟩] := by
    rw [handlersOf_module, hb]
    rfl
  have hsource : moduleStage ≠ sourceStage := by decide
  have htarget : moduleStage ≠ targetStage := by decide
  refine (leadsTo_stage _ moduleStage message request callback (depth + 1)).trans (n := 1) ?_
  rw [hs]
  refine leadsTo_inTurn fun nested hp => ModuleRoot.leadsTo_resolve hw fun inner hi => ?_
  have hdot : ("./" ++ specifier).toList.head? = some '.' := by simp
  have hwanted : Request.wanted? { request with
      path := table.baseDirectory.toString
      request := some ("./" ++ specifier) } = some ("./" ++ specifier) := by
    simp [Request.wanted?]
  refine (leadsTo_direct depth hwanted (.inr ⟨hdot, rfl⟩)).trans (n := 0) ?_
  refine (hi _).hand ((hp _).hand ?_)
  -- an empty answer goes on to the next handler, and there is none
  cases hf : (aliased files table traced).found
    (below table.baseDirectory.toString ("./" ++ specifier)) with
  | nil =>
    simp only [List.isEmpty_nil, if_true, inTurn, fallback, if_neg hsource, if_pos htarget]
    exact .refl _
  | cons first rest => exact .refl _

/-- What the target stage finds, and that at most three calls are needed for it. -/
theorem leadsTo_target (files : List String) (table : Table) (traced : Bool) (request : Request)
    (depth : Nat) :
    ∃ n ≤ 3, ∀ (message : String) (callback : Callback),
      LeadsTo ((aliased files table traced).resolveWithin (depth + 3) targetStage request message
          callback) n
        (callback.invoke ((aliased files table traced).foundAt
          (requestCandidate? table request))) := by
  have hn : targetStage ≠ sourceStage := by decide
  have h := fun message callback => leadsTo_fallback _ (handlersOf_target files table traced)
    message request callback (depth + 2)
  unfold requestCandidate?
  cases hw : request.wanted? with
  | none =>
    simp only [fallback, if_neg hn, ne_eq, not_true, if_false, hw] at h
    exact ⟨1, by omega, h⟩
  | some specifier =>
    rw [Option.bind_some]
    by_cases hslash : specifier.toList.head? = some '/'
    · rw [if_pos hslash]
      exact ⟨1, by omega, fun _ _ => leadsTo_direct (depth + 2) hw (.inl ⟨hslash, rfl⟩)⟩
    by_cases hdot : specifier.toList.head? = some '.'
    · rw [if_neg hslash, if_pos hdot]
      exact ⟨1, by omega, fun _ _ => leadsTo_direct (depth + 2) hw (.inr ⟨hdot, rfl⟩)⟩
    rw [if_neg hslash, if_neg hdot, bareCandidate?]
    simp only [fallback, if_neg hn, ne_eq, not_true, if_false, hw] at h
    cases hb : table.baseUrl.isVacant with
    | true =>
      exact ⟨2, by omega, fun message callback =>
        (h message callback).trans (leadsTo_module_of_vacant hb (depth + 1))⟩
    | false =>
      exact ⟨3, by omega, fun message callback =>
        (h message callback).trans (leadsTo_module hb hw depth)⟩

end Host

theorem matchFrom?_subject (mapping : Mapping) (request : Request) :
    mapping.matchFrom? request.subject = .ok (mapping.match? request.inner) := by
  unfold Request.subject
  cases request.inner <;> rfl

theorem requestCandidate?_redirect (table : Table) (request : Request) {specifier : String}
    (hd : specifier.toList.head? ≠ some '.') :
    requestCandidate? table { request with request := some specifier } =
      redirectCandidate? table specifier := by
  unfold requestCandidate? redirectCandidate?
  by_cases he : specifier = ""
  · subst he
    rfl
  · have hw : Request.wanted? { request with request := some specifier } = some specifier := by
      simp [Request.wanted?, he]
    rw [hw, Option.bind_some, if_neg hd, if_neg he]

theorem foundAt_eq (host : Host) (candidate : Option String) :
    host.foundAt candidate =
      match candidate.filter (· ∈ host.files) with
      | some candidate => [.null, .string candidate]
      | none => [] := by
  cases candidate with
  | none => rfl
  | some candidate =>
    rw [Host.foundAt, Option.elim_some, Host.found]
    by_cases h : candidate ∈ host.files
    · rw [if_pos h, Option.filter_some_pos (by simpa using h)]
    · rw [if_neg h, Option.filter_some_neg (by simpa using h)]

namespace Host

variable {table : Table} {request : Request}

theorem leadsTo_decline {mappings : List Mapping} (table : Table) (traced : Bool)
    (resolve : Resolver) (hm : ∀ mapping ∈ mappings, mapping.match? request.inner = none) :
    ∀ handler ∈ mappings.map (Handler.mapped (.standard table traced)), ∀ nested : Callback,
      LeadsTo (handler.handle resolve request nested) 0 nested.decline := by
  intro handler hh nested
  obtain ⟨mapping, hmapping, rfl⟩ := List.mem_map.mp hh
  have hnone := matchFrom?_subject mapping request
  rw [hm mapping hmapping] at hnone
  exact AliasPlugin.leadsTo_decline hnone

theorem leadsTo_unclaimed (hm : table.match? request.inner = none) (files : List String)
    (traced : Bool) (message : String) (callback : Callback) (depth : Nat) :
    ∃ n ≤ 4, LeadsTo ((aliased files table traced).resolveWithin (depth + 4) sourceStage request
        message callback) n
      (callback.invoke ((aliased files table traced).foundAt
        (requestCandidate? table request))) := by
  let resolve := (aliased files table traced).resolveWithin (depth + 3)
  have hnone : ∀ mapping ∈ table.active, mapping.match? request.inner = none :=
    List.findSome?_eq_none_iff.mp hm
  obtain ⟨n, hn, ht⟩ := leadsTo_target files table traced request depth
  have hs := leadsTo_stage (aliased files table traced) sourceStage message request callback
    (depth + 3)
  have hrest := leadsTo_rest ((aliased files table traced).fallback resolve sourceStage request
    callback) sourceStage callback [] 0 (leadsTo_decline table traced resolve hnone)
  rw [List.append_nil, inTurn, fallback, if_pos rfl] at hrest
  rw [handlersOf_source] at hs
  exact ⟨1 + n, by omega, hs.trans (hrest.hand (ht "default" callback))⟩

/-- The first mapping that claims a request sends it to the target stage, and whatever comes back
finishes the request. -/
theorem leadsTo_claimed {found : Match} (hm : table.match? request.inner = some found)
    (hb : table.baseDirectory.isAbsolute = true) (files : List String) (traced : Bool)
    (message : String) (callback : Callback) (depth : Nat) :
    ∃ n ≤ 4, LeadsTo ((aliased files table traced).resolveWithin (depth + 4) sourceStage request
        message callback) n
      (callback.invoke (finishing ((aliased files table traced).foundAt
        (redirectCandidate? table (found.destination table.baseDirectory))))) := by
  let resolve := (aliased files table traced).resolveWithin (depth + 3)
  let plugin : AliasPlugin := .standard table traced
  obtain ⟨earlier, mapping, later, hactive, hfound, hnone⟩ := List.findSome?_eq_some_iff.mp hm
  obtain ⟨n, hn, ht⟩ := leadsTo_target files table traced
    { request with request := some (found.destination table.baseDirectory) } depth
  rw [requestCandidate?_redirect table request (found.head?_destination hb)] at ht
  have hmatch := matchFrom?_subject mapping request
  rw [hfound] at hmatch
  have hs := leadsTo_stage (aliased files table traced) sourceStage message request callback
    (depth + 3)
  have hrest := leadsTo_rest ((aliased files table traced).fallback resolve sourceStage request
    callback) sourceStage callback (.mapped plugin mapping :: later.map (Handler.mapped plugin)) 0
    (leadsTo_decline table traced resolve hnone)
  rw [handlersOf_source, hactive, List.map_append, List.map_cons] at hs
  refine ⟨1 + n, by omega, hs.trans (hrest.hand (leadsTo_inTurn fun nested hp => ?_))⟩
  refine (AliasPlugin.leadsTo_delegate hmatch).hand (leadsTo_delegate fun inner hi => ?_)
  refine (ht _ inner).trans (n := 0) ((hi _).hand ((hp _).hand ?_))
  simp only [finishing_isEmpty, Bool.false_eq_true, if_false]
  exact .refl _

/-- A resolution that leads to an answer of the caller's gives just that one. -/
theorem run_of_leadsTo {host : Host} {caller : Caller} {stage : String} {args : List Value}
    {n : Nat}
    (h : LeadsTo (host.resolve stage request "" caller.callback) n (caller.callback.invoke args))
    (hn : n ≤ callLimit) :
    ∃ trail, host.run caller stage request = .ok trail ∧ trail.answers = [args] := by
  obtain ⟨later, he, -, ha, hf⟩ := h caller.trail (by simpa [Caller.trail] using hn)
  have ha : later.answers = [] := ha
  have hf : later.fault = none := hf
  refine ⟨{ later with answers := later.answers ++ [args] }, ?_, by rw [ha]; rfl⟩
  have hrun : host.run caller stage request =
      later.fault.elim (.ok { later with answers := later.answers ++ [args] }) .error := by
    rw [run, he]
    rfl
  rw [hrun, hf]
  rfl

end Host

/-- The caller of a request on a host with one alias plugin gets exactly one answer, and it is what
the table says of the request. The table may come from any configuration, read from an absolute
working directory. -/
theorem answers_aliased {current : Path} {settings : Settings} {table : Table}
    (hc : current.isAbsolute = true) (ht : Table.ofSettings current settings = .ok table)
    (files : List String) (traced : Bool) (caller : Caller) (request : Request) :
    ∃ trail, (Host.aliased files table traced).run caller sourceStage request = .ok trail ∧
      trail.answers = [outcome table files request] := by
  have hb := Table.isAbsolute_of_ofSettings hc ht
  have hfiles := Host.files_aliased files table traced
  unfold outcome Table.resolve
  cases hm : table.match? request.inner with
  | none =>
    obtain ⟨n, hn, h⟩ := Host.leadsTo_unclaimed hm files traced "" caller.callback 9
    rw [foundAt_eq, hfiles] at h
    exact Host.run_of_leadsTo h (by unfold Host.callLimit; omega)
  | some found =>
    obtain ⟨n, hn, h⟩ := Host.leadsTo_claimed hm hb files traced "" caller.callback 9
    have hf : finishing ((Host.aliased files table traced).foundAt
        (redirectCandidate? table (found.destination table.baseDirectory))) =
        match (redirectCandidate? table (found.destination table.baseDirectory)).filter
          (· ∈ files) with
        | some candidate => [.null, .string candidate]
        | none => [.null, .null] := by
      rw [foundAt_eq, hfiles]
      cases (redirectCandidate? table (found.destination table.baseDirectory)).filter
        (· ∈ files) <;> rfl
    rw [hf] at h
    exact Host.run_of_leadsTo h (by unfold Host.callLimit; omega)

def appMapping : Mapping :=
  ⟨"@app/*", .wildcard "@app/" "", "./src/*"⟩

def appSettings : Settings :=
  ⟨"/p/tsconfig.json", .null, [("@app/*", ["./src/*"])]⟩

def appTable : Table :=
  ⟨[appMapping], ⟨.root, ["p"]⟩, .null⟩

def appRequest : Request :=
  ⟨"/p", some "@app/x", none, "", none, []⟩

theorem answers_aliased_app :
    Table.ofSettings ⟨.root, []⟩ appSettings = .ok appTable ∧
    ∃ trail, (Host.aliased ["/p/src/x"] appTable true).run ⟨true, none, none⟩ sourceStage
        appRequest = .ok trail ∧
      trail.answers = [[.null, .string "/p/src/x"]] := by
  have ht : Table.ofSettings ⟨.root, []⟩ appSettings = .ok appTable := rfl
  have hm : appTable.resolve appRequest.inner =
      .redirect (Match.toRedirect ⟨appMapping, "@app/x", "x"⟩ ⟨.root, ["p"]⟩) := rfl
  obtain ⟨trail, hr, ha⟩ :=
    answers_aliased rfl ht ["/p/src/x"] true ⟨true, none, none⟩ appRequest
  rw [outcome, hm] at ha
  exact ⟨ht, trail, hr, ha⟩

end Pipeline

end ImportAlias
