import ImportAlias.Proofs.Outcome
import ImportAlias.Proofs.Tracing

/-!
# Handlers agree with the table

The first mapping that matches decides, and this is written twice: as a search
through the table and as a chain of handlers, one for each mapping, of which a
host asks the next one when one declines. A run through the chain delegates the
redirect that the search finds, or is declined by every handler when it finds
none.
-/

namespace ImportAlias

namespace Mapping

theorem mapping_of_match? {m : Mapping} {specifier : Option String} {found : Match}
    (h : m.match? specifier = some found) : found.mapping = m := by
  cases specifier with
  | none => simp [match?] at h
  | some specifier =>
    rw [match?] at h
    split at h
    · simp at h
    · obtain ⟨captured, -, rfl⟩ := Option.map_eq_some_iff.mp h
      rfl

theorem mapping_of_matchFrom? {m : Mapping} {subject : Value} {found : Match}
    (h : m.matchFrom? subject = .ok (some found)) : found.mapping = m := by
  unfold matchFrom? at h
  split at h
  · exact mapping_of_match? (Except.ok.inj h)
  · split at h
    · simp at h
    · cases hc : m.pattern.captureFrom? subject with
      | error fault => simp [hc, Except.map] at h
      | ok captured => simp [hc, Except.map] at h

end Mapping

namespace Table

theorem findSomeM?_cases (mappings : List Mapping) (subject : Value) :
    (mappings.findSomeM? (m := Except Unreported) (·.matchFrom? subject) = .ok none ∧
      ∀ m ∈ mappings, m.matchFrom? subject = .ok none) ∨
    ∃ (earlier : List Mapping) (mapping : Mapping) (later : List Mapping),
      mappings = earlier ++ mapping :: later ∧
      (∀ m ∈ earlier, m.matchFrom? subject = .ok none) ∧
      mapping.matchFrom? subject ≠ .ok none ∧
      mappings.findSomeM? (m := Except Unreported) (·.matchFrom? subject) =
        mapping.matchFrom? subject := by
  induction mappings with
  | nil => exact .inl ⟨rfl, by simp⟩
  | cons mapping rest ih =>
    by_cases hm : mapping.matchFrom? subject = .ok none
    · have hstep : (mapping :: rest).findSomeM? (m := Except Unreported) (·.matchFrom? subject) =
          rest.findSomeM? (m := Except Unreported) (·.matchFrom? subject) := by
        rw [List.findSomeM?, hm]
        rfl
      obtain ⟨hf, hnone⟩ | ⟨earlier, first, later, rfl, hnone, hfirst, hf⟩ := ih
      · exact .inl ⟨hstep.trans hf, List.forall_mem_cons.mpr ⟨hm, hnone⟩⟩
      · exact .inr ⟨mapping :: earlier, first, later, rfl,
          List.forall_mem_cons.mpr ⟨hm, hnone⟩, hfirst, hstep.trans hf⟩
    · refine .inr ⟨[], mapping, rest, rfl, by simp, hm, ?_⟩
      rw [List.findSomeM?]
      cases hfound : mapping.matchFrom? subject with
      | error fault => rfl
      | ok found =>
        cases found with
        | none => exact absurd hfound hm
        | some found => rfl

theorem resolveFrom_null (table : Table) :
    table.resolveFrom .null = .ok (table.resolve none) := by
  obtain ⟨hf, -⟩ | ⟨_, _, _, _, _, hm, _⟩ := findSomeM?_cases table.active .null
  · have hn : table.match? none = none := List.findSome?_eq_none_iff.mpr fun _ _ => rfl
    rw [resolveFrom, hf, resolve, hn]
    rfl
  · exact absurd rfl hm

end Table

namespace Pipeline

/-- Registers handlers one after the other. -/
def Host.registerAll (host : Host) (others : List (String × Handler)) : Host :=
  others.foldl (fun host entry => host.register entry.1 entry.2) host

namespace AliasPlugin

/-- How a run through the handlers of a plugin has to go from `start`, by what its table does with
the subject of the request. Every handler declines and the run goes on at `behind`. Or those in
front of the first mapping that matches decline and its own one delegates: it sends the request with
another specifier into the target stage, and finishes for each answer from there. Or those in front
decline and the next one fails. -/
def Agrees (plugin : AliasPlugin) (resolve : Resolver) (request : Request)
    (finish : List Value → Resolution Unit) (start behind : Resolution Unit) :
    Except Unreported Action → Prop
  | .ok .passthrough =>
    (∀ m ∈ plugin.table.active, m.matchFrom? (plugin.subject request) = .ok none) ∧
    ComesTo start
      (tracedActions plugin.traced (.replicate plugin.table.active.length .passthrough))
      (· = behind)
  | .ok (.redirect redirect) => ∃ earlier later : List Mapping,
    plugin.table.active = earlier ++ redirect.mapping :: later ∧
    (∀ m ∈ earlier, m.matchFrom? (plugin.subject request) = .ok none) ∧
    (∃ found, redirect.mapping.matchFrom? (plugin.subject request) = .ok (some found)) ∧
    ComesTo start
      (tracedActions plugin.traced (.replicate earlier.length .passthrough ++ [.redirect redirect]))
      fun next => ∃ nested : Callback, nested.Finishes plugin.traced redirect finish ∧
        next = resolve plugin.target (request.redirected redirect) redirect.description nested
  | .ok (.suppress _ _) => False
  | .error fault => ∃ (earlier : List Mapping) (mapping : Mapping) (later : List Mapping),
    plugin.table.active = earlier ++ mapping :: later ∧
    (∀ m ∈ earlier, m.matchFrom? (plugin.subject request) = .ok none) ∧
    mapping.matchFrom? (plugin.subject request) = .error fault ∧
    ComesTo start (tracedActions plugin.traced (.replicate earlier.length .passthrough))
      (· = Resolution.fail fault)

/-- The place of the first handler of a plugin that is applied to a host, among those of its source
stage. -/
def position (plugin : AliasPlugin) (host : Host) : Nat :=
  (host.handlersOf plugin.source).length +
    (plugin.moduleRoot?.toList.filter (·.source = plugin.source)).length

variable {plugin : AliasPlugin} {resolve : Resolver} {request : Request}
  {ask : Nat → Resolution Unit} {finish : List Value → Resolution Unit} {before after : List Handler}

theorem comesTo_handle {mapping : Mapping} {actions : List Action}
    {last : Resolution Unit → Prop}
    (h : AsksInTurn resolve request (before ++ .mapped plugin mapping :: after) ask finish)
    (hn : ∀ callback : Callback, callback.HandsTo (fun args =>
        if args.isEmpty then ask (before.length + 1) else finish args) →
      ComesTo (plugin.handle mapping resolve request callback) actions last) :
    ComesTo (ask before.length) actions last := by
  refine (h before.length (by simp)).hand ?_
  rintro next ⟨callback, hp, rfl⟩
  simpa [Handler.handle] using hn callback hp

theorem comesTo_behind {mappings : List Mapping}
    (h : AsksInTurn resolve request (before ++ (mappings.map (.mapped plugin) ++ after)) ask finish)
    (hm : ∀ m ∈ mappings, m.matchFrom? (plugin.subject request) = .ok none) :
    ComesTo (ask before.length)
      (tracedActions plugin.traced (.replicate mappings.length .passthrough))
      (· = ask (before.length + mappings.length)) := by
  induction mappings generalizing before with
  | nil =>
    have hr : ComesTo (ask before.length) [] (· = ask before.length) := .refl rfl
    cases ht : plugin.traced <;> exact hr
  | cons mapping mappings ih =>
    obtain ⟨hfirst, hm⟩ := List.forall_mem_cons.mp hm
    have hrest : AsksInTurn resolve request
        ((before ++ [.mapped plugin mapping]) ++ (mappings.map (.mapped plugin) ++ after)) ask
        finish := by
      simpa using h
    have hbehind := ih hrest hm
    rw [List.length_append, List.length_singleton, Nat.add_assoc, Nat.add_comm 1] at hbehind
    have hactions : tracedActions plugin.traced
        (.replicate (mapping :: mappings).length .passthrough) =
        tracedActions plugin.traced [.passthrough] ++
          tracedActions plugin.traced (.replicate mappings.length .passthrough) := by
      rw [tracedActions_append]
      rfl
    rw [hactions, List.length_cons]
    refine comesTo_handle h fun callback hp => ?_
    refine (comesTo_decline resolve callback hfirst).trans ?_
    rintro next rfl
    refine (hp []).hand ?_
    rintro next rfl
    exact hbehind

/-- A run to the first mapping that does not simply decline. -/
theorem comesTo_first {earlier later : List Mapping} {mapping : Mapping} {actions : List Action}
    {last : Resolution Unit → Prop}
    (h : AsksInTurn resolve request
      (before ++ ((earlier ++ mapping :: later).map (.mapped plugin) ++ after)) ask finish)
    (hm : ∀ m ∈ earlier, m.matchFrom? (plugin.subject request) = .ok none)
    (hn : ∀ callback : Callback, callback.HandsTo (fun args =>
        if args.isEmpty then ask (before.length + earlier.length + 1) else finish args) →
      ComesTo (plugin.handle mapping resolve request callback)
        (tracedActions plugin.traced actions) last) :
    ComesTo (ask before.length)
      (tracedActions plugin.traced (.replicate earlier.length .passthrough ++ actions)) last := by
  rw [List.map_append, List.map_cons, List.append_assoc, List.cons_append] at h
  rw [← tracedActions_append]
  refine (comesTo_behind h hm).trans ?_
  rintro next rfl
  have hat : AsksInTurn resolve request
      ((before ++ earlier.map (.mapped plugin)) ++
        .mapped plugin mapping :: (later.map (.mapped plugin) ++ after)) ask finish := by
    simpa using h
  have hlength : (before ++ earlier.map (Handler.mapped plugin)).length =
      before.length + earlier.length := by
    rw [List.length_append, List.length_map]
  rw [← hlength]
  refine comesTo_handle hat ?_
  rw [hlength]
  exact hn

/-- A mapping that matches delegates the request, and what the delegated request finishes with is
never empty, so no other handler is asked. -/
theorem comesTo_redirect {mapping : Mapping} {found : Match} {other : Resolution Unit}
    (callback : Callback)
    (hm : mapping.matchFrom? (plugin.subject request) = .ok (some found))
    (hp : callback.HandsTo fun args => if args.isEmpty then other else finish args) :
    ComesTo (plugin.handle mapping resolve request callback)
      (tracedActions plugin.traced [.redirect (found.toRedirect plugin.table.baseDirectory)])
      fun next => ∃ nested : Callback,
        nested.Finishes plugin.traced (found.toRedirect plugin.table.baseDirectory) finish ∧
        next = resolve plugin.target
          (request.redirected (found.toRedirect plugin.table.baseDirectory))
          (found.toRedirect plugin.table.baseDirectory).description nested := by
  rw [← List.append_nil (tracedActions _ [_])]
  apply (comesTo_delegate resolve callback hm).trans
  rintro next rfl
  apply (Pipeline.comesTo_delegate resolve plugin.target plugin.traced request _ callback).mono
  rintro next ⟨nested, hfinishes, rfl⟩
  refine ⟨nested, ?_, rfl⟩
  intro args
  rw [← List.append_nil (ite _ _ _)]
  apply (hfinishes args).trans
  rintro next rfl
  apply (hp (finishing args)).mono
  rintro next rfl
  simp only [finishing_isEmpty, Bool.false_eq_true, if_false]

/-- The handlers of a plugin, wherever they stand in the list that a host asks, agree with the
table. -/
theorem agrees_of_asksInTurn
    (h : AsksInTurn resolve request (before ++ (plugin.table.active.map (.mapped plugin) ++ after))
      ask finish) :
    plugin.Agrees resolve request finish (ask before.length)
      (ask (before.length + plugin.table.active.length))
      (plugin.table.resolveFrom (plugin.subject request)) := by
  obtain ⟨hf, hm⟩ | ⟨earlier, mapping, later, hactive, hm, hfirst, hf⟩ :=
    Table.findSomeM?_cases plugin.table.active (plugin.subject request)
  · rw [Table.resolveFrom, hf]
    exact ⟨hm, comesTo_behind h hm⟩
  · rw [Table.resolveFrom, hf]
    rw [hactive] at h
    cases hmatch : mapping.matchFrom? (plugin.subject request) with
    | error fault =>
      refine ⟨earlier, mapping, later, hactive, hm, hmatch, ?_⟩
      rw [← List.append_nil (List.replicate _ _)]
      refine comesTo_first h hm fun callback _ => ?_
      have hnone : tracedActions plugin.traced [] = [] := by cases plugin.traced <;> rfl
      rw [hnone]
      exact comesTo_fail resolve callback hmatch
    | ok found =>
      obtain ⟨found, rfl⟩ : ∃ match_, found = some match_ :=
        Option.ne_none_iff_exists'.mp fun hn => hfirst (hn ▸ hmatch)
      have hmapping : (found.toRedirect plugin.table.baseDirectory).mapping = mapping :=
        Mapping.mapping_of_matchFrom? hmatch
      refine ⟨earlier, later, ?_, hm, ⟨found, ?_⟩, ?_⟩
      · rw [hmapping]
        exact hactive
      · rw [hmapping]
        exact hmatch
      · exact comesTo_first h hm fun callback hp => comesTo_redirect callback hmatch hp

end AliasPlugin

namespace Host

theorem handlersOf_registerAll (host : Host) (others : List (String × Handler)) (stage : String) :
    (host.registerAll others).handlersOf stage =
      host.handlersOf stage ++ (others.filter (·.1 = stage)).map (·.2) := by
  have hr : (host.registerAll others).handlers = host.handlers ++ others := by
    unfold registerAll
    induction others generalizing host with
    | nil => simp
    | cons entry others ih => rw [List.foldl_cons, ih, register, List.append_assoc]; rfl
  rw [handlersOf, hr, List.filter_append, List.map_append, handlersOf]

end Host

/-- A plugin is applied to any host, and any handlers may be registered behind it. Whenever the
handlers of its source stage are asked in turn and its first one is reached, the run through its
handlers agrees with what its table does with the subject of the request; for a specifier this is
what the table does with that specifier. -/
theorem installed_agrees (host : Host) (plugin : AliasPlugin) (others : List (String × Handler))
    {resolve : Resolver} {request : Request} {ask : Nat → Resolution Unit}
    {finish : List Value → Resolution Unit}
    (h : AsksInTurn resolve request
      (((host.applyAliases plugin).registerAll others).handlersOf plugin.source) ask finish) :
    plugin.Agrees resolve request finish (ask (plugin.position host))
      (ask (plugin.position host + plugin.table.active.length))
      (plugin.table.resolveFrom (plugin.subject request)) ∧
    ∀ inner : Option String, plugin.subject request = inner.elim .null .string →
      plugin.table.resolveFrom (plugin.subject request) = .ok (plugin.table.resolve inner) := by
  constructor
  · rw [Host.handlersOf_registerAll, Host.handlersOf_applyAliases, if_pos rfl,
      List.append_assoc] at h
    have hagrees := AliasPlugin.agrees_of_asksInTurn h
    rw [List.length_append, List.length_map] at hagrees
    exact hagrees
  · intro inner hi
    rw [hi]
    cases inner with
    | none => exact plugin.table.resolveFrom_null
    | some specifier => exact plugin.table.resolveFrom_string specifier

def homeMapping : Mapping :=
  ⟨"~/*", .wildcard "~/" "", "./home/*"⟩

/-- A plugin with two mappings, of which the second one claims the request. -/
def homePlugin : AliasPlugin :=
  .standard ⟨[homeMapping, appMapping], ⟨.root, ["p"]⟩, .null⟩ true

def homeHost : Host :=
  Host.empty.applyAliases homePlugin

def homeCallback : Callback :=
  Caller.callback ⟨true, none, none⟩

/-- Asks the handlers of the host from one on. -/
def homeAsk (index : Nat) : Resolution Unit :=
  Host.inTurn homeHost.resolve
    (homeHost.fallback homeHost.resolve sourceStage appRequest homeCallback) sourceStage appRequest
    homeCallback ((homeHost.handlersOf sourceStage).drop index) index

theorem installed_agrees_home :
    AsksInTurn homeHost.resolve appRequest (homeHost.handlersOf sourceStage) homeAsk
        homeCallback.invoke ∧
      homePlugin.Agrees homeHost.resolve appRequest homeCallback.invoke (homeAsk 0) (homeAsk 2)
        (.ok (.redirect (Match.toRedirect ⟨appMapping, "@app/x", "x"⟩ ⟨.root, ["p"]⟩))) := by
  have h := Host.asksInTurn homeHost.resolve
    (homeHost.fallback homeHost.resolve sourceStage appRequest homeCallback) sourceStage appRequest
    homeCallback (homeHost.handlersOf sourceStage)
  exact ⟨h, (installed_agrees Host.empty homePlugin [] h).1⟩

end Pipeline

end ImportAlias
