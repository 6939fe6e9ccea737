import ImportAlias.Action
import ImportAlias.Proofs.Capture

/-!
# The first pair decides

A configuration is a list of pairs of an alias and a target. What it does with a
specifier is told here by texts alone, without patterns, mappings or tables: the
first pair that applies turns the specifier into its target. The main statement
is that compiling a configuration either names its first alias with several
wildcards or gives a table that resolves every specifier that way.
-/

namespace ImportAlias

/-- The aliases with their targets one by one, in declared order. -/
def pairs (paths : Entries (List String)) : List (String × String) :=
  paths.flatMap fun (key, targets) => targets.map fun target => (key, target)

theorem pairs_given (file : String) (baseUrl : Value) (paths : Entries OneOrMore) :
    pairs (Settings.given file baseUrl paths).paths =
      paths.flatMap fun (key, targets) => targets.texts.map fun target => (key, target) :=
  List.flatMap_map ..

/-- A pair applies to what its alias claims, unless its target holds type declarations. -/
def Applies (pair : String × String) (specifier : String) : Prop :=
  ¬ ("@types".toList <:+: pair.2.toList ∨ ".d.ts".toList <:+: pair.2.toList) ∧
    Claims pair.1.toList specifier.toList

/-- What becomes of a specifier that a pair applies to: the target, in which the first wildcard
gives way to what the wildcard of the alias stands for. -/
inductive Fills (key specifier : List Char) : List Char → List Char → Prop
  | literal {target : List Char} (hk : '*' ∉ key) : Fills key specifier target target
  | fixed {target : List Char} (ht : '*' ∉ target) : Fills key specifier target target
  | wildcard {captured start rest : List Char} (hk : '*' ∈ key)
      (hc : Captures key specifier captured) (hs : '*' ∉ start) :
      Fills key specifier (start ++ '*' :: rest) (start ++ captured ++ rest)

theorem Fills.unique {key specifier target first second : List Char}
    (hf : Fills key specifier target first) (hs : Fills key specifier target second) :
    first = second := by
  cases hf with
  | literal hk =>
    cases hs with
    | literal => rfl
    | fixed => rfl
    | wildcard hk' => exact absurd hk' hk
  | fixed ht =>
    cases hs with
    | literal => rfl
    | fixed => rfl
    | wildcard => simp at ht
  | @wildcard captured start rest hk hc hn =>
    generalize he : start ++ '*' :: rest = target at hs
    cases hs with
    | literal hk' => exact absurd hk hk'
    | fixed ht => simp [← he] at ht
    | wildcard _ hc' hn' =>
      obtain ⟨rfl, rfl⟩ := append_cons_inj hn hn' he
      rw [hc.unique hc']

/-- A text that starts with a dot is a path below the base directory. -/
def anchored (base : Path) (text : String) : String :=
  if text.toList.head? = some '.' then (base / Path.ofString text).normalize.toString else text

/-- The redirect that a pair gives for a specifier. -/
structure Redirects (base : Path) (pair : String × String) (specifier : String)
    (redirect : Redirect) : Prop where
  key : redirect.mapping.key = pair.1
  target : redirect.mapping.target = pair.2
  pattern : Pattern.ofAlias pair.1 = .ok redirect.mapping.pattern
  innerRequest : redirect.innerRequest = specifier
  destination : ∃ filled, Fills pair.1.toList specifier.toList pair.2.toList filled ∧
    redirect.specifier = anchored base (String.ofList filled)
  description : redirect.description =
    s!"aliased with mapping '{specifier}': '{pair.1}' to '{redirect.specifier}'"

/-- What a configuration does with a specifier. -/
inductive Resolves (paths : Entries (List String)) (base : Path) : Option String → Action → Prop
  | nothingAsked {asked : Option String} (ha : asked = none ∨ asked = some "") :
      Resolves paths base asked .passthrough
  | unclaimed {specifier : String} (hs : specifier ≠ "")
      (hp : ∀ pair ∈ pairs paths, ¬ Applies pair specifier) :
      Resolves paths base (some specifier) .passthrough
  | claimed {specifier : String} {earlier later : List (String × String)}
      {pair : String × String} {redirect : Redirect} (hs : specifier ≠ "")
      (hp : pairs paths = earlier ++ pair :: later)
      (first : ∀ other ∈ earlier, ¬ Applies other specifier) (ha : Applies pair specifier)
      (hr : Redirects base pair specifier redirect) :
      Resolves paths base (some specifier) (.redirect redirect)

namespace Mapping

/-- The mapping that a pair is compiled into. -/
def ofPair (pair : String × String) : Mapping :=
  ⟨pair.1, Pattern.compiled pair.1, pair.2⟩

@[simp] theorem ofPair_key (pair : String × String) : (ofPair pair).key = pair.1 := rfl

@[simp] theorem ofPair_pattern (pair : String × String) :
    (ofPair pair).pattern = Pattern.compiled pair.1 := rfl

@[simp] theorem ofPair_target (pair : String × String) : (ofPair pair).target = pair.2 := rfl

theorem ofPaths_eq (paths : Entries (List String)) :
    ofPaths paths =
      match paths.find? fun entry => 2 ≤ Pattern.wildcards entry.1 with
      | some (key, _) => .error (.severalWildcards key (Pattern.wildcards key))
      | none => .ok ((pairs paths).map ofPair) := by
  induction paths with
  | nil => rfl
  | cons entry rest ih =>
    obtain ⟨key, targets⟩ := entry
    by_cases h : 2 ≤ Pattern.wildcards key
    · have hn : ¬ Pattern.wildcards key < 2 := by omega
      simp [ofPaths, ofTargets, Pattern.ofAlias_eq, h, hn, bind, Except.bind]
    · have hn : Pattern.wildcards key < 2 := by omega
      simp only [ofPaths, ofTargets, Pattern.ofAlias_eq, ih, if_pos hn, bind, Except.bind, pure,
        Except.pure, List.find?_cons, decide_eq_false h]
      cases rest.find? fun entry => 2 ≤ Pattern.wildcards entry.1 with
      | none => simp [pairs, ofPair]
      | some found => rfl

/-- The pattern of a mapping tells as well whether its alias stands for one module. -/
theorem onlyModule_eq_isExact {paths : Entries (List String)} {mappings : List Mapping}
    (h : ofPaths paths = .ok mappings) :
    ∀ mapping ∈ mappings, mapping.onlyModule = mapping.pattern.isExact := by
  rw [ofPaths_eq] at h
  split at h
  · cases h
  · intro mapping hm
    rw [← Except.ok.inj h] at hm
    obtain ⟨pair, -, rfl⟩ := List.mem_map.mp hm
    by_cases hk : '*' ∈ pair.1.toList
    · simp [onlyModule, Pattern.compiled, Pattern.isExact, hk]
    · simp [onlyModule, Pattern.compiled, Pattern.isExact, hk]

theorem isTypings_iff (m : Mapping) :
    m.isTypings = true ↔
      "@types".toList <:+: m.target.toList ∨ ".d.ts".toList <:+: m.target.toList := by
  simp [isTypings, isTypingsTarget, typingsMarks, Text.occurs_iff]

theorem match?_ofPair_iff {pair : String × String} {specifier : String} {found : Match}
    (hs : specifier ≠ "") :
    (ofPair pair).match? (some specifier) = some found ↔
      found.mapping = ofPair pair ∧ found.specifier = specifier ∧
        Captures pair.1.toList specifier.toList found.captured.toList := by
  rw [← Pattern.capture?_compiled_iff]
  obtain ⟨mapping, asked, captured⟩ := found
  simp only [match?, if_neg hs, Option.map_eq_some_iff, Match.mk.injEq]
  constructor
  · rintro ⟨text, ht, rfl, rfl, rfl⟩
    exact ⟨rfl, rfl, ht⟩
  · rintro ⟨rfl, rfl, ht⟩
    exact ⟨captured, ht, rfl, rfl, rfl⟩

end Mapping

namespace Match

theorem fills_filled {pair : String × String} {found : Match}
    (hm : found.mapping = Mapping.ofPair pair)
    (hc : Captures pair.1.toList found.specifier.toList found.captured.toList) :
    Fills pair.1.toList found.specifier.toList pair.2.toList found.filled.toList := by
  by_cases hk : '*' ∈ pair.1.toList
  · have hx : found.mapping.pattern.isExact = false := by
      simp [hm, Mapping.ofPair, Pattern.compiled, hk, Pattern.isExact]
    have ht : found.mapping.target = pair.2 := by rw [hm]; rfl
    simp only [filled, hx, ht, Bool.false_eq_true, if_false, String.toList_ofList]
    by_cases hs : '*' ∈ pair.2.toList
    · obtain ⟨start, rest, he, hn⟩ := List.eq_append_cons_of_mem hs
      rw [he, Text.replaceFirst_append_cons _ _ hn]
      exact .wildcard hk hc hn
    · rw [Text.replaceFirst_of_not_mem _ hs]
      exact .fixed hs
  · have hx : found.mapping.pattern.isExact = true := by
      simp [hm, Mapping.ofPair, Pattern.compiled, hk, Pattern.isExact]
    have ht : found.mapping.target = pair.2 := by rw [hm]; rfl
    simp only [filled, hx, ht, if_true]
    exact .literal hk

theorem destination_eq (found : Match) (base : Path) :
    found.destination base = anchored base found.filled := by
  unfold destination anchored
  rcases h : found.filled.toList with - | ⟨c, rest⟩
  · simp
  · by_cases hc : c = '.'
    · simp [hc]
    · simp [hc]

@[simp] theorem toRedirect_mapping (found : Match) (base : Path) :
    (found.toRedirect base).mapping = found.mapping := by rw [toRedirect]

@[simp] theorem toRedirect_innerRequest (found : Match) (base : Path) :
    (found.toRedirect base).innerRequest = found.specifier := by rw [toRedirect]

@[simp] theorem toRedirect_specifier (found : Match) (base : Path) :
    (found.toRedirect base).specifier = anchored base found.filled := by
  rw [toRedirect, destination_eq]

@[simp] theorem toRedirect_description (found : Match) (base : Path) :
    (found.toRedirect base).description = found.description (anchored base found.filled) := by
  rw [toRedirect, destination_eq]

theorem redirects_toRedirect {pair : String × String} {specifier : String} {found : Match}
    (base : Path) (hp : Pattern.wildcards pair.1 < 2) (hs : specifier ≠ "")
    (hf : (Mapping.ofPair pair).match? (some specifier) = some found) :
    Redirects base pair specifier (found.toRedirect base) := by
  obtain ⟨hm, rfl, hc⟩ := (Mapping.match?_ofPair_iff hs).mp hf
  constructor
  · simp [hm]
  · simp [hm]
  · simp [hm, Pattern.ofAlias_eq, hp]
  · simp
  · exact ⟨_, fills_filled hm hc, by simp⟩
  · rw [toRedirect_description, toRedirect_specifier, ← Mapping.ofPair_key, ← hm]
    rfl

end Match

theorem Redirects.unique {base : Path} {pair : String × String} {specifier : String}
    {first second : Redirect} (hf : Redirects base pair specifier first)
    (hs : Redirects base pair specifier second) : first = second := by
  obtain ⟨filled, hff, hfd⟩ := hf.destination
  obtain ⟨other, hsf, hsd⟩ := hs.destination
  have hspec : first.specifier = second.specifier := by rw [hfd, hsd, hff.unique hsf]
  have hpat : first.mapping.pattern = second.mapping.pattern :=
    Except.ok.inj (hf.pattern.symm.trans hs.pattern)
  have hmap : first.mapping = second.mapping := by
    obtain ⟨specifier, description, ⟨key, pattern, target⟩, inner⟩ := first
    obtain ⟨specifier', description', ⟨key', pattern', target'⟩, inner'⟩ := second
    simp only [Mapping.mk.injEq]
    exact ⟨hf.key.trans hs.key.symm, hpat, hf.target.trans hs.target.symm⟩
  have hdesc : first.description = second.description := by
    rw [hf.description, hs.description, hspec]
  have hinner := hf.innerRequest.trans hs.innerRequest.symm
  cases first
  cases second
  simp_all only

namespace Table

variable {paths : Entries (List String)} {base : Path}

/-- What one pair finds in a specifier. -/
def claim? (specifier : String) (pair : String × String) : Option Match :=
  if (Mapping.ofPair pair).isTypings then none else (Mapping.ofPair pair).match? (some specifier)

theorem claim?_eq_none_iff {specifier : String} {pair : String × String}
    (hp : Pattern.wildcards pair.1 < 2) (hs : specifier ≠ "") :
    claim? specifier pair = none ↔ ¬ Applies pair specifier := by
  have ht := Mapping.isTypings_iff (Mapping.ofPair pair)
  rw [Mapping.ofPair_target] at ht
  have hc : (∃ found, (Mapping.ofPair pair).match? (some specifier) = some found) ↔
      Claims pair.1.toList specifier.toList := by
    rw [← Pattern.exists_captures_iff hp]
    constructor
    · rintro ⟨found, hf⟩
      exact ⟨_, ((Mapping.match?_ofPair_iff hs).mp hf).2.2⟩
    · rintro ⟨captured, h⟩
      exact ⟨⟨Mapping.ofPair pair, specifier, String.ofList captured⟩,
        (Mapping.match?_ofPair_iff hs).mpr ⟨rfl, rfl, by simpa using h⟩⟩
  rw [Applies, ← ht, ← hc, claim?]
  cases (Mapping.ofPair pair).isTypings with
  | true => simp
  | false =>
    cases (Mapping.ofPair pair).match? (some specifier) <;> simp

theorem findSome?_filter_claims (specifier : String) (all : List (String × String)) :
    ((all.map Mapping.ofPair).filter (!·.isTypings)).findSome? (·.match? (some specifier)) =
      all.findSome? (claim? specifier) := by
  induction all with
  | nil => rfl
  | cons pair rest ih =>
    cases h : (Mapping.ofPair pair).isTypings with
    | true => simp [h, claim?, ih]
    | false => simp [h, claim?, ih, List.findSome?_cons]

/-- A table compiled from a configuration whose aliases all have patterns. -/
structure Compiled (table : Table) (paths : Entries (List String)) (base : Path) : Prop where
  mappings : table.mappings = (pairs paths).map Mapping.ofPair
  baseDirectory : table.baseDirectory = base
  wildcards : ∀ pair ∈ pairs paths, Pattern.wildcards pair.1 < 2

variable {table : Table}

theorem resolve_of_not_asked {asked : Option String} (ha : asked = none ∨ asked = some "") :
    table.resolve asked = .passthrough := by
  have hn : ∀ m : Mapping, m.match? asked = none := by
    rcases ha with rfl | rfl <;> simp [Mapping.match?]
  have hf : table.match? asked = none := List.findSome?_eq_none_iff.mpr fun m _ => hn m
  rw [resolve, hf, Action.ofMatch]

namespace Compiled

variable (compiled : table.Compiled paths base)

include compiled

theorem resolve_eq (specifier : String) :
    table.resolve (some specifier) =
      .ofMatch base ((pairs paths).findSome? (claim? specifier)) := by
  rw [resolve, match?, active, compiled.mappings, compiled.baseDirectory,
    findSome?_filter_claims]

theorem claim?_eq_none_iff {specifier : String} {pair : String × String} (hs : specifier ≠ "")
    (hm : pair ∈ pairs paths) : claim? specifier pair = none ↔ ¬ Applies pair specifier :=
  Table.claim?_eq_none_iff (compiled.wildcards pair hm) hs

theorem redirects_of_claim? {specifier : String} {pair : String × String} {found : Match}
    (hs : specifier ≠ "") (hm : pair ∈ pairs paths) (hc : claim? specifier pair = some found) :
    Redirects base pair specifier (found.toRedirect base) := by
  unfold claim? at hc
  split at hc
  · contradiction
  · exact Match.redirects_toRedirect base (compiled.wildcards pair hm) hs hc

theorem resolves_resolve (asked : Option String) :
    Resolves paths base asked (table.resolve asked) := by
  by_cases ha : asked = none ∨ asked = some ""
  · rw [resolve_of_not_asked ha]
    exact .nothingAsked ha
  · obtain ⟨specifier, rfl⟩ := Option.ne_none_iff_exists'.mp fun h => ha (.inl h)
    have hs : specifier ≠ "" := fun h => ha (.inr (by rw [h]))
    rw [compiled.resolve_eq]
    cases hf : (pairs paths).findSome? (claim? specifier) with
    | none =>
      refine .unclaimed hs fun pair hm => (compiled.claim?_eq_none_iff hs hm).mp ?_
      exact List.findSome?_eq_none_iff.mp hf pair hm
    | some found =>
      obtain ⟨earlier, pair, later, hp, hc, hn⟩ := List.findSome?_eq_some_iff.mp hf
      have hm : pair ∈ pairs paths := by simp [hp]
      refine .claimed hs hp ?_ ?_ (compiled.redirects_of_claim? hs hm hc)
      · intro other ho
        exact (compiled.claim?_eq_none_iff hs (by simp [hp, ho])).mp (hn other ho)
      · have := mt (compiled.claim?_eq_none_iff hs hm).mpr (by simp [hc])
        exact Classical.not_not.mp this

theorem resolve_eq_of_resolves {asked : Option String} {action : Action}
    (h : Resolves paths base asked action) : table.resolve asked = action := by
  cases h with
  | nothingAsked ha => exact resolve_of_not_asked ha
  | unclaimed hs hn =>
    have hf : (pairs paths).findSome? (claim? _) = none :=
      List.findSome?_eq_none_iff.mpr fun pair hm =>
        (compiled.claim?_eq_none_iff hs hm).mpr (hn pair hm)
    rw [compiled.resolve_eq, hf, Action.ofMatch]
  | @claimed specifier earlier later pair redirect hs hp first ha hr =>
    have hm : pair ∈ pairs paths := by simp [hp]
    obtain ⟨found, hc⟩ : ∃ found, claim? specifier pair = some found :=
      Option.ne_none_iff_exists'.mp fun hn => (compiled.claim?_eq_none_iff hs hm).mp hn ha
    have hf : (pairs paths).findSome? (claim? specifier) = some found := by
      refine List.findSome?_eq_some_iff.mpr ⟨earlier, pair, later, hp, hc, ?_⟩
      intro other ho
      exact (compiled.claim?_eq_none_iff hs (by simp [hp, ho])).mpr (first other ho)
    rw [compiled.resolve_eq, hf, Action.ofMatch]
    exact congrArg Action.redirect ((compiled.redirects_of_claim? hs hm hc).unique hr)

end Compiled

section Settings

variable {current base : Path} {settings : Settings} {mappings : List Mapping} {table : Table}

theorem ofSettings_of_refused {fault : PatternError}
    (hm : Mapping.ofPaths settings.paths = .error fault) :
    ofSettings current settings = .error (.pattern fault) := by
  rw [ofSettings, hm]
  rfl

theorem ofSettings_of_compiled (hm : Mapping.ofPaths settings.paths = .ok mappings)
    (hb : settings.baseDirectory current = .ok base) :
    ofSettings current settings = .ok ⟨mappings, base, settings.baseUrl⟩ := by
  rw [ofSettings, hm, hb]
  rfl

/-- What a table has been compiled from. -/
theorem exists_of_ofSettings (h : ofSettings current settings = .ok table) :
    ∃ mappings base, Mapping.ofPaths settings.paths = .ok mappings ∧
      settings.baseDirectory current = .ok base ∧ table = ⟨mappings, base, settings.baseUrl⟩ := by
  cases hm : Mapping.ofPaths settings.paths with
  | error fault =>
    rw [ofSettings_of_refused hm] at h
    cases h
  | ok mappings =>
    cases hb : settings.baseDirectory current with
    | error fault =>
      rw [ofSettings, hm, hb] at h
      cases h
    | ok base =>
      rw [ofSettings_of_compiled hm hb] at h
      exact ⟨mappings, base, rfl, rfl, (Except.ok.inj h).symm⟩

end Settings

/-- The base URL of a configuration as a path is joined to it: the directory itself when it has
none. -/
def baseText : Option String → String
  | none => "."
  | some text => if text = "" then "." else text

theorem baseDirectory_eq (current : Path) (file : String) (baseUrl : Option String)
    (paths : Entries (List String)) :
    Settings.baseDirectory current ⟨file, baseUrl.elim .null .string, paths⟩ =
      .ok ((Path.ofString (Path.directoryOf file) / Path.ofString (baseText baseUrl)).absolute
        current) := by
  have hdot : Path.ofString "." = ⟨.relative, []⟩ := by decide
  have hjoin : ∀ p : Path, p / ⟨.relative, []⟩ = p := fun p => by
    change Path.join p _ = p
    simp [Path.join, Path.isAbsolute]
  rcases baseUrl with - | text
  · simp [Settings.baseDirectory, Value.isVacant, baseText, Settings.directory, hdot, hjoin]
  · by_cases ht : text = ""
    · simp [Settings.baseDirectory, Value.isVacant, baseText, Settings.directory, hdot, hjoin, ht]
    · simp [Settings.baseDirectory, Value.isVacant, baseText, Settings.directory, ht]

/-- A configuration is refused for its first alias with several wildcards; without one it gives a
table, and the table resolves every specifier as the texts of the configuration say. -/
theorem resolve_eq_iff_resolves (current : Path) (file : String) (baseUrl : Option String)
    (paths : Entries (List String)) :
    match paths.find? fun entry => 2 ≤ Pattern.wildcards entry.1 with
    | some (key, _) =>
      ofSettings current ⟨file, baseUrl.elim .null .string, paths⟩ =
        .error (.pattern (.severalWildcards key (Pattern.wildcards key)))
    | none =>
      ∃ table, ofSettings current ⟨file, baseUrl.elim .null .string, paths⟩ = .ok table ∧
        table.baseDirectory = (Path.ofString (Path.directoryOf file) /
          Path.ofString (baseText baseUrl)).absolute current ∧
        ∀ asked action, table.resolve asked = action ↔
          Resolves paths table.baseDirectory asked action := by
  have hm := Mapping.ofPaths_eq paths
  cases hf : paths.find? fun entry => 2 ≤ Pattern.wildcards entry.1 with
  | some entry =>
    rw [hf] at hm
    exact ofSettings_of_refused hm
  | none =>
    rw [hf] at hm
    have hb := baseDirectory_eq current file baseUrl paths
    generalize (Path.ofString (Path.directoryOf file) /
      Path.ofString (baseText baseUrl)).absolute current = base at hb ⊢
    let table : Table := ⟨(pairs paths).map Mapping.ofPair, base, baseUrl.elim .null .string⟩
    have hw : ∀ pair ∈ pairs paths, Pattern.wildcards pair.1 < 2 := by
      intro pair hp
      obtain ⟨⟨key, targets⟩, he, ht⟩ := List.mem_flatMap.mp hp
      obtain ⟨target, -, rfl⟩ := List.mem_map.mp ht
      simpa using List.find?_eq_none.mp hf _ he
    have compiled : table.Compiled paths base := ⟨rfl, rfl, hw⟩
    refine ⟨table, ?_, rfl, fun asked action => ⟨?_, compiled.resolve_eq_of_resolves⟩⟩
    · exact ofSettings_of_compiled hm hb
    · rintro rfl
      exact compiled.resolves_resolve asked

end Table

end ImportAlias
