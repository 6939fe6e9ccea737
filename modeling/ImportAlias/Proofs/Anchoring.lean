import ImportAlias.Proofs.BaseDirectory
import ImportAlias.Proofs.Expansion

/-!
# Where dotted targets lead

A target that starts with a dot, once its wildcard is filled in, is a path from the
base directory, and any other one is left alone. So no redirect starts with a dot. A
path from the base directory is followed part by part and may leave it, but not the
root; the place that it leads to is written without anything that is left to resolve,
and so it means the same wherever it is read.
-/

namespace ImportAlias

open ImportAlias.Path (Follows IsName joinTexts ofString segments)

/-- A text is followed from a base directory, and `place` is where it leads to: below the same root,
with nothing left to resolve. -/
structure Anchors (base text place : String) : Prop where
  follows : ∃ root start last, (root = "/" ∨ root = "//") ∧
    base = root ++ "/".intercalate start ∧ (∀ name ∈ start, IsName name) ∧
    Follows start (segments text) last ∧
    place = root ++ "/".intercalate last ∧ (∀ name ∈ last, IsName name) ∧
    (last ≠ [] → place.toList.getLast? ≠ some '/')
  stays : ∀ (directory : String) (current : Path),
    ((ofString (joinTexts directory place)).absolute current).toString = place

theorem Anchors.head?_eq {base text place : String} (h : Anchors base text place) :
    place.toList.head? = some '/' := by
  obtain ⟨root, start, last, hr, -, -, -, rfl, -⟩ := h.follows
  rcases hr with rfl | rfl <;> simp

/-- A text that is not absolute is anchored at the place that it leads to. -/
theorem anchors_normalize {path : Path} (hw : path.Written) (ha : path.isAbsolute = true)
    {text : String} (ht : (ofString text).isAbsolute = false) :
    Anchors path.normalize.toString text (path.normalize / ofString text).normalize.toString := by
  have hbase : path.normalize.isAbsolute = true := ha
  have hplace : (path.normalize / ofString text).isAbsolute = true := Path.isAbsolute_div hbase
  have hread : (path.normalize / ofString text).Written :=
    hw.normalize.div (Path.written_ofString text)
  have hnames : ∀ name ∈ (path.normalize / ofString text).normalize.names, IsName name :=
    fun _ => Path.isName_of_mem_normalize hread hplace
  have hwritten : (path.normalize / ofString text).normalize.toString = path.anchor.toString ++
      "/".intercalate (path.normalize / ofString text).normalize.names := by
    have htext := Path.toString_of_isAbsolute ((Path.isAbsolute_normalize _).trans hplace)
    rw [htext, Path.div_of_relative ht]
    rfl
  constructor
  · refine ⟨path.anchor.toString, path.normalize.names,
      (path.normalize / ofString text).normalize.names, Path.toString_anchor ha,
      Path.toString_of_isAbsolute hbase, fun _ => Path.isName_of_mem_normalize hw ha,
      Path.follows_normalize hbase (Path.normalize_normalize path) ht, hwritten, hnames,
      fun hne => ?_⟩
    rw [hwritten]
    exact Path.getLast?_below hne hnames
  · exact (Path.canonical_normalize hread hplace).absolute_eq

/-- What a mapping makes of its target once the wildcard of its alias stands for a text. A literal
alias has no text for the target. -/
inductive Substitutes (captured : String) : Mapping → String → Prop
  | literal {key text target : String} : Substitutes captured ⟨key, .exact text, target⟩ target
  | wildcard {key before after target filled : String} (h : Expands captured target filled) :
    Substitutes captured ⟨key, .wildcard before after, target⟩ filled

theorem Match.substitutes_filled (found : Match) :
    Substitutes found.captured found.mapping found.filled := by
  obtain ⟨⟨key, pattern, target⟩, specifier, captured⟩ := found
  cases pattern with
  | exact text => exact .literal
  | wildcard before after => exact .wildcard (expands_filled rfl)

theorem Mapping.captured_of_match? {mapping : Mapping} {asked : Option String} {found : Match}
    (h : mapping.match? asked = some found) :
    asked = some found.specifier ∧ found.mapping = mapping ∧
      mapping.pattern.capture? found.specifier = some found.captured := by
  unfold match? at h
  split at h
  · cases h
  · split at h
    · cases h
    · obtain ⟨captured, hc, rfl⟩ := Option.map_eq_some_iff.mp h
      exact ⟨rfl, rfl, hc⟩

namespace Table

variable {current : Path} {settings : Settings} {table : Table} {asked : Option String}
  {redirect : Redirect}

theorem resolveWith_eq_redirect_iff {mapping : Mapping} :
    table.resolveWith mapping asked = .redirect redirect ↔
      ∃ found, mapping.match? asked = some found ∧
        found.toRedirect table.baseDirectory = redirect := by
  rw [resolveWith]
  cases mapping.match? asked <;> simp [Action.ofMatch]

theorem exists_mapping_of_resolve (h : table.resolve asked = .redirect redirect) :
    ∃ mapping, table.resolveWith mapping asked = .redirect redirect := by
  rw [resolve] at h
  cases hm : table.match? asked with
  | none =>
    rw [hm] at h
    cases h
  | some found =>
    rw [hm] at h
    obtain ⟨mapping, -, hf⟩ := List.exists_of_findSome?_eq_some hm
    exact ⟨mapping, resolveWith_eq_redirect_iff.mpr ⟨found, hf, Action.redirect.inj h⟩⟩

theorem exists_baseDirectory (hf : settings.file.toList.head? = some '/')
    (ht : ofSettings current settings = .ok table) :
    ∃ path : Path, path.Written ∧ path.isAbsolute = true ∧
      table.baseDirectory = path.normalize := by
  obtain ⟨mappings, base, -, hb, rfl⟩ := exists_of_ofSettings ht
  exact Settings.exists_of_baseDirectory hf hb

/-- No redirect starts with a dot. What is filled in comes out as it is, unless it starts with a
dot; then it is followed from the base directory, and the place that it leads to is canonical and
stays as it is when it is resolved again. -/
theorem redirect_anchored (hf : settings.file.toList.head? = some '/')
    (ht : ofSettings current settings = .ok table)
    (hr : table.resolve asked = .redirect redirect ∨
      ∃ mapping, table.resolveWith mapping asked = .redirect redirect) :
    redirect.specifier.toList.head? ≠ some '.' ∧
    ∃ captured filled, asked = some redirect.innerRequest ∧
      redirect.mapping.pattern.capture? redirect.innerRequest = some captured ∧
      Substitutes captured redirect.mapping filled ∧
      (filled.toList.head? = some '.' →
        Anchors table.baseDirectory.toString filled redirect.specifier) ∧
      (filled.toList.head? ≠ some '.' → redirect.specifier = filled) := by
  obtain ⟨mapping, hr⟩ := hr.elim exists_mapping_of_resolve id
  obtain ⟨found, hm, rfl⟩ := resolveWith_eq_redirect_iff.mp hr
  obtain ⟨rfl, rfl, hcapture⟩ := Mapping.captured_of_match? hm
  obtain ⟨path, hw, ha, hbase⟩ := exists_baseDirectory hf ht
  have hanchors : found.filled.toList.head? = some '.' →
      Anchors table.baseDirectory.toString found.filled
        (found.toRedirect table.baseDirectory).specifier := by
    intro hdot
    have hrelative : (ofString found.filled).isAbsolute = false := by
      refine Bool.eq_false_iff.mpr (mt Path.isAbsolute_ofString_iff.mp ?_)
      rw [hdot]
      decide
    rw [Match.toRedirect_specifier, anchored, if_pos hdot, hbase]
    exact anchors_normalize hw ha hrelative
  have hkept : found.filled.toList.head? ≠ some '.' →
      (found.toRedirect table.baseDirectory).specifier = found.filled := by
    intro hdot
    rw [Match.toRedirect_specifier, anchored, if_neg hdot]
  refine ⟨?_, found.captured, found.filled, ?_, ?_, ?_, hanchors, hkept⟩
  · by_cases hdot : found.filled.toList.head? = some '.'
    · rw [(hanchors hdot).head?_eq]
      decide
    · rwa [hkept hdot]
  · rw [Match.toRedirect_innerRequest]
  · rwa [Match.toRedirect_mapping, Match.toRedirect_innerRequest]
  · rw [Match.toRedirect_mapping]
    exact found.substitutes_filled

end Table

namespace Climbing

def settings : Settings :=
  ⟨"//p/a/tsconfig.json", .null, [("@/*", ["../*"])]⟩

def mapping : Mapping :=
  ⟨"@/*", .wildcard "@/" "", "../*"⟩

def table : Table :=
  ⟨[mapping], ⟨.doubleRoot, ["p", "a"]⟩, .null⟩

def redirect : Redirect :=
  ⟨"//x/y", "aliased with mapping '@/../../.././x//y/': '@/*' to '//x/y'", mapping,
    "@/../../.././x//y/"⟩

theorem redirect_anchored_climbing :
    settings.file.toList.head? = some '/' ∧
    Table.ofSettings ⟨.root, ["w"]⟩ settings = .ok table ∧
    table.resolve (some "@/../../.././x//y/") = .redirect redirect ∧
    redirect.specifier.toList.head? ≠ some '.' ∧
    Anchors "//p/a" "../../../.././x//y/" "//x/y" := by
  have hf : settings.file.toList.head? = some '/' := by decide
  have ht : Table.ofSettings ⟨.root, ["w"]⟩ settings = .ok table := rfl
  have hr : table.resolve (some "@/../../.././x//y/") = .redirect redirect := by decide
  have hcapture : mapping.pattern.capture? "@/../../.././x//y/" = some "../../.././x//y/" := by
    decide
  have hexpands : Expands "../../.././x//y/" ("../" ++ "*" ++ "")
      ("../" ++ "../../.././x//y/" ++ "") := .wildcard (by decide)
  obtain ⟨hdot, captured, filled, -, hc, hs, hanchors, -⟩ :=
    Table.redirect_anchored hf ht (.inl hr)
  obtain rfl : "../../.././x//y/" = captured := Option.some.inj (hcapture.symm.trans hc)
  cases hs with
  | wildcard h =>
    obtain rfl := h.unique hexpands
    exact ⟨hf, ht, hr, hdot, hanchors (by decide)⟩

end Climbing

end ImportAlias
