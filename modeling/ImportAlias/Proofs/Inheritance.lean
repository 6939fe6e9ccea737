import ImportAlias.Proofs.SharedFiles
import Mathlib

/-!
# Inheriting from several configurations

A configuration should inherit what its entries declare when each is loaded on
its own. It inherits what the walk through its lineage finds instead, where a
file that an earlier entry led to is passed over. Both give the same for a key
unless passing over changes which file is the last one to set it.
-/

namespace ImportAlias

namespace Declaration

/-- The paths of the last declaration that has some. -/
def lastPaths (declarations : List Declaration) : Value :=
  (declarations.reverse.find? fun d => !d.paths.isNull).elim .null Declaration.paths

/-- The base URL of the last declaration that has one. -/
def lastBaseUrl (declarations : List Declaration) : Option Path :=
  declarations.reverse.findSome? Declaration.baseUrl

theorem latest_concat (declarations : List Declaration) (last : Declaration) :
    latest (declarations ++ [last]) = last.overriding (latest declarations) := by
  rw [latest_append, latest_singleton]

theorem latest_paths (declarations : List Declaration) :
    (latest declarations).paths = lastPaths declarations := by
  induction declarations using List.reverseRecOn with
  | nil => rfl
  | append_singleton declarations last ih =>
    rw [latest_concat, lastPaths, List.reverse_concat, List.find?_cons, overriding, ih, lastPaths]
    cases last.paths.isNull <;> rfl

theorem latest_baseUrl (declarations : List Declaration) :
    (latest declarations).baseUrl = lastBaseUrl declarations := by
  induction declarations using List.reverseRecOn with
  | nil => rfl
  | append_singleton declarations last ih =>
    rw [latest_concat, lastBaseUrl, List.reverse_concat, List.findSome?_cons, overriding, ih,
      lastBaseUrl]
    cases last.baseUrl <;> rfl

/-- Declarations can be merged in groups. -/
theorem latest_map_latest {α : Type} (groups : List α) (declared : α → List Declaration) :
    latest (groups.map fun group => latest (declared group)) =
      latest (groups.flatMap declared) := by
  induction groups with
  | nil => rfl
  | cons group groups ih =>
    rw [List.map_cons, latest_cons, ih, List.flatMap_cons, latest_append]

end Declaration

open Declaration (latest lastPaths lastBaseUrl)

namespace FileTree

variable {tree : FileTree} {file place : Path} {own : Declaration} {parents : List Lineage}

/-- What a file declares with those it extends, in a load of its own. -/
def declaredAlone (tree : FileTree) (file : Path) : Except Error Declaration :=
  (tree.declared (tree.files.length + 1) file).result

/-- What the entries of a file declare, each in a load of its own. -/
def entriesAlone (tree : FileTree) (file : Path) : Except Error (List Declaration) := do
  let entries ← tree.readObject file
  let (_, extended) ← Declaration.ofEntries file entries
  extended.mapM fun entry => do tree.declaredAlone (← tree.extendedFile file entry)

theorem declaredAlone_eq {lineage : Lineage} (hu : Unfolds tree file lineage)
    (hh : lineage.height ≤ tree.files.length + 1) :
    tree.declaredAlone file = .ok (latest (lineage.walk []).2) := by
  obtain ⟨later, hg, -⟩ := gives_declared hu hh []
  have hr : (tree.declared (tree.files.length + 1) file).start = (.ok _, later) := hg
  rw [declaredAlone, Load.result, hr]
  rfl

theorem mapM_declaredAlone {extended : List String} (hu : UnfoldsAll tree file extended parents)
    (hh : Lineage.heightAll parents ≤ tree.files.length + 1) :
    (extended.mapM fun entry => do tree.declaredAlone (← tree.extendedFile file entry)) =
      .ok (parents.map fun parent => latest (parent.walk []).2) := by
  induction parents generalizing extended with
  | nil =>
    cases hu
    rfl
  | cons parent others ih =>
    cases hu with
    | cons he hn hs =>
      obtain ⟨hfirst, hothers⟩ := Nat.max_le.mp hh
      rw [List.mapM_cons, he]
      change (tree.declaredAlone _ >>= _) = _
      rw [declaredAlone_eq hn hfirst, ih hs hothers]
      rfl

theorem entriesAlone_eq (hu : Unfolds tree file (.node place own parents))
    (hh : Lineage.heightAll parents ≤ tree.files.length + 1) :
    tree.entriesAlone file = .ok (parents.map fun parent => latest (parent.walk []).2) := by
  cases hu with
  | node hr ho hp =>
    rw [entriesAlone, hr]
    change (Declaration.ofEntries file _ >>= _) = _
    rw [ho]
    exact mapM_declaredAlone hp hh

theorem declaredAlone_node (hu : Unfolds tree file (.node place own parents))
    (hh : Lineage.heightAll parents ≤ tree.files.length) :
    tree.declaredAlone file =
      .ok (own.overriding (latest (Lineage.walkAll [place] parents).2)) := by
  have hd : (Lineage.node place own parents).height ≤ tree.files.length + 1 := by
    rw [Lineage.height]
    omega
  rw [declaredAlone_eq hu hd, Lineage.walk, if_neg List.not_mem_nil, Declaration.latest_concat]
  rfl

/-- When a file that loads with all that it extends inherits as its entries say. What it declares is
always found, and so is what its entries declare alone. The paths are its own or those of the last
entry that has some, exactly if it has its own or passing files over keeps the last paths among the
declarations below it; for the base URL the same holds on its own. Nothing differs when no place is
below two entries. When every place extends the same wherever it comes, the entries give what they
would declare alone if the files below earlier entries declared nothing. -/
theorem declared_composes_iff (hc : tree.current.anchor = .root)
    (hu : Unfolds tree file (.node place own parents))
    (ha : (Lineage.node place own parents).Acyclic []) :
    ∃ (found : Declaration) (alone : List Declaration),
      tree.declaredAlone file = .ok found ∧ tree.entriesAlone file = .ok alone ∧
      (found.paths = (if own.paths.isNull then lastPaths alone else own.paths) ↔
        own.paths.isNull = true → lastPaths (Lineage.walkAll [place] parents).2 =
          lastPaths (parents.flatMap fun parent => (parent.walk []).2)) ∧
      (found.baseUrl = own.baseUrl.or (lastBaseUrl alone) ↔
        own.baseUrl = none → lastBaseUrl (Lineage.walkAll [place] parents).2 =
          lastBaseUrl (parents.flatMap fun parent => (parent.walk []).2)) ∧
      (Lineage.Apart parents → found = own.overriding (latest alone)) ∧
      ∀ graph, Lineage.FollowsAll graph parents →
        found = own.overriding (latest ((Lineage.silenced [] parents).map fun parent =>
          latest (parent.walk []).2)) := by
  have hh : Lineage.heightAll parents ≤ tree.files.length := by
    have hle := height_le_files hc hu ha List.nodup_nil (by simp)
    rw [Lineage.height, List.length_nil] at hle
    omega
  have halone : latest (parents.map fun parent => latest (parent.walk []).2) =
      latest (parents.flatMap fun parent => (parent.walk []).2) :=
    Declaration.latest_map_latest parents _
  refine ⟨_, _, declaredAlone_node hu hh, entriesAlone_eq hu (by omega), ?_, ?_, ?_, ?_⟩
  · rw [← Declaration.latest_paths, ← Declaration.latest_paths, ← Declaration.latest_paths, halone,
      Declaration.overriding]
    by_cases hn : own.paths.isNull = true <;> simp [hn]
  · rw [← Declaration.latest_baseUrl, ← Declaration.latest_baseUrl, ← Declaration.latest_baseUrl,
      halone, Declaration.overriding]
    cases own.baseUrl <;> simp
  · intro hap
    have hs : ∀ other ∈ Lineage.placesAll parents, other ∉ [place] :=
      Lineage.not_mem_aboveAll parents ha.2
    rw [Lineage.walkAll_of_apart hap hs, halone]
  · intro graph hf
    have hnone : Lineage.Closed graph [] := by simp [Lineage.Closed]
    have hplace : ∀ other, other ∈ [place] ↔ other ∈ [] ∨ other ∈ [place] := by simp
    rw [Lineage.latest_walkAll_eq_silenced hf ha.2 hnone hplace]

theorem readObject_eq {bytes : List UInt8} {text : List Char} {entries : Entries Value}
    (hr : tree.read file = .ok bytes) (hd : Text.decodeMarkedUtf8 bytes = .ok text)
    (hj : Json.read (Json.stripComments (Text.unifyNewlines text)) = .ok (.object entries)) :
    tree.readObject file = .ok entries := by
  have ht : (Text.decodeMarkedUtf8 bytes).mapError
      (fun cause => Error.unreported (.notUtf8 cause)) = .ok text := by
    rw [hd]
    rfl
  rw [readObject, hr]
  change ((Text.decodeMarkedUtf8 bytes).mapError _ >>= _) = _
  rw [ht]
  simp only [bind, Except.bind, hj]
  rfl

end FileTree

namespace Diamond

def bottomText : String :=
  "\x7b\"extends\": [\"./left.json\", \"./right.json\"]\x7d"

def leftText : String :=
  "\x7b\"extends\": \"./top.json\", " ++
    "\"compilerOptions\": \x7b\"paths\": \x7b\"a\": \"x\"\x7d\x7d\x7d"

def rightText : String :=
  "\x7b\"extends\": \"./top.json\"\x7d"

def topText : String :=
  "\x7b\"compilerOptions\": \x7b\"paths\": \x7b\"b\": \"y\"\x7d\x7d\x7d"

/-- Two entries that extend one file. The first has paths of its own. -/
def tree : FileTree where
  files := [
    (["p", "tsconfig.json"], bottomText.toUTF8.toList),
    (["p", "left.json"], leftText.toUTF8.toList),
    (["p", "right.json"], rightText.toUTF8.toList),
    (["p", "top.json"], topText.toUTF8.toList)]
  directories := [["p"]]
  current := ⟨.root, ["p"]⟩

def bottom : Path := ⟨.root, ["p", "tsconfig.json"]⟩
def left : Path := ⟨.root, ["p", "left.json"]⟩
def right : Path := ⟨.root, ["p", "right.json"]⟩
def top : Path := ⟨.root, ["p", "top.json"]⟩

def leftPaths : Value := .object [("a", .string "x")]
def topPaths : Value := .object [("b", .string "y")]

def topLineage : Lineage := .node top ⟨topPaths, none⟩ []

def entries : List Lineage :=
  [.node left ⟨leftPaths, none⟩ [topLineage], .node right .empty [topLineage]]

set_option maxRecDepth 4000 in
theorem readObject_left : tree.readObject left = .ok [("extends", .string "./top.json"),
    ("compilerOptions", .object [("paths", leftPaths)])] := by
  have hb : tree.read left = .ok leftText.toUTF8.toList := rfl
  exact FileTree.readObject_eq hb (by cbv) (by cbv)

theorem readObject_right : tree.readObject right = .ok [("extends", .string "./top.json")] := by
  have hb : tree.read right = .ok rightText.toUTF8.toList := rfl
  exact FileTree.readObject_eq hb (by cbv) (by cbv)

theorem readObject_bottom : tree.readObject bottom =
    .ok [("extends", .array [.string "./left.json", .string "./right.json"])] := by
  have hb : tree.read bottom = .ok bottomText.toUTF8.toList := rfl
  exact FileTree.readObject_eq hb (by cbv) (by cbv)

theorem readObject_top :
    tree.readObject top = .ok [("compilerOptions", .object [("paths", topPaths)])] := by
  have hb : tree.read top = .ok topText.toUTF8.toList := rfl
  exact FileTree.readObject_eq hb (by cbv) (by cbv)

theorem unfolds_top {file : Path} (he : tree.extendedFile file "./top.json" = .ok top) :
    UnfoldsAll tree file ["./top.json"] [topLineage] :=
  .cons he (.node readObject_top rfl (.nil top)) (.nil file)

theorem unfolds : Unfolds tree bottom (.node bottom .empty entries) := by
  have hleft : Unfolds tree left (.node left ⟨leftPaths, none⟩ [topLineage]) :=
    .node readObject_left rfl (unfolds_top rfl)
  have hright : Unfolds tree right (.node right .empty [topLineage]) :=
    .node readObject_right rfl (unfolds_top rfl)
  exact .node readObject_bottom rfl (.cons rfl hleft (.cons rfl hright (.nil bottom)))

theorem acyclic : (Lineage.node bottom .empty entries).Acyclic [] := by
  simp [Lineage.Acyclic, Lineage.AcyclicAll, entries, topLineage, bottom, left, right, top]

theorem leftPaths_ne_topPaths : leftPaths ≠ topPaths := by
  simp [leftPaths, topPaths]

theorem follows :
    Lineage.FollowsAll (fun place => if place = top then [] else [top]) entries := by
  simp [Lineage.FollowsAll, Lineage.Follows, Lineage.place, entries, topLineage, left, right, top]

theorem declared_composes_iff_diamond :
    ∃ (found : Declaration) (alone : List Declaration),
      tree.declaredAlone bottom = .ok found ∧ tree.entriesAlone bottom = .ok alone ∧
      found.paths ≠ lastPaths alone ∧ found.paths = leftPaths ∧
      found.baseUrl = lastBaseUrl alone := by
  obtain ⟨found, alone, hf, ha, hp, hb, -, hg⟩ :=
    FileTree.declared_composes_iff rfl unfolds acyclic
  have hleft : found.paths = leftPaths := by
    rw [hg _ follows]
    rfl
  refine ⟨found, alone, hf, ha, ?_, hleft, hb.mpr fun _ => rfl⟩
  intro h
  exact leftPaths_ne_topPaths (hp.mp h rfl)

/-- The last entry alone has paths, and those of the first one are inherited. -/
theorem diamond_not_composed :
    ∃ (own : Declaration) (parents : List Lineage) (found : Declaration)
      (alone : List Declaration),
      Unfolds tree bottom (.node bottom own parents) ∧
      (Lineage.node bottom own parents).Acyclic [] ∧
      tree.declaredAlone bottom = .ok found ∧ tree.entriesAlone bottom = .ok alone ∧
      found.paths ≠ if own.paths.isNull then lastPaths alone else own.paths := by
  have hh : Lineage.heightAll entries ≤ tree.files.length := by decide
  refine ⟨_, entries, _, _, unfolds, acyclic, FileTree.declaredAlone_node unfolds hh,
    FileTree.entriesAlone_eq unfolds (by omega), ?_⟩
  exact leftPaths_ne_topPaths

end Diamond

end ImportAlias
