import ImportAlias.Proofs.CanonicalPaths
import ImportAlias.Proofs.ProjectPaths

/-!
# Discovering a configuration

Without a file a load looks for one upwards from its context. Which file that is
can be told from the tree alone: it stands in the nearest directory that holds a
regular file with one of the names, and there it has the earliest such name. So
nothing changes if the search starts higher up, as long as it does not start above
that directory, or if the load is given the file that it finds. A context need not
exist, but one that is no path cannot be searched from.
-/

namespace ImportAlias

open ImportAlias.Path (IsName landing)

namespace Path

theorem IsName.ofString_eq {name : String} (h : IsName name) :
    ofString name = ⟨.relative, [name]⟩ := by
  have hwritten : Written ⟨.relative, [name]⟩ := by
    apply written_of_isName
    intro other ho
    rwa [List.mem_singleton.mp ho]
  have htext : toString ⟨.relative, [name]⟩ = name := by
    change "" ++ "/".intercalate [name] = name
    rw [String.empty_append, String.intercalate_singleton]
  rw [← hwritten.ofString_toString, htext]

theorem div_name {name : String} (h : IsName name) (directory : Path) :
    directory / ofString name = ⟨directory.anchor, directory.names ++ [name]⟩ := by
  rw [h.ofString_eq, div_of_relative rfl]

theorem resolve_eq_self {current path : Path} (hc : current.anchor = .root)
    (hr : path.isRepresentable = true) (hp : path.anchor = .root)
    (hn : ∀ name ∈ path.names, IsName name) : path.resolve current = path := by
  have hdots : ".." ∉ path.names := fun hm => (hn _ hm).ne_dots rfl
  rw [resolve_eq hc (isAbsolute_of_root hp) hr, landing_eq_self hdots]
  obtain ⟨anchor, names⟩ := path
  obtain rfl : anchor = .root := hp
  rfl

theorem Above.trans {top middle bottom : Path} (h : top.Above middle) (h' : middle.Above bottom) :
    top.Above bottom :=
  ⟨h.1.trans h'.1, h.2.trans h'.2⟩

theorem Above.isName {directory start : Path} (h : directory.Above start)
    (hn : ∀ name ∈ start.names, IsName name) : ∀ name ∈ directory.names, IsName name :=
  fun name hm => hn name (h.2.subset hm)

end Path

namespace FileTree

variable {tree : FileTree} {path directory start found : Path} {names : List String} {name : String}

/-- A directory of the tree with a regular file of this name in it. -/
structure HoldsFile (tree : FileTree) (directory : Path) (name : String) : Prop where
  isDirectory : tree.isDirectory directory = true
  file : ∃ content, tree.node? (directory.names ++ [name]) = some (.file content)

/-- A regular file is found under a name exactly in the directories that hold one. -/
theorem isFile_div_iff (ha : directory.isAbsolute = true)
    (hd : ∀ name ∈ directory.names, IsName name) (hn : IsName name) :
    tree.isFile (directory / Path.ofString name) = true ↔ tree.HoldsFile directory name := by
  have hplace : landing directory.names = directory.names :=
    Path.landing_eq_self fun hm => (hd _ hm).ne_dots rfl
  have hfile : landing (directory.names ++ [name]) = directory.names ++ [name] := by
    rw [Path.landing_concat, if_neg hn.ne_dots, hplace]
  have hdirectory : tree.isDirectory directory = true ↔
      tree.Leads directory.names ∧ tree.node? directory.names = some .directory := by
    rw [isDirectory_iff, lookup_eq_ok_iff ha, hplace]
  have habsolute : Path.isAbsolute ⟨directory.anchor, directory.names ++ [name]⟩ = true := ha
  rw [Path.div_name hn, isFile_iff]
  simp only [lookup_eq_ok_iff habsolute, hfile, leads_concat_iff, hplace]
  constructor
  · rintro ⟨content, hleads, hnode⟩
    exact ⟨hdirectory.mpr hleads, content, hnode⟩
  · rintro ⟨hleads, content, hnode⟩
    exact ⟨content, hdirectory.mp hleads, hnode⟩

/-- The nearest directory from `start` upwards that holds one of the names, and the earliest of them
that it holds. -/
structure NearestNamed (tree : FileTree) (start : Path) (names : List String) (directory : Path)
    (name : String) : Prop where
  above : directory.Above start
  holds : tree.HoldsFile directory name
  earliest : ∃ before after, names = before ++ name :: after ∧
    ∀ other ∈ before, ¬ tree.HoldsFile directory other
  nearest : ∀ nearer : Path, nearer.Above start → directory.names.length < nearer.names.length →
    ∀ other ∈ names, ¬ tree.HoldsFile nearer other

theorem NearestNamed.between {middle : Path} (h : tree.NearestNamed start names directory name)
    (hd : directory.Above middle) (hm : middle.Above start) :
    tree.NearestNamed middle names directory name :=
  ⟨hd, h.holds, h.earliest, fun nearer hn => h.nearest nearer (hn.trans hm)⟩

section Search

theorem find?_map_div_iff (hd : ∀ name ∈ names,
      tree.isFile (directory / Path.ofString name) = true ↔ tree.HoldsFile directory name) :
    (names.map fun name => directory / Path.ofString name).find? tree.isFile = some found ↔
      ∃ name, tree.HoldsFile directory name ∧
        (∃ before after, names = before ++ name :: after ∧
          ∀ other ∈ before, ¬ tree.HoldsFile directory other) ∧
        found = directory / Path.ofString name := by
  rw [List.find?_map, Option.map_eq_some_iff]
  apply exists_congr
  intro name
  rw [List.find?_eq_some_iff_append, Function.comp_apply]
  constructor
  · rintro ⟨⟨hfile, before, after, rfl, hbefore⟩, rfl⟩
    refine ⟨(hd name (by simp)).mp hfile, ⟨before, after, rfl, ?_⟩, rfl⟩
    intro other ho hholds
    have hother := (hd other (by simp [ho])).mpr hholds
    simpa [hother] using hbefore other ho
  · rintro ⟨hholds, ⟨before, after, rfl, hbefore⟩, rfl⟩
    refine ⟨⟨(hd name (by simp)).mpr hholds, before, after, rfl, ?_⟩, rfl⟩
    intro other ho
    have hother := mt (hd other (by simp [ho])).mp (hbefore other ho)
    simpa using hother

variable (ha : start.isAbsolute = true) (hs : ∀ name ∈ start.names, IsName name)
  (hn : ∀ name ∈ names, IsName name)

include ha hs hn

theorem isFile_of_above (hd : directory.Above start) :
    ∀ name ∈ names, tree.isFile (directory / Path.ofString name) = true ↔
      tree.HoldsFile directory name := by
  have habsolute : directory.isAbsolute = true := by
    rw [Path.isAbsolute, hd.1]
    exact ha
  intro name hname
  exact isFile_div_iff habsolute (hd.isName hs) (hn name hname)

theorem nearest?_eq_none_iff :
    tree.nearest? start names = none ↔
      ∀ directory : Path, directory.Above start →
        ∀ name ∈ names, ¬ tree.HoldsFile directory name := by
  rw [nearest?, List.find?_eq_none]
  simp only [named, List.mem_flatMap, Path.mem_selfAndAncestors_iff, List.mem_map]
  constructor
  · intro h directory hd name hname hholds
    exact h _ ⟨directory, hd, name, hname, rfl⟩
      ((isFile_of_above ha hs hn hd name hname).mpr hholds)
  · rintro h _ ⟨directory, hd, name, hname, rfl⟩ hfile
    exact h directory hd name hname ((isFile_of_above ha hs hn hd name hname).mp hfile)

theorem nearest?_eq_some_iff :
    tree.nearest? start names = some found ↔
      ∃ directory name, tree.NearestNamed start names directory name ∧
        found = ⟨directory.anchor, directory.names ++ [name]⟩ := by
  have hnone : ∀ nearer : Path, nearer.Above start →
      ((names.map fun name => nearer / Path.ofString name).find? tree.isFile = none ↔
        ∀ other ∈ names, ¬ tree.HoldsFile nearer other) := by
    intro nearer hnearer
    rw [List.find?_eq_none, List.forall_mem_map]
    exact forall₂_congr fun name hname => not_congr (isFile_of_above ha hs hn hnearer name hname)
  rw [nearest?, named, List.find?_flatMap, Path.findSome?_selfAndAncestors_iff]
  constructor
  · rintro ⟨directory, hd, hfound, hnearer⟩
    obtain ⟨name, hholds, hearliest, rfl⟩ :=
      (find?_map_div_iff (isFile_of_above ha hs hn hd)).mp hfound
    obtain ⟨before, after, rfl, hbefore⟩ := hearliest
    refine ⟨directory, name, ⟨hd, hholds, ⟨before, after, rfl, hbefore⟩, ?_⟩,
      Path.div_name (hn name (by simp)) directory⟩
    intro nearer habove hlonger
    exact (hnone nearer habove).mp (hnearer nearer habove hlonger)
  · rintro ⟨directory, name, hnamed, rfl⟩
    obtain ⟨before, after, rfl, hbefore⟩ := hnamed.earliest
    refine ⟨directory, hnamed.above, ?_, ?_⟩
    · apply (find?_map_div_iff (isFile_of_above ha hs hn hnamed.above)).mpr
      exact ⟨name, hnamed.holds, ⟨before, after, rfl, hbefore⟩,
        (Path.div_name (hn name (by simp)) directory).symm⟩
    · intro nearer habove hlonger
      exact (hnone nearer habove).mpr (hnamed.nearest nearer habove hlonger)

/-- A search that starts in between finds the same file. -/
theorem nearest?_of_between {middle : Path} (h : tree.nearest? start names = some found)
    (hd : found.parent.Above middle) (hm : middle.Above start) :
    tree.nearest? middle names = some found := by
  obtain ⟨directory, name, hnamed, rfl⟩ := (nearest?_eq_some_iff ha hs hn).mp h
  have hparent : Path.parent ⟨directory.anchor, directory.names ++ [name]⟩ = directory := by
    rw [Path.parent, List.dropLast_concat]
  rw [hparent] at hd
  have hmiddle : middle.isAbsolute = true := by
    rw [Path.isAbsolute, hm.1]
    exact ha
  exact (nearest?_eq_some_iff hmiddle (hm.isName hs) hn).mpr
    ⟨directory, name, hnamed.between hd hm, rfl⟩

theorem canonical_of_nearest? (h : tree.nearest? start names = some found) :
    found.isAbsolute = true ∧ ∀ name ∈ found.names, IsName name := by
  obtain ⟨directory, name, hnamed, rfl⟩ := (nearest?_eq_some_iff ha hs hn).mp h
  obtain ⟨before, after, rfl, -⟩ := hnamed.earliest
  constructor
  · rw [Path.isAbsolute, hnamed.above.1]
    exact ha
  · intro other ho
    obtain ho | ho := List.mem_append.mp ho
    · exact hnamed.above.isName hs other ho
    · rw [List.mem_singleton.mp ho]
      exact hn name (by simp)

end Search

theorem isName_defaultNames : ∀ name ∈ defaultNames, IsName name := by
  have hnames : ∀ name ∈ defaultNames,
      name ≠ "" ∧ name ≠ "." ∧ name ≠ ".." ∧ '/' ∉ name.toList := by
    decide
  intro name hname
  obtain ⟨hempty, hdot, hdots, hslash⟩ := hnames name hname
  exact ⟨hempty, hdot, hdots, hslash⟩

section Load

variable {context : String} (hc : tree.current.anchor = .root) (hw : tree.current.Written)
  (hr : tree.current.isRepresentable = true)

theorem find?_eq_ok_iff {answer : Option Path} :
    tree.find? context names = .ok answer ↔
      (Path.ofString context).isRepresentable = true ∧
        tree.nearest? ((Path.ofString context).resolve tree.current) names = answer := by
  cases hp : (Path.ofString context).isRepresentable with
  | true => simp [tree.find?_of_isRepresentable names hp]
  | false =>
    obtain ⟨fault, -, hfind⟩ := tree.exists_find?_eq_error names hp
    simp [hfind]

theorem chosenFile_of_fault {fault : Text.PathFault}
    (h : (Path.ofString context).fault? = some fault) :
    tree.chosenFile (some context) none = .error (.unreported (.notAPath fault)) := by
  have hne : context ≠ "" := by
    rintro rfl
    cases h
  unfold chosenFile contextText find? locate
  rw [Option.filter_some_pos (by simpa using hne)]
  simp only [Option.getD_some, Option.filter_none, h]
  rfl

include hc hw hr in
theorem find?_current : tree.find? tree.current.toString names = tree.find? "" names := by
  have hempty : tree.current / Path.ofString "" = tree.current := by
    have hrelative : (Path.ofString "").isAbsolute = false := by decide
    rw [Path.div_of_relative hrelative]
    exact congrArg (Path.mk tree.current.anchor) (List.append_nil _)
  have hplace : tree.current.resolve tree.current =
      (Path.ofString "").resolve tree.current := by
    have hdiv : (tree.current / Path.ofString "").isRepresentable = true := by rwa [hempty]
    rw [← resolve_current_div hc hdiv, hempty]
  rw [tree.find?_of_isRepresentable names (hw.ofString_toString.symm ▸ hr),
    tree.find?_of_isRepresentable names (by decide), hw.ofString_toString, hplace]

include hc hw hr in
/-- Without a file, a load takes the one that the search from its context finds. -/
theorem chosenFile_of_find? (h : tree.find? context defaultNames = .ok (some found)) :
    tree.chosenFile (some context) none = .ok found := by
  have hfind : tree.find? (tree.contextText (some context)) defaultNames = .ok (some found) := by
    by_cases he : context = ""
    · subst he
      rw [← h, ← find?_current hc hw hr]
      rfl
    · rw [contextText, Option.filter_some_pos (by simpa using he)]
      exact h
  unfold chosenFile
  simp only [Option.filter_none, hfind]
  rfl

include hc hw in
theorem chosenFile_found (hn : ∀ name ∈ names, IsName name)
    (h : tree.find? context names = .ok (some found)) :
    tree.chosenFile none (some found.toString) = .ok found := by
  obtain ⟨hp, hnearest⟩ := find?_eq_ok_iff.mp h
  obtain ⟨ha, hs⟩ := Path.canonical_resolve hc hw (Path.written_ofString context) hp
  obtain ⟨habsolute, hnames⟩ := canonical_of_nearest? ha hs hn hnearest
  have hread : tree.fileIn none found.toString = found := by
    rw [fileIn_none hw, (Path.written_of_isName hnames).ofString_toString,
      Path.div_of_isAbsolute habsolute]
  rw [chosenFile_some (Path.Canonical.of_path habsolute hnames).ne_empty, hread,
    if_pos (List.find?_some hnearest)]

end Load

/-- A search from any context, whether it exists or not, answers unless the context is no path, and
then a load from it ends in the same way. It finds nothing if and only if no directory holds one of
the names, of the directory that the context is resolved to and those above it. Else it finds the
file of the nearest such directory with the earliest name that is held there. The search from any
directory in between finds the same file, and with the names that are looked for by default a load
from the context is the load of the file, whatever it comes to. -/
theorem finds_nearest (hc : tree.current.anchor = .root) (hw : tree.current.Written)
    (hr : tree.current.isRepresentable = true) (hn : ∀ name ∈ names, IsName name)
    (context : String) :
    match (Path.ofString context).fault? with
    | some fault =>
      tree.find? context names = .error (.notAPath fault) ∧
        (tree.load (some context) none).result = .error (.unreported (.notAPath fault))
    | none =>
      ∃ answer, tree.find? context names = .ok answer ∧
        (answer = none ↔
          ∀ directory : Path, directory.Above ((Path.ofString context).resolve tree.current) →
            ∀ name ∈ names, ¬ tree.HoldsFile directory name) ∧
        (∀ found, answer = some found ↔
          ∃ directory name,
            tree.NearestNamed ((Path.ofString context).resolve tree.current) names directory
              name ∧
            found = ⟨directory.anchor, directory.names ++ [name]⟩) ∧
        (∀ found, answer = some found → ∀ between : Path,
          found.parent.Above between →
          between.Above ((Path.ofString context).resolve tree.current) →
            tree.find? between.toString names = .ok (some found)) ∧
        ∀ found, tree.find? context defaultNames = .ok (some found) →
          tree.load (some context) none = tree.load none (some found.toString) := by
  cases hf : (Path.ofString context).fault? with
  | some fault =>
    refine ⟨?_, ?_⟩
    · rw [find?, locate, hf]
      rfl
    · rw [load, chosenFile_of_fault hf]
      rfl
  | none =>
    have hp := Path.fault?_eq_none_iff.mp hf
    obtain ⟨ha, hs⟩ := Path.canonical_resolve hc hw (Path.written_ofString context) hp
    refine ⟨_, tree.find?_of_isRepresentable names hp, nearest?_eq_none_iff ha hs hn,
      fun found => nearest?_eq_some_iff ha hs hn, ?_, ?_⟩
    · intro found h between hd hb
      have hnames := hb.isName hs
      have hanchor : between.anchor = .root := hb.1.trans (Path.resolve_anchor hc _)
      have hbetween : between.isRepresentable = true :=
        hb.isRepresentable (Path.isRepresentable_resolve hc hr hp)
      have hwritten := (Path.written_of_isName hnames).ofString_toString
      rw [tree.find?_of_isRepresentable names (hwritten.symm ▸ hbetween), hwritten,
        Path.resolve_eq_self hc hbetween hanchor hnames, nearest?_of_between ha hs hn h hd hb]
    · intro found h
      rw [load_of_chosen (chosenFile_of_find? hc hw hr h),
        load_of_chosen (chosenFile_found hc hw isName_defaultNames h)]

end FileTree

namespace Crowded

/-- The nearest file has the second name, and a nearer directory has the first one. -/
def tree : FileTree where
  files := [(["p", "jsconfig.json"], []), (["tsconfig.json"], [])]
  directories := [["p"], ["p", "lib"], ["p", "lib", "tsconfig.json"]]
  current := ⟨.root, ["p"]⟩

theorem finds_nearest_crowded :
    tree.current.anchor = .root ∧ tree.current.Written ∧
    tree.current.isRepresentable = true ∧ (∀ name ∈ defaultNames, IsName name) ∧
    tree.find? "lib/../lib/missing" defaultNames = .ok (some ⟨.root, ["p", "jsconfig.json"]⟩) ∧
    tree.find? "/p/lib" defaultNames = .ok (some ⟨.root, ["p", "jsconfig.json"]⟩) ∧
    tree.load (some "lib/../lib/missing") none = tree.load none (some "/p/jsconfig.json") ∧
    tree.find? "lib/\x00" defaultNames = .error (.notAPath .nullByte) := by
  have hc : tree.current.anchor = .root := by decide
  have hw : tree.current.Written := ⟨"/p", by decide⟩
  have hr : tree.current.isRepresentable = true := by decide
  have hpath : (Path.ofString "lib/../lib/missing").fault? = none := by decide
  have hfound : tree.find? "lib/../lib/missing" defaultNames =
      .ok (some ⟨.root, ["p", "jsconfig.json"]⟩) := by
    rw [tree.find?_of_isRepresentable _ (Path.fault?_eq_none_iff.mp hpath)]
    exact congrArg Except.ok (by decide +kernel)
  have hnearest := FileTree.finds_nearest hc hw hr FileTree.isName_defaultNames "lib/../lib/missing"
  rw [hpath] at hnearest
  obtain ⟨answer, hanswer, -, -, hbetween, hload⟩ := hnearest
  have hstart : (Path.ofString "lib/../lib/missing").resolve tree.current =
      ⟨.root, ["p", "lib", "missing"]⟩ := by decide
  have hlib : tree.find? "/p/lib" defaultNames = .ok (some ⟨.root, ["p", "jsconfig.json"]⟩) := by
    apply hbetween _ (Except.ok.inj (hanswer.symm.trans hfound)) ⟨.root, ["p", "lib"]⟩
    · exact ⟨rfl, ["lib"], rfl⟩
    · rw [hstart]
      exact ⟨rfl, ["missing"], rfl⟩
  have hnull : (Path.ofString "lib/\x00").fault? = some .nullByte := by decide
  have hno := FileTree.finds_nearest hc hw hr FileTree.isName_defaultNames "lib/\x00"
  rw [hnull] at hno
  exact ⟨hc, hw, hr, FileTree.isName_defaultNames, hfound, hlib, hload _ hfound, hno.1⟩

end Crowded

end ImportAlias
