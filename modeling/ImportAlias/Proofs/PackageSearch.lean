import ImportAlias.Proofs.Agenda
import ImportAlias.Proofs.Landing
import ImportAlias.Proofs.Reporting

/-!
# Where packages are searched

A configuration that extends a package should find it in the nearest directory
above its own place. It is searched in the directories of the path that the
configuration is named by instead, and a path with `..` in it passes directories
that do not lie above the place it leads to. Such a detour is all that can lead
the search astray, and the search from the place of a file takes none.
-/

namespace ImportAlias

open ImportAlias.Path (landing)

namespace Path

/-- A directory that is `start` or lies above it, as far as its path tells. -/
def Above (directory start : Path) : Prop :=
  directory.anchor = start.anchor ∧ directory.names <+: start.names

theorem Above.isRepresentable {directory start : Path} (h : directory.Above start)
    (hs : start.isRepresentable = true) : directory.isRepresentable = true :=
  List.all_eq_true.mpr fun name hm => List.all_eq_true.mp hs name (h.2.subset hm)

theorem go_concat (path : Path) (names : List String) (name : String) :
    selfAndAncestors.go path (names ++ [name]).reverse =
      ⟨path.anchor, names ++ [name]⟩ :: selfAndAncestors.go path names.reverse := by
  rw [List.reverse_append, List.reverse_singleton, List.singleton_append, selfAndAncestors.go,
    List.reverse_cons, List.reverse_reverse]

theorem mem_go_iff (path : Path) (names : List String) (directory : Path) :
    directory ∈ selfAndAncestors.go path names.reverse ↔
      directory.anchor = path.anchor ∧ directory.names <+: names := by
  obtain ⟨anchor, above⟩ := directory
  induction names using List.reverseRecOn with
  | nil => simp [selfAndAncestors.go]
  | append_singleton names name ih =>
    rw [go_concat, List.mem_cons, ih, List.prefix_concat_iff, Path.mk.injEq, and_or_left]

theorem mem_selfAndAncestors_iff (directory start : Path) :
    directory ∈ start.selfAndAncestors ↔ directory.Above start :=
  mem_go_iff start start.names directory

theorem pairwise_go (path : Path) (names : List String) :
    (selfAndAncestors.go path names.reverse).Pairwise fun nearer directory =>
      directory.names.length < nearer.names.length := by
  induction names using List.reverseRecOn with
  | nil => simp [selfAndAncestors.go]
  | append_singleton names name ih =>
    rw [go_concat]
    refine List.Pairwise.cons ?_ ih
    intro directory hd
    have hle := ((mem_go_iff path names directory).mp hd).2.length_le
    rw [List.length_append, List.length_singleton]
    omega

/-- A search up the chain finds what the nearest directory has. -/
theorem findSome?_selfAndAncestors_iff {β : Type} (find : Path → Option β) (start : Path) (b : β) :
    start.selfAndAncestors.findSome? find = some b ↔
      ∃ directory : Path, directory.Above start ∧ find directory = some b ∧
        ∀ nearer : Path, nearer.Above start → directory.names.length < nearer.names.length →
          find nearer = none := by
  have hpairs : start.selfAndAncestors.Pairwise fun nearer directory =>
      directory.names.length < nearer.names.length := pairwise_go start start.names
  constructor
  · intro h
    obtain ⟨before, directory, after, hl, hfound, hbefore⟩ := List.findSome?_eq_some_iff.mp h
    refine ⟨directory, ?_, hfound, fun nearer hn hlonger => hbefore nearer ?_⟩
    · rw [← mem_selfAndAncestors_iff, hl]
      exact List.mem_append_right _ List.mem_cons_self
    · rw [← mem_selfAndAncestors_iff, hl, List.mem_append, List.mem_cons] at hn
      rw [hl, List.pairwise_append, List.pairwise_cons] at hpairs
      obtain hn | rfl | hn := hn
      · exact hn
      · exact absurd hlonger (Nat.lt_irrefl _)
      · exact absurd hlonger (Nat.lt_asymm (hpairs.2.1.1 nearer hn))
  · rintro ⟨directory, hd, hfound, hnone⟩
    obtain ⟨before, after, hl⟩ := List.append_of_mem ((mem_selfAndAncestors_iff _ _).mpr hd)
    refine List.findSome?_eq_some_iff.mpr ⟨before, directory, after, hl, hfound, ?_⟩
    intro nearer hn
    refine hnone nearer ((mem_selfAndAncestors_iff _ _).mp ?_) ?_
    · rw [hl]
      exact List.mem_append_left _ hn
    · rw [hl, List.pairwise_append] at hpairs
      exact hpairs.2.2 nearer hn directory List.mem_cons_self

end Path

namespace FileTree

theorem withJson?_div {path other : Path} (ho : other.isAbsolute = false)
    (hn : other.names ≠ []) : withJson? (path / other) = (withJson? other).map (path / ·) := by
  have hextended : (path / other).extended? ".json" = (other.extended? ".json").map (path / ·) := by
    rw [Path.extended?, Path.extended?, Path.name?_div path hn, Option.map_map]
    refine Option.map_congr fun name _ => ?_
    have hnamed : (Path.mk other.anchor (other.names.dropLast ++ [name ++ ".json"])).isAbsolute =
        false := ho
    rw [Function.comp_apply, Path.div_of_relative ho, Path.div_of_relative hnamed,
      List.dropLast_append_of_ne_nil hn, List.append_assoc]
  rw [withJson?, withJson?, Path.extension_div path hn, hextended]
  split <;> rfl

end FileTree

/-- Where a package stands in a directory. -/
def packagePath (entry : String) : Path :=
  Path.ofString "node_modules" / Path.ofString entry

/-- What a directory offers for an entry, as a path from the directory: the configuration of a
package that is a directory, the file of the entry, or the file that has its name and `.json`. -/
inductive Offers (tree : FileTree) (entry : String) (directory : Path) : Path → Prop
  | directory (h : tree.isDirectory (directory / packagePath entry) = true) :
    Offers tree entry directory (packagePath entry / Path.ofString "tsconfig.json")
  | file (h : tree.isFile (directory / packagePath entry) = true) :
    Offers tree entry directory (packagePath entry)
  | json {inner : Path} (hd : tree.isDirectory (directory / packagePath entry) = false)
      (hf : tree.isFile (directory / packagePath entry) = false)
      (hj : FileTree.withJson? (packagePath entry) = some inner)
      (h : tree.isFile (directory / inner) = true) :
    Offers tree entry directory inner

/-- The nearest directory from `start` upwards that offers an entry. -/
structure Nearest (tree : FileTree) (entry : String) (start directory inner : Path) : Prop where
  above : directory.Above start
  offers : Offers tree entry directory inner
  nearest : ∀ nearer : Path, nearer.Above start → directory.names.length < nearer.names.length →
    ∀ inner, ¬ Offers tree entry nearer inner

section

variable {tree : FileTree} {entry : String} {file directory inner : Path}

theorem isAbsolute_packagePath (ha : (Path.ofString entry).isAbsolute = false) :
    (packagePath entry).isAbsolute = false := by
  rw [packagePath, Path.div_of_relative ha]
  rfl

theorem withJson?_package (ha : (Path.ofString entry).isAbsolute = false) (directory : Path) :
    FileTree.withJson? (directory / packagePath entry) =
      (FileTree.withJson? (packagePath entry)).map (directory / ·) := by
  refine FileTree.withJson?_div (isAbsolute_packagePath ha) ?_
  rw [packagePath, Path.div_of_relative ha]
  exact List.append_ne_nil_of_left_ne_nil (by decide) _

theorem isAbsolute_withJson? {path : Path} (h : FileTree.withJson? path = some inner) :
    inner.isAbsolute = path.isAbsolute := by
  unfold FileTree.withJson? at h
  split at h
  · rw [Option.some.inj h]
  · obtain ⟨name, -, rfl⟩ := Option.map_eq_some_iff.mp h
    rfl

theorem Offers.isAbsolute (ha : (Path.ofString entry).isAbsolute = false)
    (h : Offers tree entry directory inner) : inner.isAbsolute = false := by
  have hp := isAbsolute_packagePath ha
  cases h with
  | directory =>
    rw [Path.div_of_relative (by decide)]
    exact hp
  | file => exact hp
  | json _ _ hj => rw [isAbsolute_withJson? hj, hp]

theorem Offers.isRepresentable (h : Offers tree entry directory inner) :
    (directory / inner).isRepresentable = true := by
  cases h with
  | directory hd =>
    have hpackage := FileTree.isRepresentable_of_lookup (FileTree.isDirectory_iff.mp hd)
    have hrelative : (Path.ofString "tsconfig.json").isAbsolute = false := by decide
    rw [← Path.div_div, Path.isRepresentable_div_iff hrelative]
    exact ⟨hpackage, by decide⟩
  | file hf => exact FileTree.isRepresentable_of_isFile hf
  | json _ _ _ hfile => exact FileTree.isRepresentable_of_isFile hfile

theorem withJson?_tsconfig (path : Path) :
    FileTree.withJson? (path / Path.ofString "tsconfig.json") =
      some (path / Path.ofString "tsconfig.json") := by
  have hj : FileTree.withJson? (Path.ofString "tsconfig.json") =
      some (Path.ofString "tsconfig.json") := by decide
  rw [FileTree.withJson?_div (by decide) (by decide), hj]
  rfl

theorem FileTree.isDirectory_eq_false_of_isFile (h : tree.isFile file = true) :
    tree.isDirectory file = false := by
  unfold isFile at h
  unfold isDirectory
  split at h
  · rename_i hl
    rw [hl]
  · cases h

theorem Offers.packageIn? (ha : (Path.ofString entry).isAbsolute = false)
    (h : Offers tree entry directory inner) :
    ∃ named, tree.packageIn? entry directory = some named ∧
      tree.completed named = .ok (directory / inner) := by
  have hjson := withJson?_package ha directory
  unfold FileTree.packageIn?
  rw [Path.div_div directory, ← packagePath]
  cases h with
  | directory hd =>
    refine ⟨_, if_pos hd, ?_⟩
    rw [FileTree.completed, withJson?_tsconfig, Path.div_div]
    exact ite_self _
  | file hf =>
    refine ⟨directory / packagePath entry, ?_, if_pos hf⟩
    rw [if_neg (by simp [FileTree.isDirectory_eq_false_of_isFile hf]), if_pos (by simp [hf])]
  | json hd hf hj hfile =>
    rw [hj, Option.map_some] at hjson
    refine ⟨directory / packagePath entry, ?_, ?_⟩
    · rw [if_neg (by simp [hd]), if_pos (by simp [hjson, hfile])]
    · rw [FileTree.completed, if_neg (by simp [hf]), hjson]

theorem exists_offers (ha : (Path.ofString entry).isAbsolute = false) {named : Path}
    (h : tree.packageIn? entry directory = some named) :
    ∃ inner, Offers tree entry directory inner := by
  have hjson := withJson?_package ha directory
  unfold FileTree.packageIn? at h
  rw [Path.div_div directory, ← packagePath] at h
  cases hd : tree.isDirectory (directory / packagePath entry) with
  | true => exact ⟨_, .directory hd⟩
  | false =>
    cases hf : tree.isFile (directory / packagePath entry) with
    | true => exact ⟨_, .file hf⟩
    | false =>
      rw [if_neg (by simp [hd]), hf, Bool.false_or, hjson] at h
      cases hj : FileTree.withJson? (packagePath entry) with
      | none => simp [hj] at h
      | some inner =>
        have hfile : tree.isFile (directory / inner) = true := by
          by_contra hfile
          simp [hj, hfile] at h
        exact ⟨inner, .json hd hf hj hfile⟩

theorem packageIn?_eq_none_iff (ha : (Path.ofString entry).isAbsolute = false) :
    tree.packageIn? entry directory = none ↔ ∀ inner, ¬ Offers tree entry directory inner := by
  constructor
  · intro h inner ho
    obtain ⟨named, hn, -⟩ := ho.packageIn? ha
    rw [h] at hn
    cases hn
  · intro h
    cases hp : tree.packageIn? entry directory with
    | none => rfl
    | some named =>
      obtain ⟨inner, ho⟩ := exists_offers ha hp
      exact absurd ho (h inner)

/-- An entry that is searched as a package: no absolute path, and none that starts with a dot. -/
structure NamesPackage (entry : String) : Prop where
  relative : (Path.ofString entry).isAbsolute = false
  undotted : entry.toList.head? ≠ some '.'

/-- Nothing from `start` upwards offers an entry. -/
def Missing (tree : FileTree) (entry : String) (start : Path) : Prop :=
  ∀ directory : Path, directory.Above start → ∀ inner, ¬ Offers tree entry directory inner

theorem nearest_or_missing (tree : FileTree) (hp : NamesPackage entry) (start : Path) :
    (∃ directory inner, Nearest tree entry start directory inner) ∨ Missing tree entry start := by
  cases hs : start.selfAndAncestors.findSome? (tree.packageIn? entry) with
  | some named =>
    obtain ⟨directory, habove, hfound, hnone⟩ :=
      (Path.findSome?_selfAndAncestors_iff _ _ _).mp hs
    obtain ⟨inner, ho⟩ := exists_offers hp.relative hfound
    refine .inl ⟨directory, inner, habove, ho, fun nearer hn hl => ?_⟩
    exact (packageIn?_eq_none_iff hp.relative).mp (hnone nearer hn hl)
  | none =>
    refine .inr fun directory habove => (packageIn?_eq_none_iff hp.relative).mp ?_
    exact List.findSome?_eq_none_iff.mp hs directory
      ((Path.mem_selfAndAncestors_iff _ _).mpr habove)

theorem Nearest.not_missing {start : Path} (h : Nearest tree entry start directory inner) :
    ¬ Missing tree entry start :=
  fun hm => hm directory h.above inner h.offers

namespace FileTree

theorem extendedFile_package (hp : NamesPackage entry) (file : Path) :
    tree.extendedFile file entry = tree.package entry file.parent >>= tree.completed := by
  rw [extendedFile_eq, if_neg (by simp [hp.relative]), if_neg hp.undotted]

/-- The file of a package is what the nearest directory offers. -/
theorem extendedFile_of_nearest (hp : NamesPackage entry)
    (h : Nearest tree entry file.parent directory inner) :
    tree.extendedFile file entry = .ok (directory / inner) := by
  obtain ⟨named, hn, hcompleted⟩ := h.offers.packageIn? hp.relative
  have hs : file.parent.selfAndAncestors.findSome? (tree.packageIn? entry) = some named := by
    refine (Path.findSome?_selfAndAncestors_iff _ _ _).mpr ⟨directory, h.above, hn, ?_⟩
    exact fun nearer ha hl => (packageIn?_eq_none_iff hp.relative).mpr (h.nearest nearer ha hl)
  rw [extendedFile_package hp, package, hs]
  exact hcompleted

theorem extendedFile_of_missing (hp : NamesPackage entry) (h : Missing tree entry file.parent) :
    tree.extendedFile file entry = .error (.config (.extendsNotFound entry file.parent)) := by
  have hs : file.parent.selfAndAncestors.findSome? (tree.packageIn? entry) = none := by
    refine List.findSome?_eq_none_iff.mpr fun directory hd => ?_
    exact (packageIn?_eq_none_iff hp.relative).mpr
      (h directory ((Path.mem_selfAndAncestors_iff _ _).mp hd))
  rw [extendedFile_package hp, package, hs]
  rfl

theorem isAbsolute_of_completed {named found : Path} (hn : named.isAbsolute = true)
    (h : tree.completed named = .ok found) : found.isAbsolute = true := by
  unfold completed at h
  split at h
  · rwa [← Except.ok.inj h]
  · split at h
    · rename_i extended hj
      rw [← Except.ok.inj h, isAbsolute_withJson? hj, hn]
    · cases h

theorem isAbsolute_of_extendedFile (hf : file.isAbsolute = true) {found : Path}
    (h : tree.extendedFile file entry = .ok found) : found.isAbsolute = true := by
  by_cases hp : NamesPackage entry
  · obtain ⟨directory, inner, hn⟩ | hm := nearest_or_missing tree hp file.parent
    · rw [extendedFile_of_nearest hp hn] at h
      have hd : directory.isAbsolute = true := by
        rw [Path.isAbsolute, hn.above.1]
        exact hf
      rw [← Except.ok.inj h]
      exact Path.isAbsolute_div hd
    · rw [extendedFile_of_missing hp hm] at h
      cases h
  have hparent : file.parent.isAbsolute = true := hf
  rw [extendedFile_eq] at h
  split at h
  · rename_i ha
    exact isAbsolute_of_completed ha h
  · rename_i ha
    have hd : entry.toList.head? = some '.' := by
      by_contra hd
      exact hp ⟨by simpa using ha, hd⟩
    rw [if_pos hd] at h
    exact isAbsolute_of_completed (Path.isAbsolute_div hparent) h

end FileTree

/-- The file of a task has an absolute path, and can be read once its entries are to be followed. -/
def Task.Rooted (tree : FileTree) : Task → Prop
  | .file file => file.isAbsolute = true
  | .entry file _ => file.isAbsolute = true ∧ ∃ content, tree.read file = .ok content

namespace Agenda

variable {agenda next : Agenda}

theorem Advances.rooted (h : agenda.Advances tree next)
    (hr : ∀ task ∈ agenda.tasks, task.Rooted tree) : ∀ task ∈ next.tasks, task.Rooted tree := by
  cases h with
  | passes => exact fun task ht => hr task (List.mem_cons_of_mem _ ht)
  | opens _ hs hread ho =>
    obtain ⟨hfile, hrest⟩ := List.forall_mem_cons.mp hr
    obtain ⟨content, hc, -⟩ := FileTree.readObject_eq_ok_iff.mp hread
    refine List.forall_mem_append.mpr ⟨fun task ht => ?_, hrest⟩
    obtain ⟨entry, -, rfl⟩ := List.mem_map.mp ht
    exact ⟨hfile, content, hc⟩
  | follows he =>
    obtain ⟨hentry, hrest⟩ := List.forall_mem_cons.mp hr
    exact List.forall_mem_cons.mpr ⟨FileTree.isAbsolute_of_extendedFile hentry.1 he, hrest⟩

theorem Reaches.rooted (h : agenda.Reaches tree next)
    (hr : ∀ task ∈ agenda.tasks, task.Rooted tree) : ∀ task ∈ next.tasks, task.Rooted tree := by
  induction h with
  | refl => exact hr
  | tail _ hstep ih => exact hstep.rooted ih

end Agenda

namespace FileTree

/-- The directory that a file lies in. -/
def home (tree : FileTree) (file : Path) : Path :=
  (file.resolve tree.current).parent

/-- What following an entry should come to: what the nearest directory from `start` upwards offers,
or the error that nothing was found if none offers anything. -/
def FoundFrom (tree : FileTree) (entry : String) (start : Path) : Except Error Path → Prop
  | .ok found => ∃ directory inner, Nearest tree entry start directory inner ∧
      found.resolve tree.current = (directory / inner).resolve tree.current
  | .error e => (∃ searched, e = .config (.extendsNotFound entry searched)) ∧
      Missing tree entry start

/-- The search for a package goes astray: the nearest directory of the path of the file that offers
it does not lie above the file, and the same is not found from where the file lies. -/
def Strays (tree : FileTree) (file : Path) (entry : String) : Prop :=
  ∃ directory inner, Nearest tree entry file.parent directory inner ∧
    ¬ (directory.resolve tree.current).Above (tree.home file) ∧
    ∀ other otherInner, Nearest tree entry (tree.home file) other otherInner →
      (directory / inner).resolve tree.current ≠ (other / otherInner).resolve tree.current

end FileTree

theorem FileTree.foundFrom_home_iff (hp : NamesPackage entry) (file found : Path) :
    tree.FoundFrom entry (tree.home file) (.ok found) ↔
      some (found.resolve tree.current) =
        (tree.extendedFile (file.resolve tree.current) entry).toOption.map
          (·.resolve tree.current) := by
  have hok : ∀ other otherInner, Nearest tree entry (tree.home file) other otherInner →
      tree.extendedFile (file.resolve tree.current) entry = .ok (other / otherInner) :=
    fun _ _ => extendedFile_of_nearest hp
  constructor
  · rintro ⟨other, otherInner, hother, he⟩
    rw [hok _ _ hother, he]
    rfl
  · intro he
    obtain ⟨other, otherInner, hother⟩ | hm := nearest_or_missing tree hp (tree.home file)
    · rw [hok _ _ hother] at he
      exact ⟨other, otherInner, hother, Option.some.inj he⟩
    · have hmissing : Missing tree entry (file.resolve tree.current).parent := hm
      rw [extendedFile_of_missing hp hmissing] at he
      cases he

theorem FileTree.Meet.offers {path other : Path} (h : tree.Meet path other)
    (ha : (Path.ofString entry).isAbsolute = false) (ho : Offers tree entry path inner) :
    Offers tree entry other inner := by
  have hp := isAbsolute_packagePath ha
  have hi := ho.isAbsolute ha
  cases ho with
  | directory hd => exact .directory ((h.isDirectory_div hp).symm.trans hd)
  | file hf => exact .file ((h.isFile_div hp).symm.trans hf)
  | json hd hf hj hfile =>
    exact .json ((h.isDirectory_div hp).symm.trans hd) ((h.isFile_div hp).symm.trans hf) hj
      ((h.isFile_div hi).symm.trans hfile)

namespace FileTree

section

variable (hc : tree.current.anchor = .root) (hf : file.isAbsolute = true) {content : List UInt8}
  (hr : tree.read file = .ok content)

include hc hf hr

theorem home_eq : tree.home file = ⟨.root, landing file.parent.names⟩ := by
  rw [home, Path.resolve_eq hc hf (isRepresentable_of_read hr), landing_parent hf hr]
  rfl

omit hc hf in
/-- The names of a file that can be read are such as files have, and so are those of the directories
of its path. -/
theorem isRepresentable_of_above (hd : directory.Above file.parent) :
    directory.isRepresentable = true := by
  refine hd.isRepresentable (List.all_eq_true.mpr fun name hname => ?_)
  exact List.all_eq_true.mp (isRepresentable_of_read hr) name (List.dropLast_subset _ hname)

theorem meet_of_above (hd : directory.Above file.parent) :
    tree.Meet directory (directory.resolve tree.current) := by
  have ha : directory.isAbsolute = true := by
    rw [Path.isAbsolute, hd.1]
    exact hf
  have hleads := (exists_file_of_read hf hr).1
  exact meet_resolve hc ha (isRepresentable_of_above hr hd)
    (hleads.of_prefix (hd.2.trans (List.dropLast_prefix _)))

/-- What nothing on the path of a file offers is not offered above the file either. -/
theorem missing_home (hp : NamesPackage entry) (hm : Missing tree entry file.parent) :
    Missing tree entry (tree.home file) := by
  rintro ⟨anchor, place⟩ ⟨hanchor, hplace⟩ inner ho
  rw [home_eq hc hf hr] at hanchor hplace
  obtain rfl : anchor = .root := hanchor
  obtain ⟨passed, hpre, rfl⟩ := Path.exists_landing_eq hplace
  have habove : Path.Above ⟨file.anchor, passed⟩ file.parent := ⟨rfl, hpre⟩
  have hmeet := meet_of_above hc hf hr habove
  rw [Path.resolve_eq hc hmeet.isAbsolute.1 (isRepresentable_of_above hr habove)] at hmeet
  exact hm _ habove inner (hmeet.symm.offers hp.relative ho)

/-- A directory that lies above the file is the nearest that does if it is the nearest of the
path. -/
theorem nearest_home (hp : NamesPackage entry) (hn : Nearest tree entry file.parent directory inner)
    (ha : (directory.resolve tree.current).Above (tree.home file)) :
    Nearest tree entry (tree.home file) (directory.resolve tree.current) inner := by
  have hmeet := meet_of_above hc hf hr hn.above
  refine ⟨ha, hmeet.offers hp.relative hn.offers, ?_⟩
  rintro ⟨anchor, place⟩ ⟨hanchor, hplace⟩ hlonger inner ho
  rw [home_eq hc hf hr] at hanchor hplace
  obtain rfl : anchor = .root := hanchor
  -- the path goes on behind the directory until it comes to the place
  obtain ⟨others, hothers⟩ := hn.above.2
  rw [Path.resolve_eq hc hmeet.isAbsolute.1 (isRepresentable_of_above hr hn.above)] at hlonger
  rw [← hothers] at hplace
  obtain ⟨passed, hpre, hne, rfl⟩ := Path.exists_landing_between hplace hlonger
  rw [hothers] at hpre
  have habove : Path.Above ⟨file.anchor, directory.names ++ passed⟩ file.parent := ⟨rfl, hpre⟩
  have hmeet' := meet_of_above hc hf hr habove
  rw [Path.resolve_eq hc hmeet'.isAbsolute.1 (isRepresentable_of_above hr habove)] at hmeet'
  refine hn.nearest _ habove ?_ inner (hmeet'.symm.offers hp.relative ho)
  rw [List.length_append]
  have := List.length_pos_of_ne_nil hne
  omega

/-- A search goes astray exactly if what it finds is not found from where the file lies. -/
theorem not_strays_iff (hp : NamesPackage entry)
    (hn : Nearest tree entry file.parent directory inner) :
    ¬ tree.Strays file entry ↔ tree.FoundFrom entry (tree.home file) (.ok (directory / inner)) := by
  have hunique : ∀ other otherInner, Nearest tree entry file.parent other otherInner →
      other / otherInner = directory / inner := by
    intro other otherInner hother
    have he := extendedFile_of_nearest hp hother
    rw [extendedFile_of_nearest hp hn] at he
    exact (Except.ok.inj he).symm
  constructor
  · intro hs
    by_cases ha : (directory.resolve tree.current).Above (tree.home file)
    · have hmeet := meet_of_above hc hf hr hn.above
      refine ⟨_, inner, nearest_home hc hf hr hp hn ha, ?_⟩
      exact hmeet.resolve_div hc (hn.offers.isAbsolute hp.relative) hn.offers.isRepresentable
        (hmeet.offers hp.relative hn.offers).isRepresentable
    · by_contra hfound
      refine hs ⟨directory, inner, hn, ha, fun other otherInner hother he => hfound ?_⟩
      exact ⟨other, otherInner, hother, he⟩
  · rintro ⟨other, otherInner, hother, he⟩ ⟨directory', inner', hn', -, hne⟩
    rw [hunique _ _ hn'] at hne
    exact hne other otherInner hother he

theorem not_strays_of_dots (hdots : ".." ∉ file.names) : ¬ tree.Strays file entry := by
  rintro ⟨directory, inner, hn, ha, -⟩
  have hparent : ".." ∉ file.parent.names := fun h => hdots (List.dropLast_subset _ h)
  have hdirectory : ".." ∉ directory.names := fun h => hparent (hn.above.2.subset h)
  have hmeet := meet_of_above hc hf hr hn.above
  apply ha
  rw [home_eq hc hf hr, Path.landing_eq_self hparent,
    Path.resolve_eq hc hmeet.isAbsolute.1 (isRepresentable_of_above hr hn.above),
    Path.landing_eq_self hdirectory]
  exact ⟨rfl, hn.above.2⟩

end

/-- A package is found where the nearest directory above the place of a file offers it, and as from
the resolved path of the file, unless the search goes astray: unless a directory that the path of
the file passes, but that does not lie above the file, offers something else first. It cannot go
astray on a path without dots. -/
theorem foundFrom_iff_not_strays (hc : tree.current.anchor = .root) {path : Path} {agenda : Agenda}
    (hr : (Agenda.ofFile (path.resolve tree.current)).Reaches tree agenda)
    (ht : Task.entry file entry ∈ agenda.tasks) (hp : NamesPackage entry) :
    (tree.FoundFrom entry (tree.home file) (tree.extendedFile file entry) ↔
      ¬ tree.Strays file entry) ∧
    ((tree.extendedFile file entry).toOption.map (·.resolve tree.current) =
        (tree.extendedFile (file.resolve tree.current) entry).toOption.map
          (·.resolve tree.current) ↔
      ¬ tree.Strays file entry) ∧
    (".." ∉ file.names → ¬ tree.Strays file entry) := by
  have hstart : ∀ task ∈ (Agenda.ofFile (path.resolve tree.current)).tasks, task.Rooted tree := by
    refine List.forall_mem_singleton.mpr ?_
    exact Path.isAbsolute_of_root (Path.resolve_anchor hc path)
  obtain ⟨hf, content, hread⟩ := hr.rooted hstart _ ht
  rw [← and_assoc]
  refine ⟨?_, not_strays_of_dots hc hf hread⟩
  obtain ⟨directory, inner, hn⟩ | hm := nearest_or_missing tree hp file.parent
  · rw [extendedFile_of_nearest hp hn, not_strays_iff hc hf hread hp hn]
    exact ⟨.rfl, (foundFrom_home_iff hp file _).symm⟩
  · have hmissing := missing_home hc hf hread hp hm
    have hs : ¬ tree.Strays file entry := by
      rintro ⟨directory, inner, hn, -⟩
      exact hn.not_missing hm
    have hresolved : Missing tree entry (file.resolve tree.current).parent := hmissing
    rw [extendedFile_of_missing hp hm, extendedFile_of_missing hp hresolved]
    exact ⟨iff_of_true ⟨⟨_, rfl⟩, hmissing⟩ hs, iff_of_true rfl hs⟩

end FileTree

end

namespace Detour

def startText : String :=
  "\x7b\"extends\": \"../b/base.json\"\x7d"

def baseText : String :=
  "\x7b\"extends\": \"pkg/settings\"\x7d"

def settingsText (target : String) : String :=
  "\x7b\"compilerOptions\": \x7b\"paths\": \x7b\"a\": \"" ++ target ++ "\"\x7d\x7d\x7d"

/-- A base in a directory beside that of the start, and two packages of one name: one below the
directory of the start, and one below the root. -/
def tree : FileTree where
  files := [
    (["p", "a", "tsconfig.json"], startText.toUTF8.toList),
    (["p", "b", "base.json"], baseText.toUTF8.toList),
    (["p", "a", "node_modules", "pkg", "settings.json"], (settingsText "beside").toUTF8.toList),
    (["node_modules", "pkg", "settings.json"], (settingsText "above").toUTF8.toList)]
  directories := [["p"], ["p", "a"], ["p", "b"], ["p", "a", "node_modules"],
    ["p", "a", "node_modules", "pkg"], ["node_modules"], ["node_modules", "pkg"]]
  current := ⟨.root, ["p"]⟩

def start : Path := ⟨.root, ["p", "a", "tsconfig.json"]⟩

def base : Path := ⟨.root, ["p", "b", "base.json"]⟩

/-- The base as the start leads to it. -/
def detour : Path := ⟨.root, ["p", "a", "..", "b", "base.json"]⟩

theorem namesPackage : NamesPackage "pkg/settings" :=
  ⟨by decide, by decide⟩

theorem advances_base {file : Path} (hf : file = base ∨ file = detour) (opened : List Path)
    (ho : file.resolve tree.current ∉ opened) :
    Agenda.Advances tree ⟨opened, [.file file]⟩
      ⟨opened ++ [file.resolve tree.current], [.entry file "pkg/settings"]⟩ := by
  have hr : tree.readObject file = .ok [("extends", .string "pkg/settings")] := by
    refine FileTree.readObject_eq_ok_iff.mpr
      ⟨baseText.toUTF8.toList, ?_, baseText.toList, by cbv, by cbv⟩
    obtain rfl | rfl := hf <;> rfl
  exact .opens (FileTree.fault?_of_readObject hr) ho hr rfl

theorem reaches_base :
    (Agenda.ofFile (base.resolve tree.current)).Reaches tree
      ⟨[base], [.entry base "pkg/settings"]⟩ :=
  .single (advances_base (.inl rfl) [] List.not_mem_nil)

theorem reaches_detour :
    (Agenda.ofFile (start.resolve tree.current)).Reaches tree
      ⟨[start, base], [.entry detour "pkg/settings"]⟩ := by
  have hr : tree.readObject start = .ok [("extends", .string "../b/base.json")] :=
    FileTree.readObject_eq_ok_iff.mpr
      ⟨startText.toUTF8.toList, rfl, startText.toList, by cbv, by cbv⟩
  have hopens : Agenda.Advances tree ⟨[], [.file start]⟩
      ⟨[start], [.entry start "../b/base.json"]⟩ :=
    .opens (FileTree.fault?_of_readObject hr) (by decide) hr rfl
  have hfollows : Agenda.Advances tree ⟨[start], [.entry start "../b/base.json"]⟩
      ⟨[start], [.file detour]⟩ := .follows rfl
  exact .head hopens (.head hfollows (.single (advances_base (.inr rfl) [start] (by decide))))

theorem foundFrom_iff_not_strays_base :
    tree.current.anchor = .root ∧
    (Agenda.ofFile (base.resolve tree.current)).Reaches tree
      ⟨[base], [.entry base "pkg/settings"]⟩ ∧
    NamesPackage "pkg/settings" ∧
    tree.FoundFrom "pkg/settings" (tree.home base) (tree.extendedFile base "pkg/settings") := by
  have hroot : tree.current.anchor = .root := rfl
  obtain ⟨hfound, -, hdots⟩ := FileTree.foundFrom_iff_not_strays hroot reaches_base
    (List.mem_singleton.mpr rfl) namesPackage
  exact ⟨hroot, reaches_base, namesPackage, hfound.mpr (hdots (by decide))⟩

/-- From the start the base finds the package beside it, which is not above it. -/
theorem not_foundFrom_detour :
    (Agenda.ofFile (start.resolve tree.current)).Reaches tree
      ⟨[start, base], [.entry detour "pkg/settings"]⟩ ∧
    NamesPackage "pkg/settings" ∧
    tree.extendedFile detour "pkg/settings" =
      .ok ⟨.root, ["p", "a", "node_modules", "pkg", "settings.json"]⟩ ∧
    tree.extendedFile (detour.resolve tree.current) "pkg/settings" =
      .ok ⟨.root, ["node_modules", "pkg", "settings.json"]⟩ ∧
    ¬ tree.FoundFrom "pkg/settings" (tree.home detour)
      (tree.extendedFile detour "pkg/settings") := by
  have hdetour : tree.extendedFile detour "pkg/settings" =
      .ok ⟨.root, ["p", "a", "node_modules", "pkg", "settings.json"]⟩ := rfl
  have hresolved : tree.extendedFile (detour.resolve tree.current) "pkg/settings" =
      .ok ⟨.root, ["node_modules", "pkg", "settings.json"]⟩ := rfl
  refine ⟨reaches_detour, namesPackage, hdetour, hresolved, ?_⟩
  rw [hdetour, FileTree.foundFrom_home_iff namesPackage, hresolved]
  decide

end Detour

end ImportAlias
