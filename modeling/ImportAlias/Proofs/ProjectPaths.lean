import ImportAlias.Proofs.MissingFiles
import ImportAlias.Proofs.PackageSearch
import ImportAlias.Proofs.PathTexts
import ImportAlias.ToolServer

/-!
# The project that a path names

A server should load what the command line loads for the same path. It reads a
file from the directory that its path names, however, and so goes through that
directory twice when the path is relative. It also takes a directory for a file
when its name ends like that of a configuration.
-/

namespace ImportAlias

namespace FileTree

variable {tree : FileTree}

theorem isFile_current_div (hc : tree.current.anchor = .root) (path : Path) :
    tree.isFile (tree.current / path) = tree.isFile path := by
  have ha : (tree.current / path).isAbsolute = true :=
    Path.isAbsolute_div (Path.isAbsolute_of_root hc)
  rw [isFile, isFile, lookup, lookup, Path.div_of_isAbsolute ha]

theorem resolve_current_div (hc : tree.current.anchor = .root) {path : Path}
    (hp : (tree.current / path).isRepresentable = true) :
    (tree.current / path).resolve tree.current = path.resolve tree.current := by
  rw [Path.resolve, Path.resolve, if_pos hp, if_pos (Path.isRepresentable_of_div hp)]
  obtain ⟨anchor, names⟩ := path
  generalize tree.current = current at hc
  obtain ⟨_, here⟩ := current
  cases hc
  cases anchor <;> rfl

theorem isFile_of_opensAsFile {project : String} (h : tree.opensAsFile project = true) :
    tree.isFile (Path.ofString project) = true := by
  rw [opensAsFile, Bool.and_eq_true] at h
  exact h.2

theorem isRepresentable_of_opensAsFile (hc : tree.current.anchor = .root) {project : String}
    (h : tree.opensAsFile project = true) :
    (tree.current / Path.ofString project).isRepresentable = true := by
  apply isRepresentable_of_isFile
  rw [isFile_current_div hc, isFile_of_opensAsFile h]

theorem opensAsFile_eq_false_of_isDirectory {project : String}
    (h : tree.isDirectory (Path.ofString project) = true) : tree.opensAsFile project = false := by
  cases ho : tree.opensAsFile project with
  | false => rfl
  | true =>
    rw [isDirectory_eq_false_of_isFile (isFile_of_opensAsFile ho)] at h
    cases h

theorem names_ne_nil_of_opensAsFile {project : String} (h : tree.opensAsFile project = true) :
    (Path.ofString project).names ≠ [] := by
  intro hn
  rw [opensAsFile, Bool.and_eq_true, Bool.not_eq_true'] at h
  have hsegments : Path.segments project ≠ [] := by
    rw [Path.segments, Ne, List.map_eq_nil_iff]
    exact List.splitOn_ne_nil _ _
  have hlast := List.getLast?_eq_getLast_of_ne_nil hsegments
  have hdropped := List.filter_eq_nil_iff.mp hn _ (List.getLast_mem hsegments)
  rw [Path.asksForDirectory, hlast] at h
  simp_all

theorem fileIn_of_isAbsolute {project : String} (ha : (Path.ofString project).isAbsolute = true)
    (context : Option String) : tree.fileIn context project = Path.ofString project :=
  Path.div_of_isAbsolute ha

theorem fileIn_none (hw : tree.current.Written) (project : String) :
    tree.fileIn none project = tree.current / Path.ofString project := by
  change Path.ofString tree.current.toString / _ = _
  rw [hw.ofString_toString]

end FileTree

namespace ToolServer

open FileTree

variable {tree : FileTree} {server : ToolServer} {path : Option String} {text : String}

/-- The text that names a project: the path that is given, else the workspace, else the working
directory. -/
def project (server : ToolServer) (tree : FileTree) (path : Option String) : String :=
  ((path.filter (· ≠ "")).or (server.workspace.filter (· ≠ ""))).getD tree.current.toString

/-- The file that the server reads for a text that it takes for the name of one: it reads the text
from the directory part of the text itself. -/
def fileOf (tree : FileTree) (text : String) : Path :=
  tree.fileIn (some (Path.directoryOf text)) text

/-- A file that is there and has a result. -/
def Yields (tree : FileTree) (file : Path) (result : Except Error Table) : Prop :=
  tree.isFile file = true ∧ (tree.tableOf file).result = result

/-- The server loads what the command line loads for the same text: for a file, its table, and for a
directory, the table that is found from there. -/
structure LoadsNamed (server : ToolServer) (tree : FileTree) (path : Option String) : Prop where
  file : tree.opensAsFile (server.project tree path) = true →
    (server.loadTable tree path).result =
      (tree.loadTable none (some (server.project tree path))).result
  directory : tree.isDirectory (Path.ofString (server.project tree path)) = true →
    (server.loadTable tree path).result =
      (tree.loadTable (some (server.project tree path)) none).result

theorem project_ne_empty (hc : tree.current.anchor = .root) : server.project tree path ≠ "" := by
  have hcurrent : tree.current.toString ≠ "" := by
    intro he
    have hslash := Path.head?_toString (Path.isAbsolute_of_root hc)
    rw [he] at hslash
    cases hslash
  unfold project
  cases hgiven : (path.filter (· ≠ "")).or (server.workspace.filter (· ≠ "")) with
  | none => exact hcurrent
  | some text =>
    simp only [Option.or_eq_some_iff, Option.filter_eq_some_iff] at hgiven
    rcases hgiven with ⟨-, h⟩ | ⟨-, -, h⟩ <;> simpa using h

/-- A text that is taken for a file has the table of the server's file. -/
theorem loadTable_eq_iff (ht : server.project tree path = text) (hn : text ≠ "")
    (h : tree.opensAsFile text = true ∨ namesConfig text = true) {result : Except Error Table}
    (hr : Present result) :
    (server.loadTable tree path).result = result ↔ Yields tree (fileOf tree text) result := by
  subst ht
  have hload : server.loadTable tree path =
      tree.loadTable (some (Path.directoryOf (server.project tree path)))
        (some (server.project tree path)) :=
    if_pos ((Bool.or_eq_true_iff ..).mpr h)
  rw [hload]
  exact loadTable_some_eq_iff hn _ hr

theorem loadTable_of_not_names (ht : server.project tree path = text)
    (hf : tree.opensAsFile text = false) (hn : namesConfig text = false) :
    server.loadTable tree path = tree.loadTable (some text) none := by
  subst ht
  refine if_neg fun h => ?_
  obtain h | h := (Bool.or_eq_true_iff ..).mp h
  · exact Bool.false_ne_true (hf.symm.trans h)
  · exact Bool.false_ne_true (hn.symm.trans h)

theorem loadTable_of_opensAsFile (hc : tree.current.anchor = .root) (hw : tree.current.Written)
    (hn : text ≠ "") (h : tree.opensAsFile text = true) :
    tree.loadTable none (some text) = tree.tableOf (tree.current / Path.ofString text) := by
  have hfile := isFile_of_opensAsFile h
  have hchosen := tree.chosenFile_some hn none
  rw [fileIn_none hw, if_pos (by rw [isFile_current_div hc, hfile])] at hchosen
  exact loadTable_of_chosen hchosen

/-- A text without a directory, and an absolute one, is not read from another place. -/
theorem fileOf_eq (hw : tree.current.Written)
    (h : (Path.ofString text).isAbsolute = true ∨ Path.directoryOf text = "") :
    fileOf tree text = tree.current / Path.ofString text ∨
      fileOf tree text = Path.ofString text := by
  obtain ha | hd := h
  · right
    rw [fileOf, fileIn_of_isAbsolute ha]
  · left
    rw [← fileIn_none hw, fileOf, hd]
    rfl

theorem isFile_fileOf (hc : tree.current.anchor = .root) (hw : tree.current.Written)
    (h : (Path.ofString text).isAbsolute = true ∨ Path.directoryOf text = "") :
    tree.isFile (fileOf tree text) = tree.isFile (Path.ofString text) := by
  obtain hf | hf := fileOf_eq hw h
  · rw [hf, isFile_current_div hc]
  · rw [hf]

theorem resolve_fileOf (hc : tree.current.anchor = .root) (hw : tree.current.Written)
    (ho : tree.opensAsFile text = true)
    (h : (Path.ofString text).isAbsolute = true ∨ Path.directoryOf text = "") :
    (fileOf tree text).resolve tree.current = (Path.ofString text).resolve tree.current := by
  obtain hf | hf := fileOf_eq hw h
  · rw [hf, resolve_current_div hc (isRepresentable_of_opensAsFile hc ho)]
  · rw [hf]

/-- A file that leads to the same place has the same table. -/
theorem tableOf_fileOf (hc : tree.current.anchor = .root) (h : tree.opensAsFile text = true)
    (hf : tree.isFile (fileOf tree text) = true)
    (hr : (fileOf tree text).resolve tree.current =
      (Path.ofString text).resolve tree.current) :
    tree.tableOf (fileOf tree text) = tree.tableOf (tree.current / Path.ofString text) := by
  have hn := names_ne_nil_of_opensAsFile h
  have hcurrent := isRepresentable_of_opensAsFile hc h
  apply tableOf_congr (isRepresentable_of_isFile hf) hcurrent
  · exact (Path.extension_div _ hn).trans (Path.extension_div _ hn).symm
  · rw [hr, resolve_current_div hc hcurrent]

theorem loadsNamed_iff_yields (hc : tree.current.anchor = .root) (hw : tree.current.Written)
    (ht : server.project tree path = text) (hn : text ≠ "") :
    server.LoadsNamed tree path ↔
      (tree.opensAsFile text = true →
        Yields tree (fileOf tree text) (tree.loadTable none (some text)).result) ∧
      (tree.isDirectory (Path.ofString text) = true → namesConfig text = true →
        Yields tree (fileOf tree text) (tree.loadTable (some text) none).result) := by
  have hfile : tree.opensAsFile text = true →
      ((server.loadTable tree path).result = (tree.loadTable none (some text)).result ↔
        Yields tree (fileOf tree text) (tree.loadTable none (some text)).result) := by
    intro ho
    refine loadTable_eq_iff ht hn (.inl ho) ?_
    rw [loadTable_of_opensAsFile hc hw hn ho]
    exact present_tableOf hc _
  have hsearch : namesConfig text = true →
      ((server.loadTable tree path).result = (tree.loadTable (some text) none).result ↔
        Yields tree (fileOf tree text) (tree.loadTable (some text) none).result) :=
    fun hnames => loadTable_eq_iff ht hn (.inr hnames) (present_search hc text)
  constructor
  · rintro ⟨hf, hd⟩
    rw [ht] at hf hd
    exact ⟨fun ho => (hfile ho).mp (hf ho), fun hdir hnames => (hsearch hnames).mp (hd hdir)⟩
  · rintro ⟨hf, hd⟩
    constructor <;> rw [ht]
    · exact fun ho => (hfile ho).mpr (hf ho)
    · intro hdir
      cases hnames : namesConfig text with
      | true => exact (hsearch hnames).mpr (hd hdir hnames)
      | false =>
        rw [loadTable_of_not_names ht (opensAsFile_eq_false_of_isDirectory hdir) hnames]

/-- The server loads the project that a text names exactly if the file that it reads instead, where
it takes the text for a file, is there and has the same table. It does for a file whose text is
absolute or without a directory, and for any other whose text leads to the same place from its own
directory. It never does for a directory that is called like a configuration and named in this
way. -/
theorem loadsNamed_iff (hc : tree.current.anchor = .root) (hw : tree.current.Written)
    (ht : server.project tree path = text) :
    (server.LoadsNamed tree path ↔
      (tree.opensAsFile text = true →
        Yields tree (fileOf tree text) (tree.loadTable none (some text)).result) ∧
      (tree.isDirectory (Path.ofString text) = true → namesConfig text = true →
        Yields tree (fileOf tree text) (tree.loadTable (some text) none).result)) ∧
    (tree.opensAsFile text = true →
      (Path.ofString text).isAbsolute = true ∨ Path.directoryOf text = "" ∨
        tree.isFile (fileOf tree text) = true ∧
          (fileOf tree text).resolve tree.current = (Path.ofString text).resolve tree.current →
      server.LoadsNamed tree path) ∧
    (tree.isDirectory (Path.ofString text) = true → namesConfig text = true →
      (Path.ofString text).isAbsolute = true ∨ Path.directoryOf text = "" →
      ¬ server.LoadsNamed tree path) := by
  have hn : text ≠ "" := ht ▸ project_ne_empty hc
  have hiff := loadsNamed_iff_yields hc hw ht hn
  refine ⟨hiff, fun ho hplace => ?_, fun hdir hnames hplace hl => ?_⟩
  · have hmeets : tree.isFile (fileOf tree text) = true ∧
        (fileOf tree text).resolve tree.current = (Path.ofString text).resolve tree.current := by
      rw [← or_assoc] at hplace
      obtain hplace | hplace := hplace
      · rw [isFile_fileOf hc hw hplace]
        exact ⟨isFile_of_opensAsFile ho, resolve_fileOf hc hw ho hplace⟩
      · exact hplace
    refine hiff.mpr ⟨fun _ => ⟨hmeets.1, ?_⟩, fun hdir => ?_⟩
    · rw [tableOf_fileOf hc ho hmeets.1 hmeets.2, loadTable_of_opensAsFile hc hw hn ho]
    · rw [opensAsFile_eq_false_of_isDirectory hdir] at ho
      cases ho
  · obtain ⟨hstands, -⟩ := (hiff.mp hl).2 hdir hnames
    -- the directory itself is looked for as a file
    rw [isFile_fileOf hc hw hplace] at hstands
    rw [isDirectory_eq_false_of_isFile hstands] at hdir
    cases hdir

end ToolServer

namespace Below

def text : String :=
  "\x7b\"compilerOptions\": \x7b\"paths\": \x7b\"a\": \"x\"\x7d\x7d\x7d"

def tree : FileTree where
  files := [(["p", "sub", "tsconfig.json"], text.toUTF8.toList)]
  directories := [["p"], ["p", "sub"]]
  current := ⟨.root, ["p"]⟩

def server : ToolServer := ⟨none⟩

theorem written_current : tree.current.Written :=
  ⟨"/p", by decide⟩

theorem loadsNamed_iff_absolute :
    tree.current.anchor = .root ∧ tree.current.Written ∧
    server.project tree (some "/p/sub/tsconfig.json") = "/p/sub/tsconfig.json" ∧
    server.LoadsNamed tree (some "/p/sub/tsconfig.json") := by
  have hroot : tree.current.anchor = .root := rfl
  have hproject : server.project tree (some "/p/sub/tsconfig.json") = "/p/sub/tsconfig.json" := by
    decide
  obtain ⟨-, hfile, -⟩ := ToolServer.loadsNamed_iff hroot written_current hproject
  exact ⟨hroot, written_current, hproject, hfile (by decide) (.inl (by decide))⟩

/-- A relative text is read from the directory that it names itself, and the file is missed. -/
theorem not_loadsNamed_relative :
    tree.opensAsFile "sub/tsconfig.json" = true ∧
    (server.loadTable tree (some "sub/tsconfig.json")).result =
      .error (.config (.missingFile ⟨.relative, ["sub", "sub", "tsconfig.json"]⟩)) ∧
    ¬ server.LoadsNamed tree (some "sub/tsconfig.json") := by
  have hroot : tree.current.anchor = .root := rfl
  have hopens : tree.opensAsFile "sub/tsconfig.json" = true := by decide
  have hserver : (server.loadTable tree (some "sub/tsconfig.json")).result =
      .error (.config (.missingFile ⟨.relative, ["sub", "sub", "tsconfig.json"]⟩)) := rfl
  refine ⟨hopens, hserver, fun h => ?_⟩
  have hnamed := h.file hopens
  have htable := FileTree.present_tableOf hroot (tree.current / Path.ofString "sub/tsconfig.json")
  have hload : tree.loadTable none (some "sub/tsconfig.json") = _ :=
    ToolServer.loadTable_of_opensAsFile hroot written_current (by decide) hopens
  rw [hserver] at hnamed
  rw [← hload] at htable
  exact htable _ hnamed.symm

end Below

end ImportAlias
