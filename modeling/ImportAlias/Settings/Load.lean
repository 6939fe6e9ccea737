import ImportAlias.Settings.Extends
import ImportAlias.Table
import ImportAlias.Toml.Reader

/-!
# Loading settings

A configuration is named by its file, or found in the nearest directory above a
context that has one. Its extension decides the format: TOML settings stand in
one table of the file, JSON ones in the compiler options.
-/

namespace ImportAlias

/-- The file names that are looked for, most wanted first. -/
def defaultNames : List String :=
  ["tsconfig.json", "jsconfig.json"]

namespace FileTree

/-- The paths with one of the names at a place or above it, nearest directory first. -/
def named (start : Path) (names : List String) : List Path :=
  start.selfAndAncestors.flatMap fun directory =>
    names.map fun name => directory / Path.ofString name

/-- The file with one of the names in the nearest directory that has one, from a place upwards. -/
def nearest? (tree : FileTree) (start : Path) (names : List String) : Option Path :=
  (named start names).find? tree.isFile

/-- The configuration file of the nearest directory that has one, from a context upwards. The
context need not exist, but it has to be a path. -/
def find? (tree : FileTree) (context : String) (names : List String) :
    Except Unreported (Option Path) := do
  let start ← (tree.locate (Path.ofString context)).mapError .notAPath
  return tree.nearest? start names

theorem find?_of_isRepresentable (tree : FileTree) {context : String} (names : List String)
    (h : (Path.ofString context).isRepresentable = true) :
    tree.find? context names =
      .ok (tree.nearest? ((Path.ofString context).resolve tree.current) names) := by
  rw [find?, tree.locate_of_isRepresentable h]
  rfl

theorem exists_find?_eq_error (tree : FileTree) {context : String} (names : List String)
    (h : (Path.ofString context).isRepresentable = false) :
    ∃ fault, (Path.ofString context).fault? = some fault ∧
      tree.find? context names = .error (.notAPath fault) := by
  obtain ⟨fault, hf, hl⟩ := tree.exists_locate_eq_error h
  refine ⟨fault, hf, ?_⟩
  rw [find?, hl]
  rfl

/-- Settings from a JSON file. A base URL that is set comes out absolute. -/
def loadJson (tree : FileTree) (path : Path) : Load Settings := do
  let file := path.resolve tree.current
  let found ← tree.declared (tree.files.length + 1) file
  let paths ← (Settings.pathsOf file found.paths).mapError Error.config
  Load.note (.loaded paths.length file found.baseUrl)
  let baseUrl := (found.baseUrl.map fun base => Value.string base.toString).getD .null
  return ⟨file.toString, baseUrl, paths⟩

/-- The settings table of a TOML document, empty when the document has none. -/
def settingsTable (file : Path) (document : Entries Value) : Except ConfigError (Entries Value) :=
  match document.get? "tool" with
  | none => .ok []
  | some (.object tool) =>
    match Entries.get? tool "pathalias" with
    | none => .ok []
    | some (.object settings) => .ok settings
    | some _ => .error (.sectionNotATable file)
  | some _ => .error (.sectionNotATable file)

/-- Settings from a TOML file, with the base URL as it is written. -/
def loadToml (tree : FileTree) (path : Path) : Except Error Settings := do
  let file ← (tree.locate path).mapError fun fault => .unreported (.notAPath fault)
  let bytes ← (tree.read file).mapError fun cause => .config (.cannotRead file cause)
  let text ← (Text.decodeUtf8 bytes).mapError fun cause => .unreported (.notUtf8 cause)
  let document ← (Toml.read (Text.unifyNewlines text)).mapError fun
    | .malformed => .config (.invalidToml file)
    | .longInteger digits => .unreported (.longInteger (.longInteger digits))
  let settings ← (settingsTable file document).mapError .config
  let paths ← (Settings.pathsOf file (Value.under settings "paths")).mapError .config
  return ⟨file.toString, Value.under settings "base_url", paths⟩

/-- The text of a context, that of the working directory by default. An empty text counts as none
given. -/
def contextText (tree : FileTree) (context : Option String) : String :=
  (context.filter (· ≠ "")).getD tree.current.toString

/-- The file that a context and a file name lead to. A relative file is read from the context, and
without a file the nearest one above the context is taken. -/
def chosenFile (tree : FileTree) (context file : Option String) : Except Error Path := do
  let context := tree.contextText context
  match file.filter (· ≠ "") with
  | some file =>
    let path := Path.ofString context / Path.ofString file
    if tree.isFile path then return path else .error (.config (.missingFile path))
  | none =>
    match ← (tree.find? context defaultNames).mapError Error.unreported with
    | some path => return path
    | none => .error (.config (.nothingFound ((Path.ofString context).resolve tree.current)))

/-- Settings from a named file or from the nearest one. -/
def load (tree : FileTree) (context file : Option String) : Load Settings := do
  let path ← tree.chosenFile context file
  if path.extension = ".toml" then tree.loadToml path else tree.loadJson path

/-- Compiles settings into a table. -/
def table (tree : FileTree) (settings : Settings) : Load Table := do
  let table ← Table.ofSettings tree.current settings
  Load.note (.built table.mappings.length table.active.length table.baseDirectory)
  return table

/-- The table of a configuration. -/
def loadTable (tree : FileTree) (context file : Option String) : Load Table := do
  tree.table (← tree.load context file)

end FileTree

end ImportAlias
