import ImportAlias.Path

/-!
# File trees

A finite tree of files and directories without links, seen from a working
directory. A path is followed name by name, and every name but the last has to
be a directory: `..` leaves a directory that exists, so a path through a
missing directory leads nowhere even if its normal form names a file.
-/

namespace ImportAlias

/-- What a place in a tree holds. -/
inductive Node where
  | file (content : List UInt8)
  | directory
  deriving DecidableEq, Repr

/-- Why a file could not be read. -/
inductive AccessError where
  | noSuchFile
  | notADirectory
  | isADirectory
  deriving DecidableEq, Repr

namespace AccessError

def message : AccessError → String
  | noSuchFile => "[Errno 2] No such file or directory"
  | notADirectory => "[Errno 20] Not a directory"
  | isADirectory => "[Errno 21] Is a directory"

end AccessError

/-- Places are lists of names below the root. -/
structure FileTree where
  files : List (List String × List UInt8)
  directories : List (List String)
  current : Path

namespace FileTree

/-- The directories that a place lies in, without the root. -/
def above : List String → List (List String)
  | [] => []
  | name :: names =>
    if names.isEmpty then [] else [name] :: (above names).map (name :: ·)

def place (path : String) : List String :=
  (Path.ofString path).normalize.names

/-- The tree of the given files and directories, with every directory that they lie in. -/
def ofLists (files : List (String × List UInt8)) (directories : List String) (current : String) :
    FileTree :=
  let files := files.map fun (path, content) => (place path, content)
  let directories := (current :: directories).map place
  ⟨files, directories ++ (files.map (·.1) ++ directories).flatMap above, .ofString current⟩

/-- What stands at a place. Nothing stands below a name that no file has. -/
def node? (tree : FileTree) (place : List String) : Option Node :=
  if place.all Text.isRepresentable then
    match tree.files.find? (·.1 = place) with
    | some (_, content) => some (.file content)
    | none => if place = [] ∨ place ∈ tree.directories then some .directory else none
  else none

/-- The place of a path, or what is wrong with the path. Nothing has to stand there. -/
def locate (tree : FileTree) (path : Path) : Except Text.PathFault Path :=
  match path.fault? with
  | some fault => .error fault
  | none => .ok (path.resolve tree.current)

theorem locate_of_isRepresentable (tree : FileTree) {path : Path}
    (h : path.isRepresentable = true) : tree.locate path = .ok (path.resolve tree.current) := by
  rw [locate, Path.fault?_eq_none_iff.mpr h]

theorem exists_locate_eq_error (tree : FileTree) {path : Path}
    (h : path.isRepresentable = false) :
    ∃ fault, path.fault? = some fault ∧ tree.locate path = .error fault := by
  cases hf : path.fault? with
  | none => rw [Path.fault?_eq_none_iff.mp hf] at h; cases h
  | some fault => exact ⟨fault, rfl, by rw [locate, hf]⟩

/-- The place that names lead to from `here`. -/
def follow (tree : FileTree) (here : List String) : List String → Except AccessError (List String)
  | [] => .ok here
  | name :: names =>
    match tree.node? here with
    | none => .error .noSuchFile
    | some (.file _) => .error .notADirectory
    | some .directory => tree.follow (if name = ".." then here.dropLast else here ++ [name]) names

def lookup (tree : FileTree) (path : Path) : Except AccessError Node := do
  let place ← tree.follow [] (tree.current / path).names
  match tree.node? place with
  | some node => return node
  | none => .error .noSuchFile

def isFile (tree : FileTree) (path : Path) : Bool :=
  match tree.lookup path with
  | .ok (.file _) => true
  | _ => false

def isDirectory (tree : FileTree) (path : Path) : Bool :=
  match tree.lookup path with
  | .ok .directory => true
  | _ => false

/-- Whether a path as it is written opens as a file; one that asks for a directory does not. -/
def opensAsFile (tree : FileTree) (path : String) : Bool :=
  !Path.asksForDirectory path && tree.isFile (.ofString path)

def read (tree : FileTree) (path : Path) : Except AccessError (List UInt8) := do
  match ← tree.lookup path with
  | .file content => return content
  | .directory => .error .isADirectory

/-- The tree with a file written, its directories made. -/
def write (tree : FileTree) (path : String) (content : List UInt8) : FileTree :=
  let place := place path
  { tree with
    files := (place, content) :: tree.files.filter (·.1 ≠ place)
    directories := above place ++ tree.directories }

/-- The tree with a directory and those it lies in. -/
def makeDirectory (tree : FileTree) (path : String) : FileTree :=
  let place := place path
  { tree with directories := place :: above place ++ tree.directories }

/-- The tree without a file; directories stay. -/
def remove (tree : FileTree) (path : String) : FileTree :=
  { tree with files := tree.files.filter (·.1 ≠ place path) }

end FileTree

end ImportAlias
