import ImportAlias.Text.Encoding
import ImportAlias.Text.Search

/-!
# Lexical paths

A path is an anchor and the names below it. Reading a path drops empty names
and single dots but keeps `..`, since the directory in front of it may not
exist; `normalize` resolves `..` without looking at any file. Two leading
slashes are an anchor of their own and three or more are one. A path may hold
names that no file has, with a null byte or half of a surrogate pair in them:
it is read and joined like any other, but nobody can be asked about it.
-/

namespace ImportAlias

/-- What the names of a path start from. -/
inductive Anchor where
  | relative
  | root
  | doubleRoot
  deriving DecidableEq, Repr

namespace Anchor

def ofText : List Char → Anchor
  | '/' :: '/' :: '/' :: _ => root
  | '/' :: '/' :: _ => doubleRoot
  | '/' :: _ => root
  | _ => relative

def toString : Anchor → String
  | relative => ""
  | root => "/"
  | doubleRoot => "//"

/-- The anchor of a file that is looked up: both kinds of root are the same directory. -/
def single : Anchor → Anchor
  | relative => relative
  | _ => root

end Anchor

/-- An anchor and the names below it, outermost first. -/
structure Path where
  anchor : Anchor
  names : List String
  deriving DecidableEq, Repr

namespace Path

/-- The parts of a text between slashes, empty ones included. -/
def segments (text : String) : List String :=
  (text.toList.splitOn '/').map String.ofList

def ofString (text : String) : Path :=
  ⟨.ofText text.toList, (segments text).filter fun name => name ≠ "" ∧ name ≠ "."⟩

/-- The empty path is written as a dot. -/
def toString (p : Path) : String :=
  match p.anchor, p.names with
  | .relative, [] => "."
  | anchor, names => anchor.toString ++ "/".intercalate names

def isAbsolute (p : Path) : Bool :=
  p.anchor ≠ .relative

/-- `q` read from `p`: an absolute `q` stands for itself. -/
def join (p q : Path) : Path :=
  if q.isAbsolute then q else ⟨p.anchor, p.names ++ q.names⟩

instance : Div Path := ⟨join⟩

/-- One name of a walk, on the names walked so far, last one first. A `..` leaves the last
directory, stays where it is at a root, and is kept where a relative path leaves its start. -/
def walk (absolute : Bool) (trail : List String) (name : String) : List String :=
  if name = ".." then
    match trail with
    | [] => if absolute then [] else [".."]
    | last :: rest => if last = ".." then ".." :: trail else rest
  else name :: trail

/-- Resolves `..` by the text of the path alone. -/
def normalize (p : Path) : Path :=
  ⟨p.anchor, (p.names.foldl (walk p.isAbsolute) []).reverse⟩

/-- The normalized path, read from `base` when it is relative. -/
def absolute (p base : Path) : Path :=
  (base / p).normalize

/-- Whether all names of a path are such as files have. -/
def isRepresentable (p : Path) : Bool :=
  p.names.all Text.isRepresentable

/-- What is wrong with the first name on the way that no file has. Its place is counted in the text
of the way up to it, where `..` is resolved. -/
def fault? (p : Path) : Option Text.PathFault :=
  go [] p.names
where
  go (trail : List String) : List String → Option Text.PathFault
    | [] => none
    | name :: rest =>
      let trail := walk p.isAbsolute trail name
      let way := toString ⟨p.anchor.single, trail.reverse⟩
      (Text.pathFaultFrom? (Text.width way - Text.width name) name).or (go trail rest)

theorem fault?_eq_none_iff {p : Path} : p.fault? = none ↔ p.isRepresentable = true := by
  have hgo : ∀ names trail, fault?.go p trail names = none ↔
      names.all Text.isRepresentable = true := by
    intro names
    induction names with
    | nil => simp [fault?.go]
    | cons name rest ih =>
      intro trail
      rw [fault?.go, Option.or_eq_none_iff, ih, Text.pathFaultFrom?_eq_none_iff, List.all_cons,
        Bool.and_eq_true]
  exact hgo p.names []

/-- The place of a file in a tree without links: absolute, normalized, below the single root. A path
that no file has is only joined, for a name in it cannot be left. -/
def resolve (p base : Path) : Path :=
  let path := base / ⟨p.anchor.single, p.names⟩
  if p.isRepresentable then path.normalize else path

def parent (p : Path) : Path :=
  ⟨p.anchor, p.names.dropLast⟩

/-- The directory chain of a path, nearest first: the path itself, its parent, up to its anchor. -/
def selfAndAncestors (p : Path) : List Path :=
  go p.names.reverse
where
  go : List String → List Path
    | [] => [⟨p.anchor, []⟩]
    | name :: rest => ⟨p.anchor, (name :: rest).reverse⟩ :: go rest

/-- The last name, if there is one. -/
def name? (p : Path) : Option String :=
  p.names.getLast?

/-- The extension of the last name with its dot. A name that starts or ends with its only dot has
no extension. -/
def extension (p : Path) : String :=
  match p.name? with
  | none => ""
  | some name =>
    match Text.beforeLast? ['.'] name.toList with
    | none => ""
    | some stem =>
      if 0 < stem.length ∧ stem.length + 1 < name.length then
        String.ofList (name.toList.drop stem.length)
      else ""

/-- The path with `ending` appended to its last name; a path without a name has none to extend. -/
def extended? (p : Path) (ending : String) : Option Path :=
  p.name?.map fun name => ⟨p.anchor, p.names.dropLast ++ [name ++ ending]⟩

/-- The text of a path up to its last slash, as written. Closing slashes go unless nothing but
slashes is left. -/
def directoryOf (file : String) : String :=
  let head := file.toList.reverse.dropWhile (· ≠ '/')
  let kept := head.dropWhile (· = '/')
  String.ofList (if kept.isEmpty then head else kept.reverse)

/-- Whether a text asks for a directory: it closes with a slash or with a lone dot. -/
def asksForDirectory (text : String) : Bool :=
  match (segments text).getLast? with
  | some last => last = "" ∨ last = "."
  | none => false

/-- A request read from a directory that may be relative. A result that would look like a bare
specifier keeps the leading `./` of the directory. -/
def joinRequest (directory request : String) : String :=
  let joined := (ofString directory / ofString request).normalize.toString
  match Text.after? ['.', '/'] directory.toList, joined.toList with
  | some _, '.' :: _ => joined
  | some _, '/' :: _ => joined
  | some _, _ => "./" ++ joined
  | none, _ => joined

end Path

end ImportAlias
