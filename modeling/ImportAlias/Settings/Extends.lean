import ImportAlias.Json.Comments
import ImportAlias.Settings.Event

/-!
# Extended configurations

A JSON configuration may extend others, by path or by package. Paths and base
URL are inherited separately: a file's own declaration wins, and of the files it
extends the last one that declares something does. A file is read once per
load, whichever spelling of its path leads to it; meeting it again contributes
nothing.
-/

namespace ImportAlias

/-- What a file declares, alone or with those it extends. -/
structure Declaration where
  paths : Value
  baseUrl : Option Path

namespace Declaration

def empty : Declaration := ⟨.null, none⟩

/-- Each key of the first declaration that is set hides the same key of the second. -/
def overriding (first second : Declaration) : Declaration :=
  ⟨if first.paths.isNull then second.paths else first.paths, first.baseUrl.or second.baseUrl⟩

/-- The compiler options of a configuration; a vacant value counts as none. -/
def optionsOf (entries : Entries Value) : Except Unreported (Entries Value) :=
  let found := Value.under entries "compilerOptions"
  if found.isVacant then .ok []
  else
    match found with
    | .object options => .ok options
    | other => .error (.optionsNotAnObject other)

/-- A base URL is read from the directory of the file that declares it. -/
def baseUrlOf (file : Path) (options : Entries Value) : Except Unreported (Option Path) :=
  match Value.under options "baseUrl" with
  | .null => .ok none
  | .string text => .ok (some (file.parent / Path.ofString text).normalize)
  | other => .error (.baseUrlNotText other)

/-- The configurations that a file extends. -/
def extendedBy (file : Path) (entries : Entries Value) : Except ConfigError (List String) :=
  match Value.under entries "extends" with
  | .null => .ok []
  | other =>
    match other.oneOrMoreTexts? with
    | some texts => .ok texts
    | none => .error (.extendsNotText file)

/-- What a file declares itself, and what it extends. -/
def ofEntries (file : Path) (entries : Entries Value) :
    Except Error (Declaration × List String) := do
  let options ← (optionsOf entries).mapError .unreported
  let baseUrl ← (baseUrlOf file options).mapError .unreported
  let extended ← (extendedBy file entries).mapError .config
  return (⟨Value.under options "paths", baseUrl⟩, extended)

end Declaration

namespace FileTree

/-- The object that a file writes in JSON with comments. -/
def readObject (tree : FileTree) (file : Path) : Except Error (Entries Value) := do
  let bytes ← (tree.read file).mapError fun cause => .config (.cannotRead file cause)
  let text ← (Text.decodeMarkedUtf8 bytes).mapError fun cause => .unreported (.notUtf8 cause)
  match Json.read (Json.stripComments (Text.unifyNewlines text)) with
  | .ok (.object entries) => return entries
  | .ok _ => .error (.config (.notAnObject file))
  | .error cause =>
    match cause.fault with
    | .longInteger _ => .error (.unreported (.longInteger cause.fault))
    | _ => .error (.config (.invalidJson file cause))

/-- A path with `.json` at the end of its name, added unless it is there; a path without a name has
none. -/
def withJson? (path : Path) : Option Path :=
  if path.extension = ".json" then some path else path.extended? ".json"

/-- The file of a package in one directory: its own configuration when the entry names a directory,
else the file of that name, whose `.json` may be left out. -/
def packageIn? (tree : FileTree) (entry : String) (directory : Path) : Option Path :=
  let candidate := directory / Path.ofString "node_modules" / Path.ofString entry
  if tree.isDirectory candidate then some (candidate / Path.ofString "tsconfig.json")
  else if tree.isFile candidate || (withJson? candidate).any tree.isFile then some candidate
  else none

/-- The file of a package, from the nearest directory that has it. -/
def package (tree : FileTree) (entry : String) (start : Path) : Except Error Path :=
  match start.selfAndAncestors.findSome? (tree.packageIn? entry) with
  | some found => .ok found
  | none => .error (.config (.extendsNotFound entry start))

/-- The file that an entry of `file` names: a path when it is absolute or starts with a dot, else a
package. Its `.json` may be left out. -/
def extendedFile (tree : FileTree) (file : Path) (entry : String) : Except Error Path := do
  let path := Path.ofString entry
  let named ←
    if path.isAbsolute then pure path
    else if entry.toList.head? = some '.' then pure (file.parent / path)
    else tree.package entry file.parent
  if tree.isFile named then return named
  else
    match withJson? named with
    | some extended => return extended
    | none => .error (.unreported (.namelessPath named))

/-- What a file declares with those it extends. The depth bounds the chain of files: each opens a
file that no other has opened, so a chain is no longer than the tree has files. -/
def declared (tree : FileTree) : Nat → Path → Load Declaration
  | 0, _ => return .empty
  | depth + 1, file => do
    let place ← (tree.locate file).mapError fun fault => Error.unreported (.notAPath fault)
    if (← Load.openedFiles).contains place then
      Load.note (.passedOver place)
      return .empty
    Load.note (.opened place)
    let entries ← tree.readObject file
    let (own, extended) ← Declaration.ofEntries file entries
    let inherited ← extended.foldlM (fun inherited entry => do
      let parent ← tree.extendedFile file entry
      return (← tree.declared depth parent).overriding inherited) Declaration.empty
    return own.overriding inherited

end FileTree

end ImportAlias
