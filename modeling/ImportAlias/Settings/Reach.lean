import ImportAlias.Settings.Load

/-!
# The reach of a load

The paths that loading may look at, given what the files read so far extend. A
tree that holds these and nothing else is enough to load from, so a small tree
can stand for a large one.
-/

namespace ImportAlias.FileTree

/-- Where a load may start. -/
def startingPaths (tree : FileTree) (context file : Option String) : List Path :=
  let context := tree.contextText context
  match file.filter (· ≠ "") with
  | some file => [Path.ofString context / Path.ofString file]
  | none => named ((Path.ofString context).resolve tree.current) defaultNames

/-- A path as it is named, and with the `.json` that may have been left out. -/
def withAndWithoutJson (path : Path) : List Path :=
  path :: (withJson? path).toList

/-- The paths that an entry of `file` may lead to. -/
def entryPaths (file : Path) (entry : String) : List Path :=
  let path := Path.ofString entry
  if path.isAbsolute then withAndWithoutJson path
  else if entry.toList.head? = some '.' then withAndWithoutJson (file.parent / path)
  else
    file.parent.selfAndAncestors.flatMap fun directory =>
      let candidate := directory / Path.ofString "node_modules" / path
      withAndWithoutJson candidate ++ withAndWithoutJson (candidate / Path.ofString "tsconfig.json")

/-- The paths that a file of the tree leads to, none if it cannot be read. -/
def nextPaths (tree : FileTree) (file : Path) : List Path :=
  let extended : Except Error (List String) := do
    (Declaration.extendedBy file (← tree.readObject file)).mapError .config
  match extended with
  | .ok entries => entries.flatMap (entryPaths file)
  | .error _ => []

end ImportAlias.FileTree
