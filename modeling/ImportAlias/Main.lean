import ImportAlias.Command.Run
import ImportAlias.Settings.Reach

/-!
# The program

Gathers the files that a command may look at into a tree, runs the command on
it and prints what it leaves behind.
-/

namespace ImportAlias.Main

/-- What a path holds. -/
def probe (path : String) : IO (Option Node) := do
  try
    return some (.file (← IO.FS.readBinFile (Text.plain path)).toList)
  catch
    | .inappropriateType _ code _ => return if code = 21 then some .directory else none
    | _ => return none

/-- The directories on the way to a path, and the path itself. -/
def steps (path : Path) : List Path :=
  (List.range (path.names.length + 1)).map fun n => ⟨path.anchor, path.names.take n⟩

/-- Adds what a path holds, if it holds anything. -/
def add (tree : FileTree) (path : Path) : IO FileTree := do
  match ← probe (tree.current / path).toString with
  | some (.file content) => return tree.write (path.resolve tree.current).toString content
  | some .directory => return tree.makeDirectory (path.resolve tree.current).toString
  | none => return tree

/-- Adds paths to a tree, and those that the added files lead to. -/
partial def gather (tree : FileTree) (seen : List Path) : List Path → IO FileTree
  | [] => return tree
  | path :: rest => do
    if seen.contains path then gather tree seen rest
    else
      let tree ← (steps path).foldlM add tree
      gather tree (path :: seen) (tree.nextPaths path ++ rest)

/-- The tree that a command line needs, empty for one that loads nothing. -/
def treeFor (args : List String) : IO FileTree := do
  let tree := FileTree.ofLists [] [] (Text.ofChars (← IO.currentDir).toString.toList)
  match Command.Invocation.ofArguments args with
  | .ok ⟨_, some command⟩ =>
    gather tree [] (tree.startingPaths command.location.context command.location.project)
  | _ => return tree

def helpText : String :=
  "usage: pathalias [-h] [-v] [--debug] <command> ...\n\n" ++
  "Resolve tsconfig-style path aliases\n\n" ++
  "  pathalias resolve SPECIFIER [-p CONFIG] [-C DIR] [--compact]\n" ++
  "  pathalias mappings [-p CONFIG] [-C DIR] [-o json|table] [--all]\n"

def run (args : List String) : IO UInt32 := do
  match Command.run (← treeFor args) args with
  | .ok (.finished output) =>
    IO.print (Text.plain output.stdout)
    IO.eprint (Text.plain output.stderr)
    return output.exitCode.toUInt32
  | .ok .help =>
    IO.print helpText
    return 0
  | .ok .usage =>
    IO.eprint helpText
    return 2
  | .error e =>
    IO.eprintln (Text.plain e.message)
    return 1

end ImportAlias.Main

def main (args : List String) : IO UInt32 :=
  ImportAlias.Main.run (args.map fun arg => ImportAlias.Text.ofChars arg.toList)
