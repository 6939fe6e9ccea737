import ImportAlias.Action
import ImportAlias.Command.Arguments
import ImportAlias.Json.Printer
import ImportAlias.Settings.Load
import ImportAlias.Text.Encoding

/-!
# Running a command

A command loads a table and prints what it found, as JSON or as lines of text.
JSON is ASCII, but a line may have no form in bytes, and printing it is an error.
An error of the configuration is printed instead and gives exit code 1; one that
nothing reports is handed on.
-/

namespace ImportAlias.Command

def version : String := "1.0.0"

/-- What a run leaves behind. -/
structure Output where
  exitCode : Nat
  stdout : String
  stderr : String
  deriving DecidableEq, Repr

/-- How a run ends: with output, or with a text about the program itself. -/
inductive Outcome where
  | finished (output : Output)
  | help
  | usage
  deriving DecidableEq, Repr

def unlines (lines : List String) : String :=
  "".intercalate (lines.map (· ++ "\n"))

/-- The output of lines that are printed one after the other. -/
def printed (lines : List String) : Except Unreported String :=
  match lines.findSome? Text.printError? with
  | some cause => .error (.unprintable cause)
  | none => .ok (unlines lines)

/-- What is printed about a specifier. -/
def resolutionValue (specifier : String) : Action → Value
  | .redirect redirect =>
    .object [("specifier", .string specifier), ("action", .string "rewrite"),
      ("target", .string redirect.specifier), ("alias", .string redirect.mapping.key),
      ("description", .string redirect.description)]
  | _ => .object [("specifier", .string specifier), ("action", .string "passthrough")]

def mappingValue (mapping : Mapping) : Value :=
  .object [("alias", .string mapping.key), ("target", .string mapping.target),
    ("kind", .string (if mapping.pattern.isExact then "exact" else "prefix")),
    ("typings", .bool mapping.isTypings)]

def mappingsValue (table : Table) (shown : List Mapping) : Value :=
  .object [("base_directory", .string table.baseDirectory.toString), ("base_url", table.baseUrl),
    ("mappings", .array (shown.map mappingValue))]

/-- A text filled up with spaces to a width in code points. -/
def padded (width : Nat) (text : String) : String :=
  text ++ String.ofList (List.replicate (width - Text.width text) ' ')

/-- The mappings as lines, with the targets in one column. -/
def mappingLines (table : Table) (shown : List Mapping) : List String :=
  let width := (shown.map (Text.width ·.key)).foldl max 0
  let line := fun (mapping : Mapping) =>
    "  " ++ padded width mapping.key ++ "  ->  " ++ mapping.target ++
      if mapping.isTypings then "  (typings)" else ""
  ("Base directory: " ++ table.baseDirectory.toString) :: shown.map line

namespace ResolveArguments

def run (arguments : ResolveArguments) (tree : FileTree) : Load String := do
  let table ← tree.loadTable arguments.location.context arguments.location.project
  let action := table.resolve (some arguments.specifier)
  if let .redirect redirect := action then Load.note (.resolved redirect.description)
  let layout := if arguments.compact then Json.Layout.compact else .indented 2
  return Json.print layout (resolutionValue arguments.specifier action) ++ "\n"

end ResolveArguments

namespace MappingsArguments

/-- The mappings that are listed. -/
def shown (arguments : MappingsArguments) (table : Table) : List Mapping :=
  if arguments.all then table.mappings else table.active

def run (arguments : MappingsArguments) (tree : FileTree) : Load String := do
  let table ← tree.loadTable arguments.location.context arguments.location.project
  let shown := arguments.shown table
  match arguments.format with
  | .table => (printed (mappingLines table shown)).mapError Error.unreported
  | .json => return Json.print (.indented 2) (mappingsValue table shown) ++ "\n"

end MappingsArguments

namespace Subcommand

def run (command : Subcommand) (tree : FileTree) : Load String :=
  match command with
  | resolve arguments => arguments.run tree
  | mappings arguments => arguments.run tree

end Subcommand

namespace Invocation

/-- Runs a command and reports an error of the configuration. -/
def execute (debug : Bool) (command : Subcommand) (tree : FileTree) : Except Error Output :=
  let (result, events) := (command.run tree).start
  let log := if debug then unlines (events.filterMap Event.line?) else ""
  match result with
  | .ok text => .ok ⟨0, text, log⟩
  | .error e => if e.isReported then .ok ⟨1, "", log ++ s!"Error: {e.message}\n"⟩ else .error e

end Invocation

/-- Runs a command line. -/
def run (tree : FileTree) (args : List String) : Except Error Outcome :=
  match Invocation.ofArguments args with
  | .error .help => .ok .help
  | .error .usage => .ok .usage
  | .error .version => .ok (.finished ⟨0, s!"pathalias {version}\n", ""⟩)
  | .ok ⟨_, none⟩ => .ok .help
  | .ok ⟨debug, some command⟩ => return .finished (← Invocation.execute debug command tree)

end ImportAlias.Command
