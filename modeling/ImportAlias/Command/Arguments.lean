import ImportAlias.Command.Grammar

/-!
# The arguments of the program

Two commands are known: one resolves a specifier, the other lists the mappings.
Both may be told which configuration to use or where to look for one.
-/

namespace ImportAlias.Command

/-- A configuration file, and a directory to read it from or to search from. -/
structure Location where
  project : Option String
  context : Option String
  deriving DecidableEq, Repr

namespace Location

def default : Location := ⟨none, none⟩

end Location

structure ResolveArguments where
  specifier : String
  location : Location
  compact : Bool
  deriving DecidableEq, Repr

inductive Format where
  | json
  | table
  deriving DecidableEq, Repr

structure MappingsArguments where
  location : Location
  format : Format
  all : Bool
  deriving DecidableEq, Repr

/-- What the program is asked to do. -/
inductive Subcommand where
  | resolve (arguments : ResolveArguments)
  | mappings (arguments : MappingsArguments)
  deriving DecidableEq, Repr

/-- Where a command is told to look for its configuration. -/
def Subcommand.location : Subcommand → Location
  | .resolve arguments => arguments.location
  | .mappings arguments => arguments.location

structure Invocation where
  debug : Bool
  command : Option Subcommand
  deriving DecidableEq, Repr

def helpOption (σ : Type) : List String × Effect σ :=
  (["-h", "--help"], .ends .help)

/-- The options of both commands that say where the configuration is. -/
def locationOptions {σ : Type} (change : (Location → Location) → σ → σ) :
    List (List String × Effect σ) :=
  [(["-p", "--project"], .takes fun value settings =>
      some (change (fun location => { location with project := value }) settings)),
   (["-C", "--context"], .takes fun value settings =>
      some (change (fun location => { location with context := value }) settings))]

def resolveGrammar : Grammar ResolveArguments where
  options :=
    helpOption _ ::
      locationOptions (fun change arguments =>
        { arguments with location := change arguments.location }) ++
      [(["--compact"], .changes fun arguments => { arguments with compact := true })]
  operand := .word fun word arguments => { arguments with specifier := word }

/-- The format of a name, JSON without one. -/
def formatNamed? : Option String → Option Format
  | none => some .json
  | some "json" => some .json
  | some "table" => some .table
  | some _ => none

def mappingsGrammar : Grammar MappingsArguments where
  options :=
    helpOption _ ::
      locationOptions (fun change arguments =>
        { arguments with location := change arguments.location }) ++
      [(["-o", "--output"], .takes fun value arguments =>
          (formatNamed? value).map fun format => { arguments with format }),
       (["--all"], .changes fun arguments => { arguments with all := true })]
  operand := .none

/-- Reads a command by its name and the arguments behind it. -/
def readCommand (invocation : Invocation) : List String → Except Stop (Invocation × List String)
  | "resolve" :: args => do
    let (arguments, extras) ← resolveGrammar.parse ⟨"", .default, false⟩ args
    return ({ invocation with command := some (.resolve arguments) }, extras)
  | "mappings" :: args => do
    let (arguments, extras) ← mappingsGrammar.parse ⟨.default, .json, false⟩ args
    return ({ invocation with command := some (.mappings arguments) }, extras)
  | _ => .error .usage

def grammar : Grammar Invocation where
  options :=
    [helpOption _, (["-v", "--version"], .ends .version),
     (["--debug"], .changes fun invocation => { invocation with debug := true })]
  operand := .command fun args invocation => readCommand invocation args

namespace Invocation

/-- Reads a command line. An argument that is not recognized is an error of usage, but only once
everything else has been read. -/
def ofArguments (args : List String) : Except Stop Invocation := do
  match ← grammar.parse ⟨false, none⟩ args with
  | (invocation, []) => return invocation
  | _ => .error .usage

end Invocation

end ImportAlias.Command
