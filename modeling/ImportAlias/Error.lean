import ImportAlias.FileTree
import ImportAlias.Json.Reader
import ImportAlias.Pattern
import ImportAlias.Text.Quoted
import ImportAlias.Text.Utf8

/-!
# Errors

What can be wrong with a configuration falls into three kinds: an alias without
a pattern, a configuration that is missing, unreadable or malformed, and a shape
of input that nothing reports. The command line prints the first two; the third
ends the program.
-/

namespace ImportAlias

/-- A configuration that is missing, unreadable or malformed. -/
inductive ConfigError where
  | cannotRead (file : Path) (cause : AccessError)
  | invalidJson (file : Path) (cause : Json.ReadError)
  | invalidToml (file : Path)
  | notAnObject (file : Path)
  | extendsNotText (file : Path)
  | extendsNotFound (entry : String) (start : Path)
  | pathsNotAnObject (file : Path)
  | targetsNotText (key : String) (file : Path)
  | sectionNotATable (file : Path)
  | missingFile (file : Path)
  | nothingFound (start : Path)
  deriving DecidableEq, Repr

namespace ConfigError

def message : ConfigError → String
  | cannotRead file cause =>
    s!"Cannot read {file.toString}: {cause.message}: {Text.quoted file.toString}"
  | invalidJson file cause => s!"Invalid JSON in {file.toString}: {cause.message}"
  | invalidToml file => s!"Invalid TOML in {file.toString}"
  | notAnObject file => s!"Expected a JSON object in {file.toString}"
  | extendsNotText file =>
    s!"'extends' must be a string or a list of strings in {file.toString}"
  | extendsNotFound entry start =>
    s!"Cannot find extended configuration '{entry}' from {start.toString}"
  | pathsNotAnObject file => s!"'paths' must be an object in {file.toString}"
  | targetsNotText key file =>
    s!"Targets for alias '{key}' must be strings in {file.toString}"
  | sectionNotATable file => s!"[tool.pathalias] must be a table in {file.toString}"
  | missingFile file => s!"Configuration file does not exist: {file.toString}"
  | nothingFound start => s!"No tsconfig.json or jsconfig.json found from {start.toString}"

end ConfigError

/-- A shape of input that nothing reports. -/
inductive Unreported where
  | notUtf8 (cause : Text.DecodeError)
  | optionsNotAnObject (found : Value)
  | baseUrlNotText (found : Value)
  | specifierNotText (found : Value)
  | pathNotText (found : Value)
  | namelessPath (path : Path)
  | notAPath (cause : Text.PathFault)
  | unprintable (cause : Text.EncodeError)
  | longInteger (cause : Json.Fault)
  | missingArgument (name : String)
  deriving Repr

namespace Unreported

def message : Unreported → String
  | notUtf8 cause => cause.message
  | optionsNotAnObject found => s!"'{found.kindName}' object has no attribute 'get'"
  | baseUrlNotText found =>
    s!"join() argument must be str, bytes, or os.PathLike object, not '{found.kindName}'"
  | specifierNotText found => s!"'{found.kindName}' object has no attribute 'startswith'"
  | pathNotText found =>
    if found.isCountable then s!"'{found.kindName}' object has no attribute 'endswith'"
    else s!"stat: path should be string, bytes, os.PathLike or integer, not {found.kindName}"
  | namelessPath path => s!"PosixPath({Text.quoted path.toString}) has an empty name"
  | notAPath cause => cause.message
  | unprintable cause => cause.message
  | longInteger cause => cause.message
  | missingArgument name => Text.quoted name

end Unreported

inductive Error where
  | pattern (cause : PatternError)
  | config (cause : ConfigError)
  | unreported (cause : Unreported)
  deriving Repr

namespace Error

def message : Error → String
  | pattern cause => cause.message
  | config cause => cause.message
  | unreported cause => cause.message

/-- Whether the command line prints the error. -/
def isReported : Error → Bool
  | unreported _ => false
  | _ => true

end Error

end ImportAlias
