import ImportAlias.Error

/-!
# Settings

What a configuration file says about aliases: where it is, the base URL it sets
and its aliases with their targets, in declared order.
-/

namespace ImportAlias

/-- The base URL is any value that a file may give it, null when it gives none. -/
structure Settings where
  file : String
  baseUrl : Value
  paths : Entries (List String)

namespace Settings

/-- Settings that are put together in a program. The targets of an alias may be one text there. -/
def given (file : String) (baseUrl : Value) (paths : Entries OneOrMore) : Settings :=
  ⟨file, baseUrl, paths.map fun (key, targets) => (key, targets.texts)⟩

/-- The directory of the file, as far as its text tells. -/
def directory (settings : Settings) : String :=
  Path.directoryOf settings.file

/-- The aliases of a `paths` value: an object whose members are texts or lists of texts. -/
def pathsOf (file : Path) : Value → Except ConfigError (Entries (List String))
  | .null => .ok []
  | .object entries => collect entries
  | _ => .error (.pathsNotAnObject file)
where
  collect : List (String × Value) → Except ConfigError (Entries (List String))
    | [] => .ok []
    | (key, targets) :: rest =>
      match targets.oneOrMoreTexts? with
      | none => .error (.targetsNotText key file)
      | some texts => do return (key, texts) :: (← collect rest)

/-- The directory that relative targets start from: the base URL read from the directory of the
file, or that directory itself when the base URL is vacant. -/
def baseDirectory (current : Path) (settings : Settings) : Except Unreported Path :=
  let directory := Path.ofString settings.directory
  if settings.baseUrl.isVacant then .ok (directory.absolute current)
  else
    match settings.baseUrl with
    | .string text => .ok ((directory / Path.ofString text).absolute current)
    | other => .error (.baseUrlNotText other)

end Settings

end ImportAlias
