import ImportAlias.Settings

/-!
# What happens while loading

A load keeps a list of events, oldest first, that outlives an error. The files
opened so far are read off it, and the debug output of the command line is it,
one line for each event that has a text.
-/

namespace ImportAlias

inductive Event where
  | opened (file : Path)
  | passedOver (file : Path)
  | loaded (aliases : Nat) (file : Path) (baseUrl : Option Path)
  | built (mappings active : Nat) (base : Path)
  | resolved (description : String)
  deriving DecidableEq, Repr

namespace Event

/-- The debug line of an event. Opening a file has none. -/
def line? : Event → Option String
  | opened _ => none
  | passedOver file => some s!"DEBUG:pathalias.config:Skipping circular extends: {file.toString}"
  | loaded aliases file baseUrl =>
    let base := (baseUrl.map Path.toString).getD "None"
    some <| s!"DEBUG:pathalias.config:Loaded {aliases} alias(es) from {file.toString} " ++
      s!"(baseUrl={base})"
  | built mappings active base =>
    some <| s!"DEBUG:pathalias.mapping:Built mapping table: {mappings} mapping(s), " ++
      s!"{active} active, base directory {base.toString}"
  | resolved description => some s!"DEBUG:pathalias.resolver:{description}"

/-- The file that an event opens. -/
def file? : Event → Option Path
  | opened file => some file
  | _ => none

end Event

/-- A computation that keeps the events so far and may fail. -/
abbrev Load (α : Type) := ExceptT Error (StateM (List Event)) α

namespace Load

def note (event : Event) : Load Unit :=
  modify (· ++ [event])

/-- The files opened so far, by their place. -/
def openedFiles : Load (List Path) :=
  return (← get).filterMap Event.file?

/-- Runs a load from its start. -/
def start {α : Type} (load : Load α) : Except Error α × List Event :=
  (load.run []).run

def result {α : Type} (load : Load α) : Except Error α :=
  load.start.1

end Load

end ImportAlias
