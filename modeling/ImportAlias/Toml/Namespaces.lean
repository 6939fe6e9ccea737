import ImportAlias.Toml.Text

/-!
# TOML tables under construction

A document declares tables one after the other, and what has been declared
restricts what may follow. Three facts are kept about keys: which hold a value
written in one piece and are closed with everything below them, which have been
declared as tables, and which have been opened by dotted keys and count as
declared from the next header on.
-/

namespace ImportAlias.Toml

structure Declared where
  closed : List Key
  tables : List Key
  pending : List Key

namespace Declared

def empty : Declared := ⟨[], [], []⟩

/-- Whether a key or something it lies in was written in one piece. -/
def isClosed (declared : Declared) (key : Key) : Bool :=
  declared.closed.any (·.isPrefixOf key)

def isTable (declared : Declared) (key : Key) : Bool :=
  declared.tables.contains key

def close (declared : Declared) (key : Key) : Declared :=
  { declared with closed := key :: declared.closed }

def addTable (declared : Declared) (key : Key) : Declared :=
  { declared with tables := key :: declared.tables }

/-- A new header makes the keys that dotted keys have opened count as declared. -/
def settle (declared : Declared) : Declared :=
  { declared with tables := declared.pending ++ declared.tables, pending := [] }

/-- Forgets a key with everything below it. -/
def forget (declared : Declared) (key : Key) : Declared :=
  { declared with
    closed := declared.closed.filter (!key.isPrefixOf ·)
    tables := declared.tables.filter (!key.isPrefixOf ·) }

end Declared

/-- Changes the table under a key, making the tables on the way. A list of tables stands for its
last one, unless `throughLists` forbids it; anything else in the way is a fault. -/
def changeTable (throughLists : Bool)
    (change : Entries Value → Except Fault (Entries Value)) :
    Key → Entries Value → Except Fault (Entries Value)
  | [], table => change table
  | name :: names, table =>
    match table.get? name with
    | none => do
      return table.set name (.object (← changeTable throughLists change names []))
    | some (.object inner) => do
      return table.set name (.object (← changeTable throughLists change names inner))
    | some (.array items) =>
      match throughLists, items.getLast? with
      | true, some (.object inner) => do
        let last := Value.object (← changeTable throughLists change names inner)
        return table.set name (.array (items.dropLast ++ [last]))
      | _, _ => .error .malformed
    | some _ => .error .malformed

/-- Gives a new name a value. -/
def addEntry (name : String) (value : Value) (table : Entries Value) :
    Except Fault (Entries Value) :=
  match table.get? name with
  | some _ => .error .malformed
  | none => .ok (table.set name value)

/-- Adds an empty table to the list under a name, which may be new. -/
def addToList (name : String) (table : Entries Value) : Except Fault (Entries Value) :=
  match table.get? name with
  | none => .ok (table.set name (.array [.object []]))
  | some (.array items) => .ok (table.set name (.array (items ++ [.object []])))
  | some _ => .error .malformed

/-- The containers a key lies in, and its own name. -/
def splitLast (key : Key) : Key × String :=
  (key.dropLast, key.getLastD "")

/-- Whether a value written in one piece closes its key. -/
def isContainer : Value → Bool
  | .array _ => true
  | .object _ => true
  | _ => false

end ImportAlias.Toml
