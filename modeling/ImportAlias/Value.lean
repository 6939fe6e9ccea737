import ImportAlias.Decimal
import ImportAlias.Entries

/-!
# Configuration data

The values that a configuration file can hold. Both file formats read into this
one type: dates and times come from one of them only, and null only from the
other.
-/

namespace ImportAlias

/-- The kinds of dates and times. -/
inductive Moment where
  | date
  | time
  | dateTime
  deriving DecidableEq, Repr

inductive Value where
  | null
  | bool (value : Bool)
  | integer (value : Int)
  | decimal (value : Decimal)
  | string (text : String)
  | moment (kind : Moment) (text : String)
  | array (items : List Value)
  | object (entries : List (String × Value))
  deriving Repr

/-- One text, or a list of any number of them. -/
inductive OneOrMore where
  | one (text : String)
  | more (texts : List String)
  deriving DecidableEq, Repr

/-- A text alone stands for the list of it. -/
def OneOrMore.texts : OneOrMore → List String
  | one text => [text]
  | more texts => texts

namespace Value

/-- A vacant value stands for a setting that is absent: null, false, a zero, and everything
empty. -/
def isVacant : Value → Bool
  | null => true
  | bool value => !value
  | integer value => value = 0
  | decimal value => value.roundsToZero
  | string text => text = ""
  | moment _ _ => false
  | array items => items.isEmpty
  | object entries => entries.isEmpty

/-- Whether a value is an integer or counts as one. -/
def isCountable : Value → Bool
  | bool _ => true
  | integer _ => true
  | _ => false

def isNull : Value → Bool
  | null => true
  | _ => false

/-- The value under a key, null when there is none. -/
def under (entries : Entries Value) (key : String) : Value :=
  (entries.get? key).getD null

/-- The texts of a list that holds nothing else. -/
def texts? : List Value → Option (List String)
  | [] => some []
  | string text :: rest => (texts? rest).map (text :: ·)
  | _ :: _ => none

theorem texts?_eq_some_iff {items : List Value} {texts : List String} :
    texts? items = some texts ↔ items = texts.map string := by
  induction items generalizing texts with
  | nil => cases texts <;> simp [texts?]
  | cons item rest ih =>
    cases item with
    | string text =>
      cases texts with
      | nil => simp [texts?]
      | cons first others => simpa [texts?, ih] using and_comm
    | _ => cases texts <;> simp [texts?]

def oneOrMore? : Value → Option OneOrMore
  | string text => some (.one text)
  | array items => (texts? items).map .more
  | _ => none

/-- One text or a list of texts, as a list. -/
def oneOrMoreTexts? (value : Value) : Option (List String) :=
  value.oneOrMore?.map (·.texts)

/-- What a value is called where another kind was expected. -/
def kindName : Value → String
  | null => "NoneType"
  | bool _ => "bool"
  | integer _ => "int"
  | decimal _ => "float"
  | string _ => "str"
  | moment .date _ => "date"
  | moment .time _ => "time"
  | moment .dateTime _ => "datetime"
  | array _ => "list"
  | object _ => "dict"

end Value

end ImportAlias
