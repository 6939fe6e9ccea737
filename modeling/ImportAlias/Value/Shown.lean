import ImportAlias.Decimal.Shortest
import ImportAlias.Text.Quoted
import ImportAlias.Value

/-!
# Values in messages

How a value reads inside a sentence. A text stands there as it is; inside a
list or an object it is quoted, so that where it ends can be seen.
-/

namespace ImportAlias.Value

def bracketed (opening closing : String) (items : List String) : String :=
  opening ++ ", ".intercalate items ++ closing

mutual

/-- A value as it stands inside another one. -/
def inner : Value → String
  | null => "None"
  | bool value => if value then "True" else "False"
  | integer value => toString value
  | decimal value => value.text "inf" "nan"
  | string text => Text.quoted text
  | moment _ text => text
  | array items => bracketed "[" "]" (innerItems items)
  | object entries => bracketed "\x7b" "\x7d" (innerEntries entries)

def innerItems : List Value → List String
  | [] => []
  | item :: rest => inner item :: innerItems rest

def innerEntries : List (String × Value) → List String
  | [] => []
  | (key, value) :: rest => (Text.quoted key ++ ": " ++ inner value) :: innerEntries rest

end

/-- A value as it stands in a sentence. -/
def shown : Value → String
  | string text => text
  | value => value.inner

end ImportAlias.Value
