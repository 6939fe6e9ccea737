import ImportAlias.Decimal.Shortest
import ImportAlias.Text.Points
import ImportAlias.Text.Quoted
import ImportAlias.Text.Units
import ImportAlias.Value

/-!
# Printing JSON

Values print in ASCII, on one line or with every item on a line of its own. A
code point outside ASCII is written by its code units.
-/

namespace ImportAlias.Json

/-- One line, or indented by the given width at every depth. -/
inductive Layout where
  | compact
  | indented (width : Nat)
  deriving DecidableEq, Repr

def codeEscape (unit : Nat) : List Char :=
  '\\' :: 'u' :: Text.hexDigits 4 unit

/-- The letter that escapes a code point, if one does. -/
def escapeLetter? : Nat → Option Char
  | 0x22 => some '"'
  | 0x5C => some '\\'
  | 0x0A => some 'n'
  | 0x0D => some 'r'
  | 0x09 => some 't'
  | 0x08 => some 'b'
  | 0x0C => some 'f'
  | _ => none

def escape (point : Nat) : List Char :=
  match escapeLetter? point with
  | some letter => ['\\', letter]
  | none =>
    if 0x20 ≤ point ∧ point < 0x7F then [Char.ofNat point]
    else (Text.units point).flatMap codeEscape

def printText (text : String) : String :=
  String.ofList ('"' :: (Text.points text.toList).flatMap escape ++ ['"'])

/-- Items between brackets, at the depth of the brackets. -/
def enclose (layout : Layout) (depth : Nat) (opening closing : String) (items : List String) :
    String :=
  match layout, items with
  | _, [] => opening ++ closing
  | .compact, items => opening ++ ", ".intercalate items ++ closing
  | .indented width, items =>
    let line := fun depth => "\n" ++ String.ofList (List.replicate (depth * width) ' ')
    opening ++ line (depth + 1) ++ ("," ++ line (depth + 1)).intercalate items ++
      line depth ++ closing

mutual

def printAt (layout : Layout) (depth : Nat) : Value → String
  | .null => "null"
  | .bool value => if value then "true" else "false"
  | .integer value => toString value
  | .decimal value => value.text "Infinity" "NaN"
  | .string text => printText text
  | .moment _ text => printText text
  | .array items => enclose layout depth "[" "]" (printItems layout (depth + 1) items)
  | .object entries =>
    enclose layout depth "\x7b" "\x7d" (printEntries layout (depth + 1) entries)

def printItems (layout : Layout) (depth : Nat) : List Value → List String
  | [] => []
  | item :: rest => printAt layout depth item :: printItems layout depth rest

def printEntries (layout : Layout) (depth : Nat) : List (String × Value) → List String
  | [] => []
  | (key, value) :: rest =>
    (printText key ++ ": " ++ printAt layout depth value) :: printEntries layout depth rest

end

def print (layout : Layout) (value : Value) : String :=
  printAt layout 0 value

end ImportAlias.Json
