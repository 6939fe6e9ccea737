import ImportAlias.Json.Reader

/-!
# Documents as they are written

A document is a JSON value written out token by token, with gaps of white space
and comments between the tokens and, where an array or object that is not empty
closes, perhaps one comma more than it needs. Two texts belong to it: the one
that is written, and the bare one without the comments and the extra commas. A
document has its value by its structure, not by being read.
-/

namespace ImportAlias.Json

/-- What may stand between two tokens. A line comment comes with the line break that ends it. -/
inductive Filler where
  | blank (c : Char) (hc : Text.isJsonSpace c = true)
  | block (body : List Char) (hb : ¬ ['*', '/'] <:+: body)
  | line (body : List Char) (hb : '\n' ∉ body)

abbrev Gap := List Filler

namespace Filler

def written : Filler → List Char
  | blank c _ => [c]
  | block body _ => '/' :: '*' :: (body ++ ['*', '/'])
  | line body _ => '/' :: '/' :: (body ++ ['\n'])

/-- What is left of a gap without its comments. -/
def bare : Filler → List Char
  | blank c _ => [c]
  | block _ _ => []
  | line _ _ => ['\n']

end Filler

/-- One character of a text literal as it is written. -/
inductive Letter where
  | plain (c : Char) (hq : c ≠ '"') (hb : c ≠ '\\') (hc : 0x20 ≤ c.toNat)
  | escape (c stands : Char) (hc : escaped? c = some stands)
  | code (a b c d : Char) (unit : Nat) (hu : hexNumber? [a, b, c, d] = some unit)

namespace Letter

def written : Letter → List Char
  | plain c _ _ _ => [c]
  | escape c _ _ => ['\\', c]
  | code a b c d _ _ => ['\\', 'u', a, b, c, d]

/-- The code point or code unit that a letter gives. -/
def unit : Letter → Nat
  | plain c _ _ _ => c.toNat
  | escape _ stands _ => stands.toNat
  | code _ _ _ _ unit _ => unit

end Letter

abbrev Literal := List Letter

namespace Literal

def written (literal : Literal) : List Char :=
  '"' :: (literal.flatMap Letter.written ++ ['"'])

def text (literal : Literal) : String :=
  Text.ofPoints (Text.joinPairs (literal.map Letter.unit))

end Literal

/-- The exponent of a number. -/
structure Power where
  mark : Char
  sign : Option Char
  digits : List Char
  mark_eq : mark = 'e' ∨ mark = 'E'
  sign_eq : sign = none ∨ sign = some '+' ∨ sign = some '-'
  digits_ne : digits ≠ []
  isDigit : ∀ c ∈ digits, c.isDigit = true

namespace Power

def written (power : Power) : List Char :=
  power.mark :: (power.sign.toList ++ power.digits)

def value (power : Power) : Int :=
  let size : Int := digitsNumber power.digits
  if power.sign = some '-' then -size else size

end Power

/-- A number. Its whole part starts with zero only if it is zero, and without a fraction there are
no decimals. -/
structure Number where
  negative : Bool
  whole : List Char
  decimals : List Char
  power : Option Power
  whole_ne : whole ≠ []
  whole_isDigit : ∀ c ∈ whole, c.isDigit = true
  whole_zero : whole.head? = some '0' → whole = ['0']
  decimals_isDigit : ∀ c ∈ decimals, c.isDigit = true

namespace Number

def fractionText (number : Number) : List Char :=
  if number.decimals.isEmpty then [] else '.' :: number.decimals

def powerText (number : Number) : List Char :=
  number.power.elim [] Power.written

def written (number : Number) : List Char :=
  (if number.negative then ['-'] else []) ++
    (number.whole ++ (number.fractionText ++ number.powerText))

/-- The value of a number. An integer with too many digits has none. -/
def value (number : Number) : Except Fault Value :=
  let size := digitsNumber (number.whole ++ number.decimals)
  if number.decimals.isEmpty && number.power.isNone then
    if number.whole.length > maxIntegerDigits then .error (.longInteger number.whole.length)
    else .ok (.integer (if number.negative then -size else size))
  else
    .ok (.decimal (.finite number.negative size
      (number.power.elim 0 Power.value - number.decimals.length)))

end Number

/-- A number or a word. -/
inductive Scalar where
  | number (number : Number)
  | word (word : String) (value : Value) (hw : (word, value) ∈ words)

namespace Scalar

def written : Scalar → List Char
  | .number n => n.written
  | .word text _ _ => text.toList

def value : Scalar → Except Fault Value
  | .number n => n.value
  | .word _ found _ => .ok found

end Scalar

inductive Mark where
  | openObject
  | closeObject
  | openArray
  | closeArray
  | colon
  | comma

namespace Mark

def char : Mark → Char
  | openObject => '{'
  | closeObject => '}'
  | openArray => '['
  | closeArray => ']'
  | colon => ':'
  | comma => ','

def closes : Mark → Bool
  | closeObject => true
  | closeArray => true
  | _ => false

end Mark

/-- A token of a document, or something that stands between tokens. -/
inductive Piece where
  | filler (filler : Filler)
  | scalar (scalar : Scalar)
  | text (literal : Literal)
  | mark (mark : Mark)
  | extraComma

namespace Piece

def written : Piece → List Char
  | .filler f => f.written
  | .scalar s => s.written
  | .text l => l.written
  | .mark m => [m.char]
  | .extraComma => [',']

/-- What is left of a piece when comments and extra commas are deleted. -/
def bare : Piece → List Char
  | .filler f => f.bare
  | .scalar s => s.written
  | .text l => l.written
  | .mark m => [m.char]
  | .extraComma => []

def gap (fillers : Gap) : List Piece :=
  fillers.map filler

/-- An extra comma, if there is one, with the gap behind it. -/
def extra : Option Gap → List Piece
  | none => []
  | some fillers => extraComma :: gap fillers

end Piece

mutual

/-- A value and the gap behind it. -/
inductive Element where
  | scalar (scalar : Scalar) (after : Gap)
  | text (literal : Literal) (after : Gap)
  | emptyArray (inside after : Gap)
  | array (inside : Gap) (items : Items) (after : Gap)
  | emptyObject (inside after : Gap)
  | object (inside : Gap) (members : Members) (after : Gap)

/-- The items of an array, each comma with the gap behind it. -/
inductive Items where
  | last (item : Element) (extra : Option Gap)
  | more (item : Element) (afterComma : Gap) (rest : Items)

/-- The members of an object. -/
inductive Members where
  | last (key : Literal) (afterKey afterColon : Gap) (value : Element) (extra : Option Gap)
  | more (key : Literal) (afterKey afterColon : Gap) (value : Element) (afterComma : Gap)
      (rest : Members)

end

mutual

def Element.pieces : Element → List Piece
  | .scalar scalar after => .scalar scalar :: Piece.gap after
  | .text literal after => .text literal :: Piece.gap after
  | .emptyArray inside after =>
    .mark .openArray :: (Piece.gap inside ++ .mark .closeArray :: Piece.gap after)
  | .array inside items after =>
    .mark .openArray :: (Piece.gap inside ++ (items.pieces ++ .mark .closeArray :: Piece.gap after))
  | .emptyObject inside after =>
    .mark .openObject :: (Piece.gap inside ++ .mark .closeObject :: Piece.gap after)
  | .object inside members after =>
    .mark .openObject ::
      (Piece.gap inside ++ (members.pieces ++ .mark .closeObject :: Piece.gap after))

def Items.pieces : Items → List Piece
  | .last item extra => item.pieces ++ Piece.extra extra
  | .more item afterComma rest =>
    item.pieces ++ .mark .comma :: (Piece.gap afterComma ++ rest.pieces)

def Members.pieces : Members → List Piece
  | .last key afterKey afterColon value extra =>
    .text key :: (Piece.gap afterKey ++ .mark .colon ::
      (Piece.gap afterColon ++ (value.pieces ++ Piece.extra extra)))
  | .more key afterKey afterColon value afterComma rest =>
    .text key :: (Piece.gap afterKey ++ .mark .colon ::
      (Piece.gap afterColon ++ (value.pieces ++ .mark .comma ::
        (Piece.gap afterComma ++ rest.pieces))))

end

mutual

/-- The value of an element. Of several faults the first in the text counts. -/
def Element.value : Element → Except Fault Value
  | .scalar scalar _ => scalar.value
  | .text literal _ => .ok (.string literal.text)
  | .emptyArray _ _ => .ok (.array [])
  | .array _ items _ => do return .array (← items.values)
  | .emptyObject _ _ => .ok (.object [])
  | .object _ members _ => do return .object (Entries.ofList (← members.entries))

def Items.values : Items → Except Fault (List Value)
  | .last item _ => do return [← item.value]
  | .more item _ rest => do return (← item.value) :: (← rest.values)

def Members.entries : Members → Except Fault (List (String × Value))
  | .last key _ _ value _ => do return [(key.text, ← value.value)]
  | .more key _ _ value _ rest => do return (key.text, ← value.value) :: (← rest.entries)

end

/-- A document: a gap, a value, and perhaps a line comment that the end of the text ends. -/
structure Document where
  before : Gap
  root : Element
  ending : Option { body : List Char // '\n' ∉ body }

namespace Document

def pieces (document : Document) : List Piece :=
  Piece.gap document.before ++ document.root.pieces

/-- The comment at the end of the text. -/
def endingText (document : Document) : List Char :=
  document.ending.elim [] fun body => '/' :: '/' :: body.val

/-- The text of a document. -/
def written (document : Document) : List Char :=
  document.pieces.flatMap Piece.written ++ document.endingText

/-- The text of a document without its comments and extra commas. -/
def bare (document : Document) : List Char :=
  document.pieces.flatMap Piece.bare

def value (document : Document) : Except Fault Value :=
  document.root.value

end Document

end ImportAlias.Json
