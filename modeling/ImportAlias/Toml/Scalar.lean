import ImportAlias.Toml.Text

/-!
# TOML numbers, dates and times

Each reader takes the longest form that the text starts with and leaves the
rest, so a number with a leading zero ends behind the zero and the document is
refused there.
-/

namespace ImportAlias.Toml

/-- The number written by the first `count` characters, all of them digits. -/
def digits? (count : Nat) (text : List Char) : Option (Nat × List Char) :=
  let digits := text.take count
  if digits.length = count ∧ digits.all Char.isDigit then
    some (Json.digitsNumber digits, text.drop count)
  else none

/-- Two digits below a bound. -/
def below? (bound : Nat) (text : List Char) : Option (Nat × List Char) := do
  let (n, rest) ← digits? 2 text
  if n < bound then some (n, rest) else none

/-- What follows a time of day with an optional fraction of a second. -/
def afterTime? (text : List Char) : Option (List Char) := do
  let (_, rest) ← below? 24 text
  let rest ← Text.after? [':'] rest
  let (_, rest) ← below? 60 rest
  let rest ← Text.after? [':'] rest
  let (_, rest) ← below? 60 rest
  return (Json.fraction rest).2

/-- What follows an optional offset from universal time. -/
def afterOffset (text : List Char) : List Char :=
  match text with
  | [] => []
  | mark :: rest =>
    if mark = 'Z' ∨ mark = 'z' then rest
    else if mark = '+' ∨ mark = '-' then
      let found := do
        let (_, rest) ← below? 24 rest
        let rest ← Text.after? [':'] rest
        let (_, rest) ← below? 60 rest
        return rest
      found.getD text
    else text

def isLeapYear (year : Nat) : Bool :=
  year % 4 = 0 && (year % 100 ≠ 0 || year % 400 = 0)

def daysInMonth (year month : Nat) : Nat :=
  if month = 2 then (if isLeapYear year then 29 else 28)
  else if [4, 6, 9, 11].contains month then 30
  else 31

structure Date where
  year : Nat
  month : Nat
  day : Nat
  deriving DecidableEq, Repr

/-- A date as it is written, with any day that some month has. -/
def date? (text : List Char) : Option (Date × List Char) := do
  let (year, rest) ← digits? 4 text
  let rest ← Text.after? ['-'] rest
  let (month, rest) ← below? 13 rest
  let rest ← Text.after? ['-'] rest
  let (day, rest) ← below? 32 rest
  if 1 ≤ month ∧ 1 ≤ day then some (⟨year, month, day⟩, rest) else none

/-- Whether the day exists. There is no year zero. -/
def Date.exists (date : Date) : Bool :=
  1 ≤ date.year && date.day ≤ daysInMonth date.year date.month

/-- The text in front of `rest`. -/
def consumed (text rest : List Char) : String :=
  String.ofList (text.take (text.length - rest.length))

/-- A date, a time, or both with an optional offset; `none` where none starts. -/
def moment? (text : List Char) : Option (Except Fault (Value × List Char)) :=
  match date? text with
  | some (date, rest) =>
    let clock := match rest with
      | mark :: rest => if mark = 'T' ∨ mark = 't' ∨ mark = ' ' then afterTime? rest else none
      | [] => none
    let (kind, rest) := match clock with
      | some rest => (Moment.dateTime, afterOffset rest)
      | none => (Moment.date, rest)
    some (if date.exists then .ok (.moment kind (consumed text rest), rest) else .error .malformed)
  | none => (afterTime? text).map fun rest => .ok (.moment .time (consumed text rest), rest)

/-- Digits that go on, each of which may have one underscore in front of it. -/
def moreDigits (isDigit : Char → Bool) : List Char → List Char × List Char
  | '_' :: c :: rest =>
    if isDigit c then
      let (digits, tail) := moreDigits isDigit rest
      (c :: digits, tail)
    else ([], '_' :: c :: rest)
  | c :: rest =>
    if isDigit c then
      let (digits, tail) := moreDigits isDigit rest
      (c :: digits, tail)
    else ([], c :: rest)
  | [] => ([], [])

/-- At least one digit. -/
def someDigits? (isDigit : Char → Bool) : List Char → Option (List Char × List Char)
  | [] => none
  | c :: rest =>
    if isDigit c then
      let (digits, tail) := moreDigits isDigit rest
      some (c :: digits, tail)
    else none

/-- An integer in base sixteen, eight or two. -/
def basedInteger? : List Char → Option (Value × List Char)
  | '0' :: mark :: rest => do
    let base ← match mark with
      | 'x' => some 16
      | 'o' => some 8
      | 'b' => some 2
      | _ => none
    let (digits, tail) ← someDigits? (fun c => (Json.hexDigit? c).any (· < base)) rest
    let size := digits.foldl (fun acc c => acc * base + (Json.hexDigit? c).getD 0) 0
    return (.integer size, tail)
  | _ => none

/-- The whole part of a number, which opens with zero only if it is zero. -/
def wholePart? : List Char → Option (List Char × List Char)
  | '0' :: rest => some (['0'], rest)
  | text => someDigits? Char.isDigit text

/-- A fraction with its digits, if one follows. -/
def fraction? (text : List Char) : Option (List Char × List Char) := do
  let rest ← Text.after? ['.'] text
  someDigits? Char.isDigit rest

/-- An exponent, if one follows. -/
def exponent? (text : List Char) : Option (Int × List Char) :=
  match text with
  | mark :: rest =>
    if mark = 'e' ∨ mark = 'E' then do
      let signed := Json.sign rest
      let (digits, tail) ← someDigits? Char.isDigit signed.2
      let size : Int := Json.digitsNumber digits
      return (if signed.1 then -size else size, tail)
    else none
  | [] => none

/-- A decimal number, an integer unless it has a fraction or an exponent. -/
def decimalNumber? (text : List Char) : Option (Except Fault (Value × List Char)) := do
  let (negative, unsigned) := Json.sign text
  let (whole, rest) ← wholePart? unsigned
  let point := fraction? rest
  let (decimals, rest) := point.getD ([], rest)
  let power := exponent? rest
  let (exponent, rest) := power.getD (0, rest)
  let size := Json.digitsNumber (whole ++ decimals)
  if point.isNone && power.isNone then
    if whole.length > Json.maxIntegerDigits then return .error (.longInteger whole.length)
    else return .ok (.integer (if negative then -size else size), rest)
  else return .ok (.decimal (.finite negative size (exponent - decimals.length)), rest)

/-- The words that stand for a value. -/
def words : List (String × Value) :=
  [("true", .bool true), ("false", .bool false),
   ("inf", .decimal (.infinite false)), ("+inf", .decimal (.infinite false)),
   ("-inf", .decimal (.infinite true)), ("nan", .decimal .notANumber),
   ("+nan", .decimal .notANumber), ("-nan", .decimal .notANumber)]

def word? (text : List Char) : Option (Value × List Char) :=
  words.findSome? fun (word, value) =>
    (Text.after? word.toList text).map fun rest => (value, rest)

/-- A value that holds no other: a text, a word, a date or time, or a number. -/
def scalar (text : List Char) : Except Fault (Value × List Char) :=
  match text? text with
  | some found => found.map fun (content, rest) => (.string content, rest)
  | none =>
    match word? text with
    | some found => .ok found
    | none => (moment? text).getD <|
      match basedInteger? text with
      | some found => .ok found
      | none => (decimalNumber? text).getD (.error .malformed)

end ImportAlias.Toml
