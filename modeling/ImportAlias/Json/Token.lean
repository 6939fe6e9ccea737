import ImportAlias.Text.Blank
import ImportAlias.Text.Points
import ImportAlias.Text.Search
import ImportAlias.Text.Units
import ImportAlias.Value

/-!
# JSON tokens

A text is cut into tokens, each together with the text that starts at it, so
that an error can say where it is. What is no token is one of the three kinds of
unreadable token, and the cutting ends there: the reader never asks for more.
-/

namespace ImportAlias.Json

/-- Why a text is not JSON. -/
inductive Fault where
  | expectedValue
  | expectedName
  | expectedColon
  | expectedComma
  | extraData
  | controlCharacter
  | badEscape
  | badCodeEscape
  | unclosedText
  | byteOrderMark
  | longInteger (digits : Nat)
  deriving DecidableEq, Repr

/-- The most digits that an integer may be written with. -/
def maxIntegerDigits : Nat := 4300

namespace Fault

def message : Fault → String
  | expectedValue => "Expecting value"
  | expectedName => "Expecting property name enclosed in double quotes"
  | expectedColon => "Expecting ':' delimiter"
  | expectedComma => "Expecting ',' delimiter"
  | extraData => "Extra data"
  | controlCharacter => "Invalid control character at"
  | badEscape => "Invalid \\escape"
  | badCodeEscape => "Invalid \\uXXXX escape"
  | unclosedText => "Unterminated string starting at"
  | byteOrderMark => "Unexpected UTF-8 BOM (decode using utf-8-sig)"
  | longInteger digits =>
    s!"Exceeds the limit ({maxIntegerDigits} digits) for integer string conversion: " ++
      s!"value has {digits} digits; use sys.set_int_max_str_digits() to increase the limit"

end Fault

/-- A fault and the text from where it stands. -/
structure Misread where
  fault : Fault
  rest : List Char
  deriving DecidableEq, Repr

inductive Token where
  | openObject
  | closeObject
  | openArray
  | closeArray
  | colon
  | comma
  | text (content : String)
  | scalar (value : Value)
  | badText (misread : Misread)
  | badNumber (misread : Misread)
  | stray
  deriving Repr

/-- The value of a hexadecimal digit. -/
def hexDigit? (c : Char) : Option Nat :=
  if '0' ≤ c ∧ c ≤ '9' then some (c.toNat - '0'.toNat)
  else if 'a' ≤ c ∧ c ≤ 'f' then some (c.toNat - 'a'.toNat + 10)
  else if 'A' ≤ c ∧ c ≤ 'F' then some (c.toNat - 'A'.toNat + 10)
  else none

/-- The number written by hexadecimal digits. -/
def hexNumber? (digits : List Char) : Option Nat :=
  digits.foldl (fun acc c => do return (← acc) * 16 + (← hexDigit? c)) (some 0)

/-- The character that a one-letter escape stands for. -/
def escaped? : Char → Option Char
  | '"' => some '"'
  | '\\' => some '\\'
  | '/' => some '/'
  | 'b' => some '\x08'
  | 'f' => some '\x0c'
  | 'n' => some '\n'
  | 'r' => some '\r'
  | 't' => some '\t'
  | _ => none

/-- Puts a unit in front of those already found. -/
def withUnit (unit : Nat) (found : Except Misread (List Nat × List Char)) :
    Except Misread (List Nat × List Char) :=
  found.map fun (units, rest) => (unit :: units, rest)

/-- Code units of a text up to its closing quote, and what follows the quote. `opening` is the text
from the opening quote on. A numbered escape must not end the text. -/
def textUnits (opening : List Char) : List Char → Except Misread (List Nat × List Char)
  | [] => .error ⟨.unclosedText, opening⟩
  | '"' :: rest => .ok ([], rest)
  | ['\\'] => .error ⟨.unclosedText, opening⟩
  | '\\' :: 'u' :: a :: b :: c :: d :: next :: rest =>
    match hexNumber? [a, b, c, d] with
    | some unit => withUnit unit (textUnits opening (next :: rest))
    | none => .error ⟨.badCodeEscape, 'u' :: a :: b :: c :: d :: next :: rest⟩
  | '\\' :: c :: rest =>
    match escaped? c with
    | some char => withUnit char.toNat (textUnits opening rest)
    | none =>
      if c = 'u' then .error ⟨.badCodeEscape, c :: rest⟩
      else .error ⟨.badEscape, '\\' :: c :: rest⟩
  | c :: rest =>
    if c.toNat < 0x20 then .error ⟨.controlCharacter, c :: rest⟩
    else withUnit c.toNat (textUnits opening rest)

def digitsNumber (digits : List Char) : Nat :=
  digits.foldl (fun acc c => acc * 10 + (c.toNat - '0'.toNat)) 0

/-- The digits of a fraction, none if the text does not go on with one. -/
def fraction (text : List Char) : List Char × List Char :=
  match text with
  | '.' :: rest =>
    let digits := rest.takeWhile Char.isDigit
    if digits.isEmpty then ([], text) else (digits, rest.dropWhile Char.isDigit)
  | _ => ([], text)

/-- Whether a minus sign comes first, and the text behind the sign. -/
def sign : List Char → Bool × List Char
  | '-' :: rest => (true, rest)
  | '+' :: rest => (false, rest)
  | text => (false, text)

/-- The exponent that the text goes on with, if any. -/
def exponent? (text : List Char) : Option Int × List Char :=
  match text with
  | mark :: rest =>
    if mark = 'e' ∨ mark = 'E' then
      let signed := sign rest
      let digits := signed.2.takeWhile Char.isDigit
      if digits.isEmpty then (none, text)
      else
        let size : Int := digitsNumber digits
        (some (if signed.1 then -size else size), signed.2.dropWhile Char.isDigit)
    else (none, text)
  | [] => (none, [])

/-- A number whose whole part has been read, with the fraction and exponent that follow. -/
def number (start : List Char) (negative : Bool) (whole text : List Char) : Token × List Char :=
  let (decimals, rest) := fraction text
  let (power, rest) := exponent? rest
  let size := digitsNumber (whole ++ decimals)
  if decimals.isEmpty && power.isNone then
    if whole.length > maxIntegerDigits then (.badNumber ⟨.longInteger whole.length, start⟩, rest)
    else (.scalar (.integer (if negative then -size else size)), rest)
  else
    (.scalar (.decimal (.finite negative size (power.getD 0 - decimals.length))), rest)

/-- A number from its whole part on, which opens with zero only if it is zero. -/
def number? (start : List Char) (negative : Bool) : List Char → Option (Token × List Char)
  | [] => none
  | '0' :: rest => some (number start negative ['0'] rest)
  | c :: rest =>
    if c.isDigit then
      some (number start negative (c :: rest.takeWhile Char.isDigit) (rest.dropWhile Char.isDigit))
    else none

/-- The words that stand for a value. -/
def words : List (String × Value) :=
  [("null", .null), ("true", .bool true), ("false", .bool false),
   ("NaN", .decimal .notANumber), ("Infinity", .decimal (.infinite false)),
   ("-Infinity", .decimal (.infinite true))]

/-- The word that a text starts with. -/
def word? (text : List Char) : Option (Token × List Char) :=
  words.findSome? fun (word, value) =>
    (Text.after? word.toList text).map fun rest => (.scalar value, rest)

/-- A token that stands for itself. -/
def punctuation? : Char → Option Token
  | '{' => some .openObject
  | '}' => some .closeObject
  | '[' => some .openArray
  | ']' => some .closeArray
  | ':' => some .colon
  | ',' => some .comma
  | _ => none

/-- The token at the start of `c :: rest`, and the text behind it. -/
def tokenAt (c : Char) (rest : List Char) : Token × List Char :=
  match punctuation? c with
  | some token => (token, rest)
  | none =>
    if c = '"' then
      match textUnits (c :: rest) rest with
      | .ok (units, tail) => (.text (Text.ofPoints (Text.joinPairs units)), tail)
      | .error misread => (.badText misread, [])
    else
      match word? (c :: rest) with
      | some found => found
      | none =>
        let negative := c = '-'
        (number? (c :: rest) negative (if negative then rest else c :: rest)).getD (.stray, [])

theorem length_of_withUnit {found : Except Misread (List Nat × List Char)} {unit bound : Nat}
    {units : List Nat} {rest : List Char}
    (hf : ∀ {units}, found = .ok (units, rest) → rest.length ≤ bound)
    (h : withUnit unit found = .ok (units, rest)) : rest.length ≤ bound := by
  cases found with
  | error m => simp [withUnit, Except.map] at h
  | ok pair =>
    simp only [withUnit, Except.map, Except.ok.injEq, Prod.mk.injEq] at h
    exact hf (by rw [← h.2])

theorem length_of_textUnits {opening text rest : List Char} {units : List Nat}
    (h : textUnits opening text = .ok (units, rest)) : rest.length ≤ text.length := by
  fun_induction textUnits opening text generalizing units with
  | case2 => simp_all
  | case4 _ _ _ _ _ _ _ _ ih => have := length_of_withUnit ih h; simp at this ⊢; omega
  | case6 _ _ _ _ _ ih => have := length_of_withUnit ih h; simp; omega
  | case10 _ _ _ _ _ _ _ ih => have := length_of_withUnit ih h; simp; omega
  | _ => simp at h

theorem length_fraction (text : List Char) : (fraction text).2.length ≤ text.length := by
  unfold fraction
  split
  · rename_i rest
    have := Text.length_dropWhile_le Char.isDigit rest
    dsimp only
    split
    · simp
    · simp; omega
  · simp

theorem length_sign (text : List Char) : (sign text).2.length ≤ text.length := by
  unfold sign
  split <;> simp

theorem length_exponent? (text : List Char) : (exponent? text).2.length ≤ text.length := by
  unfold exponent?
  split
  · rename_i rest
    split
    · have := length_sign rest
      have := Text.length_dropWhile_le Char.isDigit (sign rest).2
      dsimp only
      split <;> simp only [List.length_cons] <;> omega
    · simp
  · simp

theorem length_number (start : List Char) (negative : Bool) (whole text : List Char) :
    (number start negative whole text).2.length ≤ text.length := by
  have := length_fraction text
  have := length_exponent? (fraction text).2
  unfold number
  dsimp only
  split
  · split <;> simp <;> omega
  · simp; omega

theorem length_of_number? {start text rest : List Char} {negative : Bool} {token : Token}
    (h : number? start negative text = some (token, rest)) : rest.length < text.length := by
  unfold number? at h
  split at h
  · simp at h
  · rename_i tail
    have := length_number start negative ['0'] tail
    simp only [Option.some.injEq] at h
    simp [h] at this ⊢
    omega
  · rename_i c tail _
    split at h
    · have := length_number start negative (c :: tail.takeWhile Char.isDigit)
        (tail.dropWhile Char.isDigit)
      have := Text.length_dropWhile_le Char.isDigit tail
      simp only [Option.some.injEq] at h
      simp_all
      omega
    · simp at h

theorem length_of_word? {text rest : List Char} {token : Token}
    (h : word? text = some (token, rest)) : rest.length < text.length := by
  obtain ⟨⟨word, value⟩, hm, hw⟩ := List.exists_of_findSome?_eq_some h
  obtain ⟨tail, ht, he⟩ := Option.map_eq_some_iff.mp hw
  obtain ⟨-, rfl⟩ := Prod.mk.injEq .. ▸ he
  have hl : 0 < word.toList.length := by
    simp only [words, List.mem_cons, Prod.mk.injEq, List.not_mem_nil, or_false] at hm
    rcases hm with ⟨rfl, -⟩ | ⟨rfl, -⟩ | ⟨rfl, -⟩ | ⟨rfl, -⟩ | ⟨rfl, -⟩ | ⟨rfl, -⟩ <;> decide
  rw [Text.after?_eq_some_iff.mp ht, List.length_append]
  omega

theorem length_tokenAt (c : Char) (rest : List Char) :
    (tokenAt c rest).2.length ≤ rest.length := by
  unfold tokenAt
  split
  · simp
  · split
    · split
      · exact length_of_textUnits (by assumption)
      · simp
    · split
      · rename_i found hf
        have : found.2.length < (c :: rest).length := length_of_word? hf
        simp at this; omega
      · by_cases hc : c = '-'
        · subst hc
          cases hn : number? ('-' :: rest) true rest with
          | none => simp [hn]
          | some found => have := length_of_number? hn; simp [hn]; omega
        · cases hn : number? (c :: rest) false (c :: rest) with
          | none => simp [hc, hn]
          | some found =>
            have := length_of_number? hn
            simp only [List.length_cons] at this
            simp [hc, hn]
            omega

/-- The tokens of a text, each with the text from where it starts. -/
def tokens (text : List Char) : List (Token × List Char) :=
  match _h : text.dropWhile Text.isJsonSpace with
  | [] => []
  | c :: rest =>
    let found := tokenAt c rest
    (found.1, c :: rest) :: tokens found.2
termination_by text.length
decreasing_by
  have h₁ := Text.length_dropWhile_le Text.isJsonSpace text
  have h₂ := length_tokenAt c rest
  rw [_h, List.length_cons] at h₁
  omega

end ImportAlias.Json
