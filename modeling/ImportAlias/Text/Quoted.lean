import ImportAlias.Text.Points
import ImportAlias.Text.Unprintable

/-!
# Quoted texts

A text inside a message is put in quotes: single quotes, or double quotes when
it holds a single quote and no double one. The quote in use and the backslash
are written with a backslash, and what is not printable as an escape.
-/

namespace ImportAlias.Text

/-- The lower-case hexadecimal digits of a number, at least `width` of them. -/
def hexDigits (width n : Nat) : List Char :=
  let digits := Nat.toDigits 16 n
  List.replicate (width - digits.length) '0' ++ digits

/-- A code point between quotes. -/
def quotePoint (quote : Char) (point : Nat) : List Char :=
  if point = '\n'.toNat then ['\\', 'n']
  else if point = '\r'.toNat then ['\\', 'r']
  else if point = '\t'.toNat then ['\\', 't']
  else if isUnprintable point then
    if point ≤ 0xFF then '\\' :: 'x' :: hexDigits 2 point
    else if point ≤ 0xFFFF then '\\' :: 'u' :: hexDigits 4 point
    else '\\' :: 'U' :: hexDigits 8 point
  else
    let c := Char.ofNat point
    if c = quote || c = '\\' then ['\\', c] else [c]

def quoted (text : String) : String :=
  let cs := text.toList
  let quote := if cs.contains '\'' && !cs.contains '"' then '"' else '\''
  String.ofList (quote :: (points cs).flatMap (quotePoint quote) ++ [quote])

end ImportAlias.Text
