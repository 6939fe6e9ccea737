/-!
# Code units

Numbered escapes give a text by its code units of sixteen bits. A code point
behind the basic plane takes two of them, the halves of a pair. A half that
comes on its own is kept as a code point, though it is no character.
-/

namespace ImportAlias.Text

def isHighSurrogate (unit : Nat) : Bool :=
  0xD800 ≤ unit && unit < 0xDC00

def isLowSurrogate (unit : Nat) : Bool :=
  0xDC00 ≤ unit && unit < 0xE000

/-- Joins the two halves of a pair wherever they meet. What is no half stays as it is. -/
def joinPairs : List Nat → List Nat
  | [] => []
  | [unit] => [unit]
  | high :: low :: rest =>
    if isHighSurrogate high && isLowSurrogate low then
      (0x10000 + (high - 0xD800) * 0x400 + (low - 0xDC00)) :: joinPairs rest
    else high :: joinPairs (low :: rest)

/-- The code units of a code point. -/
def units (point : Nat) : List Nat :=
  if point < 0x10000 then [point]
  else [0xD800 + (point - 0x10000) / 0x400, 0xDC00 + (point - 0x10000) % 0x400]

end ImportAlias.Text
