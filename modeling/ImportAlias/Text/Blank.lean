/-!
# White space

Two notions of white space meet in this library. Between JSON tokens only four
characters count; where a trailing comma is looked for, every character that
Unicode or the old separators call white space does.
-/

namespace ImportAlias.Text

/-- The white space of JSON. -/
def isJsonSpace (c : Char) : Bool :=
  c = ' ' || c = '\t' || c = '\n' || c = '\r'

/-- Ranges of code points that are white space: the controls from tab to carriage return, the
four separators, and the spaces of Unicode. -/
def blankRanges : List (Nat × Nat) :=
  [(0x09, 0x0D), (0x1C, 0x20), (0x85, 0x85), (0xA0, 0xA0), (0x1680, 0x1680), (0x2000, 0x200A),
   (0x2028, 0x2029), (0x202F, 0x202F), (0x205F, 0x205F), (0x3000, 0x3000)]

def isBlank (c : Char) : Bool :=
  blankRanges.any fun range => range.1 ≤ c.toNat && c.toNat ≤ range.2

theorem isBlank_of_isJsonSpace {c : Char} (h : isJsonSpace c = true) : isBlank c = true := by
  simp only [isJsonSpace, Bool.or_eq_true, decide_eq_true_eq] at h
  rcases h with ((rfl | rfl) | rfl) | rfl <;> decide

end ImportAlias.Text
