/-!
# Decimal numbers

A number with a fraction or an exponent is kept as it was written: digits and a
power of ten. The one question asked of it is whether it is zero in binary64,
and that is decided in exact arithmetic.
-/

namespace ImportAlias

/-- A decimal number, or one of the values that binary64 adds to them. -/
inductive Decimal where
  | finite (negative : Bool) (digits : Nat) (exponent : Int)
  | infinite (negative : Bool)
  | notANumber
  deriving DecidableEq, Repr

namespace Decimal

/-- Whether the nearest binary64 value is zero: the magnitude is at most half of the least positive
one, `2 ^ (-1074)`, and a tie goes to zero. The first test keeps the power of ten small. -/
def roundsToZero : Decimal → Bool
  | finite _ digits exponent =>
    digits = 0 ||
      match exponent with
      | .ofNat _ => false
      | .negSucc n => digits.log2 + 400 < n || digits * Nat.pow 2 1075 ≤ Nat.pow 10 (n + 1)
  | infinite _ => false
  | notANumber => false

end Decimal

end ImportAlias
