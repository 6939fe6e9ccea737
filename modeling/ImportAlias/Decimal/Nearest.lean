import ImportAlias.Decimal

/-!
# The nearest binary64 value

A decimal number stands for the binary64 value nearest to it, and of two equally
near ones for the one with the even significand. The value is found in exact
integer arithmetic: the exponent from the lengths of both sides of a fraction,
the significand as a rounded quotient.
-/

namespace ImportAlias

/-- The quotient rounded to the nearest integer; a half goes to the even neighbour. -/
def halfToEven (numerator denominator : Nat) : Nat :=
  let quotient := numerator / denominator
  let rest := numerator % denominator
  if 2 * rest < denominator then quotient
  else if denominator < 2 * rest then quotient + 1
  else quotient + quotient % 2

/-- A finite binary64 value without its sign, `significand * 2 ^ exponent`. -/
structure Binary where
  significand : Nat
  exponent : Int
  deriving DecidableEq, Repr

namespace Binary

/-- The exponent of the least positive value. -/
def leastExponent : Int := -1074

/-- The exponent of the greatest finite values. -/
def greatestExponent : Int := 971

/-- A significand has no more bits than this. -/
def precision : Nat := 53

/-- The exponent at which a fraction has a significand of full length, or the least one. -/
def exponentFor (numerator denominator : Nat) : Int :=
  let bits : Int := (numerator.log2 : Int) - denominator.log2
  let exponent := max leastExponent (bits - precision)
  if Nat.pow 2 precision * (denominator * Nat.pow 2 exponent.toNat) ≤
      numerator * Nat.pow 2 (-exponent).toNat then exponent + 1
  else exponent

/-- The value nearest to a fraction, none if that is beyond the finite ones. -/
def ofFraction? (numerator denominator : Nat) : Option Binary :=
  let exponent := exponentFor numerator denominator
  let rounded := halfToEven (numerator * Nat.pow 2 (-exponent).toNat)
    (denominator * Nat.pow 2 exponent.toNat)
  let value : Binary :=
    if rounded = Nat.pow 2 precision then ⟨Nat.pow 2 (precision - 1), exponent + 1⟩
    else ⟨rounded, exponent⟩
  if value.exponent ≤ greatestExponent then some value else none

/-- The value nearest to `digits * 10 ^ power`. The first tests keep the powers of ten small. -/
def nearest? (digits : Nat) (power : Int) : Option Binary :=
  if digits = 0 || power < -((digits.log2 : Int) + 400) then some ⟨0, leastExponent⟩
  else if 400 < power then none
  else ofFraction? (digits * Nat.pow 10 power.toNat) (Nat.pow 10 (-power).toNat)

end Binary

end ImportAlias
