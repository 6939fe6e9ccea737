import ImportAlias.Decimal.Nearest

/-!
# The shortest decimal that reads back

A binary64 value is written with the fewest digits that still stand for it. The
reals nearest to it form an interval, closed when its significand is even. The
multiples of a power of ten next to the value are tried on ever finer grids, and
the first grid with a multiple in the interval gives the digits: every coarser
grid has failed, so no shorter text would do.
-/

namespace ImportAlias

namespace Binary

/-- Whether the value below lies half as far away as the value above. -/
def isNarrowBelow (value : Binary) : Bool :=
  value.significand = Nat.pow 2 (precision - 1) && leastExponent < value.exponent

/-- Whether a number stands for the value. The number and the quarter of the value's last binary
place are measured in a common unit. -/
def isReadFrom (value : Binary) (quarter number : Nat) : Bool :=
  let low := (4 * value.significand - if value.isNarrowBelow then 1 else 2) * quarter
  let high := (4 * value.significand + 2) * quarter
  if value.significand % 2 = 0 then low ≤ number && number ≤ high
  else low < number && number < high

/-- The multiple of `10 ^ power` that is nearest to the value, if one stands for it. Of two equally
near ones the even one is taken. -/
def onGrid? (value : Binary) (power : Int) : Option Nat :=
  let step := Nat.pow 10 power.toNat * Nat.pow 2 (2 - value.exponent).toNat
  let quarter := Nat.pow 10 (-power).toNat * Nat.pow 2 (value.exponent - 2).toNat
  let exact := 4 * value.significand * quarter
  let below := exact / step
  match value.isReadFrom quarter (below * step), value.isReadFrom quarter ((below + 1) * step) with
  | true, true => some (halfToEven exact step)
  | true, false => some below
  | false, true => some (below + 1)
  | false, false => none

/-- The powers of ten that are tried, from one above every finite value to one where the seventeen
digits that suffice for each of them are reached. -/
def grids : List Int :=
  (List.range 660).map fun n : Nat => 310 - (n : Int)

/-- The fewest digits that stand for the value, and the power of ten of the last one. -/
def shortest? (value : Binary) : Option (Nat × Int) :=
  if value.significand = 0 then some (0, 0)
  else grids.findSome? fun power => (value.onGrid? power).map fun digits => (digits, power)

end Binary

namespace Decimal

/-- The exponents of the first digit for which a number is written without an exponent. -/
def plainFrom : Int := -4

def plainBelow : Int := 16

def zeros (count : Int) : List Char :=
  List.replicate count.toNat '0'

/-- An exponent with its sign and at least two digits. -/
def exponentText (exponent : Int) : List Char :=
  let digits := Nat.toDigits 10 exponent.natAbs
  (if exponent < 0 then '-' else '+') :: (zeros (2 - digits.length) ++ digits)

/-- Lays out `digits * 10 ^ power`, with a point in every number that has no exponent. -/
def layout (digits : Nat) (power : Int) : List Char :=
  let text := Nat.toDigits 10 digits
  let first : Int := text.length - 1 + power
  if first < plainFrom ∨ plainBelow ≤ first then
    let fraction := text.drop 1
    text.take 1 ++ (if fraction.isEmpty then [] else '.' :: fraction) ++ 'e' :: exponentText first
  else if first < 0 then '0' :: '.' :: zeros (-first - 1) ++ text
  else if 0 ≤ power then text ++ zeros power ++ ['.', '0']
  else text.take (first + 1).toNat ++ '.' :: text.drop (first + 1).toNat

/-- The text of a number, given those of what lies beyond the finite numbers. It reads back as the
same binary64 value. -/
def text (infinity undefined : String) : Decimal → String
  | finite negative digits power =>
    let size := match Binary.nearest? digits power with
      | none => infinity
      | some value =>
        let (digits, power) := value.shortest?.getD (0, 0)
        String.ofList (layout digits power)
    if negative then "-" ++ size else size
  | infinite negative => if negative then "-" ++ infinity else infinity
  | notANumber => undefined

end Decimal

end ImportAlias
