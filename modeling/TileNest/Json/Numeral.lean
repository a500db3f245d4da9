import TileNest.Checked

/-
  The range of written numbers. A number is taken in double precision: of its digits as many as fit
  in 64 bits count, the others only shift the exponent, and the significand and the power of ten are
  rounded to 53 bits before they are multiplied. A number whose product rounds to no finite double is
  out of range (`Numeral.fits`). All of this is computed exactly in the natural numbers.
-/

namespace TileNest.Json

/-- The value of a decimal digit. -/
def digitValue (d : Char) : Nat := d.toNat - '0'.toNat

/-- The number that decimal digits stand for. -/
def digitsValue (ds : List Char) : Nat := ds.foldl (fun n d => n * 10 + digitValue d) 0

/-- A number without its sign, as a significand times a power of ten. -/
structure Numeral where
  significand : Nat
  exponent : Int
  deriving DecidableEq, Repr

namespace Numeral

/-- The significand with the digits appended as long as it stays within 64 bits, and the number of
    digits that are left out. -/
def absorb (significand : Nat) : List Char → Nat × Nat
  | [] => (significand, 0)
  | d :: ds =>
    let next := significand * 10 + digitValue d
    if next < Checked.sizeLimit then absorb next ds else (significand, ds.length + 1)

/-- The number with these digits before and after the point and this exponent. A digit left out
    before the point is worth a power of ten, and one left out after it nothing. -/
def ofDigits (whole fraction : List Char) (exponent : Int) : Numeral :=
  let before := absorb 0 whole
  let after := absorb before.1 fraction
  ⟨after.1, exponent + before.2 - (fraction.length - after.2 : Nat)⟩

/-- The nearest number with at most 53 significant bits, of two the even one. -/
def round53 (n : Nat) : Nat :=
  let unit := Nat.pow 2 (n.log2 - 52)
  let quotient := n / unit
  let rest := 2 * (n % unit)
  if rest < unit || (rest == unit && quotient % 2 == 0) then quotient * unit
  else (quotient + 1) * unit

/-- The least number that rounds beyond the largest finite double. -/
def doubleLimit : Nat := Nat.pow 2 1024 - Nat.pow 2 970

/-- The number is in the range of doubles. Small numbers always are, and 10 to the 308 is the
    largest power of ten that is. -/
def fits (n : Numeral) : Bool :=
  n.significand == 0 || decide (n.exponent < 0) ||
    (decide (n.exponent ≤ 308) &&
      decide (round53 n.significand * round53 (Nat.pow 10 n.exponent.toNat) < doubleLimit))

end Numeral

end TileNest.Json
