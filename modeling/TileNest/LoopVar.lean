import TileNest.Fault

/-
  Loop variables: a name and a half-open range of 64-bit values. `LoopVar.make` refuses a range
  that runs backward. A variable that was read from elsewhere may still have one, and then its
  loop has no iterations.
-/

namespace TileNest

/-- A loop over the values from `low` up to but not including `high`. -/
structure LoopVar where
  name : String
  low : Int64
  high : Int64
  deriving DecidableEq, Repr

namespace LoopVar

/-- A loop variable whose range does not run backward. -/
def make (name : String) (low high : Int64) : Except Fault LoopVar :=
  if high < low then .error (.invertedRange name low high) else .ok { name, low, high }

/-- The distance between the two bounds. -/
def extent (v : LoopVar) : Nat := (v.high.toInt - v.low.toInt).natAbs

/-- The bounds coincide. -/
def isEmpty (v : LoopVar) : Bool := v.low == v.high

/-- The values of the range from `low` up to `high`, ascending. -/
def valuesIn (low high : Int64) : List Int64 :=
  (List.range (high.toInt - low.toInt).toNat).map fun (i : Nat) => Int64.ofInt (low.toInt + i)

/-- The values that the loop runs through. -/
def values (v : LoopVar) : List Int64 := valuesIn v.low v.high

end LoopVar

end TileNest
