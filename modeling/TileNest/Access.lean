import TileNest.Affine
import TileNest.Arith
import TileNest.Distinct
import TileNest.LoopVar

/-
  Affine access maps. A map selects some dimensions of a tensor and gives, for each of them, a
  weighted sum of loop variables plus an offset. It is stored as tables and read in three ways: as
  symbolic expressions (`Access.index`), as coordinates for given values of its variables
  (`Access.resolve`), and as the bounds of a coordinate over all values (`Access.bounds`).
  Dimensions that are not selected stay at 0.
-/

namespace TileNest

/-- A selected dimension: its offset and the weight of each loop variable, in their order. -/
structure Axis where
  dim : Nat
  weights : List Int64
  offset : Int64
  deriving DecidableEq, Repr

namespace Axis

/-- The coordinate as an expression, without the variables that do not matter. -/
def expression (a : Axis) (vars : List LoopVar) : Affine :=
  ⟨((vars.map LoopVar.name).zip a.weights).filter fun term => term.2 != 0, a.offset⟩

/-- Adds the weighted values to `total`, if the sum stays in range. -/
def sum? (total : Int64) : List (Int64 × Int64) → Option Int64
  | [] => some total
  | (value, weight) :: terms =>
    match (Checked.mul? value weight).bind (Checked.add? total) with
    | none => none
    | some total => sum? total terms

/-- The coordinate for these values of the variables. -/
def coordinate? (a : Axis) (values : List Int64) : Option Int64 :=
  sum? a.offset (values.zip a.weights)

/-- The coordinates of the axes, each with its dimension. The first axis that lies beyond the rank
    or whose coordinate leaves the range is reported. -/
def coordinates (rank : Nat) (values : List Int64) : List Axis → Except Fault (List (Nat × Int64))
  | [] => .ok []
  | a :: axes =>
    if rank ≤ a.dim then .error (.malformedAccess (.dimBeyondRank a.dim rank))
    else match a.coordinate? values with
      | none => .error (.malformedAccess (.coordinateOverflow a.dim))
      | some c => (coordinates rank values axes).map ((a.dim, c) :: ·)

end Axis

/-- An affine access map: the selected dimensions, a row of weights for each loop variable with an
    entry for each selected dimension, and an offset for each of them. -/
structure Access where
  dims : List Nat
  rows : List (List Int64)
  offsets : List Int64
  vars : List LoopVar
  row_count : rows.length = vars.length := by decide
  row_widths : ∀ row ∈ rows, row.length = dims.length := by decide
  offset_count : offsets.length = dims.length := by decide
  dims_nodup : dims.Nodup := by decide
  names_nodup : (vars.map LoopVar.name).Nodup := by decide
  deriving DecidableEq, Repr

namespace Access

/-- A map with `rows[j][k]` as the weight of variable `j` in the coordinate of dimension `dims[k]`.
    The number of rows, their widths, the number of offsets, repeated dimensions and repeated
    variables are checked in this order. -/
def make (dims : List Nat) (rows : List (List Int64)) (offsets : List Int64)
    (vars : List LoopVar) : Except Fault Access :=
  if hr : rows.length = vars.length then
    match hw : rows.findIdx? (·.length != dims.length) with
    | some row =>
      .error (.malformedAccess (.rowWidth row (rows.getD row []).length dims.length))
    | none =>
      if ho : offsets.length = dims.length then
        match hd : firstRepeat? dims with
        | some dim => .error (.malformedAccess (.repeatedDim dim))
        | none =>
          match hv : firstRepeat? (vars.map LoopVar.name) with
          | some name => .error (.repeatedVar name .access)
          | none =>
            .ok { dims, rows, offsets, vars
                  row_count := hr
                  row_widths := by simpa using hw
                  offset_count := ho
                  dims_nodup := (firstRepeat?_eq_none_iff dims).1 hd
                  names_nodup := (firstRepeat?_eq_none_iff _).1 hv }
      else .error (.malformedAccess (.offsetCount offsets.length dims.length))
  else .error (.malformedAccess (.rowCount rows.length vars.length))

/-- The whole tile at once, in no loop. -/
def bulk : Access := { dims := [], rows := [], offsets := [], vars := [] }

/-- The axes of a map with these tables: the columns of the rows, each with its dimension and its
    offset. -/
def axesOf (dims : List Nat) (rows : List (List Int64)) (offsets : List Int64) : List Axis :=
  dims.mapIdx fun k dim => ⟨dim, rows.map (·.getD k 0), offsets.getD k 0⟩

/-- The map axis by axis. -/
def axes (m : Access) : List Axis := axesOf m.dims m.rows m.offsets

theorem map_dim_axes (m : Access) : m.axes.map Axis.dim = m.dims := by
  apply List.ext_getElem <;> simp [axes, axesOf]

/-- The map depends on no loop. -/
def isInvariant (m : Access) : Bool := m.vars.isEmpty

def usesVar (m : Access) (name : String) : Bool := m.vars.any (·.name == name)

/-- The axis of a selected dimension. -/
def axis? (m : Access) (dim : Nat) : Option Axis := m.axes.find? (·.dim == dim)

/-- The coordinates of a tensor of this rank as expressions. -/
def index (m : Access) (rank : Nat) : TileIndex :=
  ⟨(List.range rank).map fun dim =>
    match m.axis? dim with
    | some a => a.expression m.vars
    | none => .ofConstant 0⟩

/-- The coordinates of a tensor of this rank for the given values of the variables. -/
def resolve (m : Access) (rank : Nat) (values : List Int64) : Except Fault (List Int64) :=
  if values.length ≠ m.vars.length then
    .error (.malformedAccess (.valueCount values.length m.vars.length))
  else (Axis.coordinates rank values m.axes).map fun found =>
    (List.range rank).map fun dim => (found.lookup dim).getD 0

/-- Extends the range `least` to `greatest` by the smallest and the largest contribution of each
    variable, with its weight in column `k` of its row, as long as the products and sums fit. The
    last value of a loop is taken without a check. -/
def extend (k : Nat) (least greatest : Int64) :
    List (LoopVar × List Int64) → Arith (Option (Int64 × Int64))
  | [] => pure (some (least, greatest))
  | (v, row) :: rest => do
    let weight ← Arith.entry row k
    (Arith.product weight v.low).orStop fun first => do
      let weight ← Arith.entry row k
      let top ← Arith.decrement v.high
      (Arith.product weight top).orStop fun last =>
        (Arith.sum least (min first last)).orStop fun least =>
          (Arith.sum greatest (max first last)).orStop fun greatest =>
            extend k least greatest rest

/-- The least and the greatest coordinate along the selected dimension `k` over the ranges of the
    variables, none of them empty, if the products and sums fit. -/
def bounds (m : Access) (k : Nat) : Arith (Option (Int64 × Int64)) := do
  let least ← Arith.entry m.offsets k
  let greatest ← Arith.entry m.offsets k
  extend k least greatest (m.vars.zip m.rows)

end Access

end TileNest
