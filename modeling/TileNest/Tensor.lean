import TileNest.Checked
import TileNest.Fault

/-
  Tensors: named boxes of elements in one tier of memory. A tensor has a name, at least one axis,
  no empty axis, and fewer than 2^64 bytes; the type carries these facts and `Tensor.make` is the
  check that produces them.
-/

namespace TileNest

/-- The number of elements of a box with these extents. -/
def volume : List Nat → Nat
  | [] => 1
  | extent :: extents => extent * volume extents

/-- The order of a box's elements in memory. -/
inductive Layout where
  | rowMajor
  | colMajor
  deriving DecidableEq, Repr

namespace Layout

/-- Strides with the first axis contiguous, scaled by the size `step` of one step along it. -/
def colStrides (step : Nat) : List Nat → List Nat
  | [] => []
  | extent :: extents => step :: colStrides (step * extent) extents

/-- The distance in elements between neighbours along each axis. The last axis of a row-major box is
    contiguous, the first axis of a column-major one. -/
def strides : Layout → List Nat → List Nat
  | rowMajor, shape => (colStrides 1 shape.reverse).reverse
  | colMajor, shape => colStrides 1 shape

theorem length_colStrides (step : Nat) (shape : List Nat) :
    (colStrides step shape).length = shape.length := by
  induction shape generalizing step with
  | nil => rfl
  | cons e es ih => simp [colStrides, ih]

end Layout

/-- The type of a box's elements. -/
inductive DType where
  | f16
  | bf16
  | f32
  | f64
  deriving DecidableEq, Repr

namespace DType

/-- Bytes of one element. -/
def size : DType → Nat
  | f16 => 2
  | bf16 => 2
  | f32 => 4
  | f64 => 8

/-- The element type as kernel text spells it. -/
def text : DType → String
  | f16 => "half"
  | bf16 => "bfloat16"
  | f32 => "float"
  | f64 => "double"

theorem size_lt (d : DType) : d.size < Checked.sizeLimit := by
  cases d <;> decide

theorem two_le_size (d : DType) : 2 ≤ d.size := by
  cases d <;> decide

end DType

/-- `size` times all extents, multiplied up from the first axis on, if every product on the way
    stays below the limit. -/
def product? (size : Nat) : List Nat → Option Nat
  | [] => some size
  | extent :: extents =>
    if size * extent < Checked.sizeLimit then product? (size * extent) extents else none

theorem mul_volume_lt {size n : Nat} {shape : List Nat} (hs : size < Checked.sizeLimit)
    (h : product? size shape = some n) : size * volume shape < Checked.sizeLimit := by
  induction shape generalizing size with
  | nil => rwa [volume, Nat.mul_one]
  | cons e es ih =>
    rw [product?] at h
    split at h
    · next hlt =>
      rw [volume, ← Nat.mul_assoc]
      exact ih hlt h
    · cases h

/-- A named box of elements in one tier. -/
structure Tensor where
  name : String
  shape : List Nat
  layout : Layout
  tier : Tier
  dtype : DType
  name_ne : name ≠ "" := by decide
  shape_ne : shape ≠ [] := by decide
  extent_pos : ∀ e ∈ shape, 0 < e := by decide
  bytes_lt : dtype.size * volume shape < Checked.sizeLimit := by decide
  deriving DecidableEq, Repr

namespace Tensor

/-- A tensor with these properties. The first of the checks that fails is reported: the name, the
    rank, an empty axis, the size in bytes. -/
def make (name : String) (shape : List Nat) (layout : Layout) (tier : Tier) (dtype : DType) :
    Except Fault Tensor :=
  if hn : name = "" then .error .namelessTensor
  else if hs : shape = [] then .error (.invalidShape name .noAxes)
  else match he : shape.findIdx? (· == 0) with
    | some axis => .error (.invalidShape name (.emptyAxis axis))
    | none =>
      match hb : product? dtype.size shape with
      | none => .error (.invalidShape name .tooLarge)
      | some _ =>
        .ok { name, shape, layout, tier, dtype, name_ne := hn, shape_ne := hs
              bytes_lt := mul_volume_lt dtype.size_lt hb
              extent_pos := fun e hm => Nat.pos_of_ne_zero
                (by simpa using List.findIdx?_eq_none_iff.1 he e hm) }

def rank (t : Tensor) : Nat := t.shape.length

/-- The number of elements. -/
def elements (t : Tensor) : Nat := volume t.shape

/-- The number of bytes. -/
def bytes (t : Tensor) : Nat := t.elements * t.dtype.size

def strides (t : Tensor) : List Nat := t.layout.strides t.shape

end Tensor

end TileNest
