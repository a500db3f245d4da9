/-
  First-fit packing: the least aligned offset at which a number of bytes avoids given intervals.
-/

namespace TileNest.Packing

/-- The least multiple of `alignment` from `offset` on. -/
def alignUp (offset alignment : Nat) : Nat := (offset + (alignment - 1)) / alignment * alignment

theorem dvd_alignUp (offset alignment : Nat) : alignment ∣ alignUp offset alignment :=
  Nat.dvd_mul_left alignment _

theorem le_alignUp (offset alignment : Nat) (h : 0 < alignment) :
    offset ≤ alignUp offset alignment := by
  have hd := Nat.div_add_mod (offset + (alignment - 1)) alignment
  have hm := Nat.mod_lt (offset + (alignment - 1)) h
  rw [Nat.mul_comm] at hd
  unfold alignUp
  omega

theorem alignUp_le {offset alignment bound : Nat} (h : 0 < alignment) (hd : alignment ∣ bound)
    (hle : offset ≤ bound) : alignUp offset alignment ≤ bound := by
  obtain ⟨k, rfl⟩ := hd
  unfold alignUp
  rw [Nat.mul_comm alignment k]
  apply Nat.mul_le_mul_right
  have : offset + (alignment - 1) < alignment * (k + 1) := by
    rw [Nat.mul_add, Nat.mul_one]
    omega
  exact Nat.le_of_lt_succ (Nat.div_lt_of_lt_mul this)

/-- Moves `offset` up past the intervals, in the order of their starts, until the bytes fit in
    front of the next one. -/
def fitFrom (size alignment offset : Nat) : List (Nat × Nat) → Nat
  | [] => offset
  | (start, stop) :: busy =>
    if stop ≤ offset then fitFrom size alignment offset busy
    else if offset + size ≤ start then offset
    else fitFrom size alignment (alignUp stop alignment) busy

/-- Intervals by their start, and by their end where they start together. -/
def before (a b : Nat × Nat) : Bool := a.1 < b.1 || (a.1 == b.1 && a.2 ≤ b.2)

/-- The least aligned offset at which `size` bytes avoid every busy interval. -/
def firstFit (busy : List (Nat × Nat)) (size alignment : Nat) : Nat :=
  fitFrom size alignment 0 (busy.mergeSort before)

end TileNest.Packing
