import Mathlib.Algebra.Ring.Nat
import Mathlib.Data.Set.Function
import TileNest.Proofs.Construction
import TileNest.Proofs.Coordinates

/-
  Addresses of elements. The strides of a tensor are the running products of its extents, taken from
  the contiguous axis on, and the element at an index stands at the sum of its coordinates times the
  strides. Swept in that order the address is a numeral whose digits are the coordinates and whose
  bases are the extents (`place`), so that every address below the number of elements is the address
  of one index, the one that repeated division gives back (`indexAt`).

  Main result: `Tensor.elements_addressed_once`. It also says what `Tensor.make` accepts. The check
  multiplies the size of an element up axis by axis, the strides and the number of elements are
  other products of the same extents, and none of them leaves 64 bits where the check does not: an
  extent is at least one, so that products only grow on the way to the number of bytes.
-/

namespace TileNest

theorem volume_append (xs ys : List Nat) : volume (xs ++ ys) = volume xs * volume ys := by
  induction xs with
  | nil => simp [volume]
  | cons x xs ih => rw [List.cons_append, volume, volume, ih, Nat.mul_assoc]

theorem volume_reverse (shape : List Nat) : volume shape.reverse = volume shape := by
  induction shape with
  | nil => rfl
  | cons e es ih =>
    rw [List.reverse_cons, volume_append, ih, volume, volume, volume, Nat.mul_one, Nat.mul_comm]

/-! ## Numerals with an extent for each digit -/

/-- The index lies in the box: one coordinate for each axis, below its extent. -/
def InBox (shape index : List Nat) : Prop := List.Forall₂ (· < ·) index shape

/-- The number whose digits are the coordinates, the first axis counting single elements. -/
def place : (shape index : List Nat) → Nat
  | e :: es, i :: is => i + e * place es is
  | _, _ => 0

/-- The digits of a number. -/
def indexAt : (shape : List Nat) → Nat → List Nat
  | [], _ => []
  | e :: es, n => n % e :: indexAt es (n / e)

theorem place_lt {shape index : List Nat} (h : InBox shape index) :
    place shape index < volume shape := by
  induction h with
  | nil => exact Nat.one_pos
  | @cons i e is es hi _ ih =>
    have hstep : e * (place es is + 1) ≤ e * volume es := Nat.mul_le_mul_left e ih
    rw [Nat.mul_add] at hstep
    rw [place, volume]
    omega

theorem indexAt_place {shape index : List Nat} (h : InBox shape index) :
    indexAt shape (place shape index) = index := by
  induction h with
  | nil => rfl
  | @cons i e is es hi _ ih =>
    have hmod : (i + e * place es is) % e = i := by
      rw [Nat.add_mul_mod_self_left, Nat.mod_eq_of_lt hi]
    have hdiv : (i + e * place es is) / e = place es is := by
      rw [Nat.add_mul_div_left _ _ (by omega), Nat.div_eq_of_lt hi, Nat.zero_add]
    rw [place, indexAt, hmod, hdiv, ih]

theorem indexAt_inBox {shape : List Nat} {n : Nat} (h : n < volume shape) :
    InBox shape (indexAt shape n) := by
  induction shape generalizing n with
  | nil => exact .nil
  | cons e es ih =>
    rw [volume] at h
    have he : 0 < e := Nat.pos_of_mul_pos_right (Nat.zero_lt_of_lt h)
    exact .cons (Nat.mod_lt n he) (ih (Nat.div_lt_of_lt_mul h))

theorem place_indexAt {shape : List Nat} {n : Nat} (h : n < volume shape) :
    place shape (indexAt shape n) = n := by
  induction shape generalizing n with
  | nil => exact (Nat.lt_one_iff.1 h).symm
  | cons e es ih =>
    rw [volume] at h
    rw [indexAt, place, ih (Nat.div_lt_of_lt_mul h), Nat.mod_add_div]

/-! ## Running products -/

/-- The values of a product that starts at `n` and takes in one extent after the other. -/
def runningFrom (n : Nat) : List Nat → List Nat
  | [] => [n]
  | e :: es => n :: runningFrom (n * e) es

theorem runningFrom_ne_nil (n : Nat) (shape : List Nat) : runningFrom n shape ≠ [] := by
  cases shape <;> simp [runningFrom]

/-- Where no extent is zero, a product that takes them in stays below the last of its values. -/
theorem le_of_mem_runningFrom {shape : List Nat} (hpos : ∀ e ∈ shape, 0 < e) {n m : Nat}
    (h : m ∈ runningFrom n shape) : m ≤ n * volume shape := by
  induction shape generalizing n with
  | nil =>
    rw [runningFrom, List.mem_singleton] at h
    rw [h, volume, Nat.mul_one]
  | cons e es ih =>
    rw [runningFrom, List.mem_cons] at h
    have hpos' := List.forall_mem_cons.1 hpos
    rcases h with rfl | h
    · exact Nat.le_mul_of_pos_right m (volume_pos hpos)
    · rw [volume, ← Nat.mul_assoc]
      exact ih hpos'.2 h

theorem exists_product? {size : Nat} {shape : List Nat} (hpos : ∀ e ∈ shape, 0 < e)
    (h : size * volume shape < Checked.sizeLimit) : ∃ n, product? size shape = some n := by
  induction shape generalizing size with
  | nil => exact ⟨size, rfl⟩
  | cons e es ih =>
    have hpos' := List.forall_mem_cons.1 hpos
    rw [volume, ← Nat.mul_assoc] at h
    have hle : size * e ≤ size * e * volume es := Nat.le_mul_of_pos_right _ (volume_pos hpos'.2)
    rw [product?, if_pos (Nat.lt_of_le_of_lt hle h)]
    exact ih hpos'.2 h

namespace Layout

/-- The axes from the contiguous one on. -/
def sweep {α : Type} : Layout → List α → List α
  | rowMajor, axes => axes.reverse
  | colMajor, axes => axes

/-- The running product of the extents, swept from the contiguous axis on. -/
def running (l : Layout) (shape : List Nat) : List Nat := runningFrom 1 (l.sweep shape)

theorem sweep_sweep {α : Type} (l : Layout) (axes : List α) : l.sweep (l.sweep axes) = axes := by
  cases l with
  | rowMajor => exact List.reverse_reverse axes
  | colMajor => rfl

theorem length_sweep {α : Type} (l : Layout) (axes : List α) :
    (l.sweep axes).length = axes.length := by
  cases l with
  | rowMajor => exact List.length_reverse
  | colMajor => rfl

theorem mem_sweep {α : Type} (l : Layout) {axes : List α} {a : α} :
    a ∈ l.sweep axes ↔ a ∈ axes := by
  cases l with
  | rowMajor => exact List.mem_reverse
  | colMajor => exact Iff.rfl

theorem volume_sweep (l : Layout) (shape : List Nat) : volume (l.sweep shape) = volume shape := by
  cases l with
  | rowMajor => exact volume_reverse shape
  | colMajor => rfl

theorem inBox_sweep (l : Layout) {shape index : List Nat} (h : InBox shape index) :
    InBox (l.sweep shape) (l.sweep index) := by
  cases l with
  | rowMajor => exact List.rel_reverse h
  | colMajor => exact h

theorem colStrides_eq (step : Nat) (shape : List Nat) :
    colStrides step shape = (runningFrom step shape).dropLast := by
  induction shape generalizing step with
  | nil => rfl
  | cons e es ih =>
    rw [colStrides, runningFrom, List.dropLast_cons_of_ne_nil (runningFrom_ne_nil _ es), ih]

/-- In either layout the strides are those of the swept shape with the first axis contiguous. -/
theorem strides_eq_sweep (l : Layout) (shape : List Nat) :
    l.strides shape = l.sweep (colStrides 1 (l.sweep shape)) := by
  cases l with
  | rowMajor => rfl
  | colMajor => rfl

theorem strides_eq_running (l : Layout) (shape : List Nat) :
    l.strides shape = l.sweep (l.running shape).dropLast := by
  rw [strides_eq_sweep, running, colStrides_eq]

theorem running_le_volume (l : Layout) {shape : List Nat} (hpos : ∀ e ∈ shape, 0 < e) {n : Nat}
    (h : n ∈ l.running shape) : n ≤ volume shape := by
  have hle := le_of_mem_runningFrom (fun e he => hpos e (l.mem_sweep.1 he)) h
  rwa [Nat.one_mul, l.volume_sweep] at hle

/-- The sum of the coordinates times their strides. -/
def address (l : Layout) (shape index : List Nat) : Nat :=
  (List.zipWith (· * ·) index (l.strides shape)).sum

theorem sum_colStrides (step : Nat) (shape index : List Nat) :
    (List.zipWith (· * ·) index (colStrides step shape)).sum = step * place shape index := by
  induction shape generalizing step index with
  | nil => simp [colStrides, place]
  | cons e es ih =>
    cases index with
    | nil => simp [place]
    | cons i is =>
      rw [colStrides, List.zipWith_cons_cons, List.sum_cons, ih, place, Nat.mul_add, Nat.mul_assoc,
        Nat.mul_comm i]

/-- Swept from the contiguous axis on, the address is a numeral. -/
theorem address_eq_place (l : Layout) {shape index : List Nat} (h : InBox shape index) :
    l.address shape index = place (l.sweep shape) (l.sweep index) := by
  have hlen : index.length = (colStrides 1 (l.sweep shape)).length := by
    rw [length_colStrides, length_sweep, h.length_eq]
  have hsweep : l.address shape index =
      (List.zipWith (· * ·) (l.sweep index) (colStrides 1 (l.sweep shape))).sum := by
    rw [address, strides_eq_sweep]
    cases l with
    | colMajor => rfl
    | rowMajor =>
      rw [← List.sum_reverse, List.reverse_zipWith (by simpa [sweep] using hlen)]
      simp [sweep]
  rw [hsweep, sum_colStrides, Nat.one_mul]

/-- The index of the element that stands at an address. -/
def indexOf (l : Layout) (shape : List Nat) (n : Nat) : List Nat :=
  l.sweep (indexAt (l.sweep shape) n)

section

variable (l : Layout) {shape : List Nat}

theorem address_lt {index : List Nat} (h : InBox shape index) :
    l.address shape index < volume shape := by
  rw [l.address_eq_place h, ← l.volume_sweep]
  exact place_lt (l.inBox_sweep h)

theorem indexOf_address {index : List Nat} (h : InBox shape index) :
    l.indexOf shape (l.address shape index) = index := by
  rw [indexOf, l.address_eq_place h, indexAt_place (l.inBox_sweep h), l.sweep_sweep]

theorem indexOf_inBox {n : Nat} (h : n < volume shape) : InBox shape (l.indexOf shape n) := by
  rw [← l.volume_sweep] at h
  have hbox := l.inBox_sweep (indexAt_inBox h)
  rwa [l.sweep_sweep] at hbox

theorem address_indexOf {n : Nat} (h : n < volume shape) :
    l.address shape (l.indexOf shape n) = n := by
  rw [l.address_eq_place (l.indexOf_inBox h), indexOf, l.sweep_sweep]
  rw [← l.volume_sweep] at h
  exact place_indexAt h

/-- The indices of a box and the numbers below its volume correspond by their addresses. -/
theorem address_bijOn :
    Set.BijOn (l.address shape) {index | InBox shape index} {n | n < volume shape} := by
  have hinv : Set.InvOn (l.indexOf shape) (l.address shape) {index | InBox shape index}
      {n | n < volume shape} := ⟨fun _ => l.indexOf_address, fun _ => l.address_indexOf⟩
  exact hinv.bijOn (fun _ => l.address_lt) (fun _ => l.indexOf_inBox)

end

end Layout

/-! ## Accepted tensors -/

namespace Tensor

/-- Where the element at an index stands. -/
def address (t : Tensor) (index : List Nat) : Nat := t.layout.address t.shape index

theorem make_eq_ok {name : String} {shape : List Nat} {layout : Layout} {tier : Tier}
    {dtype : DType} {t : Tensor} (h : make name shape layout tier dtype = .ok t) :
    t.name = name ∧ t.shape = shape ∧ t.layout = layout ∧ t.tier = tier ∧ t.dtype = dtype := by
  unfold make at h
  split at h
  · cases h
  · split at h
    · cases h
    · split at h
      · cases h
      · split at h
        · cases h
        · cases h
          exact ⟨rfl, rfl, rfl, rfl, rfl⟩

/-- A tensor passes the check of its own properties. -/
theorem make_self (t : Tensor) : make t.name t.shape t.layout t.tier t.dtype = .ok t := by
  have hextents : t.shape.findIdx? (· == 0) = none := by
    rw [List.findIdx?_eq_none_iff]
    intro e he
    simpa using Nat.ne_of_gt (t.extent_pos e he)
  obtain ⟨n, hproduct⟩ := exists_product? t.extent_pos t.bytes_lt
  unfold make
  rw [dif_neg t.name_ne, dif_neg t.shape_ne]
  split
  · next axis haxis =>
    rw [hextents] at haxis
    cases haxis
  · split
    · next hnone =>
      rw [hproduct] at hnone
      cases hnone
    · rfl

theorem elements_lt (t : Tensor) : t.elements < Checked.sizeLimit := by
  have hsize : 0 < t.dtype.size := Nat.lt_of_lt_of_le Nat.two_pos t.dtype.two_le_size
  exact Nat.lt_of_le_of_lt (Nat.le_mul_of_pos_left _ hsize) t.bytes_lt

theorem bytes_lt_sizeLimit (t : Tensor) : t.bytes < Checked.sizeLimit := by
  rw [bytes, Nat.mul_comm]
  exact t.bytes_lt

/-- **Layouts.** What is accepted as a tensor, and what an accepted one gives: its numbers of
    elements and bytes and all running products of its extents have 64 bits, in either direction;
    its strides are such products; and every address below the number of elements is the one of one
    index. -/
theorem elements_addressed_once (name : String) (shape : List Nat) (layout : Layout) (tier : Tier)
    (dtype : DType) :
    ((∃ t, make name shape layout tier dtype = .ok t) ↔
      name ≠ "" ∧ shape ≠ [] ∧ (∀ e ∈ shape, 0 < e) ∧ dtype.size * volume shape < 2 ^ 64) ∧
    ∀ t, make name shape layout tier dtype = .ok t →
      (t.name = name ∧ t.shape = shape ∧ t.layout = layout ∧ t.tier = tier ∧ t.dtype = dtype) ∧
      t.elements < 2 ^ 64 ∧ t.bytes < 2 ^ 64 ∧
      (∀ l : Layout, ∀ n ∈ l.running shape, n < 2 ^ 64) ∧
      t.strides = layout.sweep (layout.running shape).dropLast ∧
      Set.BijOn t.address {index | InBox shape index} {n | n < t.elements} := by
  have hlimit : Checked.sizeLimit = 2 ^ 64 := rfl
  rw [← hlimit]
  refine ⟨⟨?_, ?_⟩, ?_⟩
  · rintro ⟨t, ht⟩
    obtain ⟨rfl, rfl, -, -, rfl⟩ := make_eq_ok ht
    exact ⟨t.name_ne, t.shape_ne, t.extent_pos, t.bytes_lt⟩
  · rintro ⟨hname, hshape, hpos, hbytes⟩
    exact ⟨_, make_self ⟨name, shape, layout, tier, dtype, hname, hshape, hpos, hbytes⟩⟩
  · intro t ht
    obtain ⟨rfl, rfl, rfl, rfl, rfl⟩ := make_eq_ok ht
    refine ⟨⟨rfl, rfl, rfl, rfl, rfl⟩, t.elements_lt, t.bytes_lt_sizeLimit, ?_,
      t.layout.strides_eq_running t.shape, t.layout.address_bijOn⟩
    intro l n hn
    exact Nat.lt_of_le_of_lt (l.running_le_volume t.extent_pos hn) t.elements_lt

end Tensor

/-- A box with three axes, the first one contiguous. -/
def Sample.brick : Tensor :=
  { first with
    name := "brick", shape := [2, 3, 4], layout := .colMajor
    name_ne := by decide, shape_ne := by decide, extent_pos := by decide, bytes_lt := by decide }

theorem Tensor.elements_addressed_once_brick :
    make "brick" [2, 3, 4] .colMajor .register .f32 = .ok Sample.brick ∧
    Sample.brick.strides = [1, 2, 6] ∧ Sample.brick.address [1, 2, 3] = 23 ∧
    Set.BijOn Sample.brick.address {index | InBox [2, 3, 4] index} {n | n < 24} := by
  have hmade : make "brick" [2, 3, 4] .colMajor .register .f32 = .ok Sample.brick :=
    make_self Sample.brick
  obtain ⟨-, -, -, -, -, hbij⟩ := (elements_addressed_once _ _ _ _ _).2 _ hmade
  exact ⟨hmade, by decide, by decide, hbij⟩

end TileNest
