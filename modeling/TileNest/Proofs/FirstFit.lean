import Mathlib.Order.Bounds.Basic
import TileNest.Proofs.Construction
import TileNest.Proofs.Coordinates
import TileNest.Proofs.Placement

/-
  First fit finds the least place. The scan over the sorted intervals keeps one offset and only
  moves it up; it skips no aligned offset that would do (`Packing.fitFrom_le`), and where it stops
  nothing is in the way (`Packing.firstFit_avoids`). Both together make the result the least offset
  that fits, however the intervals lie (`Packing.firstFit_isLeast`).

  A plan is packed one tensor at a time, so the fact about one placement gives the fact about the
  whole plan (`Plan.FirstFitted`): every shared or register tensor sits at the least aligned offset
  that avoids the earlier tensors it interferes with, and global tensors follow each other.
-/

namespace TileNest

/-! ## The least offset -/

namespace Packing

/-- The bytes from an aligned offset on avoid every busy interval. -/
def Fits (busy : List (Nat × Nat)) (size alignment offset : Nat) : Prop :=
  alignment ∣ offset ∧ ∀ i ∈ busy, i.2 ≤ offset ∨ offset + size ≤ i.1

theorem dvd_fitFrom {alignment offset : Nat} (h : alignment ∣ offset) (size : Nat)
    (busy : List (Nat × Nat)) : alignment ∣ fitFrom size alignment offset busy := by
  fun_induction fitFrom size alignment offset busy with
  | case1 offset => exact h
  | case2 offset start stop busy _ ih => exact ih h
  | case3 offset start stop busy _ _ => exact h
  | case4 offset start stop busy _ _ ih => exact ih (dvd_alignUp stop alignment)

/-- The scan does not pass over an offset that fits. -/
theorem fitFrom_le {alignment : Nat} (h : 0 < alignment) {size offset bound : Nat}
    {busy : List (Nat × Nat)} (hb : Fits busy size alignment bound) (hle : offset ≤ bound) :
    fitFrom size alignment offset busy ≤ bound := by
  obtain ⟨hd, hfree⟩ := hb
  fun_induction fitFrom size alignment offset busy with
  | case1 offset => exact hle
  | case2 offset start stop busy _ ih =>
    exact ih hle fun i hi => hfree i (List.mem_cons_of_mem _ hi)
  | case3 offset start stop busy _ _ => exact hle
  | case4 offset start stop busy hs hf ih =>
    -- The interval reaches beyond the offset and begins before its last byte, so every offset that
    -- fits from here on lies behind it.
    have hstop : stop ≤ bound := by
      have hfirst : stop ≤ bound ∨ bound + size ≤ start := hfree (start, stop) List.mem_cons_self
      omega
    exact ih (alignUp_le h hd hstop) fun i hi => hfree i (List.mem_cons_of_mem _ hi)

/-- First fit gives the least aligned offset at which the bytes avoid every busy interval. -/
theorem firstFit_isLeast {alignment : Nat} (h : 0 < alignment) (busy : List (Nat × Nat))
    (size : Nat) : IsLeast {o | Fits busy size alignment o} (firstFit busy size alignment) := by
  constructor
  · exact ⟨dvd_fitFrom (Nat.dvd_zero alignment) size _, fun i hi => firstFit_avoids h size hi⟩
  · rintro bound ⟨hd, hfree⟩
    have hsorted : Fits (busy.mergeSort before) size alignment bound :=
      ⟨hd, fun i hi => hfree i (List.mem_mergeSort.1 hi)⟩
    exact fitFrom_le h hsorted (Nat.zero_le bound)

end Packing

theorem Tensor.bytes_pos (t : Tensor) : 0 < t.bytes := by
  have hsize : 0 < t.dtype.size := Nat.lt_of_lt_of_le Nat.two_pos t.dtype.two_le_size
  exact Nat.mul_pos (volume_pos t.extent_pos) hsize

/-! ## Plans -/

namespace Plan

/-- The later tensor has to keep off the bytes of the earlier one: no slots are reused, or both are
    live at once, or the graphs do not order them. -/
def Interferes (options : PlanOptions) (interference : Interference) (earlier later : Allocation) :
    Prop :=
  options.reuseSlots = false ∨ earlier.live.overlaps later.live = true ∨
    interference.conflicts earlier.name later.name = true

/-- At the offset the tensor would be aligned and avoid the earlier tensors of its tier that it
    interferes with. -/
def Admits (options : PlanOptions) (interference : Interference) (earlier : List Allocation)
    (a : Allocation) (offset : Nat) : Prop :=
  max options.alignment 1 ∣ offset ∧
    ∀ b ∈ earlier, b.tier = a.tier → Interferes options interference b a →
      b.stop ≤ offset ∨ offset + a.size ≤ b.offset

/-- Shared and register tensors sit at the least offset that admits them. Global tensors are
    aligned and lie one behind the other, in the order of the plan. No tensor is without bytes. -/
structure FirstFitted (options : PlanOptions) (interference : Interference) (p : Plan) : Prop where
  least : ∀ earlier a later, p.allocations = earlier ++ a :: later → a.tier ≠ .global →
    IsLeast {o | Admits options interference earlier a o} a.offset
  aligned : ∀ a ∈ p.allocations, a.tier = .global → max options.alignment 1 ∣ a.offset
  behind : p.allocations.Pairwise fun a b => a.tier = .global → b.tier = .global →
    a.stop ≤ b.offset ∧ a.offset < b.offset
  sized : ∀ a ∈ p.allocations, 0 < a.size

variable {options : PlanOptions} {interference : Interference}

theorem mem_rivals_iff {p : Plan} {t : Tensor} {live : LiveRange} {a : Allocation} :
    a ∈ p.rivals options interference t live ↔ a ∈ p.allocations ∧ a.tier = t.tier ∧
      (options.reuseSlots = false ∨ a.live.overlaps live = true ∨
        interference.conflicts a.name t.name = true) := by
  simp only [rivals, List.mem_filter, Interference.contains_foes, Bool.and_eq_true, beq_iff_eq,
    Bool.or_eq_true, Bool.not_eq_true', or_assoc]

/-- A tensor outside of global memory gets the least offset that admits it. -/
theorem slotFor_least (p : Plan) {t : Tensor} (ht : t.tier ≠ .global) (live : LiveRange) :
    IsLeast
      {o | Admits options interference p.allocations (p.slotFor options interference t live) o}
      (p.slotFor options interference t live).offset := by
  have hfit : (p.slotFor options interference t live).offset =
      Packing.firstFit ((p.rivals options interference t live).map fun a => (a.offset, a.stop))
        t.bytes options.step := by
    unfold slotFor offsetFor
    cases hk : t.tier with
    | global => exact absurd hk ht
    | shared => rfl
    | register => rfl
  have hset : {o | Admits options interference p.allocations
      (p.slotFor options interference t live) o} =
      {o | Packing.Fits ((p.rivals options interference t live).map fun a => (a.offset, a.stop))
        t.bytes options.step o} := by
    ext o
    simp only [Set.mem_ofPred_eq, Admits, Packing.Fits, List.forall_mem_map, mem_rivals_iff,
      and_imp]
    rfl
  rw [hfit, hset]
  exact Packing.firstFit_isLeast (step_pos options) _ _

/-- A global tensor goes to an aligned offset behind all global tensors. -/
theorem slotFor_behind {p : Plan} {t : Tensor} (ht : t.tier = .global) (live : LiveRange) :
    max options.alignment 1 ∣ (p.slotFor options interference t live).offset ∧
      ∀ a ∈ p.allocations, a.tier = .global →
        a.stop ≤ (p.slotFor options interference t live).offset := by
  constructor
  · unfold slotFor offsetFor
    rw [ht]
    exact Packing.dvd_alignUp _ _
  · exact fun a ha hg => stop_le_offsetFor_global ha ht hg live

/-- One more tensor keeps a plan fitted. -/
theorem FirstFitted.place {p : Plan} (h : FirstFitted options interference p) (t : Tensor)
    (live : LiveRange) :
    FirstFitted options interference (p.place options interference (t, live)) := by
  constructor
  · intro earlier a later hsplit ha
    rw [allocations_place] at hsplit
    rcases Lists.concat_eq_append_cons hsplit with ⟨later', hold⟩ | ⟨rfl, rfl⟩
    · exact h.least earlier a later' hold ha
    · exact p.slotFor_least ha live
  · intro a ha hg
    rw [allocations_place, List.mem_append, List.mem_singleton] at ha
    rcases ha with ha | rfl
    · exact h.aligned a ha hg
    · exact (slotFor_behind hg live).1
  · rw [allocations_place, List.pairwise_append]
    refine ⟨h.behind, List.pairwise_singleton _ _, fun a ha b hb hga hgb => ?_⟩
    rw [List.mem_singleton] at hb
    subst hb
    have hstop : a.stop ≤ (p.slotFor options interference t live).offset :=
      (slotFor_behind hgb live).2 a ha hga
    have hsize := h.sized a ha
    unfold Allocation.stop at hstop ⊢
    omega
  · intro a ha
    rw [allocations_place, List.mem_append, List.mem_singleton] at ha
    rcases ha with ha | rfl
    · exact h.sized a ha
    · exact t.bytes_pos

theorem pack_firstFitted (entries : List (Tensor × LiveRange)) :
    FirstFitted options interference (pack options interference entries) := by
  refine pack_induction ⟨?_, nofun, List.Pairwise.nil, nofun⟩ (fun p t live h => h.place t live)
    entries
  intro earlier a later hsplit
  simp [empty] at hsplit

end Plan

/-- **First fit.** Among any intervals the scan finds the least aligned offset that fits, and so
    every tensor of every plan has the least offset that admits it; global tensors follow each
    other. -/
theorem Program.placed_by_first_fit :
    (∀ (busy : List (Nat × Nat)) (size alignment : Nat), 1 ≤ alignment →
      IsLeast {o | alignment ∣ o ∧ ∀ i ∈ busy, i.2 ≤ o ∨ o + size ≤ i.1}
        (Packing.firstFit busy size alignment)) ∧
    ∀ (p : Program) (options : PlanOptions) (plan : Plan), p.plan options = .ok plan →
      plan.FirstFitted options p.interference := by
  refine ⟨fun busy size alignment h => Packing.firstFit_isLeast h busy size, ?_⟩
  intro p options plan hp
  obtain ⟨table, ranges, -, -, rfl⟩ := plan_eq_ok hp
  exact Plan.pack_firstFitted _

/-- Intervals that overlap, repeat and come in no order. In the kernel `b` is live together with
    `a`, which takes the first bytes of shared memory. -/
theorem Program.placed_by_first_fit_kernel :
    Packing.firstFit [(40, 50), (0, 10), (5, 30), (5, 30)] 8 16 = 32 ∧
    Sample.kernel.plan {} = .ok Sample.placed ∧
    IsLeast {o | Plan.Admits {} Sample.kernel.interference (Sample.placed.allocations.take 5)
      (Sample.slot Sample.gathered 16 0 9) o} 16 ∧
    (Sample.slot Sample.input 0 0 9).stop ≤ (Sample.slot Sample.output 16 0 9).offset := by
  obtain ⟨hscan, hplan⟩ := placed_by_first_fit
  have hplaced := hplan Sample.kernel {} Sample.placed Sample.kernel_plan
  have hglobal := (List.pairwise_cons.1 hplaced.behind).1 (Sample.slot Sample.output 16 0 9)
    (by decide) rfl rfl
  refine ⟨?_, Sample.kernel_plan,
    hplaced.least _ (Sample.slot Sample.gathered 16 0 9) _ rfl nofun, hglobal.1⟩
  refine (hscan _ 8 16 (by decide)).unique ⟨⟨by decide, by decide⟩, ?_⟩
  rintro o ⟨⟨k, rfl⟩, hfree⟩
  have hlow := hfree (0, 10) (by decide)
  have hmiddle := hfree (5, 30) (by decide)
  omega

end TileNest
