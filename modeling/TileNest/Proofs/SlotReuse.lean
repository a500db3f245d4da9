import TileNest.Proofs.FirstFit
import TileNest.Proofs.PlanOutcome

/-
  What the reuse of slots saves. First fit is known for anomalies: fewer conflicts may give a worse
  packing. The comparison with a packing that reuses nothing has none. Wherever slots are reused or
  not, a tensor goes no higher than the aligned end of its tier (`Plan.offsetFor_le_bump`), and
  where they are not reused it goes exactly there, since the tensors below leave no aligned offset
  free (`Plan.Stacked`). So the two plans of a program, built up side by side, stay in order
  (`Plan.pack_under`), and with them the bytes that each tier needs.
-/

namespace TileNest

theorem Packing.alignUp_mono {alignment x y : Nat} (h : 0 < alignment) (hle : x ≤ y) :
    alignUp x alignment ≤ alignUp y alignment :=
  alignUp_le h (dvd_alignUp y alignment) (Nat.le_trans hle (le_alignUp y alignment h))

namespace Plan

variable {options : PlanOptions} {interference : Interference}

/-! ## The end of a tier -/

/-- The end of the last of the tensors that lies in the tier. -/
def lastStop (tier : Tier) (placed : List Allocation) : Nat :=
  ((placed.filter (·.tier == tier)).getLast?.map Allocation.stop).getD 0

theorem lastStop_concat (tier : Tier) (placed : List Allocation) (a : Allocation) :
    lastStop tier (placed ++ [a]) = if a.tier = tier then a.stop else lastStop tier placed := by
  unfold lastStop
  rw [List.filter_append, List.filter_cons, List.filter_nil]
  by_cases h : a.tier = tier
  · simp [h]
  · simp [h]

theorem footprint_place (p : Plan) (t : Tensor) (live : LiveRange) (tier : Tier) :
    (p.place options interference (t, live)).footprint tier =
      if t.tier = tier then max (p.footprint tier) (p.slotFor options interference t live).stop
      else p.footprint tier := by
  unfold footprint
  rw [allocations_place, List.filter_append, List.map_append, List.foldl_append,
    List.filter_cons, List.filter_nil]
  by_cases h : t.tier = tier
  · simp [slotFor, h]
  · simp [slotFor, h]

/-- Whatever a tensor has to avoid, the aligned end of its tier is free. -/
theorem offsetFor_le_bump (p : Plan) (t : Tensor) (live : LiveRange) :
    p.offsetFor options interference t live ≤
      Packing.alignUp (p.footprint t.tier) options.step := by
  by_cases ht : t.tier = .global
  · unfold offsetFor
    rw [ht]
  · refine (p.slotFor_least ht live).2 ⟨Packing.dvd_alignUp _ _, fun b hb hsame _ => .inl ?_⟩
    have hstop := stop_le_footprint hb
    rw [hsame] at hstop
    exact Nat.le_trans hstop (Packing.le_alignUp _ _ (step_pos options))

/-! ## Without reuse -/

/-- The tensors of each tier are piled up. Every aligned offset below the end of a tier is taken,
    the end is that of the tier's last tensor, and each tensor begins at the aligned end of the one
    before it. -/
structure Stacked (alignment : Nat) (p : Plan) : Prop where
  taken : ∀ tier o, alignment ∣ o → o < p.footprint tier →
    ∃ a ∈ p.allocations, a.tier = tier ∧ a.Holds o
  top : ∀ tier, p.footprint tier = lastStop tier p.allocations
  bumped : ∀ earlier a later, p.allocations = earlier ++ a :: later →
    a.offset = Packing.alignUp (lastStop a.tier earlier) alignment

/-- Where nothing is reused and no aligned offset is free, a tensor goes to the aligned end. -/
theorem offsetFor_eq_bump (hreuse : options.reuseSlots = false) {p : Plan}
    (h : Stacked options.step p) (t : Tensor) (live : LiveRange) :
    p.offsetFor options interference t live =
      Packing.alignUp (p.footprint t.tier) options.step := by
  refine Nat.le_antisymm (p.offsetFor_le_bump t live) ?_
  by_cases ht : t.tier = .global
  · unfold offsetFor
    rw [ht]
  obtain ⟨hd, hfree⟩ : Admits options interference p.allocations
      (p.slotFor options interference t live) (p.offsetFor options interference t live) :=
    (p.slotFor_least ht live).1
  refine Packing.alignUp_le (step_pos options) hd (Nat.le_of_not_lt fun hlt => ?_)
  obtain ⟨a, ha, htier, hlow, hhigh⟩ := h.taken t.tier _ hd hlt
  have hsize := t.bytes_pos
  rcases hfree a ha htier (.inl hreuse) with hbelow | habove
  · omega
  · simp only [slotFor] at habove hlow
    omega

/-- One more tensor on the pile. -/
theorem Stacked.place (hreuse : options.reuseSlots = false) {p : Plan}
    (h : Stacked options.step p) (t : Tensor) (live : LiveRange) :
    Stacked options.step (p.place options interference (t, live)) := by
  have hoffset : (p.slotFor options interference t live).offset =
      Packing.alignUp (p.footprint t.tier) options.step := offsetFor_eq_bump hreuse h t live
  have hend := Packing.le_alignUp (p.footprint t.tier) options.step (step_pos options)
  have hstop : (p.slotFor options interference t live).stop =
      Packing.alignUp (p.footprint t.tier) options.step + t.bytes := by
    rw [Allocation.stop, hoffset]
    rfl
  constructor
  · intro tier o hd hlt
    rw [allocations_place]
    rw [footprint_place] at hlt
    -- An offset below the old end is taken already; any other lies in the new tensor.
    by_cases hold : o < p.footprint tier
    · obtain ⟨a, ha, hheld⟩ := h.taken tier o hd hold
      exact ⟨a, List.mem_append_left _ ha, hheld⟩
    · split at hlt
      · next htier =>
        subst htier
        have hlow := Packing.alignUp_le (step_pos options) hd (Nat.le_of_not_lt hold)
        refine ⟨_, List.mem_append_right _ (List.mem_singleton_self _), rfl, ?_⟩
        unfold Allocation.Holds
        omega
      · exact absurd hlt hold
  · intro tier
    rw [footprint_place, allocations_place, lastStop_concat, tier_slotFor]
    by_cases htier : t.tier = tier
    · subst htier
      rw [if_pos rfl, if_pos rfl, hstop]
      omega
    · rw [if_neg htier, if_neg htier, h.top tier]
  · intro earlier a later hsplit
    rw [allocations_place] at hsplit
    rcases Lists.concat_eq_append_cons hsplit with ⟨later', hold⟩ | ⟨rfl, rfl⟩
    · exact h.bumped earlier a later' hold
    · rw [hoffset, h.top, tier_slotFor]

theorem pack_stacked (hreuse : options.reuseSlots = false) (entries : List (Tensor × LiveRange)) :
    Stacked options.step (pack options interference entries) := by
  refine pack_induction ⟨nofun, fun _ => rfl, ?_⟩ (fun p t live h => h.place hreuse t live) entries
  intro earlier a later hsplit
  simp [empty] at hsplit

end Plan

/-! ## The two plans of a program -/

/-- The same tensor, with the same range, at an offset that is no higher. -/
structure Allocation.Under (a b : Allocation) : Prop where
  same : { a with offset := b.offset } = b
  offset_le : a.offset ≤ b.offset

namespace Allocation.Under

variable {a b : Allocation}

theorem tier_eq (h : a.Under b) : a.tier = b.tier := by
  rw [← h.same]

theorem stop_le (h : a.Under b) : a.stop ≤ b.stop := by
  have hsize : a.size = b.size := by rw [← h.same]
  have hle := h.offset_le
  unfold stop
  omega

end Allocation.Under

namespace Plan

theorem footprint_le_iff {p : Plan} {tier : Tier} {bound : Nat} :
    p.footprint tier ≤ bound ↔ ∀ a ∈ p.allocations, a.tier = tier → a.stop ≤ bound := by
  constructor
  · rintro h a ha rfl
    exact Nat.le_trans (stop_le_footprint ha) h
  · intro h
    unfold footprint
    rcases Lists.foldl_max_mem ((p.allocations.filter (·.tier == tier)).map Allocation.stop) 0 with
      hz | hm
    · rw [hz]
      exact Nat.zero_le bound
    · obtain ⟨a, ha, hstop⟩ := List.mem_map.1 hm
      obtain ⟨ha, htier⟩ := List.mem_filter.1 ha
      rw [← hstop]
      exact h a ha (beq_iff_eq.1 htier)

theorem footprint_le_of_under {p q : Plan}
    (h : List.Forall₂ Allocation.Under p.allocations q.allocations) (tier : Tier) :
    p.footprint tier ≤ q.footprint tier := by
  refine footprint_le_iff.2 fun a ha htier => ?_
  obtain ⟨b, hb, hab⟩ := Lists.forall₂_partner h.flip ha
  have hstop := stop_le_footprint hb
  rw [← hab.tier_eq, htier] at hstop
  exact Nat.le_trans hab.stop_le hstop

variable {tight loose : PlanOptions} {interference : Interference}

/-- Packed side by side, with one alignment, the tensors with reuse stay under those without. -/
theorem pack_under (hstep : tight.step = loose.step) (hreuse : loose.reuseSlots = false)
    (entries : List (Tensor × LiveRange)) :
    List.Forall₂ Allocation.Under (pack tight interference entries).allocations
      (pack loose interference entries).allocations := by
  induction entries using List.reverseRecOn with
  | nil => exact .nil
  | append_singleton entries entry ih =>
    obtain ⟨t, live⟩ := entry
    rw [pack_concat, pack_concat, allocations_place, allocations_place]
    refine List.rel_append ih (.cons ⟨rfl, ?_⟩ .nil)
    calc (pack tight interference entries).offsetFor tight interference t live
        ≤ Packing.alignUp ((pack tight interference entries).footprint t.tier) tight.step :=
          offsetFor_le_bump _ t live
      _ ≤ Packing.alignUp ((pack loose interference entries).footprint t.tier) loose.step := by
          rw [hstep]
          exact Packing.alignUp_mono (step_pos loose) (footprint_le_of_under ih t.tier)
      _ = (pack loose interference entries).offsetFor loose interference t live :=
          (offsetFor_eq_bump hreuse (pack_stacked hreuse entries) t live).symm

/-- A plan passes the capacities where neither of the two bounded tiers exceeds its own. -/
theorem checkCapacity_eq_ok_iff {options : PlanOptions} {p q : Plan} :
    p.checkCapacity options = .ok q ↔
      q = p ∧ ¬ Exceeds options p .shared ∧ ¬ Exceeds options p .register := by
  have hverdict := checkCapacity_verdict options p
  constructor
  · intro h
    refine ⟨checkCapacity_eq_ok options h, not_or.1 fun hexceeds => ?_⟩
    obtain ⟨tier, required, capacity, hfault⟩ := hverdict.exceeded.2 hexceeds
    rw [h] at hfault
    cases hfault
  · rintro ⟨rfl, hs, hr⟩
    exact hverdict.fits hs hr

theorem not_exceeds_of_none {options : PlanOptions} {p : Plan} {tier : Tier}
    (h : options.capacity tier = none) : ¬ Exceeds options p tier := by
  rintro ⟨capacity, hc, -⟩
  rw [h] at hc
  cases hc

/-- What needs no more bytes exceeds no more capacities. -/
theorem Exceeds.mono {options options' : PlanOptions} {p q : Plan} {tier : Tier}
    (h : Exceeds options p tier) (hc : options.capacity tier = options'.capacity tier)
    (hle : p.footprint tier ≤ q.footprint tier) : Exceeds options' q tier := by
  obtain ⟨capacity, hcap, hlt⟩ := h
  exact ⟨capacity, hc ▸ hcap, Nat.lt_of_lt_of_le hlt hle⟩

end Plan

/-- The tensors of a program and their ranges do not depend on how they are packed. -/
theorem Program.exists_plan_eq_pack {p : Program} (h : Tensor.Agree p.tensors) :
    ∃ entries, ∀ options,
      p.plan options = Plan.checkCapacity options (Plan.pack options p.interference entries) := by
  obtain ⟨table, htable⟩ := TensorTable.exists_ofTensors_iff.2 h
  obtain ⟨tree, htree⟩ := p.nested_code
  obtain ⟨ranges, hranges, -⟩ := Liveness.analyze_code table tree
  rw [htree] at hranges
  exact ⟨_, plan_of_analyze htable hranges⟩

/-- **Reuse costs nothing.** With and without reuse of slots planning fails alike. Otherwise the two
    plans list the same tensors with the same ranges, with reuse no tensor lies higher and no tier
    needs more, and without it each tensor begins at the aligned end of the one before it in its
    tier. So capacities that suffice without reuse suffice with it. -/
theorem Program.reuse_costs_nothing (p : Program) (options : PlanOptions) :
    (∀ fault, p.plan { options.unbounded with reuseSlots := true } = .error fault ↔
      p.plan { options.unbounded with reuseSlots := false } = .error fault) ∧
    ∀ tight loose, p.plan { options.unbounded with reuseSlots := true } = .ok tight →
      p.plan { options.unbounded with reuseSlots := false } = .ok loose →
      List.Forall₂ Allocation.Under tight.allocations loose.allocations ∧
      (∀ tier, tight.footprint tier ≤ loose.footprint tier) ∧
      (∀ earlier a later, loose.allocations = earlier ++ a :: later → a.tier ≠ .global →
        a.offset = Packing.alignUp (Plan.lastStop a.tier earlier) (max options.alignment 1)) ∧
      ((∃ q, p.plan { options with reuseSlots := false } = .ok q) →
        p.plan { options with reuseSlots := true } = .ok tight) := by
  by_cases hagree : Tensor.Agree p.tensors
  · obtain ⟨entries, hplan⟩ := exists_plan_eq_pack hagree
    have hfits : ∀ reuse, p.plan { options.unbounded with reuseSlots := reuse } =
        .ok (Plan.pack { options with reuseSlots := reuse } p.interference entries) := by
      intro reuse
      rw [hplan, Plan.checkCapacity_eq_ok_iff]
      exact ⟨rfl, Plan.not_exceeds_of_none rfl, Plan.not_exceeds_of_none rfl⟩
    rw [hfits, hfits]
    refine ⟨fun fault => ⟨nofun, nofun⟩, fun tight loose htight hloose => ?_⟩
    cases htight
    cases hloose
    have hunder : List.Forall₂ Allocation.Under
        (Plan.pack { options with reuseSlots := true } p.interference entries).allocations
        (Plan.pack { options with reuseSlots := false } p.interference entries).allocations :=
      Plan.pack_under (by rfl) (by rfl) entries
    have hless := Plan.footprint_le_of_under hunder
    have hpile : Plan.Stacked (PlanOptions.step { options with reuseSlots := false })
        (Plan.pack { options with reuseSlots := false } p.interference entries) :=
      Plan.pack_stacked rfl entries
    refine ⟨hunder, hless, fun earlier a later hsplit _ => hpile.bumped earlier a later hsplit, ?_⟩
    rintro ⟨q, hq⟩
    rw [hplan, Plan.checkCapacity_eq_ok_iff] at hq ⊢
    obtain ⟨-, hshared, hregister⟩ := hq
    exact ⟨rfl, fun h => hshared (h.mono rfl (hless .shared)),
      fun h => hregister (h.mono rfl (hless .register))⟩
  · obtain ⟨t, ht⟩ := TensorTable.exists_firstClash hagree
    simp only [plan_of_firstClash ht]
    exact ⟨fun _ => trivial, nofun⟩

/-- With reuse the two tiles in shared memory lie at one offset, without it one behind the other.
    Shared memory of 24 bytes suffices without reuse and so with it. -/
theorem Program.reuse_costs_nothing_reread :
    Sample.rereading.plan {} = .ok (Sample.rereadPlan 0) ∧
    Sample.rereading.plan { reuseSlots := false } = .ok (Sample.rereadPlan 16) ∧
    List.Forall₂ Allocation.Under (Sample.rereadPlan 0).allocations
      (Sample.rereadPlan 16).allocations ∧
    16 = Packing.alignUp (Plan.lastStop .shared ((Sample.rereadPlan 16).allocations.take 3)) 16 ∧
    Sample.rereading.plan { sharedCapacity := some 24 } = .ok (Sample.rereadPlan 0) := by
  have hreuse := Sample.rereading_plan
  have hapart : Sample.rereading.plan { reuseSlots := false } = .ok (Sample.rereadPlan 16) := by
    decide +kernel
  obtain ⟨hunder, -, hbump, hcapacity⟩ :=
    (reuse_costs_nothing Sample.rereading { sharedCapacity := some 24 }).2 _ _ hreuse hapart
  exact ⟨hreuse, hapart, hunder, hbump _ (Sample.slot Sample.gathered 16 6 6) [] rfl nofun,
    hcapacity ⟨Sample.rereadPlan 16, by decide +kernel⟩⟩

end TileNest
