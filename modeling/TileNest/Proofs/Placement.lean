import Mathlib.Data.List.Induction
import Mathlib.Data.List.Pairwise
import TileNest.Program
import TileNest.Proofs.Lists

/-
  Where tensors are placed. First fit leaves every busy interval alone (`firstFit_avoids`), global
  tensors go behind everything that was placed, and so a plan is packed soundly: two of its
  allocations have a byte in common only where the packing was allowed to overlay them
  (`Plan.pack_permits`).

  `Program.plan_eq_ok` says what a plan that was returned is made of. Nothing here depends on how
  live ranges or conflicts are found.
-/

namespace TileNest

/-! ## First fit -/

namespace Packing

theorem le_fitFrom {alignment : Nat} (h : 0 < alignment) (size offset : Nat)
    (busy : List (Nat × Nat)) : offset ≤ fitFrom size alignment offset busy := by
  fun_induction fitFrom size alignment offset busy with
  | case1 offset => exact Nat.le_refl offset
  | case2 offset start stop busy _ ih => exact ih
  | case3 offset start stop busy _ _ => exact Nat.le_refl offset
  | case4 offset start stop busy hs _ ih =>
    have := le_alignUp stop alignment h
    omega

/-- The bytes from the offset on avoid every interval, if these come by their starts. -/
theorem fitFrom_avoids {alignment : Nat} (h : 0 < alignment) (size offset : Nat)
    {busy : List (Nat × Nat)} (hb : busy.Pairwise fun i j => i.1 ≤ j.1) :
    ∀ i ∈ busy, i.2 ≤ fitFrom size alignment offset busy ∨
      fitFrom size alignment offset busy + size ≤ i.1 := by
  fun_induction fitFrom size alignment offset busy with
  | case1 offset => simp
  | case2 offset start stop busy hs ih =>
    rw [List.pairwise_cons] at hb
    intro i hi
    rcases List.mem_cons.1 hi with rfl | hi
    · exact .inl (Nat.le_trans hs (le_fitFrom h size offset busy))
    · exact ih hb.2 i hi
  | case3 offset start stop busy _ hf =>
    rw [List.pairwise_cons] at hb
    intro i hi
    rcases List.mem_cons.1 hi with rfl | hi
    · exact .inr hf
    · exact .inr (Nat.le_trans hf (hb.1 i hi))
  | case4 offset start stop busy _ _ ih =>
    rw [List.pairwise_cons] at hb
    intro i hi
    rcases List.mem_cons.1 hi with rfl | hi
    · have hstop : stop ≤ alignUp stop alignment := le_alignUp stop alignment h
      exact .inl (Nat.le_trans hstop (le_fitFrom h size _ busy))
    · exact ih hb.2 i hi

theorem before_iff (i j : Nat × Nat) :
    before i j = true ↔ i.1 < j.1 ∨ i.1 = j.1 ∧ i.2 ≤ j.2 := by
  simp [before]

theorem pairwise_mergeSort_before (busy : List (Nat × Nat)) :
    (busy.mergeSort before).Pairwise fun i j => i.1 ≤ j.1 := by
  have htrans : ∀ i j k, before i j = true → before j k = true → before i k = true := by
    intro i j k
    rw [before_iff, before_iff, before_iff]
    omega
  have htotal : ∀ i j, (before i j || before j i) = true := by
    intro i j
    rw [Bool.or_eq_true, before_iff, before_iff]
    omega
  refine (List.pairwise_mergeSort htrans htotal busy).imp fun {i j} h => ?_
  rw [before_iff] at h
  omega

/-- First fit avoids every busy interval, however these lie to each other. -/
theorem firstFit_avoids {alignment : Nat} (h : 0 < alignment) (size : Nat)
    {busy : List (Nat × Nat)} {i : Nat × Nat} (hi : i ∈ busy) :
    i.2 ≤ firstFit busy size alignment ∨ firstFit busy size alignment + size ≤ i.1 :=
  fitFrom_avoids h size 0 (pairwise_mergeSort_before busy) i (List.mem_mergeSort.2 hi)

end Packing

/-! ## Overlaid allocations -/

namespace Allocation

/-- The byte lies in the tensor's place. -/
def Holds (a : Allocation) (byte : Nat) : Prop := a.offset ≤ byte ∧ byte < a.stop

/-- The two places have a byte in common. -/
def Shares (a b : Allocation) : Prop := ∃ byte, a.Holds byte ∧ b.Holds byte

theorem Shares.symm {a b : Allocation} (h : a.Shares b) : b.Shares a := by
  obtain ⟨byte, ha, hb⟩ := h
  exact ⟨byte, hb, ha⟩

/-- One place after the other shares nothing. -/
theorem not_shares {a b : Allocation} (h : a.stop ≤ b.offset ∨ b.stop ≤ a.offset) :
    ¬ a.Shares b := by
  rintro ⟨byte, ha, hb⟩
  unfold Holds at ha hb
  omega

end Allocation

theorem LiveRange.overlaps_comm (r s : LiveRange) : r.overlaps s = s.overlaps r := by
  unfold overlaps
  exact Bool.and_comm _ _

theorem Interference.conflicts_comm (i : Interference) (a b : String) :
    i.conflicts a b = i.conflicts b a := by
  unfold conflicts
  exact Bool.or_comm _ _

namespace Plan

/-- The two tensors may be overlaid: slots of their tier are reused, and neither their live ranges
    nor the interference keeps them apart. -/
structure Permits (options : PlanOptions) (interference : Interference) (a b : Allocation) :
    Prop where
  tier : a.tier ≠ .global
  reuse : options.reuseSlots = true
  apart : a.live.overlaps b.live = false
  quiet : interference.conflicts a.name b.name = false

/-- Tensors of one tier are overlaid only where that is permitted. -/
def Respects (options : PlanOptions) (interference : Interference) (a b : Allocation) : Prop :=
  a.tier = b.tier → a.Shares b → Permits options interference a b

variable {options : PlanOptions} {interference : Interference}

theorem Respects.symm {a b : Allocation} (h : Respects options interference a b) :
    Respects options interference b a := by
  intro ht hs
  have hp := h ht.symm hs.symm
  exact ⟨ht ▸ hp.tier, hp.reuse, by rw [LiveRange.overlaps_comm, hp.apart],
    by rw [Interference.conflicts_comm, hp.quiet]⟩

instance : Std.Symm (Respects options interference) := ⟨fun _ _ => Respects.symm⟩

theorem step_pos (options : PlanOptions) : 0 < options.step := by
  unfold PlanOptions.step
  omega

theorem stop_le_footprint {p : Plan} {a : Allocation} (h : a ∈ p.allocations) :
    a.stop ≤ p.footprint a.tier := by
  unfold footprint
  refine (Lists.le_foldl_max _ 0).2 _ (List.mem_map.2 ⟨a, List.mem_filter.2 ⟨h, ?_⟩, rfl⟩)
  exact beq_self_eq_true a.tier

/-- A global tensor goes behind all that were placed. -/
theorem stop_le_offsetFor_global {p : Plan} {a : Allocation} (h : a ∈ p.allocations) {t : Tensor}
    (ht : t.tier = .global) (ha : a.tier = .global) (live : LiveRange) :
    a.stop ≤ p.offsetFor options interference t live := by
  have hfit := stop_le_footprint h
  rw [ha] at hfit
  unfold offsetFor
  rw [ht]
  exact Nat.le_trans hfit (Packing.le_alignUp _ _ (step_pos options))

/-- Any other tensor avoids its rivals. -/
theorem offsetFor_avoids {p : Plan} {t : Tensor} {live : LiveRange} {a : Allocation}
    (ht : t.tier ≠ .global) (h : a ∈ p.rivals options interference t live) :
    a.stop ≤ p.offsetFor options interference t live ∨
      p.offsetFor options interference t live + t.bytes ≤ a.offset := by
  have hbusy : (a.offset, a.stop) ∈
      (p.rivals options interference t live).map fun a => (a.offset, a.stop) :=
    List.mem_map_of_mem h
  have hfit := Packing.firstFit_avoids (step_pos options) t.bytes hbusy
  unfold offsetFor
  cases hk : t.tier with
  | global => exact absurd hk ht
  | shared => exact hfit
  | register => exact hfit

/-- The allocation that a tensor with a live range gets. -/
def slotFor (options : PlanOptions) (interference : Interference) (p : Plan) (t : Tensor)
    (live : LiveRange) : Allocation :=
  ⟨t.name, t.tier, t.dtype, t.shape, p.offsetFor options interference t live, t.bytes, live⟩

@[simp] theorem tier_slotFor (p : Plan) (t : Tensor) (live : LiveRange) :
    (p.slotFor options interference t live).tier = t.tier := rfl

theorem allocations_place (p : Plan) (t : Tensor) (live : LiveRange) :
    (p.place options interference (t, live)).allocations =
      p.allocations ++ [p.slotFor options interference t live] := rfl

theorem pack_concat (entries : List (Tensor × LiveRange)) (entry : Tensor × LiveRange) :
    pack options interference (entries ++ [entry]) =
      (pack options interference entries).place options interference entry := by
  rw [pack, List.foldl_append]
  rfl

/-- What holds of no tensors and stays when one more is placed holds of every packing. -/
theorem pack_induction {P : Plan → Prop} (empty : P .empty)
    (place : ∀ p t live, P p → P (p.place options interference (t, live)))
    (entries : List (Tensor × LiveRange)) : P (pack options interference entries) := by
  induction entries using List.reverseRecOn with
  | nil => exact empty
  | append_singleton entries entry ih =>
    rw [pack_concat]
    exact place _ entry.1 entry.2 ih

/-- What the next tensor does to an earlier one of the plan. -/
theorem place_respects {p : Plan} {t : Tensor} {live : LiveRange} {a : Allocation}
    (h : a ∈ p.allocations) :
    Respects options interference a (p.slotFor options interference t live) := by
  intro ht hs
  by_cases hg : t.tier = .global
  · exact absurd hs
      (Allocation.not_shares (.inl (stop_le_offsetFor_global h hg (ht.trans hg) live)))
  by_cases hr : a ∈ p.rivals options interference t live
  · exact absurd hs (Allocation.not_shares (offsetFor_avoids hg hr))
  -- Not a rival, although of the same tier: none of the three reasons to keep apart holds.
  have hfree : ¬ (!options.reuseSlots || a.live.overlaps live ||
      interference.conflicts a.name t.name) = true := by
    intro hc
    refine hr (List.mem_filter.2 ⟨h, ?_⟩)
    rw [Interference.contains_foes, Bool.and_eq_true]
    exact ⟨beq_iff_eq.2 ht, hc⟩
  simp only [Bool.or_eq_true, Bool.not_eq_true', not_or, Bool.not_eq_false,
    Bool.not_eq_true] at hfree
  exact ⟨fun e => hg (ht.symm.trans e), hfree.1.1, hfree.1.2, hfree.2⟩

theorem pairwise_place {p : Plan} (h : p.allocations.Pairwise (Respects options interference))
    (t : Tensor) (live : LiveRange) :
    (p.place options interference (t, live)).allocations.Pairwise
      (Respects options interference) := by
  rw [allocations_place, List.pairwise_append]
  refine ⟨h, List.pairwise_singleton _ _, fun a ha b hb => ?_⟩
  rw [List.mem_singleton] at hb
  exact hb ▸ place_respects ha

theorem pairwise_pack (entries : List (Tensor × LiveRange)) :
    (pack options interference entries).allocations.Pairwise (Respects options interference) :=
  pack_induction (P := fun p => p.allocations.Pairwise (Respects options interference))
    List.Pairwise.nil (fun _ t live h => pairwise_place h t live) entries

/-- Two tensors of one tier have a byte in common only where they may be overlaid. -/
theorem pack_permits {entries : List (Tensor × LiveRange)} {a b : Allocation}
    (ha : a ∈ (pack options interference entries).allocations)
    (hb : b ∈ (pack options interference entries).allocations) (hne : a ≠ b)
    (ht : a.tier = b.tier) (hs : a.Shares b) : Permits options interference a b :=
  (pairwise_pack entries).forall ha hb hne ht hs

/-- The allocations are those of the entries, with their names and live ranges. -/
theorem pack_entries (entries : List (Tensor × LiveRange)) :
    (pack options interference entries).allocations.map (fun a => (a.name, a.live)) =
      entries.map fun e => (e.1.name, e.2) := by
  induction entries using List.reverseRecOn with
  | nil => rfl
  | append_singleton entries entry ih =>
    rw [pack_concat, List.map_append, ← ih]
    exact List.map_append

/-- The index leads to allocations by their names, and from every name to one of them. -/
structure Indexed (p : Plan) : Prop where
  leads : ∀ x i, p.index.get? x = some i → p.allocations[i]?.map Allocation.name = some x
  known : ∀ a ∈ p.allocations, ∃ i, p.index.get? a.name = some i

theorem Indexed.push {p : Plan} (h : p.Indexed) (a : Allocation) : (p.push a).Indexed := by
  constructor
  · intro x i hi
    by_cases hx : x = a.name
    · subst hx
      cases (KeyMap.get?_insert_self _ _ _).symm.trans hi
      rw [Plan.push, List.getElem?_concat_length]
      rfl
    · have hi : p.index.get? x = some i := (KeyMap.get?_insert_of_ne _ hx _).symm.trans hi
      obtain ⟨b, hb, hname⟩ := Option.map_eq_some_iff.1 (h.leads x i hi)
      have hlt := (List.getElem?_eq_some_iff.1 hb).1
      rw [Plan.push, List.getElem?_append_left hlt, hb, Option.map_some, hname]
  · intro b hb
    by_cases hname : b.name = a.name
    · rw [hname]
      exact ⟨_, KeyMap.get?_insert_self _ _ _⟩
    · rcases List.mem_append.1 hb with hb | hb
      · obtain ⟨i, hi⟩ := h.known b hb
        exact ⟨i, (KeyMap.get?_insert_of_ne _ hname _).trans hi⟩
      · exact absurd (congrArg Allocation.name (List.mem_singleton.1 hb)) hname

theorem pack_indexed (entries : List (Tensor × LiveRange)) :
    (pack options interference entries).Indexed := by
  refine pack_induction ?_ (fun _ _ _ h => h.push _) entries
  exact ⟨fun _ _ hi => (by cases hi), fun _ ha => absurd ha List.not_mem_nil⟩

theorem Indexed.mem_of_get? {p : Plan} (hp : p.Indexed) {x : String} {a : Allocation}
    (h : p.get? x = some a) : a ∈ p.allocations ∧ a.name = x := by
  obtain ⟨i, hi, ha⟩ := Option.bind_eq_some_iff.1 h
  have hname := hp.leads x i hi
  rw [ha] at hname
  exact ⟨List.mem_of_getElem? ha, Option.some.inj hname⟩

theorem Indexed.exists_get? {p : Plan} (hp : p.Indexed) {b : Allocation} (hb : b ∈ p.allocations) :
    ∃ a, p.get? b.name = some a := by
  obtain ⟨i, hi⟩ := hp.known b hb
  obtain ⟨a, ha, -⟩ := Option.map_eq_some_iff.1 (hp.leads _ i hi)
  exact ⟨a, Option.bind_eq_some_iff.2 ⟨i, hi, ha⟩⟩

/-- A tensor of the entries is found in the plan, with the live range of an entry. -/
theorem get?_pack {entries : List (Tensor × LiveRange)} {t : Tensor} {r : LiveRange}
    (h : (t, r) ∈ entries) :
    ∃ a, (pack options interference entries).get? t.name = some a ∧
      ∃ u, (u, a.live) ∈ entries ∧ u.name = t.name := by
  have hplaced : (t.name, r) ∈
      (pack options interference entries).allocations.map fun a => (a.name, a.live) := by
    rw [pack_entries]
    exact List.mem_map.2 ⟨(t, r), h, rfl⟩
  obtain ⟨b, hb, hname⟩ := List.mem_map.1 hplaced
  obtain ⟨a, ha⟩ := (pack_indexed entries).exists_get? hb
  rw [(Prod.mk.inj hname).1] at ha
  obtain ⟨hm, hn⟩ := (pack_indexed entries).mem_of_get? ha
  have hentry : (a.name, a.live) ∈ entries.map fun e => (e.1.name, e.2) := by
    rw [← pack_entries]
    exact List.mem_map_of_mem hm
  obtain ⟨⟨u, live⟩, he, heq⟩ := List.mem_map.1 hentry
  obtain ⟨hu, rfl⟩ := Prod.mk.inj heq
  exact ⟨a, ha, u, he, hu.trans hn⟩

end Plan

/-! ## Plans that are returned -/

/-- No name stands for two of the tensors. -/
def Tensor.Agree (tensors : List Tensor) : Prop :=
  ∀ a ∈ tensors, ∀ b ∈ tensors, a.name = b.name → a = b

namespace TensorTable

variable {table : TensorTable} {tensors : List Tensor} {t : Tensor}

theorem name_of_get? {x : String} (h : table.get? x = some t) : t.name = x := by
  have hfound := List.find?_some h
  exact beq_iff_eq.1 hfound

/-- Among tensors that agree, each is found under its name. -/
theorem get?_of_agree (h : Tensor.Agree tensors) (ht : t ∈ tensors) :
    TensorTable.get? tensors t.name = some t := by
  obtain ⟨u, hu⟩ : ∃ u, TensorTable.get? tensors t.name = some u := by
    rw [← Option.isSome_iff_exists, TensorTable.get?, List.find?_isSome]
    exact ⟨t, ht, beq_self_eq_true t.name⟩
  rw [hu, h u (List.mem_of_find?_eq_some hu) t ht (name_of_get? hu)]

/-- Tensors that a table has under their names agree. -/
theorem agree_of_get? (h : ∀ t ∈ tensors, table.get? t.name = some t) : Tensor.Agree tensors := by
  intro a ha b hb hab
  have hsame := h a ha
  rw [hab, h b hb] at hsame
  exact (Option.some.inj hsame).symm

/-- The tensors that a plan covers, where no name stands for two of them. -/
theorem ofTensors_eq_ok (h : ofTensors tensors = .ok table) :
    table = tensors.eraseDups ∧ Tensor.Agree tensors := by
  unfold ofTensors at h
  split at h
  · cases h
  · next hf =>
    cases h
    have hget : ∀ t ∈ tensors, TensorTable.get? tensors t.name = some t := by
      intro t ht
      simpa using List.find?_eq_none.1 hf t ht
    exact ⟨rfl, agree_of_get? hget⟩

end TensorTable

theorem Plan.checkCapacity_eq_ok (options : PlanOptions) {p q : Plan}
    (h : p.checkCapacity options = .ok q) : q = p := by
  unfold checkCapacity at h
  cases hs : p.checkTier options .shared with
  | error fault => simp [hs, bind, Except.bind] at h
  | ok u =>
    cases hr : p.checkTier options .register with
    | error fault => simp [hs, hr, bind, Except.bind] at h
    | ok u =>
      simp only [hs, hr, bind, Except.bind, pure, Except.pure, Except.ok.injEq] at h
      exact h.symm

namespace Program

/-- The capacities are compared with the packing of the tensors. -/
theorem plan_of_analyze {p : Program} {table : TensorTable} {ranges : LiveRanges}
    (ht : TensorTable.ofTensors p.tensors = .ok table)
    (hr : Liveness.analyze table p.code = .ok ranges) (options : PlanOptions) :
    p.plan options = Plan.checkCapacity options (Plan.pack options p.interference
      (Plan.declared table (Plan.keepOutputs p.interference ranges) (Plan.wholeRange p.code))) := by
  simp [Program.plan, ht, layout, hr, bind, Except.bind, Except.map]

/-- A plan that is returned packs the tensors of the hierarchy with the ranges of its schedule. -/
theorem plan_eq_ok {p : Program} {options : PlanOptions} {plan : Plan}
    (h : p.plan options = .ok plan) :
    ∃ table ranges, TensorTable.ofTensors p.tensors = .ok table ∧
      Liveness.analyze table p.code = .ok ranges ∧
      plan = Plan.pack options p.interference (Plan.declared table
        (Plan.keepOutputs p.interference ranges) (Plan.wholeRange p.code)) := by
  cases ht : TensorTable.ofTensors p.tensors with
  | error fault => simp [Program.plan, ht, bind, Except.bind] at h
  | ok table =>
    cases hr : Liveness.analyze table p.code with
    | error fault =>
      simp [Program.plan, ht, layout, hr, bind, Except.bind, Except.map] at h
    | ok ranges =>
      rw [plan_of_analyze ht hr] at h
      exact ⟨table, ranges, rfl, hr, Plan.checkCapacity_eq_ok options h⟩

theorem plan_indexed {p : Program} {options : PlanOptions} {plan : Plan}
    (h : p.plan options = .ok plan) : plan.Indexed := by
  obtain ⟨table, ranges, -, -, rfl⟩ := plan_eq_ok h
  exact Plan.pack_indexed _

end Program

end TileNest
