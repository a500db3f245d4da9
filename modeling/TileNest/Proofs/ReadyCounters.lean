import Mathlib.Data.List.Count
import TileNest.Proofs.Ordering

/-
  The counters of `Order.sort`. While positions are taken, the counter of a position is the number
  of arrows that lead to it from positions that still wait, repeated arrows included, and what is
  ready is what waits with a counter of zero (`Order.Tracks`). One release keeps this for the
  releases that are left (`Tracks.release`), so taking a position with all its releases leads from
  the state of some waiting positions to that of one position less (`Tracks.take`).

  Main result: `Order.sort_eq`. The loop takes the positions in the order of `Order.leastFirst`,
  ends with nothing ready, and the counters above zero are those of the positions that are left.
-/

namespace TileNest.Order

variable {arrows : List Arrow} {count : Nat}

/-! ## Ascending lists -/

/-- Ascending lists with the same members are the same. -/
theorem eq_of_ascending {xs ys : List Nat} (hx : xs.Pairwise (· < ·)) (hy : ys.Pairwise (· < ·))
    (h : ∀ i, i ∈ xs ↔ i ∈ ys) : xs = ys := by
  have hperm : xs.Perm ys :=
    (List.perm_ext_iff_of_nodup (hx.imp Nat.ne_of_lt) (hy.imp Nat.ne_of_lt)).2 h
  exact hperm.eq_of_pairwise (fun a b _ _ hab hba => absurd hab (Nat.lt_asymm hba)) hx hy

theorem mem_insert {position i : Nat} {xs : List Nat} :
    i ∈ insert position xs ↔ i = position ∨ i ∈ xs := by
  induction xs with
  | nil => simp [insert]
  | cons first rest ih =>
    rw [insert]
    split
    · simp
    · split
      · next h => simp [h]
      · simp only [List.mem_cons, ih]
        tauto

theorem pairwise_insert {position : Nat} {xs : List Nat} (h : xs.Pairwise (· < ·)) :
    (insert position xs).Pairwise (· < ·) := by
  induction xs with
  | nil => exact List.pairwise_singleton _ _
  | cons first rest ih =>
    obtain ⟨hfirst, hrest⟩ := List.pairwise_cons.1 h
    rw [insert]
    split
    · next hlt =>
      refine List.pairwise_cons.2 ⟨fun i hi => ?_, h⟩
      rcases List.mem_cons.1 hi with rfl | hi
      · exact hlt
      · exact Nat.lt_trans hlt (hfirst i hi)
    · split
      · exact h
      · next hge hne =>
        refine List.pairwise_cons.2 ⟨fun i hi => ?_, ih hrest⟩
        rcases mem_insert.1 hi with rfl | hi
        · omega
        · exact hfirst i hi

/-! ## Successors and counters -/

/-- The number of arrows that lead to a position from the waiting ones. -/
def pending (arrows : List Arrow) (waiting : List Nat) (position : Nat) : Nat :=
  arrows.countP fun a => a.target = position ∧ a.source ∈ waiting

theorem pending_eq_zero_iff {waiting : List Nat} {i : Nat} :
    pending arrows waiting i = 0 ↔ ready arrows waiting i = true := by
  rw [ready_iff, pending, List.countP_eq_zero]
  simp

/-- The number of arrows from one position to another. -/
def between (arrows : List Arrow) (source target : Nat) : Nat :=
  arrows.countP fun a => a.target = target ∧ a.source = source

/-- What is pending without a position is less by the arrows from it. -/
theorem pending_erase {waiting : List Nat} (hn : waiting.Nodup) {p : Nat} (hp : p ∈ waiting)
    (i : Nat) :
    pending arrows waiting i = pending arrows (waiting.erase p) i + between arrows p i := by
  unfold pending between
  induction arrows with
  | nil => rfl
  | cons a arrows ih =>
    have hmem : a.source ∈ waiting.erase p ↔ a.source ≠ p ∧ a.source ∈ waiting := hn.mem_erase_iff
    simp only [List.countP_cons, ih, hmem]
    by_cases ht : a.target = i
    · by_cases hs : a.source = p
      · simp [ht, hs, hp, Nat.add_assoc]
      · simp [ht, hs, Nat.add_right_comm]
    · simp [ht]

theorem getElem?_inDegrees (arrows : List Arrow) (count i : Nat) :
    (inDegrees count arrows)[i]? =
      if i < count then some (arrows.countP (·.target == i)) else none := by
  have hfold : ∀ counters : List Nat,
      (arrows.foldl (fun counters a => counters.modify a.target (· + 1)) counters)[i]? =
        counters[i]?.map (· + arrows.countP (·.target == i)) := by
    induction arrows with
    | nil => simp
    | cons a arrows ih =>
      intro counters
      rw [List.foldl_cons, ih, List.getElem?_modify]
      cases counters[i]? with
      | none => simp
      | some n =>
        by_cases h : a.target = i
        · simp [h]
          omega
        · simp [h]
  rw [inDegrees, hfold, List.getElem?_replicate]
  split <;> simp

theorem getElem?_successors (arrows : List Arrow) (count p : Nat) :
    (successors count arrows)[p]? =
      if p < count then some ((arrows.filter (·.source == p)).map Arrow.target) else none := by
  have hfold : ∀ lists : List (List Nat),
      (arrows.foldl (fun lists a => lists.modify a.source (· ++ [a.target])) lists)[p]? =
        lists[p]?.map (· ++ (arrows.filter (·.source == p)).map Arrow.target) := by
    induction arrows with
    | nil => simp
    | cons a arrows ih =>
      intro lists
      rw [List.foldl_cons, ih, List.getElem?_modify]
      cases lists[p]? with
      | none => simp
      | some xs =>
        by_cases h : a.source = p
        · simp [h]
        · simp [h]
  rw [successors, hfold, List.getElem?_replicate]
  split <;> simp

theorem mem_successors_iff {p next : Nat} (hp : p < count) :
    next ∈ (successors count arrows).getD p [] ↔ Leads arrows p next := by
  rw [List.getD_eq_getElem?_getD, getElem?_successors, if_pos hp, Option.getD_some, List.mem_map]
  constructor
  · rintro ⟨a, ha, rfl⟩
    obtain ⟨ha, hs⟩ := List.mem_filter.1 ha
    rw [Leads, ← beq_iff_eq.1 hs]
    exact ha
  · intro h
    exact ⟨⟨p, next⟩, List.mem_filter.2 ⟨h, beq_self_eq_true p⟩, rfl⟩

theorem count_successors {p : Nat} (hp : p < count) (i : Nat) :
    ((successors count arrows).getD p []).count i = between arrows p i := by
  rw [List.getD_eq_getElem?_getD, getElem?_successors, if_pos hp, Option.getD_some, List.count,
    List.countP_map, List.countP_filter, between]
  exact List.countP_congr fun a _ => by simp

/-! ## What the loop keeps -/

/-- Positions that wait: in ascending order, below the number of all, and such that arrows from them
    lead only to others of them. -/
structure Waiting (arrows : List Arrow) (count : Nat) (waiting : List Nat) : Prop where
  ascending : waiting.Pairwise (· < ·)
  below : ∀ i ∈ waiting, i < count
  onward : ∀ i j, Leads arrows i j → i ∈ waiting → j ∈ waiting

theorem Waiting.nodup {waiting : List Nat} (h : Waiting arrows count waiting) : waiting.Nodup :=
  h.ascending.imp Nat.ne_of_lt

/-- Nothing that waits leads to a position that is ready. -/
theorem Waiting.erase {waiting : List Nat} (h : Waiting arrows count waiting) {p : Nat}
    (hp : ready arrows waiting p = true) : Waiting arrows count (waiting.erase p) where
  ascending := h.ascending.sublist List.erase_sublist
  below i hi := h.below i (List.mem_of_mem_erase hi)
  onward i j ha hi := by
    have hw := List.mem_of_mem_erase hi
    have hne : j ≠ p := fun he => ready_iff.1 hp ⟨i, j⟩ ha he hw
    exact (List.mem_erase_of_ne hne).2 (h.onward i j ha hw)

/-- The state while the positions of `rest` are still to be released: a counter is what is pending
    and the releases to come, and what is ready is what waits with a counter of zero. -/
structure Tracks (arrows : List Arrow) (count : Nat) (waiting rest : List Nat) (s : State) :
    Prop where
  counters : ∀ i, s.counters[i]? =
    if i < count then some (pending arrows waiting i + rest.count i) else none
  ready : s.ready = waiting.filter fun i => s.counters[i]? = some 0

namespace Tracks

variable {waiting rest : List Nat} {s : State}

theorem counter (h : Tracks arrows count waiting rest s) {i : Nat} (hi : i < count) :
    s.counters[i]? = some (pending arrows waiting i + rest.count i) := by
  rw [h.counters, if_pos hi]

theorem length_counters (h : Tracks arrows count waiting rest s) : s.counters.length = count := by
  apply Nat.le_antisymm
  · rw [← List.getElem?_eq_none_iff, h.counters, if_neg (Nat.lt_irrefl count)]
  · by_contra hlt
    have hnone := List.getElem?_eq_none (Nat.le_refl s.counters.length)
    rw [h.counter (Nat.lt_of_not_le hlt)] at hnone
    cases hnone

theorem counters_release {next : Nat} (h : Tracks arrows count waiting (next :: rest) s) (i : Nat) :
    (Order.release s next).counters[i]? =
      if i < count then some (pending arrows waiting i + rest.count i) else none := by
  rw [Order.release, List.getElem?_modify, h.counters]
  by_cases hi : i < count
  · by_cases he : next = i
    · simp [hi, he]
    · simp [hi, he]
  · simp [hi]

theorem ready_release (s : State) (next : Nat) :
    (Order.release s next).ready =
      if (Order.release s next).counters[next]? = some 0 then insert next s.ready else s.ready :=
  rfl

/-- After a release those are ready that wait and whose counter is zero. The counter that is lowered
    counts the release, so it is above zero before. -/
theorem mem_ready_release {next : Nat} (h : Tracks arrows count waiting (next :: rest) s)
    (hw : Waiting arrows count waiting) (hn : next ∈ waiting) (i : Nat) :
    i ∈ (Order.release s next).ready ↔
      i ∈ waiting ∧ (Order.release s next).counters[i]? = some 0 := by
  rw [ready_release]
  by_cases he : i = next
  · subst he
    have hpositive : s.counters[i]? ≠ some 0 := by
      rw [h.counter (hw.below i hn), List.count_cons_self]
      simp
    have hout : i ∉ s.ready := by
      rw [h.ready, List.mem_filter]
      simp [hpositive]
    split
    · next hzero => simp [mem_insert, hn, hzero]
    · next hzero => simp [hout, hzero]
  · have hsame : i ∈ s.ready ↔ i ∈ waiting ∧ (Order.release s next).counters[i]? = some 0 := by
      rw [h.ready, List.mem_filter, decide_eq_true_iff, h.counters_release, h.counters,
        List.count_cons_of_ne (Ne.symm he)]
    split
    · simp [mem_insert, he, hsame]
    · exact hsame

/-- One release. -/
theorem release {next : Nat} (h : Tracks arrows count waiting (next :: rest) s)
    (hw : Waiting arrows count waiting) (hn : next ∈ waiting) :
    Tracks arrows count waiting rest (Order.release s next) := by
  refine ⟨h.counters_release, ?_⟩
  have hsorted : s.ready.Pairwise (· < ·) := h.ready ▸ hw.ascending.filter _
  apply eq_of_ascending _ (hw.ascending.filter _)
  · intro i
    rw [h.mem_ready_release hw hn, List.mem_filter, decide_eq_true_iff]
  · rw [ready_release]
    split
    · exact pairwise_insert hsorted
    · exact hsorted

theorem releases (h : Tracks arrows count waiting rest s) (hw : Waiting arrows count waiting)
    (hrest : ∀ next ∈ rest, next ∈ waiting) :
    Tracks arrows count waiting [] (rest.foldl Order.release s) := by
  induction rest generalizing s with
  | nil => exact h
  | cons next rest ih =>
    rw [List.forall_mem_cons] at hrest
    exact ih (h.release hw hrest.1) hrest.2

/-- What is ready for the counters is ready, in the same order. -/
theorem ready_eq (h : Tracks arrows count waiting [] s) (hw : Waiting arrows count waiting) :
    s.ready = waiting.filter (Order.ready arrows waiting) := by
  rw [h.ready]
  refine List.filter_congr fun i hi => ?_
  rw [Bool.eq_iff_iff, decide_eq_true_iff, h.counter (hw.below i hi), ← pending_eq_zero_iff]
  simp

/-- Taking a position: all its releases lead to the state without it. -/
theorem take {p : Nat} {others : List Nat} (h : Tracks arrows count waiting [] s)
    (hw : Waiting arrows count waiting) (hr : s.ready = p :: others) (taken : List Nat) :
    Tracks arrows count (waiting.erase p) [] (((successors count arrows).getD p []).foldl
      Order.release ⟨s.counters, others, taken⟩) := by
  have hmem : p ∈ waiting.filter (Order.ready arrows waiting) := by
    rw [← h.ready_eq hw, hr]
    exact List.mem_cons_self
  obtain ⟨hp, hready⟩ := List.mem_filter.1 hmem
  have hpc := hw.below p hp
  have hnext : ∀ next ∈ (successors count arrows).getD p [], next ∈ waiting.erase p := by
    intro next hn
    have ha := (mem_successors_iff hpc).1 hn
    have hne : next ≠ p := fun he => ready_iff.1 hready ⟨p, next⟩ ha he hp
    exact (List.mem_erase_of_ne hne).2 (hw.onward p next ha hp)
  refine releases ⟨fun i => ?_, ?_⟩ (hw.erase hready) hnext
  · rw [h.counters, pending_erase hw.nodup hp, count_successors hpc, List.count_nil, Nat.add_zero]
  · have hothers : (s.ready.erase p) = others := by rw [hr, List.erase_cons_head]
    rw [← hothers, h.ready]
    exact List.erase_filter ..

end Tracks

/-! ## The loop -/

theorem taken_releases (rest : List Nat) (s : State) :
    (rest.foldl release s).taken = s.taken := by
  induction rest generalizing s with
  | nil => rfl
  | cons next rest ih => exact ih (release s next)

/-- The next position is the first one that waits and is ready. -/
theorem Tracks.find? {waiting : List Nat} {s : State} (h : Tracks arrows count waiting [] s)
    (hw : Waiting arrows count waiting) :
    waiting.find? (Order.ready arrows waiting) = s.ready.head? := by
  rw [h.ready_eq hw, List.head?_filter]

/-- The loop takes what `takeReady` takes, and keeps track of what that leaves. -/
theorem drain_tracks (steps : Nat) {waiting : List Nat} {s : State}
    (h : Tracks arrows count waiting [] s) (hw : Waiting arrows count waiting) :
    (drain (successors count arrows) steps s).taken =
      s.taken ++ (takeReady arrows steps waiting).1 ∧
    Tracks arrows count (takeReady arrows steps waiting).2 []
      (drain (successors count arrows) steps s) ∧
    Waiting arrows count (takeReady arrows steps waiting).2 := by
  induction steps generalizing waiting s with
  | zero => exact ⟨(List.append_nil _).symm, h, hw⟩
  | succ steps ih =>
    have hfind := h.find? hw
    rw [takeReady, drain]
    cases hr : s.ready with
    | nil =>
      rw [hr, List.head?_nil] at hfind
      rw [hfind]
      exact ⟨(List.append_nil _).symm, h, hw⟩
    | cons p others =>
      rw [hr, List.head?_cons] at hfind
      rw [hfind]
      have hready := List.find?_some hfind
      obtain ⟨htaken, htracks, hwaiting⟩ := ih (h.take hw hr (s.taken ++ [p])) (hw.erase hready)
      refine ⟨?_, htracks, hwaiting⟩
      rw [htaken, taken_releases, List.append_assoc]
      rfl

/-- A counter is above zero exactly for the waiting positions that are not ready: arrows to any
    other position come from none that waits. -/
theorem Tracks.counter_pos_iff {waiting : List Nat} {s : State}
    (h : Tracks arrows count waiting [] s) (hw : Waiting arrows count waiting) {i : Nat} :
    0 < s.counters.getD i 0 ↔ i ∈ waiting ∧ Order.ready arrows waiting i = false := by
  rw [← Bool.not_eq_true, ← pending_eq_zero_iff, List.getD_eq_getElem?_getD]
  by_cases hi : i < count
  · rw [h.counter hi, Option.getD_some, List.count_nil, Nat.add_zero, Nat.pos_iff_ne_zero]
    refine ⟨fun hp => ⟨?_, hp⟩, fun hp => hp.2⟩
    by_contra hout
    refine hp (pending_eq_zero_iff.2 (ready_iff.2 fun a ha ht hs => hout ?_))
    exact ht ▸ hw.onward a.source a.target ha hs
  · rw [h.counters, if_neg hi]
    exact ⟨fun hp => absurd hp (Nat.lt_irrefl 0), fun hp => absurd (hw.below i hp.1) hi⟩

section

variable (hends : ∀ a ∈ arrows, a.source < count ∧ a.target < count)

include hends

theorem waiting_range : Waiting arrows count (List.range count) where
  ascending := List.pairwise_lt_range
  below _ hi := List.mem_range.1 hi
  onward i j ha _ := List.mem_range.2 (hends ⟨i, j⟩ ha).2

theorem tracks_start : Tracks arrows count (List.range count) [] (start count arrows) := by
  refine ⟨fun i => ?_, rfl⟩
  have hpending : pending arrows (List.range count) i = arrows.countP (·.target == i) := by
    refine List.countP_congr fun a ha => ?_
    simp [(hends a ha).1]
  rw [start, getElem?_inDegrees, hpending]
  rfl

/-- The loop takes the positions in the least order in which arrows go forward and then has nothing
    ready. Its counters are above zero for the positions that are left. -/
theorem sort_eq :
    (sort count arrows).taken = (leastFirst count arrows).1 ∧
    (sort count arrows).held = (leastFirst count arrows).2 ∧
    (sort count arrows).ready = [] := by
  obtain ⟨htaken, htracks, hwaiting⟩ :=
    drain_tracks count (tracks_start hends) (waiting_range hends)
  have hstuck : ∀ i ∈ (leastFirst count arrows).2,
      ready arrows (leastFirst count arrows).2 i = false := by
    intro i hi
    have hlen : (List.range count).length ≤ count := by rw [List.length_range]
    obtain ⟨j, hj, ha⟩ := takeReady_stuck hlen hi
    exact Bool.eq_false_iff.2 fun hready => ready_iff.1 hready ⟨j, i⟩ ha rfl hj
  refine ⟨htaken, ?_, ?_⟩
  · apply eq_of_ascending (List.pairwise_lt_range.filter _) hwaiting.ascending
    intro i
    rw [List.mem_filter, List.mem_range, decide_eq_true_iff, sort,
      htracks.counter_pos_iff hwaiting, htracks.length_counters]
    exact ⟨fun h => h.2.1, fun hi => ⟨hwaiting.below i hi, hi, hstuck i hi⟩⟩
  · rw [sort, htracks.ready_eq hwaiting, List.filter_eq_nil_iff]
    exact fun i hi => Bool.eq_false_iff.1 (hstuck i hi)

end

end TileNest.Order
