import Mathlib.Data.Set.Finite.List
import Mathlib.Logic.Relation
import Mathlib.Order.Preorder.Finite
import TileNest.Hierarchy.Order

/-
  The order in which positions are to be taken, said without counters: of the positions that wait
  for no other waiting one, the least is next (`Order.takeReady`). The arrows between the positions
  are any list, with repeated arrows, arrows from a position to itself and cycles.

  `takeReady_forward`: among the positions taken, every arrow leads to a later one.
  `takeReady_least`: no other list of the waiting positions with that property is smaller in the
  lexicographic order. `mem_held_iff`: the positions left over are those on a cycle and those that
  a path from a cycle leads to. That `Order.sort`, which counts, takes the positions in this order
  is shown in `ReadyCounters`.
-/

namespace TileNest.Order

/-! ## Orders of a relation -/

section

variable (r : Nat → Nat → Prop)

/-- A path of at least one step. -/
def Path : Nat → Nat → Prop := Relation.TransGen r

/-- No path leads back to where it started. -/
def Acyclic : Prop := ∀ i, ¬ Path r i i

/-- The position lies on a cycle, or a path leads to it from a position that does. -/
def HeldUp (i : Nat) : Prop := Path r i i ∨ ∃ j, Path r j j ∧ Path r j i

/-- The order lists the positions below `count` once each, and the relation leads from a position
    to later ones. -/
structure Topological (count : Nat) (order : List Nat) : Prop where
  perm : order.Perm (List.range count)
  forward : ∀ i j, r i j → order.idxOf i < order.idxOf j

end

/-! ## Taking what is ready -/

/-- Some arrow leads from the one position to the other. -/
def Leads (arrows : List Arrow) (i j : Nat) : Prop := ⟨i, j⟩ ∈ arrows

/-- No arrow leads from a waiting position to this one. -/
def ready (arrows : List Arrow) (waiting : List Nat) (position : Nat) : Bool :=
  arrows.all fun a => a.target != position || !waiting.contains a.source

/-- Takes the first ready position of `waiting`, at most `steps` times. Gives the positions taken,
    in that order, and the positions left. -/
def takeReady (arrows : List Arrow) : (steps : Nat) → (waiting : List Nat) → List Nat × List Nat
  | 0, waiting => ([], waiting)
  | steps + 1, waiting =>
    match waiting.find? (ready arrows waiting) with
    | none => ([], waiting)
    | some position =>
      let rest := takeReady arrows steps (waiting.erase position)
      (position :: rest.1, rest.2)

variable {arrows : List Arrow}

/-- Taking ready positions only moves positions from the waiting ones to the taken ones. -/
theorem takeReady_perm (arrows : List Arrow) (steps : Nat) (waiting : List Nat) :
    ((takeReady arrows steps waiting).1 ++ (takeReady arrows steps waiting).2).Perm waiting := by
  induction steps generalizing waiting with
  | zero => exact List.Perm.refl _
  | succ steps ih =>
    rw [takeReady]
    split
    · exact List.Perm.refl _
    · next position hf =>
      have hm : position ∈ waiting := List.mem_of_find?_eq_some hf
      exact ((ih (waiting.erase position)).cons position).trans (List.perm_cons_erase hm).symm

theorem ready_iff {waiting : List Nat} {position : Nat} :
    ready arrows waiting position = true ↔
      ∀ a ∈ arrows, a.target = position → a.source ∉ waiting := by
  unfold ready
  rw [List.all_eq_true]
  refine forall₂_congr fun a _ => ?_
  rw [Bool.or_eq_true, bne_iff_ne, Bool.not_eq_true', List.contains_eq_mem, decide_eq_false_iff_not]
  exact Decidable.imp_iff_not_or.symm

/-! ## Arrows go forward -/

theorem idxOf_cons_lt {p i j : Nat} {order : List Nat} (hj : j ≠ p)
    (h : i ≠ p → order.idxOf i < order.idxOf j) : (p :: order).idxOf i < (p :: order).idxOf j := by
  rw [List.idxOf_cons_ne order hj.symm]
  by_cases hi : i = p
  · rw [hi, List.idxOf_cons_self]
    exact Nat.succ_pos _
  · rw [List.idxOf_cons_ne order (Ne.symm hi)]
    exact Nat.succ_lt_succ (h hi)

/-- A position is taken only after all waiting positions that an arrow leads to it from. -/
theorem takeReady_forward {steps : Nat} {waiting : List Nat} {a : Arrow} (ha : a ∈ arrows)
    (hs : a.source ∈ waiting) (ht : a.target ∈ (takeReady arrows steps waiting).1) :
    (takeReady arrows steps waiting).1.idxOf a.source <
      (takeReady arrows steps waiting).1.idxOf a.target := by
  induction steps generalizing waiting with
  | zero => exact absurd ht List.not_mem_nil
  | succ steps ih =>
    rw [takeReady] at ht ⊢
    split at ht
    · exact absurd ht List.not_mem_nil
    · next p hf =>
      have hready := ready_iff.1 (List.find?_some hf)
      have hne : a.target ≠ p := fun h => hready a ha h hs
      refine idxOf_cons_lt hne fun hsp => ih ?_ ((List.mem_cons.1 ht).resolve_left hne)
      exact (List.mem_erase_of_ne hsp).2 hs

/-! ## The least order -/

/-- The first ready position is the least one, when the waiting positions ascend. -/
theorem le_of_find?_ready {waiting : List Nat} (hw : waiting.Pairwise (· < ·)) {p q : Nat}
    (hf : waiting.find? (ready arrows waiting) = some p) (hq : q ∈ waiting)
    (hr : ready arrows waiting q = true) : p ≤ q := by
  obtain ⟨-, before, after, hsplit, hbefore⟩ := List.find?_eq_some_iff_append.1 hf
  rw [hsplit] at hq hw
  rcases List.mem_append.1 hq with h | h
  · have := hbefore q h
    simp [hr] at this
  · rcases List.mem_cons.1 h with rfl | h
    · exact Nat.le_refl q
    · have hafter := (List.pairwise_cons.1 (List.pairwise_append.1 hw).2.1).1
      exact Nat.le_of_lt (hafter q h)

/-- What starts an order in which arrows go forward waits for nothing. -/
theorem ready_head {q : Nat} {rest : List Nat} {waiting : List Nat}
    (hforward : ∀ a ∈ arrows, a.source ∈ waiting →
      (q :: rest).idxOf a.source < (q :: rest).idxOf a.target) :
    ready arrows waiting q = true := by
  rw [ready_iff]
  intro a ha ht hs
  have hlt := hforward a ha hs
  rw [ht, List.idxOf_cons_self] at hlt
  exact Nat.not_lt_zero _ hlt

/-- The rest of such an order is one for the positions that still wait. -/
theorem forward_tail {p : Nat} {rest waiting : List Nat} (hw : waiting.Nodup)
    (hforward : ∀ a ∈ arrows, a.source ∈ waiting →
      (p :: rest).idxOf a.source < (p :: rest).idxOf a.target) :
    ∀ a ∈ arrows, a.source ∈ waiting.erase p → rest.idxOf a.source < rest.idxOf a.target := by
  intro a ha hs
  obtain ⟨hne, hin⟩ := (hw.mem_erase_iff).1 hs
  have hlt := hforward a ha hin
  rw [List.idxOf_cons_ne rest hne.symm] at hlt
  by_cases ht : a.target = p
  · rw [ht, List.idxOf_cons_self] at hlt
    exact absurd hlt (Nat.not_lt_zero _)
  · rw [List.idxOf_cons_ne rest (Ne.symm ht)] at hlt
    exact Nat.lt_of_succ_lt_succ hlt

/-- The positions are taken in the least order in which arrows go forward. Both orders start with a
    ready position, and the one taken is the least of these; where they agree the rest decides. -/
theorem takeReady_least {steps : Nat} {waiting other : List Nat} (hw : waiting.Pairwise (· < ·))
    (hp : other.Perm waiting)
    (hforward : ∀ a ∈ arrows, a.source ∈ waiting → other.idxOf a.source < other.idxOf a.target)
    (hall : (takeReady arrows steps waiting).2 = []) :
    (takeReady arrows steps waiting).1 = other ∨
      List.Lex (· < ·) (takeReady arrows steps waiting).1 other := by
  induction steps generalizing waiting other with
  | zero =>
    have hnil : waiting = [] := hall
    rw [hnil, List.perm_nil] at hp
    exact .inl hp.symm
  | succ steps ih =>
    rw [takeReady] at hall ⊢
    split at hall
    · have hnil : waiting = [] := hall
      rw [hnil, List.perm_nil] at hp
      exact .inl hp.symm
    · next p hf =>
      have hmem : p ∈ waiting := List.mem_of_find?_eq_some hf
      obtain ⟨q, rest, rfl⟩ := List.exists_cons_of_ne_nil (List.ne_nil_of_mem (hp.mem_iff.2 hmem))
      have hq : q ∈ waiting := hp.mem_iff.1 (by simp)
      have hnodup : waiting.Nodup := hw.imp fun h => Nat.ne_of_lt h
      rcases Nat.lt_or_eq_of_le (le_of_find?_ready hw hf hq (ready_head hforward)) with hlt | rfl
      · exact .inr (.rel hlt)
      · have hrest : rest.Perm (waiting.erase p) :=
          (List.perm_cons p).1 (hp.trans (List.perm_cons_erase hmem))
        have herase : (waiting.erase p).Pairwise (· < ·) := hw.sublist List.erase_sublist
        rcases ih herase hrest (forward_tail hnodup hforward) hall with heq | hlex
        · exact .inl (congrArg (p :: ·) heq)
        · exact .inr (.cons hlex)

/-! ## Positions that are held up -/

theorem heldUp_iff {r : Nat → Nat → Prop} {i : Nat} :
    HeldUp r i ↔ ∃ j, Path r j j ∧ Path r j i := by
  constructor
  · rintro (h | h)
    · exact ⟨i, h, h⟩
    · exact h
  · exact .inr

theorem acyclic_iff {r : Nat → Nat → Prop} : Acyclic r ↔ ∀ i, ¬ HeldUp r i := by
  constructor
  · intro h i hi
    obtain ⟨j, hj, -⟩ := heldUp_iff.1 hi
    exact h j hj
  · intro h i hi
    exact h i (.inl hi)

/-- What is held up waits for something else that is. -/
theorem HeldUp.source {r : Nat → Nat → Prop} {i : Nat} (h : HeldUp r i) :
    ∃ j, HeldUp r j ∧ r j i := by
  obtain ⟨c, hc, hi⟩ := heldUp_iff.1 h
  obtain ⟨j, hj, hstep⟩ := Relation.TransGen.tail'_iff.1 hi
  refine ⟨j, ?_, hstep⟩
  rcases Relation.reflTransGen_iff_eq_or_transGen.1 hj with rfl | hj
  · exact .inl hc
  · exact .inr ⟨c, hc, hj⟩

/-- What is held up is never taken: a ready position would wait for another one that is held up. -/
theorem HeldUp.stays {steps : Nat} {waiting : List Nat}
    (hw : ∀ i, HeldUp (Leads arrows) i → i ∈ waiting) {i : Nat} (h : HeldUp (Leads arrows) i) :
    i ∈ (takeReady arrows steps waiting).2 := by
  induction steps generalizing waiting with
  | zero => exact hw i h
  | succ steps ih =>
    rw [takeReady]
    split
    · exact hw i h
    · next p hf =>
      have hfree : ¬ HeldUp (Leads arrows) p := by
        intro hp
        obtain ⟨j, hj, harrow⟩ := hp.source
        exact ready_iff.1 (List.find?_some hf) _ harrow rfl (hw j hj)
      refine ih fun k hk => ?_
      have hne : k ≠ p := fun e => hfree (e ▸ hk)
      exact (List.mem_erase_of_ne hne).2 (hw k hk)

/-- Among positions that each wait for one of them, each is held up: the walk from source to source
    comes back to a position it has met. -/
theorem heldUp_of_stuck {held : List Nat} (h : ∀ i ∈ held, ∃ j ∈ held, ⟨j, i⟩ ∈ arrows) {i : Nat}
    (hi : i ∈ held) : HeldUp (Leads arrows) i := by
  choose! source hsource harrow using h
  have hin : ∀ k, source^[k] i ∈ held := by
    intro k
    induction k with
    | zero => exact hi
    | succ k ih =>
      rw [Function.iterate_succ_apply']
      exact hsource _ ih
  have hback : ∀ k m, Path (Leads arrows) (source^[k + (m + 1)] i) (source^[k] i) := by
    intro k m
    induction m with
    | zero =>
      rw [Function.iterate_succ_apply']
      exact .single (harrow _ (hin k))
    | succ m ih =>
      rw [← Nat.add_assoc, Function.iterate_succ_apply']
      exact .head (harrow _ (hin _)) ih
  have hmaps : Set.MapsTo (fun k => source^[k] i) Set.univ {j | j ∈ held} := fun k _ => hin k
  obtain ⟨a, -, b, -, hlt, hsame⟩ :=
    Set.infinite_univ.exists_lt_map_eq_of_mapsTo hmaps (List.finite_toSet held)
  have hcycle : Path (Leads arrows) (source^[a] i) (source^[a] i) := by
    have hpath := hback a (b - a - 1)
    rw [show a + (b - a - 1 + 1) = b by omega] at hpath
    exact (show source^[a] i = source^[b] i from hsame) ▸ hpath
  cases a with
  | zero => exact .inl hcycle
  | succ a =>
    have hpath := hback 0 a
    rw [Nat.zero_add] at hpath
    exact .inr ⟨_, hcycle, hpath⟩

/-- With enough steps, every position left over waits for another one. -/
theorem takeReady_stuck {steps : Nat} {waiting : List Nat} (hs : waiting.length ≤ steps) {i : Nat}
    (hi : i ∈ (takeReady arrows steps waiting).2) :
    ∃ j ∈ (takeReady arrows steps waiting).2, ⟨j, i⟩ ∈ arrows := by
  induction steps generalizing waiting with
  | zero =>
    rw [Nat.le_zero, List.length_eq_zero_iff] at hs
    rw [takeReady, hs] at hi
    exact absurd hi List.not_mem_nil
  | succ steps ih =>
    rw [takeReady] at hi ⊢
    split at hi
    · next hf =>
      have hnot := List.find?_eq_none.1 hf i hi
      rw [ready_iff] at hnot
      push Not at hnot
      obtain ⟨a, ha, rfl, hsource⟩ := hnot
      exact ⟨a.source, hsource, ha⟩
    · next p hf =>
      have hlen := List.length_erase_of_mem (List.mem_of_find?_eq_some hf)
      exact ih (by omega) hi

/-- The positions below `count` in the order in which they are taken, and those that are left. -/
def leastFirst (count : Nat) (arrows : List Arrow) : List Nat × List Nat :=
  takeReady arrows count (List.range count)

theorem length_leastFirst (count : Nat) (arrows : List Arrow) :
    (leastFirst count arrows).1.length + (leastFirst count arrows).2.length = count := by
  have hperm := takeReady_perm arrows count (List.range count)
  have hlen := hperm.length_eq
  rwa [List.length_append, List.length_range] at hlen

section

variable {count : Nat} (hends : ∀ a ∈ arrows, a.source < count ∧ a.target < count)

include hends

theorem HeldUp.lt {i : Nat} (h : HeldUp (Leads arrows) i) : i < count := by
  obtain ⟨j, -, harrow⟩ := h.source
  exact (hends _ harrow).2

/-- What is left over is what a cycle holds up. -/
theorem mem_held_iff {i : Nat} : i ∈ (leastFirst count arrows).2 ↔ HeldUp (Leads arrows) i := by
  constructor
  · intro hi
    have hlen : (List.range count).length ≤ count := by rw [List.length_range]
    exact heldUp_of_stuck (fun k hk => takeReady_stuck hlen hk) hi
  · intro hi
    exact hi.stays fun k hk => List.mem_range.2 (hk.lt hends)

theorem held_eq_nil_iff : (leastFirst count arrows).2 = [] ↔ Acyclic (Leads arrows) := by
  rw [List.eq_nil_iff_forall_not_mem, acyclic_iff]
  exact forall_congr' fun i => not_congr (mem_held_iff hends)

/-- Without a cycle all positions are taken, in an order in which arrows go forward. -/
theorem leastFirst_topological (h : (leastFirst count arrows).2 = []) :
    Topological (Leads arrows) count (leastFirst count arrows).1 := by
  have hperm := takeReady_perm arrows count (List.range count)
  rw [show (takeReady arrows count (List.range count)).2 = [] from h, List.append_nil] at hperm
  refine ⟨hperm, fun i j ha => ?_⟩
  obtain ⟨hi, hj⟩ := hends ⟨i, j⟩ ha
  exact takeReady_forward ha (List.mem_range.2 hi) (hperm.mem_iff.2 (List.mem_range.2 hj))

omit hends in
/-- No other such order comes before it. -/
theorem leastFirst_least (h : (leastFirst count arrows).2 = []) {other : List Nat}
    (ho : Topological (Leads arrows) count other) :
    (leastFirst count arrows).1 = other ∨ List.Lex (· < ·) (leastFirst count arrows).1 other :=
  takeReady_least List.pairwise_lt_range ho.perm (fun a ha _ => ho.forward a.source a.target ha) h

end

end TileNest.Order
