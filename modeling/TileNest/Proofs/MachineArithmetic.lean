import Mathlib.Algebra.Ring.Int.Defs
import TileNest.Proofs.IndexValues

/-
  The arithmetic of the check of a movement, operation by operation. `Movement.inspect` is a tree of
  operations on numbers of 64 bits; `Arith.steps` are those that are carried out until it returns or
  an operation has no result: remainders, quotients, the reading of a size as a signed number,
  entries of lists, checked products and sums, and the decrement of the upper bound of a loop, which
  is not checked. Comparisons, minima and maxima cannot go wrong and are not operations.

  Main result: `Movement.arithmetic_noticed`. Every operation gives its exact result, or it is the
  last one and the check fails on it: a checked operation is reported as an overflow, and the
  decrement of the least number of 64 bits is a panic. That happens only for a loop whose range runs
  backward down to it, which `LoopVar.make` refuses; `Movement.decrement_panics` is such a loop.
  Bounds that are returned are always exact.
-/

namespace TileNest

theorem Checked.ofInt?_eq_none_iff {n : Int} : ofInt? n = none ↔ ¬ Fits n := by
  rw [fits_iff, Option.eq_none_iff_forall_ne_some, not_exists]
  exact forall_congr' fun c => not_congr ofInt?_eq_some_iff

namespace Arith

/-! ## Operations -/

namespace Step

/-- The operation is defined, and its exact result is a number of its type. -/
def Exact : Step → Prop
  | remainder a b => b ≠ 0 ∧ a % b < Checked.sizeLimit
  | quotient a b => b ≠ 0 ∧ a / b < Checked.sizeLimit
  | signed n => Checked.Fits n
  | entry position length => position < length
  | product a b => Checked.Fits (a.toInt * b.toInt)
  | sum a b => Checked.Fits (a.toInt + b.toInt)
  | decrement a => Checked.Fits (a.toInt - 1)

/-- The operation says when its exact result does not fit. -/
def Checked : Step → Prop
  | product _ _ => True
  | sum _ _ => True
  | _ => False

theorem exact_decrement {a : Int64} (h : a ≠ Int64.minValue) : (decrement a).Exact := by
  have hrange := Checked.toInt_mem_range a
  have hne : a.toInt ≠ Int64.minValue.toInt := fun he => h (Int64.toInt_inj.1 he)
  exact ⟨by omega, by omega⟩

theorem not_exact_decrement_min : ¬ (decrement Int64.minValue).Exact := by
  intro h
  have hlow : Int64.minValue.toInt ≤ Int64.minValue.toInt - 1 := h.1
  omega

theorem result?_decrement_min : (decrement Int64.minValue).result? = none :=
  Checked.ofInt?_eq_none_iff.2 not_exact_decrement_min

/-- An operation with an exact result has a result. -/
theorem Exact.result?_ne_none {s : Step} (h : s.Exact) : s.result? ≠ none := by
  cases s with
  | remainder a b => exact fun hn => Option.some_ne_none _ ((if_neg h.1).symm.trans hn)
  | quotient a b => exact fun hn => Option.some_ne_none _ ((if_neg h.1).symm.trans hn)
  | signed n => exact Option.some_ne_none _
  | entry position length => exact fun hn => Option.some_ne_none _ ((dif_pos h).symm.trans hn)
  | product a b => exact Option.some_ne_none _
  | sum a b => exact Option.some_ne_none _
  | decrement a => exact fun hn => Checked.ofInt?_eq_none_iff.1 hn h

end Step

variable {α β : Type}

/-- The operations that a computation carries out, in their order. -/
def steps : Arith α → List Step
  | done _ => []
  | perform s next => s :: s.result?.elim [] fun r => (next r).steps

theorem steps_perform (s : Step) (f : s.Result → α) :
    (perform s fun r => done (f r)).steps = [s] := by
  rw [steps]
  cases s.result? with
  | none => rfl
  | some r => rfl

@[simp] theorem steps_bind (x : Arith α) (f : α → Arith β) :
    (x >>= f).steps = x.steps ++ x.run.elim [] fun a => (f a).steps := by
  induction x with
  | done a => rfl
  | perform s next ih =>
    show s :: (s.result?.elim [] fun r => (next r >>= f).steps) =
      s :: (s.result?.elim [] fun r => (next r).steps) ++
        (s.result?.bind fun r => (next r).run).elim [] fun a => (f a).steps
    cases s.result? with
    | none => rfl
    | some r => exact congrArg (s :: ·) (ih r)

/-- A computation without a value ends with an operation that has no result. -/
theorem exists_of_run_eq_none {x : Arith α} (h : x.run = none) :
    ∃ before s, x.steps = before ++ [s] ∧ s.result? = none := by
  induction x with
  | done a => cases h
  | perform s next ih =>
    rw [run] at h
    cases hs : s.result? with
    | none => exact ⟨[], s, by rw [steps, hs]; rfl, hs⟩
    | some r =>
      rw [hs, Option.bind_some] at h
      obtain ⟨before, u, hsteps, hu⟩ := ih r h
      refine ⟨s :: before, u, ?_, hu⟩
      rw [steps, hs, Option.elim_some, hsteps, List.cons_append]

/-! ## Exact and reported operations -/

/-- Every operation is exact, or it is the last one. Then it is one that `slips` allows for and has
    no result, or it is a checked one and the outcome is one of those that `fails` reports it by. -/
def Heeds (slips : Step → Prop) (fails : α → Prop) (x : Arith α) : Prop :=
  ∀ before s after, x.steps = before ++ s :: after →
    s.Exact ∨ after = [] ∧
      (slips s ∧ x.run = none ∨ s.Checked ∧ ∃ a, x.run = some a ∧ fails a)

section

variable {slips : Step → Prop} {fails : α → Prop} {stops : β → Prop}

theorem heeds_pure (a : α) : Heeds slips fails (pure a) := by
  intro before s after h
  exact absurd h.symm (List.append_ne_nil_of_right_ne_nil before (List.cons_ne_nil s after))

theorem heeds_single {x : Arith α} {s : Step} (hx : x.steps = [s])
    (h : s.Exact ∨ slips s ∧ x.run = none ∨ s.Checked ∧ ∃ a, x.run = some a ∧ fails a) :
    Heeds slips fails x := by
  intro before u after hsplit
  rw [hx] at hsplit
  obtain ⟨rfl, hs⟩ | ⟨-, hs⟩ := List.singleton_eq_append_iff.1 hsplit
  · obtain ⟨rfl, rfl⟩ := List.cons.inj hs
    exact h.imp_right fun hlast => ⟨rfl, hlast⟩
  · exact absurd hs (List.cons_ne_nil u after)

/-- One computation after the other, where the second does nothing once the first has failed. -/
theorem Heeds.bind {x : Arith α} {f : α → Arith β} (hx : Heeds slips fails x)
    (hstop : ∀ a, fails a → (f a).steps = [] ∧ ∃ b, (f a).run = some b ∧ stops b)
    (hgo : ∀ a, x.run = some a → Heeds slips stops (f a)) : Heeds slips stops (x >>= f) := by
  intro before s after hsplit
  rw [steps_bind] at hsplit
  rw [run_bind]
  obtain ⟨rest, hfirst, rfl⟩ | ⟨rest, -, hlater⟩ := Lists.append_eq_append_cons hsplit
  · obtain hexact | ⟨rfl, ⟨hslip, hnone⟩ | ⟨hchecked, a, ha, hfails⟩⟩ := hx before s rest hfirst
    · exact .inl hexact
    · rw [hnone]
      exact .inr ⟨rfl, .inl ⟨hslip, rfl⟩⟩
    · obtain ⟨hnone, hstops⟩ := hstop a hfails
      rw [ha]
      exact .inr ⟨hnone, .inr ⟨hchecked, hstops⟩⟩
  · cases ha : x.run with
    | none =>
      rw [ha] at hlater
      exact absurd hlater.symm (List.append_ne_nil_of_right_ne_nil rest (List.cons_ne_nil s after))
    | some a =>
      rw [ha] at hlater
      exact hgo a ha rest s after hlater

/-- What cannot fail, and what follows it. -/
theorem Heeds.next {x : Arith α} {f : α → Arith β} (hx : Heeds slips (fun _ => False) x)
    (hgo : ∀ a, x.run = some a → Heeds slips stops (f a)) : Heeds slips stops (x >>= f) :=
  hx.bind (fun _ => False.elim) hgo

theorem Heeds.orStop {x : Arith (Option α)} {f : α → Arith (Option β)}
    (hx : Heeds slips (· = none) x) (hgo : ∀ a, Heeds slips (· = none) (f a)) :
    Heeds slips (· = none) (x.orStop f) := by
  apply hx.bind
  · rintro _ rfl
    exact ⟨rfl, none, rfl, rfl⟩
  · intro o _
    cases o with
    | none => exact heeds_pure none
    | some a => exact hgo a

theorem heeds_remainder {a b : Nat} (h : (Step.remainder a b).Exact) :
    Heeds slips (fun _ => False) (remainder a b) :=
  heeds_single (steps_perform _ id) (.inl h)

theorem heeds_quotient {a b : Nat} (h : (Step.quotient a b).Exact) :
    Heeds slips (fun _ => False) (quotient a b) :=
  heeds_single (steps_perform _ id) (.inl h)

theorem heeds_signed {n : Nat} (h : (Step.signed n).Exact) :
    Heeds slips (fun _ => False) (signed n) :=
  heeds_single (steps_perform _ id) (.inl h)

theorem heeds_entry {xs : List α} {position : Nat} (h : position < xs.length) :
    Heeds slips (fun _ => False) (entry xs position) :=
  heeds_single (steps_perform (.entry position xs.length) xs.get) (.inl h)

theorem heeds_decrement {a : Int64} (h : a = Int64.minValue → slips (.decrement Int64.minValue)) :
    Heeds slips (fun _ => False) (decrement a) := by
  have hsteps : (decrement a).steps = [.decrement a] := steps_perform _ id
  apply heeds_single hsteps
  by_cases ha : a = Int64.minValue
  · rw [ha, run_decrement]
    exact .inr (.inl ⟨h ha, Step.result?_decrement_min⟩)
  · exact .inl (Step.exact_decrement ha)

theorem heeds_product (a b : Int64) : Heeds slips (· = none) (product a b) := by
  apply heeds_single (steps_perform (.product a b) id)
  by_cases h : Checked.Fits (a.toInt * b.toInt)
  · exact .inl h
  · exact .inr (.inr ⟨trivial, none, congrArg some (Checked.ofInt?_eq_none_iff.2 h), rfl⟩)

theorem heeds_sum (a b : Int64) : Heeds slips (· = none) (sum a b) := by
  apply heeds_single (steps_perform (.sum a b) id)
  by_cases h : Checked.Fits (a.toInt + b.toInt)
  · exact .inl h
  · exact .inr (.inr ⟨trivial, none, congrArg some (Checked.ofInt?_eq_none_iff.2 h), rfl⟩)

end

end Arith

/-! ## The operations of the check -/

open Arith (Step Heeds)

namespace Access

theorem heeds_extend {slips : Step → Prop} {k : Nat} {ps : List (LoopVar × List Int64)}
    (hk : ∀ p ∈ ps, k < p.2.length)
    (hslips : ∀ p ∈ ps, p.1.high = Int64.minValue → slips (.decrement Int64.minValue))
    (least greatest : Int64) : Heeds slips (· = none) (extend k least greatest ps) := by
  induction ps generalizing least greatest with
  | nil => exact Arith.heeds_pure _
  | cons p ps ih =>
    obtain ⟨v, row⟩ := p
    rw [List.forall_mem_cons] at hk hslips
    apply (Arith.heeds_entry hk.1).next
    intro weight _
    apply (Arith.heeds_product _ _).orStop
    intro first
    apply (Arith.heeds_entry hk.1).next
    intro weight _
    apply (Arith.heeds_decrement hslips.1).next
    intro top _
    apply (Arith.heeds_product _ _).orStop
    intro last
    apply (Arith.heeds_sum _ _).orStop
    intro least
    apply (Arith.heeds_sum _ _).orStop
    intro greatest
    exact ih hk.2 hslips.2 least greatest

theorem heeds_bounds {slips : Step → Prop} (m : Access) {k : Nat} (hk : k < m.dims.length)
    (hslips : ∀ v ∈ m.vars, v.high = Int64.minValue → slips (.decrement Int64.minValue)) :
    Heeds slips (· = none) (m.bounds k) := by
  have hoffset : k < m.offsets.length := m.offset_count ▸ hk
  apply (Arith.heeds_entry hoffset).next
  intro least _
  apply (Arith.heeds_entry hoffset).next
  intro greatest _
  apply heeds_extend
  · intro p hp
    rw [m.row_widths p.2 (List.of_mem_zip hp).2]
    exact hk
  · exact fun p hp => hslips p.1 (List.of_mem_zip hp).1

end Access

namespace Movement

/-- Extents are positive and below the limit, so that no division goes wrong. -/
theorem heeds_tileCounts {slips : Step → Prop} (edge : String) (dim : Nat) {as bs : List Nat}
    (ha : ∀ e ∈ as, 0 < e ∧ e < Checked.sizeLimit)
    (hb : ∀ e ∈ bs, 0 < e ∧ e < Checked.sizeLimit) :
    Heeds slips (fun _ => False) (tileCounts edge dim as bs) := by
  induction as generalizing bs dim with
  | nil => exact Arith.heeds_pure _
  | cons a as ih =>
    cases bs with
    | nil => exact Arith.heeds_pure _
    | cons b bs =>
      rw [List.forall_mem_cons] at ha hb
      have hmod := Nat.mod_le (max a b) (min a b)
      have hdiv := Nat.div_le_self (max a b) (min a b)
      have hremainder : (Step.remainder (max a b) (min a b)).Exact := ⟨by omega, by omega⟩
      have hquotient : (Step.quotient (max a b) (min a b)).Exact := ⟨by omega, by omega⟩
      apply (Arith.heeds_remainder hremainder).next
      intro rest _
      by_cases h : rest ≠ 0
      · rw [if_pos h]
        exact Arith.heeds_pure _
      · rw [if_neg h]
        apply (Arith.heeds_quotient hquotient).next
        intro tiles _
        exact (ih (dim + 1) ha.2 hb.2).next fun counts _ => Arith.heeds_pure _

/-- The outcome reports that the bounds of a coordinate do not fit. -/
def Overflows {α : Type} (edge : String) (outcome : Except Fault α) : Prop :=
  ∃ dim, outcome = .error (.malformedAccess (.boundsOverflow edge dim))

theorem fits_tilesBetween (source dest : Tensor) {n : Nat} (h : n ∈ tilesBetween source dest) :
    Checked.Fits n := by
  have hzero : Int64.minValue.toInt ≤ 0 := by decide
  exact ⟨by omega, tilesBetween_le source dest h⟩

theorem heeds_checkBounds {slips : Step → Prop} (edge : String) {access : Access}
    {counts : List Nat} {selected : List (Nat × Nat)} (hcounts : ∀ n ∈ counts, Checked.Fits n)
    (hselected : ∀ p ∈ selected, p.1 < counts.length ∧ p.2 < access.dims.length)
    (hslips : ∀ v ∈ access.vars, v.high = Int64.minValue → slips (.decrement Int64.minValue)) :
    Heeds slips (Overflows edge) (checkBounds edge access counts selected) := by
  induction selected with
  | nil => exact Arith.heeds_pure _
  | cons p selected ih =>
    obtain ⟨dim, k⟩ := p
    obtain ⟨⟨hdim, hk⟩, hselected⟩ := List.forall_mem_cons.1 hselected
    apply (access.heeds_bounds hk hslips).bind
    · rintro _ rfl
      exact ⟨rfl, _, rfl, dim, rfl⟩
    · intro bounds _
      cases bounds with
      | none => exact Arith.heeds_pure _
      | some b =>
        apply (Arith.heeds_entry hdim).next
        intro tiles ht
        rw [Arith.run_entry] at ht
        have hsigned : (Step.signed tiles).Exact := hcounts tiles (List.mem_of_getElem? ht)
        split
        · exact Arith.heeds_pure _
        · apply (Arith.heeds_signed hsigned).next
          intro limit _
          split
          · exact Arith.heeds_pure _
          · exact ih hselected

/-- The decrement of the least number, for a loop that ends there, where no loop is empty. -/
def Slips (vars : List LoopVar) (s : Step) : Prop :=
  s = .decrement Int64.minValue ∧ vars.any LoopVar.isEmpty = false ∧
    ∃ v ∈ vars, v.high = Int64.minValue

theorem extent_bounds (t : Tensor) {e : Nat} (he : e ∈ t.shape) :
    0 < e ∧ e < Checked.sizeLimit := by
  have hle := t.extent_le he
  rw [Int64.toInt_maxValue] at hle
  exact ⟨t.extent_pos e he, by rw [Checked.sizeLimit]; omega⟩

variable (source dest : Tensor) (access : Access)

theorem heeds_checkEnds :
    Heeds (Slips access.vars) (Overflows (edgeText source dest))
      (checkEnds source dest access) := by
  unfold checkEnds
  dsimp only
  split
  · exact Arith.heeds_pure _
  · next hrank =>
    split
    · exact Arith.heeds_pure _
    · next hdims =>
      apply (heeds_tileCounts _ 0 (fun _ => extent_bounds source)
        (fun _ => extent_bounds dest)).next
      intro counts hcounts
      cases counts with
      | error fault => exact Arith.heeds_pure _
      | ok counts =>
        obtain ⟨rfl, -⟩ := tileCounts_between_iff.1 hcounts
        dsimp only
        split
        · exact Arith.heeds_pure _
        · split
          · exact Arith.heeds_pure _
          · next hempty =>
            apply heeds_checkBounds
            · exact fun _ => fits_tilesBetween source dest
            · intro p hp
              have hdim : access.dims[p.2]? = some p.1 := List.mem_zipIdx_iff_getElem?.1 hp
              have hlt := find?_dims_eq_none_iff.1 hdims p.1 (List.mem_of_getElem? hdim)
              have hlength : (tilesBetween source dest).length = source.rank := by
                rw [tilesBetween, List.length_zipWith]
                simp only [Tensor.rank] at hrank ⊢
                omega
              exact ⟨hlength ▸ hlt, (List.getElem?_eq_some_iff.1 hdim).1⟩
            · intro v hv hhigh
              exact ⟨rfl, Bool.eq_false_iff.2 hempty, v, hv, hhigh⟩

theorem heeds_inspect :
    Heeds (Slips access.vars) (Overflows (edgeText source dest)) (inspect source dest access) := by
  unfold inspect
  split
  · exact Arith.heeds_pure _
  · apply (heeds_checkEnds source dest access).bind
    · rintro _ ⟨dim, rfl⟩
      exact ⟨rfl, _, rfl, dim, rfl⟩
    · exact fun ends _ => Arith.heeds_pure _

/-! ## Panics -/

section

variable {source dest : Tensor} {access : Access}

theorem checkBounds_ne_panic {edge : String} {counts : List Nat}
    (hcounts : ∀ count ∈ counts, (count : Int) ≤ Int64.maxValue.toInt)
    (selected : List (Nat × Nat)) :
    (checkBounds edge access counts selected).run ≠ some (.error .panic) := by
  intro h
  induction selected with
  | nil => cases h
  | cons p selected ih =>
    obtain ⟨dim, k⟩ := p
    rw [run_checkBounds_cons hcounts] at h
    obtain ⟨bounds, -, h⟩ := Option.bind_eq_some_iff.1 h
    cases bounds with
    | none => cases h
    | some b =>
      obtain ⟨count, -, h⟩ := Option.bind_eq_some_iff.1 h
      split at h
      · exact ih h
      · cases h

/-- A fault that the check returns is not a panic. -/
theorem checkEnds_ne_panic : (checkEnds source dest access).run ≠ some (.error .panic) := by
  intro h
  unfold checkEnds at h
  dsimp only at h
  split at h
  · cases h
  · split at h
    · cases h
    · rw [Arith.run_bind] at h
      obtain ⟨counts, hc, h⟩ := Option.bind_eq_some_iff.1 h
      cases counts with
      | error fault =>
        obtain ⟨_, _, _, rfl⟩ :=
          exists_of_tileCounts_eq_error source.extent_pos dest.extent_pos hc
        cases h
      | ok counts =>
        obtain ⟨rfl, -⟩ := tileCounts_between_iff.1 hc
        dsimp only at h
        split at h
        · cases h
        · split at h
          · cases h
          · exact checkBounds_ne_panic (fun _ => tilesBetween_le source dest) _ h

theorem check_eq_panic_iff :
    check source dest access = .error .panic ↔ (inspect source dest access).run = none := by
  rw [check]
  constructor
  · intro h
    cases hrun : (inspect source dest access).run with
    | none => rfl
    | some outcome =>
      rw [hrun, Option.getD_some] at h
      rw [h, inspect] at hrun
      split at hrun
      · cases hrun
      · rw [Arith.run_bind] at hrun
        obtain ⟨ends, hends, he⟩ := Option.bind_eq_some_iff.1 hrun
        cases ends with
        | ok u => cases he
        | error fault =>
          cases he
          exact absurd hends checkEnds_ne_panic
  · intro h
    rw [h]
    rfl

/-- The check panics where it decrements the least number, and nowhere else. -/
theorem run_eq_none_iff : (inspect source dest access).run = none ↔
    .decrement Int64.minValue ∈ (inspect source dest access).steps := by
  have hheeds := heeds_inspect source dest access
  constructor
  · intro h
    obtain ⟨before, s, hsteps, hs⟩ := Arith.exists_of_run_eq_none h
    obtain hexact | ⟨-, ⟨⟨rfl, -⟩, -⟩ | ⟨-, a, ha, -⟩⟩ := hheeds before s [] hsteps
    · exact absurd hs hexact.result?_ne_none
    · rw [hsteps]
      exact List.mem_append_right before (List.mem_singleton_self _)
    · rw [h] at ha
      cases ha
  · intro hmem
    obtain ⟨before, after, hsplit⟩ := List.append_of_mem hmem
    obtain hexact | ⟨-, ⟨-, hnone⟩ | ⟨hchecked, -⟩⟩ := hheeds before _ after hsplit
    · exact absurd hexact Step.not_exact_decrement_min
    · exact hnone
    · exact hchecked.elim

end

end Movement

/-- A loop that ends at the least number and is not empty runs backward. -/
theorem LoopVar.backward_of_high_eq {v : LoopVar} (hhigh : v.high = Int64.minValue)
    (he : ¬ v.isEmpty = true) : v.high < v.low := by
  have hne : v.low.toInt ≠ v.high.toInt := by
    intro h
    apply he
    rw [isEmpty, Int64.toInt_inj.1 h]
    exact beq_self_eq_true v.high
  have hlow := (Checked.toInt_mem_range v.low).1
  rw [← hhigh] at hlow
  rw [Int64.lt_iff_toInt_lt]
  omega

/-! ## Exact bounds -/

namespace Axis

/-- The start with the contribution of each variable, picked from those of its first and its last
    value, in integers. -/
def exactBound (pick : Int → Int → Int) (start : Int) (terms : List (LoopVar × Int64)) : Int :=
  start + (terms.map fun t =>
    pick (t.2.toInt * t.1.low.toInt) (t.2.toInt * (t.1.high.toInt - 1))).sum

theorem extend?_exact {terms : List (LoopVar × Int64)} {least greatest l g : Int64}
    (h : extend? least greatest terms = some (l, g)) :
    l.toInt = exactBound min least.toInt terms ∧ g.toInt = exactBound max greatest.toInt terms := by
  induction terms generalizing least greatest with
  | nil =>
    simp only [extend?, Option.some.injEq, Prod.mk.injEq] at h
    simp [exactBound, h.1, h.2]
  | cons t terms ih =>
    obtain ⟨v, w⟩ := t
    simp only [extend?, Option.bind_eq_bind, Option.bind_eq_some_iff] at h
    obtain ⟨first, hfirst, top, htop, last, hlast, least', hleast, greatest', hgreatest, h⟩ := h
    rw [Checked.mul?_eq_some_iff] at hfirst hlast
    rw [Checked.add?_eq_some_iff, toInt_min] at hleast
    rw [Checked.add?_eq_some_iff, toInt_max] at hgreatest
    rw [Checked.ofInt?_eq_some_iff.1 htop] at hlast
    obtain ⟨hl, hg⟩ := ih h
    rw [hl, hg]
    simp only [exactBound, List.map_cons, List.sum_cons, hleast, hgreatest, hfirst, hlast]
    omega

end Axis

/-- Bounds are returned for a selected dimension, and they are those of its axis. -/
theorem Access.exists_axis_of_run_bounds {m : Access} {k : Nat} {range : Int64 × Int64}
    (h : (m.bounds k).run = some (some range)) :
    ∃ a, m.axes[k]? = some a ∧ a.bounds? m.vars = some range := by
  have hk : k < m.axes.length := by
    by_contra hge
    have hoffset : m.offsets[k]? = none := by
      rw [List.getElem?_eq_none_iff, m.offset_count, ← m.map_dim_axes, List.length_map]
      omega
    rw [bounds, Arith.run_bind, Arith.run_entry, hoffset] at h
    cases h
  have ha := List.getElem?_eq_getElem hk
  exact ⟨_, ha, (run_bounds_eq_some_iff ha).1 h⟩

/-! ## Noticed operations -/

namespace Movement

/-- **Arithmetic.** Every operation of the check of a movement is exact, or it is the last one and
    the check fails on it: an overflow of a checked operation is reported as such, and the decrement
    of the least number of 64 bits is a panic. There is no other panic, and this one is met only
    where no loop is empty and one runs backward down to that number. Bounds that are returned are
    the exact ones. -/
theorem arithmetic_noticed (source dest : Tensor) (access : Access) :
    (∀ before s after, (inspect source dest access).steps = before ++ s :: after →
      s.Exact ∨ after = [] ∧
        (s.Checked ∧ Overflows (edgeText source dest) (check source dest access) ∨
          s = .decrement Int64.minValue ∧ check source dest access = .error .panic)) ∧
    (check source dest access = .error .panic ↔
      .decrement Int64.minValue ∈ (inspect source dest access).steps) ∧
    (check source dest access = .error .panic → access.vars.any LoopVar.isEmpty = false ∧
      ∃ v ∈ access.vars, v.high = Int64.minValue ∧ v.high < v.low) ∧
    ∀ k least greatest, (access.bounds k).run = some (some (least, greatest)) →
      ∃ a, access.axes[k]? = some a ∧
        least.toInt = Axis.exactBound min a.offset.toInt (access.vars.zip a.weights) ∧
        greatest.toInt = Axis.exactBound max a.offset.toInt (access.vars.zip a.weights) := by
  have hheeds := heeds_inspect source dest access
  rw [check_eq_panic_iff]
  refine ⟨fun before s after hsplit => ?_, run_eq_none_iff, fun hnone => ?_,
    fun k least greatest h => ?_⟩
  · obtain hexact | ⟨hlast, ⟨⟨hs, -⟩, hnone⟩ | ⟨hchecked, outcome, hrun, hfails⟩⟩ :=
      hheeds before s after hsplit
    · exact .inl hexact
    · exact .inr ⟨hlast, .inr ⟨hs, hnone⟩⟩
    · refine .inr ⟨hlast, .inl ⟨hchecked, ?_⟩⟩
      rw [check, hrun]
      exact hfails
  · obtain ⟨before, after, hsplit⟩ := List.append_of_mem (run_eq_none_iff.1 hnone)
    obtain hexact | ⟨-, ⟨⟨-, hempty, v, hv, hhigh⟩, -⟩ | ⟨hchecked, -⟩⟩ :=
      hheeds before _ after hsplit
    · exact absurd hexact Step.not_exact_decrement_min
    · have hrun := LoopVar.backward_of_high_eq hhigh (List.any_eq_false.1 hempty v hv)
      exact ⟨hempty, v, hv, hhigh, hrun⟩
    · exact hchecked.elim
  · obtain ⟨a, ha, hb⟩ := Access.exists_axis_of_run_bounds h
    exact ⟨a, ha, Axis.extend?_exact hb⟩

end Movement

namespace Sample

/-- A weight whose product with the last value of the loop has more than 64 bits. -/
def steep : Access :=
  { along with rows := [[0x7000000000000000]], vars := [⟨"i", 0, 4⟩], row_widths := by decide }

/-- A loop that runs backward from the greatest number of 64 bits to the least. -/
def sinking : LoopVar := ⟨"i", Int64.maxValue, Int64.minValue⟩

/-- The tile at the distance of the loop's value from its first one. -/
def sunk : Access := { along with offsets := [-Int64.maxValue], vars := [sinking] }

end Sample

/-- The second product of the check does not fit. It is the last operation, and it is reported. -/
theorem Movement.arithmetic_noticed_steep :
    (inspect Sample.input Sample.staged Sample.steep).steps.getLast? =
      some (.product 0x7000000000000000 3) ∧
    ¬ (Step.product 0x7000000000000000 3).Exact ∧
    Overflows "in -> a" (check Sample.input Sample.staged Sample.steep) := by
  have hsteps : (inspect Sample.input Sample.staged Sample.steep).steps =
      (inspect Sample.input Sample.staged Sample.steep).steps.dropLast ++
        [.product 0x7000000000000000 3] := by decide +kernel
  have hexact : ¬ (Step.product 0x7000000000000000 3).Exact := fun h => absurd h.2 (by decide)
  obtain ⟨hnoticed, -⟩ := arithmetic_noticed Sample.input Sample.staged Sample.steep
  refine ⟨by decide +kernel, hexact, ?_⟩
  obtain h | ⟨-, ⟨-, hreported⟩ | ⟨h, -⟩⟩ := hnoticed _ _ _ hsteps
  · exact absurd h hexact
  · exact hreported
  · cases h

/-- The map is accepted, the decrement of the loop's upper bound does not fit, and nothing is
    reported: the check panics. -/
theorem Movement.decrement_panics :
    Access.make [0] [[1]] [-Int64.maxValue] [Sample.sinking] = .ok Sample.sunk ∧
    .decrement Int64.minValue ∈ (inspect Sample.input Sample.staged Sample.sunk).steps ∧
    ¬ (Step.decrement Int64.minValue).Exact ∧
    check Sample.input Sample.staged Sample.sunk = .error .panic ∧
    ¬ Overflows "in -> a" (check Sample.input Sample.staged Sample.sunk) := by
  have hpanic : check Sample.input Sample.staged Sample.sunk = .error .panic := by decide +kernel
  refine ⟨rfl, by decide +kernel, Step.not_exact_decrement_min, hpanic, ?_⟩
  rw [hpanic]
  rintro ⟨dim, hdim⟩
  cases hdim

end TileNest
