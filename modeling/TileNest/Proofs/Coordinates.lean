import TileNest.Movement
import TileNest.Proofs.Lists

/-
  Coordinates of a movement's tile. A movement passed an interval check at its construction; here
  that check is turned into a statement about every point of the iteration box.

  `Movement.Fits`: what the check asks for, where the operations it performs all have results.
  `Axis.coordinate?_mem_bounds`: the checked sum exists at every point and lies between the two
  bounds, so no partial sum leaves the range. `Affine.evaluate_expression`: the symbolic form,
  where zero weights are dropped, has the same value. `Movement.resolve_inside` puts both
  together: for values in the ranges of the map's variables a movement has a tile, the tile lies
  inside, and every environment with these values gives the same one.
-/

namespace TileNest

namespace Checked

/-- A sum or product between two numbers of 64 bits fits. -/
theorem ofInt?_of_between {n : Int} (lo hi : Int64) (hl : lo.toInt ≤ n) (hh : n ≤ hi.toInt) :
    ∃ c, ofInt? n = some c ∧ c.toInt = n := by
  have h1 := (toInt_mem_range lo).1
  have h2 := (toInt_mem_range hi).2
  have hr : Int64.minValue.toInt ≤ n ∧ n ≤ Int64.maxValue.toInt := ⟨by omega, by omega⟩
  have hc : ofInt? n = some (Int64.ofInt n) := by rw [ofInt?, if_pos hr]
  exact ⟨_, hc, ofInt?_eq_some_iff.1 hc⟩

theorem mul?_comm (a b : Int64) : mul? a b = mul? b a := by
  unfold mul?
  rw [Int.mul_comm]

theorem mul?_zero_right (a : Int64) : mul? a 0 = some 0 := by
  rw [mul?_eq_some_iff]
  simp

theorem add?_zero_right (a : Int64) : add? a 0 = some a := by
  rw [add?_eq_some_iff]
  simp

end Checked

theorem toInt_min (a b : Int64) : (min a b).toInt = min a.toInt b.toInt := by
  rw [show min a b = if a ≤ b then a else b from rfl]
  split
  · next h =>
    rw [Int64.le_iff_toInt_le] at h
    omega
  · next h =>
    rw [Int64.le_iff_toInt_le] at h
    omega

theorem toInt_max (a b : Int64) : (max a b).toInt = max a.toInt b.toInt := by
  rw [show max a b = if a ≤ b then b else a from rfl]
  split
  · next h =>
    rw [Int64.le_iff_toInt_le] at h
    omega
  · next h =>
    rw [Int64.le_iff_toInt_le] at h
    omega

namespace LoopVar

theorem mem_valuesIn {low high x : Int64} :
    x ∈ valuesIn low high ↔ low.toInt ≤ x.toInt ∧ x.toInt < high.toInt := by
  unfold valuesIn
  constructor
  · intro h
    obtain ⟨i, hi, rfl⟩ := List.mem_map.1 h
    rw [List.mem_range] at hi
    have hl := Int64.le_toInt low
    have hh := Int64.toInt_lt high
    rw [Int64.toInt_ofInt_of_le (by omega) (by omega)]
    omega
  · rintro ⟨hl, hh⟩
    refine List.mem_map.2 ⟨(x.toInt - low.toInt).toNat, ?_, ?_⟩
    · rw [List.mem_range]
      omega
    · rw [Int.toNat_of_nonneg (by omega), show low.toInt + (x.toInt - low.toInt) = x.toInt by omega,
        Int64.ofInt_toInt]

theorem mem_values {v : LoopVar} {x : Int64} :
    x ∈ v.values ↔ v.low.toInt ≤ x.toInt ∧ x.toInt < v.high.toInt := mem_valuesIn

end LoopVar

/-! ## The symbolic and the concrete form -/

/-- Every variable is bound to its value. -/
def Env.Gives (env : Env) (vars : List LoopVar) (values : List Int64) : Prop :=
  List.Forall₂ (fun v x => env v.name = some x) vars values

namespace Affine

/-- The terms without the zero weights add up as all terms do: a zero term changes no partial
    sum, so it cannot hide an overflow either. -/
theorem sum_filter_zip (e : Affine) {env : Env} {vars : List LoopVar} {values : List Int64}
    (hb : env.Gives vars values) (weights : List Int64) (total : Int64) :
    e.sum env total (((vars.map LoopVar.name).zip weights).filter fun term => term.2 != 0) =
      (Axis.sum? total (values.zip weights)).elim
        (.error (.malformedAccess (.indexOverflow e.text))) .ok := by
  induction hb generalizing weights total with
  | nil => rfl
  | @cons v x vars values hx _ ih =>
    cases weights with
    | nil => rfl
    | cons w weights =>
      by_cases hw : w = 0
      · subst hw
        have ht : ((Checked.mul? x 0).bind (Checked.add? total)) = some total := by
          rw [Checked.mul?_zero_right]
          exact Checked.add?_zero_right total
        simp only [List.map_cons, List.zip_cons_cons, Axis.sum?, ht]
        rw [List.filter_cons_of_neg (by simp)]
        exact ih weights total
      · simp only [List.map_cons, List.zip_cons_cons, Axis.sum?]
        rw [List.filter_cons_of_pos (by simpa using hw)]
        simp only [sum, hx, Checked.mul?_comm w x]
        cases (Checked.mul? x w).bind (Checked.add? total) with
        | none => rfl
        | some t => exact ih weights t

/-- The expression of an axis has the value of the axis. -/
theorem evaluate_expression (a : Axis) {env : Env} {vars : List LoopVar} {values : List Int64}
    (hb : env.Gives vars values) :
    (a.expression vars).evaluate env = (a.coordinate? values).elim
      (.error (.malformedAccess (.indexOverflow (a.expression vars).text))) .ok :=
  sum_filter_zip _ hb a.weights a.offset

end Affine

namespace Axis

/-- The coordinates of the axes, where each of them has one. -/
theorem coordinates_eq_ok {rank : Nat} {values : List Int64} {axes : List Axis}
    (hd : ∀ a ∈ axes, a.dim < rank) (hc : ∀ a ∈ axes, (a.coordinate? values).isSome) :
    coordinates rank values axes =
      .ok (axes.map fun a => (a.dim, (a.coordinate? values).getD 0)) := by
  induction axes with
  | nil => rfl
  | cons a axes ih =>
    obtain ⟨c, ha⟩ := Option.isSome_iff_exists.1 (hc a (by simp))
    have hr : ¬ rank ≤ a.dim := Nat.not_le.2 (hd a (by simp))
    rw [coordinates, if_neg hr, ha,
      ih (fun b h => hd b (List.mem_cons_of_mem a h)) (fun b h => hc b (List.mem_cons_of_mem a h))]
    simp [ha, Except.map]

/-- Where there are coordinates, every axis lies below the rank and has one. -/
theorem of_coordinates_eq_ok {rank : Nat} {values : List Int64} {axes : List Axis}
    {found : List (Nat × Int64)} (h : coordinates rank values axes = .ok found) :
    ∀ a ∈ axes, a.dim < rank ∧ (a.coordinate? values).isSome := by
  induction axes generalizing found with
  | nil => exact fun a ha => absurd ha List.not_mem_nil
  | cons b axes ih =>
    rw [coordinates] at h
    split at h
    · cases h
    · next hr =>
      cases hb : b.coordinate? values with
      | none => simp [hb] at h
      | some c =>
        cases hrest : coordinates rank values axes with
        | error fault => simp [hb, hrest, Except.map] at h
        | ok rest =>
          intro a ha
          rcases List.mem_cons.1 ha with rfl | ha
          · exact ⟨Nat.not_le.1 hr, by rw [hb]; rfl⟩
          · exact ih hrest a ha

theorem lookup_map_dim {β : Type} (f : Axis → β) (axes : List Axis) (dim : Nat) :
    (axes.map fun a => (a.dim, f a)).lookup dim = (axes.find? (·.dim == dim)).map f := by
  induction axes with
  | nil => rfl
  | cons a axes ih =>
    by_cases h : a.dim = dim
    · simp [h]
    · rw [List.map_cons, Lists.lookup_cons_of_ne (Ne.symm h), ih]
      simp [h]

end Axis

namespace Access

/-- The coordinate along a dimension: that of its axis, or 0 where none selects it. -/
def coordinateAt (m : Access) (values : List Int64) (dim : Nat) : Int64 :=
  ((m.axis? dim).bind fun a => a.coordinate? values).getD 0

theorem mem_axes_of_axis? {m : Access} {dim : Nat} {a : Axis} (h : m.axis? dim = some a) :
    a ∈ m.axes ∧ a.dim = dim := by
  unfold axis? at h
  exact ⟨List.mem_of_find?_eq_some h, by simpa using List.find?_some h⟩

theorem resolve_eq_ok {m : Access} {rank : Nat} {values : List Int64}
    (hv : values.length = m.vars.length) (hd : ∀ a ∈ m.axes, a.dim < rank)
    (hc : ∀ a ∈ m.axes, (a.coordinate? values).isSome) :
    m.resolve rank values = .ok ((List.range rank).map (m.coordinateAt values)) := by
  unfold resolve
  rw [if_neg (by simpa using hv), Axis.coordinates_eq_ok hd hc]
  have hl : ∀ dim, (((m.axes.map fun a => (a.dim, (a.coordinate? values).getD 0)).lookup
      dim).getD 0) = m.coordinateAt values dim := by
    intro dim
    rw [Axis.lookup_map_dim]
    unfold coordinateAt axis?
    cases m.axes.find? (·.dim == dim) <;> rfl
  simp only [Except.map, hl]

/-- Where a map resolves, all its axes have coordinates, and the tile is made of them. -/
theorem of_resolve_eq_ok {m : Access} {rank : Nat} {values tile : List Int64}
    (h : m.resolve rank values = .ok tile) :
    (∀ a ∈ m.axes, (a.coordinate? values).isSome) ∧
      tile = (List.range rank).map (m.coordinateAt values) := by
  have hlen : values.length = m.vars.length := by
    by_contra hne
    rw [resolve, if_pos hne] at h
    cases h
  have hall : ∀ a ∈ m.axes, a.dim < rank ∧ (a.coordinate? values).isSome := by
    rw [resolve, if_neg (not_not.2 hlen)] at h
    cases hc : Axis.coordinates rank values m.axes with
    | error fault => simp [hc, Except.map] at h
    | ok found => exact Axis.of_coordinates_eq_ok hc
  rw [resolve_eq_ok hlen (fun a ha => (hall a ha).1) (fun a ha => (hall a ha).2)] at h
  exact ⟨fun a ha => (hall a ha).2, (Except.ok.inj h).symm⟩

theorem evaluate_index_eq_ok {m : Access} {values : List Int64} (rank : Nat)
    (hc : ∀ a ∈ m.axes, (a.coordinate? values).isSome) {env : Env}
    (hb : env.Gives m.vars values) :
    (m.index rank).evaluate env = .ok ((List.range rank).map (m.coordinateAt values)) := by
  unfold index TileIndex.evaluate
  rw [Lists.mapM_eq_ok_iff, List.forall₂_map_left_iff, List.forall₂_map_right_iff,
    List.forall₂_same]
  intro dim _
  unfold coordinateAt
  cases h : m.axis? dim with
  | none => rfl
  | some a =>
    obtain ⟨c, ha⟩ := Option.isSome_iff_exists.1 (hc a (mem_axes_of_axis? h).1)
    simp [Affine.evaluate_expression a hb, ha]

end Access

/-! ## The interval check -/

namespace Axis

/-- Extends the range `least` to `greatest` by the smallest and the largest contribution of each
    variable with its weight, if there is one within 64 bits. -/
def extend? (least greatest : Int64) : List (LoopVar × Int64) → Option (Int64 × Int64)
  | [] => some (least, greatest)
  | (v, weight) :: terms => do
    let first ← Checked.mul? weight v.low
    let top ← Checked.ofInt? (v.high.toInt - 1)
    let last ← Checked.mul? weight top
    let least ← Checked.add? least (min first last)
    let greatest ← Checked.add? greatest (max first last)
    extend? least greatest terms

/-- The least and the greatest coordinate over the ranges of the variables, none of them empty. -/
def bounds? (a : Axis) (vars : List LoopVar) : Option (Int64 × Int64) :=
  extend? a.offset a.offset (vars.zip a.weights)

/-- The contribution of a variable lies between those of its first and its last value. -/
theorem term_between {weight x low high first last : Int} (hl : low ≤ x) (hh : x ≤ high)
    (hf : first = weight * low) (he : last = weight * high) :
    min first last ≤ x * weight ∧ x * weight ≤ max first last := by
  subst hf he
  rcases Int.le_total 0 weight with hw | hw
  · have h1 : weight * low ≤ weight * x := Int.mul_le_mul_of_nonneg_left hl hw
    have h2 : weight * x ≤ weight * high := Int.mul_le_mul_of_nonneg_left hh hw
    rw [Int.mul_comm x]
    omega
  · have h1 : weight * x ≤ weight * low := Int.mul_le_mul_of_nonpos_left hw hl
    have h2 : weight * high ≤ weight * x := Int.mul_le_mul_of_nonpos_left hw hh
    rw [Int.mul_comm x]
    omega

/-- The bounds contain the sum at every point of the box. Each partial sum lies between the
    partial bounds, which are numbers of 64 bits, so it is one too. -/
theorem sum?_of_extend? {vars : List LoopVar} {values : List Int64}
    (hv : List.Forall₂ (fun v x => x ∈ v.values) vars values) (weights : List Int64)
    {least greatest total l g : Int64} (hl : least.toInt ≤ total.toInt)
    (hg : total.toInt ≤ greatest.toInt)
    (hb : extend? least greatest (vars.zip weights) = some (l, g)) :
    ∃ c, sum? total (values.zip weights) = some c ∧ l.toInt ≤ c.toInt ∧ c.toInt ≤ g.toInt := by
  induction hv generalizing weights least greatest total with
  | nil =>
    simp only [List.zip_nil_left, extend?, Option.some.injEq, Prod.mk.injEq] at hb
    exact ⟨total, rfl, hb.1 ▸ hl, hb.2 ▸ hg⟩
  | @cons v x vars values hx _ ih =>
    cases weights with
    | nil =>
      simp only [List.zip_nil_right, extend?, Option.some.injEq, Prod.mk.injEq] at hb
      exact ⟨total, rfl, hb.1 ▸ hl, hb.2 ▸ hg⟩
    | cons w weights =>
      simp only [List.zip_cons_cons, extend?, Option.bind_eq_bind, Option.bind_eq_some_iff] at hb
      obtain ⟨first, hf, top, htop, last, he, least', hl', greatest', hg', hb⟩ := hb
      rw [Checked.mul?_eq_some_iff] at hf he
      rw [Checked.add?_eq_some_iff, toInt_min] at hl'
      rw [Checked.add?_eq_some_iff, toInt_max] at hg'
      have hr := LoopVar.mem_values.1 hx
      rw [Checked.ofInt?_eq_some_iff.1 htop] at he
      have ht := term_between hr.1 (by omega : x.toInt ≤ v.high.toInt - 1) hf he
      obtain ⟨p, hp, ep⟩ : ∃ p, Checked.mul? x w = some p ∧ p.toInt = x.toInt * w.toInt :=
        Checked.ofInt?_of_between (min first last) (max first last)
          (toInt_min first last ▸ ht.1) (toInt_max first last ▸ ht.2)
      obtain ⟨t, ht', et⟩ : ∃ t, Checked.add? total p = some t ∧ t.toInt = total.toInt + p.toInt :=
        Checked.ofInt?_of_between least' greatest' (by omega) (by omega)
      obtain ⟨c, hc, hlc, hcg⟩ := ih weights (by omega : least'.toInt ≤ t.toInt) (by omega) hb
      refine ⟨c, ?_, hlc, hcg⟩
      simp only [List.zip_cons_cons, sum?, hp, Option.bind_some, ht', hc]

theorem coordinate?_mem_bounds {a : Axis} {vars : List LoopVar} {values : List Int64}
    (hv : List.Forall₂ (fun v x => x ∈ v.values) vars values) {l g : Int64}
    (hb : a.bounds? vars = some (l, g)) :
    ∃ c, a.coordinate? values = some c ∧ l.toInt ≤ c.toInt ∧ c.toInt ≤ g.toInt :=
  sum?_of_extend? hv a.weights (Int.le_refl _) (Int.le_refl _) hb

end Axis

namespace Access

/-- The axes are the columns of the tables. -/
theorem getElem?_axes (m : Access) (k : Nat) : m.axes[k]? =
    m.dims[k]?.map fun dim => ⟨dim, m.rows.map (·.getD k 0), m.offsets.getD k 0⟩ := by
  rw [axes, axesOf, List.getElem?_mapIdx]

theorem join_run_extend {k : Nat} {ps : List (LoopVar × List Int64)}
    (hk : ∀ p ∈ ps, k < p.2.length) (least greatest : Int64) :
    (extend k least greatest ps).run.join =
      Axis.extend? least greatest (ps.map fun p => (p.1, p.2.getD k 0)) := by
  induction ps generalizing least greatest with
  | nil => rfl
  | cons p ps ih =>
    obtain ⟨v, row⟩ := p
    rw [List.forall_mem_cons] at hk
    have hentry : row[k]? = some (row.getD k 0) := by
      rw [List.getD_eq_getElem?_getD, List.getElem?_eq_getElem hk.1, Option.getD_some]
    simp only [extend, Arith.run_bind, Arith.run_entry, hentry, Option.bind_some,
      Arith.join_run_orStop, Arith.run_product, Arith.run_decrement, Option.join_some,
      List.map_cons, Axis.extend?, Option.bind_eq_bind]
    refine Option.bind_congr fun first _ => ?_
    cases Checked.ofInt? (v.high.toInt - 1) with
    | none => rfl
    | some top => simp only [Option.bind_some, Arith.join_run_orStop, Arith.run_product,
        Arith.run_sum, Option.join_some, ih hk.2]

/-- The bounds along a selected dimension are those of its axis. -/
theorem run_bounds_eq_some_iff {m : Access} {k : Nat} {a : Axis} (ha : m.axes[k]? = some a)
    {range : Int64 × Int64} :
    (m.bounds k).run = some (some range) ↔ a.bounds? m.vars = some range := by
  rw [getElem?_axes] at ha
  obtain ⟨dim, hdim, rfl⟩ := Option.map_eq_some_iff.1 ha
  have hk : k < m.dims.length := (List.getElem?_eq_some_iff.1 hdim).1
  have hoffset : m.offsets[k]? = some (m.offsets.getD k 0) := by
    rw [List.getD_eq_getElem?_getD, List.getElem?_eq_getElem (m.offset_count ▸ hk),
      Option.getD_some]
  have hrows : ∀ p ∈ m.vars.zip m.rows, k < p.2.length := by
    intro p hp
    rw [m.row_widths p.2 (List.of_mem_zip hp).2]
    exact hk
  rw [← Option.join_eq_some_iff, bounds]
  simp only [Arith.run_bind, Arith.run_entry, hoffset, Option.bind_some, join_run_extend hrows,
    Axis.bounds?, List.zip_map_right]
  rfl

end Access

/-! ## Numbers of tiles -/

theorem volume_pos {shape : List Nat} (hpos : ∀ e ∈ shape, 0 < e) : 0 < volume shape := by
  induction shape with
  | nil => exact Nat.one_pos
  | cons d shape ih =>
    rw [List.forall_mem_cons] at hpos
    exact Nat.mul_pos hpos.1 (ih hpos.2)

theorem le_volume {shape : List Nat} (hpos : ∀ e ∈ shape, 0 < e) {e : Nat} (he : e ∈ shape) :
    e ≤ volume shape := by
  induction shape with
  | nil => cases he
  | cons d shape ih =>
    rw [List.forall_mem_cons] at hpos
    rcases List.mem_cons.1 he with rfl | he
    · exact Nat.le_mul_of_pos_right e (volume_pos hpos.2)
    · exact Nat.le_trans (ih hpos.2 he) (Nat.le_mul_of_pos_left _ hpos.1)

/-- An element has at least two bytes, so an extent leaves the sign of a 64-bit number free. -/
theorem Tensor.extent_le (t : Tensor) {e : Nat} (he : e ∈ t.shape) :
    (e : Int) ≤ Int64.maxValue.toInt := by
  have hvol := le_volume t.extent_pos he
  have hbytes := t.bytes_lt
  have hmul : 2 * volume t.shape ≤ t.dtype.size * volume t.shape :=
    Nat.mul_le_mul_right _ t.dtype.two_le_size
  rw [Checked.sizeLimit] at hbytes
  rw [Int64.toInt_maxValue]
  omega

namespace Movement

/-- The number of tiles along each dimension: how often the smaller end fits into the larger. -/
def tilesBetween (source dest : Tensor) : List Nat :=
  List.zipWith (fun s d => max s d / min s d) source.shape dest.shape

theorem tilesBetween_le (source dest : Tensor) {count : Nat}
    (h : count ∈ tilesBetween source dest) : (count : Int) ≤ Int64.maxValue.toInt := by
  obtain ⟨i, hi, rfl⟩ := List.getElem_of_mem h
  unfold tilesBetween at hi ⊢
  rw [List.length_zipWith] at hi
  rw [List.getElem_zipWith]
  have hs := source.extent_le (List.getElem_mem (by omega : i < source.shape.length))
  have hd := dest.extent_le (List.getElem_mem (by omega : i < dest.shape.length))
  have hdiv := Nat.div_le_self (max source.shape[i] dest.shape[i])
    (min source.shape[i] dest.shape[i])
  omega

/-! ## What the check asks for -/

section

variable {edge : String}

/-- One dimension of the numbers of tiles. Extents are positive, so both divisions have results. -/
theorem run_tileCounts_cons {dim a b : Nat} {as bs : List Nat} (ha : 0 < a) (hb : 0 < b) :
    (tileCounts edge dim (a :: as) (b :: bs)).run =
      if max a b % min a b = 0 then
        (tileCounts edge (dim + 1) as bs).run.map (·.map (max a b / min a b :: ·))
      else some (.error (.malformedAccess (.unevenExtents edge dim (max a b) (min a b)))) := by
  have hmin : min a b ≠ 0 := by omega
  rw [tileCounts, Arith.run_bind, Arith.run_remainder hmin, Option.bind_some]
  by_cases h : max a b % min a b = 0
  · rw [if_neg (not_not.2 h), if_pos h]
    simp only [Arith.run_bind, Arith.run_quotient hmin, Option.bind_some, Arith.run_pure,
      Option.map_eq_bind, Function.comp_def]
  · rw [if_pos h, if_neg h, Arith.run_pure]

theorem tileCounts_eq_ok_iff {dim : Nat} {as bs counts : List Nat} (ha : ∀ e ∈ as, 0 < e)
    (hb : ∀ e ∈ bs, 0 < e) : (tileCounts edge dim as bs).run = some (.ok counts) ↔
      counts = List.zipWith (fun a b => max a b / min a b) as bs ∧
        ∀ p ∈ as.zip bs, min p.1 p.2 ∣ max p.1 p.2 := by
  induction as generalizing bs dim counts with
  | nil => simp [tileCounts, eq_comm]
  | cons a as ih =>
    cases bs with
    | nil => simp [tileCounts, eq_comm]
    | cons b bs =>
      rw [List.forall_mem_cons] at ha hb
      rw [run_tileCounts_cons ha.1 hb.1, List.zipWith_cons_cons, List.zip_cons_cons,
        List.forall_mem_cons, Nat.dvd_iff_mod_eq_zero]
      constructor
      · intro h
        split at h
        · next hm =>
          obtain ⟨rest, hr, he⟩ := Option.map_eq_some_iff.1 h
          cases rest with
          | error fault => cases he
          | ok rest =>
            obtain ⟨hrest, hall⟩ := (ih ha.2 hb.2).1 hr
            exact ⟨by rw [← Except.ok.inj he, hrest], hm, hall⟩
        · cases h
      · rintro ⟨rfl, hm, hall⟩
        rw [if_pos hm, (ih ha.2 hb.2).2 ⟨rfl, hall⟩]
        rfl

theorem unselected?_eq_none_iff {dims counts : List Nat} {dim : Nat} :
    unselected? dims dim counts = none ↔
      ∀ i count, counts[i]? = some count → 1 < count → dim + i ∈ dims := by
  induction counts generalizing dim with
  | nil => simp [unselected?]
  | cons tiles counts ih =>
    rw [unselected?]
    constructor
    · intro h i count hi hc
      split at h
      · cases h
      · next hn =>
        cases i with
        | zero =>
          cases Option.some.inj hi
          exact not_not.1 fun ha => hn ⟨hc, ha⟩
        | succ i =>
          rw [show dim + (i + 1) = dim + 1 + i by omega]
          exact ih.1 h i count hi hc
    · intro h
      rw [if_neg fun ⟨hc, ha⟩ => ha (h 0 tiles rfl hc), ih]
      intro i count hi hc
      rw [show dim + 1 + i = dim + (i + 1) by omega]
      exact h (i + 1) count hi hc

/-- One selected dimension of the bounds. Numbers of tiles fit, so reading them with a sign does
    not change them. -/
theorem run_checkBounds_cons {access : Access} {counts : List Nat} {dim k : Nat}
    {selected : List (Nat × Nat)}
    (hcounts : ∀ count ∈ counts, (count : Int) ≤ Int64.maxValue.toInt) :
    (checkBounds edge access counts ((dim, k) :: selected)).run =
      (access.bounds k).run.bind fun bounds =>
        bounds.elim (some (.error (.malformedAccess (.boundsOverflow edge dim)))) fun b =>
          counts[dim]?.bind fun tiles =>
            if 0 ≤ b.1.toInt ∧ b.2.toInt < tiles then (checkBounds edge access counts selected).run
            else some (.error (.outOfBounds edge dim b.1 b.2 tiles)) := by
  rw [checkBounds, Arith.run_bind]
  refine Option.bind_congr fun bounds _ => ?_
  cases bounds with
  | none => rfl
  | some b =>
    obtain ⟨least, greatest⟩ := b
    dsimp only [Option.elim_some]
    rw [Arith.run_bind, Arith.run_entry]
    refine Option.bind_congr fun tiles ht => ?_
    have hle := hcounts tiles (List.mem_of_getElem? ht)
    rw [Int64.toInt_maxValue] at hle
    have hsigned : (Int64.ofNat tiles).toInt = tiles := Int64.toInt_ofNat_of_lt (by omega)
    have hzero : least < 0 ↔ least.toInt < 0 := Int64.lt_iff_toInt_lt
    have hlimit : Int64.ofNat tiles ≤ greatest ↔ (tiles : Int) ≤ greatest.toInt := by
      rw [Int64.le_iff_toInt_le, hsigned]
    by_cases hneg : least < 0
    · rw [if_pos hneg, if_neg fun h => (by omega : ¬ least.toInt < 0) (hzero.1 hneg)]
      rfl
    · rw [if_neg hneg, Arith.run_bind, Arith.run_signed, Option.bind_some]
      rw [hzero] at hneg
      by_cases hbeyond : Int64.ofNat tiles ≤ greatest
      · rw [if_pos hbeyond, if_neg fun h => (by omega : ¬ (tiles : Int) ≤ greatest.toInt)
          (hlimit.1 hbeyond)]
        rfl
      · rw [if_neg hbeyond]
        rw [hlimit] at hbeyond
        rw [if_pos ⟨by omega, by omega⟩]

theorem checkBounds_eq_ok_iff {access : Access} {counts : List Nat}
    (hcounts : ∀ count ∈ counts, (count : Int) ≤ Int64.maxValue.toInt)
    {selected : List (Nat × Nat)} :
    (checkBounds edge access counts selected).run = some (.ok ()) ↔
      ∀ p ∈ selected, ∃ l g count, (access.bounds p.2).run = some (some (l, g)) ∧
        counts[p.1]? = some count ∧ 0 ≤ l.toInt ∧ g.toInt < (count : Nat) := by
  induction selected with
  | nil => simp [checkBounds]
  | cons p selected ih =>
    obtain ⟨dim, k⟩ := p
    rw [run_checkBounds_cons hcounts, List.forall_mem_cons, ← ih]
    constructor
    · intro h
      obtain ⟨bounds, hb, h⟩ := Option.bind_eq_some_iff.1 h
      cases bounds with
      | none => cases h
      | some b =>
        obtain ⟨tiles, ht, h⟩ := Option.bind_eq_some_iff.1 h
        split at h
        · next hin => exact ⟨⟨b.1, b.2, tiles, hb, ht, hin⟩, h⟩
        · cases h
    · rintro ⟨⟨l, g, count, hb, hc, hin⟩, h⟩
      rw [hb, Option.bind_some, Option.elim_some, hc, Option.bind_some, if_pos hin, h]

end

/-- What the check of the two ends and the map of a movement asks for. -/
structure Fits (source dest : Tensor) (access : Access) : Prop where
  ranks : source.rank = dest.rank
  dims : ∀ dim ∈ access.dims, dim < source.rank
  multiples : ∀ p ∈ source.shape.zip dest.shape, min p.1 p.2 ∣ max p.1 p.2
  selected : ∀ dim count, (tilesBetween source dest)[dim]? = some count → 1 < count →
    dim ∈ access.dims
  bounds : access.vars.any LoopVar.isEmpty = false → ∀ a ∈ access.axes,
    ∃ l g count, a.bounds? access.vars = some (l, g) ∧
      (tilesBetween source dest)[a.dim]? = some count ∧ 0 ≤ l.toInt ∧ g.toInt < (count : Nat)

theorem find?_dims_eq_none_iff {access : Access} {rank : Nat} :
    access.dims.find? (rank ≤ ·) = none ↔ ∀ dim ∈ access.dims, dim < rank := by
  simp

/-- The check of the selected dimensions is one of the axes. -/
theorem checkBounds_zipIdx_iff {edge : String} {source dest : Tensor} {access : Access} :
    (checkBounds edge access (tilesBetween source dest) access.dims.zipIdx).run = some (.ok ()) ↔
      ∀ a ∈ access.axes, ∃ l g count, a.bounds? access.vars = some (l, g) ∧
        (tilesBetween source dest)[a.dim]? = some count ∧ 0 ≤ l.toInt ∧
          g.toInt < (count : Nat) := by
  rw [checkBounds_eq_ok_iff fun _ => tilesBetween_le source dest]
  constructor
  · intro h a ha
    obtain ⟨k, hk⟩ := List.mem_iff_getElem?.1 ha
    have hdim : access.dims[k]? = some a.dim := by
      rw [← access.map_dim_axes, List.getElem?_map, hk]
      rfl
    obtain ⟨l, g, count, hb, hin⟩ := h (a.dim, k) (List.mem_zipIdx_iff_getElem?.2 hdim)
    exact ⟨l, g, count, (Access.run_bounds_eq_some_iff hk).1 hb, hin⟩
  · intro h p hp
    have hdim := List.mem_zipIdx_iff_getElem?.1 hp
    rw [← access.map_dim_axes, List.getElem?_map] at hdim
    obtain ⟨a, hk, he⟩ := Option.map_eq_some_iff.1 hdim
    obtain ⟨l, g, count, hb, hin⟩ := h a (List.mem_of_getElem? hk)
    exact ⟨l, g, count, (Access.run_bounds_eq_some_iff hk).2 hb, he ▸ hin⟩

theorem tileCounts_between_iff {edge : String} {source dest : Tensor} {counts : List Nat} :
    (tileCounts edge 0 source.shape dest.shape).run = some (.ok counts) ↔
      counts = tilesBetween source dest ∧
        ∀ p ∈ source.shape.zip dest.shape, min p.1 p.2 ∣ max p.1 p.2 :=
  tileCounts_eq_ok_iff source.extent_pos dest.extent_pos

theorem checkEnds_eq_ok_iff {source dest : Tensor} {access : Access} :
    (checkEnds source dest access).run = some (.ok ()) ↔ Fits source dest access := by
  unfold checkEnds
  dsimp only
  constructor
  · intro h
    split at h
    · cases h
    · next hr =>
      split at h
      · cases h
      · next hd =>
        rw [Arith.run_bind] at h
        obtain ⟨counts, hc, h⟩ := Option.bind_eq_some_iff.1 h
        cases counts with
        | error fault => cases h
        | ok counts =>
          obtain ⟨rfl, hm⟩ := tileCounts_between_iff.1 hc
          dsimp only at h
          split at h
          · cases h
          · next hu =>
            refine ⟨not_not.1 hr, find?_dims_eq_none_iff.1 hd, hm, fun dim count hi hone => ?_,
              fun he => ?_⟩
            · rw [← Nat.zero_add dim]
              exact unselected?_eq_none_iff.1 hu dim count hi hone
            · rw [he, if_neg Bool.false_ne_true] at h
              exact checkBounds_zipIdx_iff.1 h
  · intro h
    have hu : unselected? access.dims 0 (tilesBetween source dest) = none := by
      rw [unselected?_eq_none_iff]
      intro i count hi hone
      rw [Nat.zero_add]
      exact h.selected i count hi hone
    rw [if_neg (not_not.2 h.ranks), find?_dims_eq_none_iff.2 h.dims]
    dsimp only
    rw [Arith.run_bind, tileCounts_between_iff.2 ⟨rfl, h.multiples⟩, Option.bind_some]
    dsimp only
    rw [hu]
    dsimp only
    cases he : access.vars.any LoopVar.isEmpty with
    | true => rfl
    | false => exact checkBounds_zipIdx_iff.2 (h.bounds he)

theorem check_eq_ok_iff {source dest : Tensor} {access : Access} {route : Route} :
    check source dest access = .ok route ↔
      Route.between? source.tier dest.tier = some route ∧ Fits source dest access := by
  rw [← checkEnds_eq_ok_iff, check, inspect]
  cases Route.between? source.tier dest.tier with
  | none => simp
  | some r =>
    dsimp only
    rw [Arith.run_bind]
    cases (checkEnds source dest access).run with
    | none => simp
    | some ends =>
      cases ends with
      | error fault => simp [Except.map]
      | ok u => simp [Except.map]

/-! ## Movements -/

theorem fits (m : Movement) : Fits m.source m.dest m.access := (check_eq_ok_iff.1 m.valid).2

/-- The number of tiles along each dimension. -/
def tiles (m : Movement) : List Nat := tilesBetween m.source m.dest

/-- The coordinates pick a tile of the movement: one for each dimension, from 0 on and below the
    number of tiles there. -/
def Inside (m : Movement) (tile : List Int64) : Prop :=
  tile.length = m.source.rank ∧
    List.Forall₂ (fun (c : Int64) (count : Nat) => 0 ≤ c.toInt ∧ c.toInt < count) tile m.tiles

theorem length_tiles (m : Movement) : m.tiles.length = m.source.rank := by
  have h : m.dest.shape.length = m.source.shape.length := m.fits.ranks.symm
  simp [tiles, tilesBetween, Tensor.rank, h]

theorem tiles_pos (m : Movement) {count : Nat} (h : count ∈ m.tiles) : 0 < count := by
  obtain ⟨i, hi, rfl⟩ := List.getElem_of_mem h
  unfold tiles tilesBetween at hi ⊢
  rw [List.length_zipWith] at hi
  have hs := m.source.extent_pos _ (List.getElem_mem (by omega : i < m.source.shape.length))
  have hd := m.dest.extent_pos _ (List.getElem_mem (by omega : i < m.dest.shape.length))
  rw [List.getElem_zipWith]
  exact Nat.div_pos (by omega) (by omega)

/-- A loop that has a value is not empty. -/
theorem no_empty_of_values {vars : List LoopVar} {values : List Int64}
    (hv : List.Forall₂ (fun v x => x ∈ LoopVar.values v) vars values) :
    vars.any LoopVar.isEmpty = false := by
  induction hv with
  | nil => rfl
  | cons hx _ ih =>
    have h := LoopVar.mem_values.1 hx
    rw [List.any_cons, ih, Bool.or_false, LoopVar.isEmpty, beq_eq_false_iff_ne]
    intro he
    rw [he] at h
    omega

/-- The coordinate along each dimension stays below the number of tiles there. -/
theorem coordinateAt_inside (m : Movement) {values : List Int64}
    (hv : List.Forall₂ (fun v x => x ∈ LoopVar.values v) m.access.vars values) {i : Nat}
    (hi : i < m.tiles.length) :
    0 ≤ (m.access.coordinateAt values i).toInt ∧
      (m.access.coordinateAt values i).toInt < (m.tiles.get ⟨i, hi⟩ : Nat) := by
  unfold Access.coordinateAt
  cases h : m.access.axis? i with
  | none =>
    have := m.tiles_pos (List.get_mem m.tiles ⟨i, hi⟩)
    simpa using this
  | some a =>
    obtain ⟨ha, hd⟩ := Access.mem_axes_of_axis? h
    obtain ⟨l, g, count, hb, hcount, hl, hg⟩ := m.fits.bounds (no_empty_of_values hv) a ha
    obtain ⟨c, hc, hlc, hcg⟩ := Axis.coordinate?_mem_bounds hv hb
    have ht : m.tiles.get ⟨i, hi⟩ = count := by
      rw [hd] at hcount
      exact Option.some.inj ((List.getElem?_eq_getElem hi).symm.trans hcount)
    rw [ht]
    simp only [Option.bind_some, hc, Option.getD_some]
    omega

/-- For values in the ranges of its map's variables a movement has a tile, the tile lies inside,
    and the symbolic form has the same value wherever the variables have these values. -/
theorem resolve_inside (m : Movement) {values : List Int64}
    (hv : List.Forall₂ (fun v x => x ∈ LoopVar.values v) m.access.vars values) :
    ∃ tile, m.resolve values = .ok tile ∧ m.Inside tile ∧
      ∀ env : Env, env.Gives m.access.vars values → m.index.evaluate env = .ok tile := by
  have hc : ∀ a ∈ m.access.axes, (a.coordinate? values).isSome := by
    intro a ha
    obtain ⟨l, g, -, hb, -⟩ := m.fits.bounds (no_empty_of_values hv) a ha
    obtain ⟨c, hc, -, -⟩ := Axis.coordinate?_mem_bounds hv hb
    simp [hc]
  have hdims : ∀ a ∈ m.access.axes, a.dim < m.source.rank := by
    intro a ha
    apply m.fits.dims
    rw [← m.access.map_dim_axes]
    exact List.mem_map_of_mem ha
  refine ⟨_, Access.resolve_eq_ok hv.length_eq.symm hdims hc, ⟨by simp, ?_⟩,
    fun env he => Access.evaluate_index_eq_ok _ hc he⟩
  rw [List.forall₂_iff_get]
  refine ⟨by simp [length_tiles], fun i h1 h2 => ?_⟩
  simpa using m.coordinateAt_inside hv h2

end Movement

end TileNest
