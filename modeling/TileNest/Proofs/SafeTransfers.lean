import TileNest.Proofs.Construction
import TileNest.Proofs.Coordinates

/-
  Which movements are accepted. `Coordinates` shows that what the interval check accepts is inside
  the tiles at every point of the iteration box; here the other direction. The bounds of the check
  are the coordinates of two corners of the box (`Axis.bounds?_attained`), and where the arithmetic
  of the bounds leaves the range, so does the coordinate at some corner (`Axis.bounds?_overflow`).
  Hence every refusal has a point to show for it, and `Movement.make_exact` states the check as a
  property of the points of the box.

  All loops have ranges that do not run backward, as `LoopVar.make` checks. With an empty range the
  box has no points and no bound is looked at.
-/

namespace TileNest

/-! ## Points of the box -/

namespace LoopVar

/-- The values are a point of the iteration box: one for each variable, in its range. -/
def Point (vars : List LoopVar) (values : List Int64) : Prop :=
  List.Forall₂ (fun v x => v.low ≤ x ∧ x < v.high) vars values

theorem mem_values_iff {v : LoopVar} {x : Int64} : x ∈ v.values ↔ v.low ≤ x ∧ x < v.high := by
  rw [mem_values, Int64.le_iff_toInt_le, Int64.lt_iff_toInt_lt]

theorem Point.mem_values {vars : List LoopVar} {point : List Int64} (h : Point vars point) :
    List.Forall₂ (fun v x => x ∈ v.values) vars point :=
  h.imp fun _ _ => mem_values_iff.2

theorem make_eq_ok_iff {v : LoopVar} : make v.name v.low v.high = .ok v ↔ v.low ≤ v.high := by
  have hlt : ¬ v.high < v.low ↔ v.low ≤ v.high := by
    rw [Int64.le_iff_toInt_le, Int64.lt_iff_toInt_lt]
    omega
  unfold make
  rw [← hlt]
  constructor
  · intro h
    split at h
    · cases h
    · assumption
  · exact fun h => if_neg h

/-- A loop that was made and is not empty runs. -/
theorem low_lt_high {v : LoopVar} (hm : make v.name v.low v.high = .ok v)
    (he : v.isEmpty = false) : v.low < v.high := by
  have hle := Int64.le_iff_toInt_le.1 (make_eq_ok_iff.1 hm)
  rw [isEmpty, beq_eq_false_iff_ne] at he
  have hne : v.low.toInt ≠ v.high.toInt := fun h => he (Int64.toInt_inj.1 h)
  rw [Int64.lt_iff_toInt_lt]
  omega

theorem low_mem_values {v : LoopVar} (h : v.low < v.high) : v.low ∈ v.values :=
  mem_values_iff.2 ⟨Int64.le_refl v.low, h⟩

theorem exists_last {v : LoopVar} (h : v.low < v.high) :
    ∃ top, Checked.ofInt? (v.high.toInt - 1) = some top ∧ top ∈ v.values := by
  have hlow := (Checked.toInt_mem_range v.low).1
  rw [Int64.lt_iff_toInt_lt] at h
  obtain ⟨top, htop, hvalue⟩ :=
    Checked.ofInt?_of_between v.low v.high (by omega) (by omega : v.high.toInt - 1 ≤ v.high.toInt)
  refine ⟨top, htop, mem_values.2 ?_⟩
  omega

theorem exists_point {vars : List LoopVar} (h : ∀ v ∈ vars, v.low < v.high) :
    ∃ point, Point vars point := by
  refine ⟨vars.map low, ?_⟩
  unfold Point
  rw [List.forall₂_map_right_iff, List.forall₂_same]
  exact fun v hv => ⟨Int64.le_refl v.low, h v hv⟩

end LoopVar

/-! ## The bounds are attained -/

namespace Axis

open LoopVar (Point)

theorem sum?_cons_of_some {x w total t : Int64} {xs ws : List Int64}
    (h : (Checked.mul? x w).bind (Checked.add? total) = some t) :
    sum? total ((x :: xs).zip (w :: ws)) = sum? t (xs.zip ws) := by
  rw [List.zip_cons_cons, sum?, h]

theorem sum?_cons_of_none {x w total : Int64} {xs ws : List Int64}
    (h : (Checked.mul? x w).bind (Checked.add? total) = none) :
    sum? total ((x :: xs).zip (w :: ws)) = none := by
  rw [List.zip_cons_cons, sum?, h]

/-- The smaller and the larger contribution of a variable are those of values it takes. -/
theorem exists_contribution {v : LoopVar} (hv : v.low < v.high) {top w first last : Int64}
    (htop : top ∈ v.values) (hf : Checked.mul? w v.low = some first)
    (hl : Checked.mul? w top = some last) :
    (∃ x ∈ v.values, Checked.mul? x w = some (min first last)) ∧
      ∃ x ∈ v.values, Checked.mul? x w = some (max first last) := by
  rw [Checked.mul?_comm] at hf hl
  have hlow := LoopVar.low_mem_values hv
  rw [show min first last = if first ≤ last then first else last from rfl,
    show max first last = if first ≤ last then last else first from rfl]
  by_cases h : first ≤ last
  · rw [if_pos h, if_pos h]
    exact ⟨⟨v.low, hlow, hf⟩, top, htop, hl⟩
  · rw [if_neg h, if_neg h]
    exact ⟨⟨top, htop, hl⟩, v.low, hlow, hf⟩

/-- What one variable does to a range: both ends move by values that the variable takes, or at
    such a value a sum leaves the range of 64 bits and the range is given up. -/
theorem extend?_cons {v : LoopVar} (hv : v.low < v.high) (w least greatest : Int64)
    (vars : List LoopVar) (weights : List Int64) :
    (extend? least greatest ((v :: vars).zip (w :: weights)) = none ∧
      ∃ x ∈ v.values, (Checked.mul? x w).bind (Checked.add? least) = none ∨
        (Checked.mul? x w).bind (Checked.add? greatest) = none) ∨
    ∃ l g,
      extend? least greatest ((v :: vars).zip (w :: weights)) = extend? l g (vars.zip weights) ∧
      (∃ x ∈ v.values, (Checked.mul? x w).bind (Checked.add? least) = some l) ∧
      ∃ x ∈ v.values, (Checked.mul? x w).bind (Checked.add? greatest) = some g := by
  obtain ⟨top, htop, hlast⟩ := LoopVar.exists_last hv
  rw [List.zip_cons_cons]
  -- A product out of range is met at the first or the last value.
  cases hf : Checked.mul? w v.low with
  | none =>
    refine .inl ⟨by simp [extend?, hf], v.low, LoopVar.low_mem_values hv, .inl ?_⟩
    rw [Checked.mul?_comm, hf]
    rfl
  | some first =>
    cases hl : Checked.mul? w top with
    | none =>
      refine .inl ⟨by simp [extend?, hf, htop, hl], top, hlast, .inl ?_⟩
      rw [Checked.mul?_comm, hl]
      rfl
    | some last =>
      obtain ⟨⟨x, hx, hmin⟩, y, hy, hmax⟩ := exists_contribution hv hlast hf hl
      cases hleast : Checked.add? least (min first last) with
      | none =>
        refine .inl ⟨by simp [extend?, hf, htop, hl, hleast], x, hx, .inl ?_⟩
        rw [hmin]
        exact hleast
      | some l =>
        cases hgreatest : Checked.add? greatest (max first last) with
        | none =>
          refine .inl ⟨by simp [extend?, hf, htop, hl, hleast, hgreatest], y, hy, .inr ?_⟩
          rw [hmax]
          exact hgreatest
        | some g =>
          refine .inr ⟨l, g, by simp [extend?, hf, htop, hl, hleast, hgreatest],
            ⟨x, hx, by rw [hmin]; exact hleast⟩, y, hy, by rw [hmax]; exact hgreatest⟩

/-- Both ends of an extended range are sums at points of the box, each from its own start. -/
theorem extend?_attained {vars : List LoopVar} (hv : ∀ v ∈ vars, v.low < v.high)
    (weights : List Int64) {least greatest l g : Int64}
    (hb : extend? least greatest (vars.zip weights) = some (l, g)) :
    (∃ point, Point vars point ∧ sum? least (point.zip weights) = some l) ∧
      ∃ point, Point vars point ∧ sum? greatest (point.zip weights) = some g := by
  induction vars generalizing weights least greatest with
  | nil =>
    simp only [List.zip_nil_left, extend?, Option.some.injEq, Prod.mk.injEq] at hb
    exact ⟨⟨[], .nil, by rw [← hb.1]; rfl⟩, [], .nil, by rw [← hb.2]; rfl⟩
  | cons v vars ih =>
    rw [List.forall_mem_cons] at hv
    cases weights with
    | nil =>
      obtain ⟨point, hpoint⟩ := LoopVar.exists_point (List.forall_mem_cons.2 hv)
      simp only [List.zip_nil_right, extend?, Option.some.injEq, Prod.mk.injEq] at hb
      rw [← hb.1, ← hb.2]
      exact ⟨⟨point, hpoint, by rw [List.zip_nil_right]; rfl⟩, point, hpoint,
        by rw [List.zip_nil_right]; rfl⟩
    | cons w weights =>
      obtain ⟨hnone, -⟩ | ⟨l', g', heq, ⟨x, hx, hxl⟩, y, hy, hyg⟩ :=
        extend?_cons hv.1 w least greatest vars weights
      · rw [hnone] at hb
        cases hb
      · rw [heq] at hb
        obtain ⟨⟨p, hp, hpl⟩, q, hq, hqg⟩ := ih hv.2 weights hb
        refine ⟨⟨x :: p, .cons (LoopVar.mem_values_iff.1 hx) hp, ?_⟩,
          y :: q, .cons (LoopVar.mem_values_iff.1 hy) hq, ?_⟩
        · rw [sum?_cons_of_some hxl, hpl]
        · rw [sum?_cons_of_some hyg, hqg]

/-- Where the range cannot be extended, the sum at some point of the box leaves the range too. -/
theorem extend?_overflow {vars : List LoopVar} (hv : ∀ v ∈ vars, v.low < v.high)
    (weights : List Int64) {least greatest : Int64}
    (hb : extend? least greatest (vars.zip weights) = none) :
    ∃ point, Point vars point ∧ (sum? least (point.zip weights) = none ∨
      sum? greatest (point.zip weights) = none) := by
  induction vars generalizing weights least greatest with
  | nil => simp [extend?] at hb
  | cons v vars ih =>
    rw [List.forall_mem_cons] at hv
    cases weights with
    | nil => simp [extend?] at hb
    | cons w weights =>
      obtain ⟨-, x, hx, hn⟩ | ⟨l, g, heq, ⟨x, hx, hxl⟩, y, hy, hyg⟩ :=
        extend?_cons hv.1 w least greatest vars weights
      · -- the sum has left the range already, whatever the values of the other variables
        obtain ⟨rest, hrest⟩ := LoopVar.exists_point hv.2
        refine ⟨x :: rest, .cons (LoopVar.mem_values_iff.1 hx) hrest, ?_⟩
        exact hn.imp sum?_cons_of_none sum?_cons_of_none
      · rw [heq] at hb
        obtain ⟨p, hp, hn | hn⟩ := ih hv.2 weights hb
        · refine ⟨x :: p, .cons (LoopVar.mem_values_iff.1 hx) hp, .inl ?_⟩
          rw [sum?_cons_of_some hxl, hn]
        · refine ⟨y :: p, .cons (LoopVar.mem_values_iff.1 hy) hp, .inr ?_⟩
          rw [sum?_cons_of_some hyg, hn]

theorem bounds?_attained {a : Axis} {vars : List LoopVar} (hv : ∀ v ∈ vars, v.low < v.high)
    {l g : Int64} (hb : a.bounds? vars = some (l, g)) :
    (∃ point, Point vars point ∧ a.coordinate? point = some l) ∧
      ∃ point, Point vars point ∧ a.coordinate? point = some g :=
  extend?_attained hv a.weights hb

theorem bounds?_overflow {a : Axis} {vars : List LoopVar} (hv : ∀ v ∈ vars, v.low < v.high)
    (hb : a.bounds? vars = none) : ∃ point, Point vars point ∧ a.coordinate? point = none := by
  obtain ⟨point, hp, h | h⟩ := extend?_overflow hv a.weights hb
  · exact ⟨point, hp, h⟩
  · exact ⟨point, hp, h⟩

end Axis

namespace Movement

open LoopVar (Point)

/-! ## Accepted movements -/

/-- The movement is between adjacent tiers, cuts the larger end into whole tiles along every
    dimension, and picks one of them at every point of the iteration box. -/
structure Safe (source dest : Tensor) (access : Access) : Prop where
  tiers : source.tier.adjacent dest.tier = true
  ranks : source.rank = dest.rank
  dims : ∀ dim ∈ access.dims, dim < source.rank
  multiples : ∀ p ∈ source.shape.zip dest.shape, min p.1 p.2 ∣ max p.1 p.2
  selected : ∀ dim count, (tilesBetween source dest)[dim]? = some count → 1 < count →
    dim ∈ access.dims
  inside : ∀ point, Point access.vars point → ∃ tile, access.resolve source.rank point = .ok tile ∧
    List.Forall₂ (fun (c : Int64) (count : Nat) => 0 ≤ c.toInt ∧ c.toInt < count) tile
      (tilesBetween source dest)

end Movement

namespace Access

theorem axis?_of_mem {m : Access} {a : Axis} (ha : a ∈ m.axes) : m.axis? a.dim = some a := by
  have hn : (m.axes.map Axis.dim).Nodup := m.map_dim_axes ▸ m.dims_nodup
  exact Lists.find?_eq_some_of_nodup hn ha

theorem dim_mem {m : Access} {a : Axis} (ha : a ∈ m.axes) : a.dim ∈ m.dims := by
  rw [← m.map_dim_axes]
  exact List.mem_map_of_mem ha

/-- A tile that a map resolves to has the coordinate of every axis at its dimension. -/
theorem getElem?_of_resolve {m : Access} {rank : Nat} {point tile : List Int64}
    (h : m.resolve rank point = .ok tile) {a : Axis} (ha : a ∈ m.axes) (hd : a.dim < rank) :
    tile[a.dim]? = a.coordinate? point := by
  obtain ⟨hc, rfl⟩ := of_resolve_eq_ok h
  obtain ⟨c, hac⟩ := Option.isSome_iff_exists.1 (hc a ha)
  rw [List.getElem?_map, List.getElem?_range hd, Option.map_some, coordinateAt, axis?_of_mem ha,
    Option.bind_some, hac, Option.getD_some]

end Access

namespace Movement

open LoopVar (Point)

theorem make_of_check {source dest : Tensor} {access : Access} {route : Route}
    (h : check source dest access = .ok route) :
    make source dest access = .ok ⟨source, dest, access, route, h⟩ := by
  unfold make
  split
  · next r hr =>
    have hroute : route = r := Except.ok.inj (h.symm.trans hr)
    subst hroute
    rfl
  · next fault hf =>
    rw [h] at hf
    cases hf

theorem make_eq_error_iff {source dest : Tensor} {access : Access} {fault : Fault} :
    make source dest access = .error fault ↔ check source dest access = .error fault := by
  unfold make
  split
  · next r hr => simp [hr]
  · next f hf => simp [hf]

/-- What is accepted is safe. -/
theorem safe (m : Movement) : Safe m.source m.dest m.access := by
  have hroute : (Route.between? m.source.tier m.dest.tier).isSome := by
    rw [(check_eq_ok_iff.1 m.valid).1]
    rfl
  refine ⟨by rw [← Route.between?_isSome_iff, hroute], m.fits.ranks, m.fits.dims,
    m.fits.multiples, m.fits.selected, fun point hp => ?_⟩
  obtain ⟨tile, ht, hinside, -⟩ := m.resolve_inside hp.mem_values
  exact ⟨tile, ht, hinside.2⟩

section

variable {source dest : Tensor} {access : Access}

/-- The coordinate of an axis at a point, where the movement is safe. -/
theorem Safe.coordinate (h : Safe source dest access) {point : List Int64}
    (hp : Point access.vars point) {a : Axis} (ha : a ∈ access.axes) :
    ∃ c count, a.coordinate? point = some c ∧ (tilesBetween source dest)[a.dim]? = some count ∧
      0 ≤ c.toInt ∧ c.toInt < (count : Nat) := by
  obtain ⟨tile, ht, hinside⟩ := h.inside point hp
  have hd := h.dims a.dim (Access.dim_mem ha)
  obtain ⟨c, hc⟩ := Option.isSome_iff_exists.1 ((Access.of_resolve_eq_ok ht).1 a ha)
  have hat : tile[a.dim]? = some c := (Access.getElem?_of_resolve ht ha hd).trans hc
  obtain ⟨hlt, heq⟩ := List.getElem?_eq_some_iff.1 hat
  have hlt' : a.dim < (tilesBetween source dest).length := hinside.length_eq ▸ hlt
  have hrange := hinside.get hlt hlt'
  rw [List.get_eq_getElem, List.get_eq_getElem, heq] at hrange
  exact ⟨c, _, hc, List.getElem?_eq_getElem hlt', hrange⟩

/-- What is safe passes the interval check: a bound that does not would be met at a corner. -/
theorem Safe.bounds (h : Safe source dest access) (hv : ∀ v ∈ access.vars, v.low < v.high)
    {a : Axis} (ha : a ∈ access.axes) :
    ∃ l g count, a.bounds? access.vars = some (l, g) ∧
      (tilesBetween source dest)[a.dim]? = some count ∧ 0 ≤ l.toInt ∧ g.toInt < (count : Nat) := by
  cases hb : a.bounds? access.vars with
  | none =>
    obtain ⟨point, hp, hnone⟩ := Axis.bounds?_overflow hv hb
    obtain ⟨c, -, hc, -⟩ := h.coordinate hp ha
    rw [hnone] at hc
    cases hc
  | some lg =>
    obtain ⟨⟨p, hp, hpl⟩, q, hq, hqg⟩ := Axis.bounds?_attained hv hb
    obtain ⟨c, -, hc, -, hc0, -⟩ := h.coordinate hp ha
    obtain ⟨e, count, he, hcount, -, hecount⟩ := h.coordinate hq ha
    rw [hpl, Option.some.injEq] at hc
    rw [hqg, Option.some.injEq] at he
    exact ⟨lg.1, lg.2, count, rfl, hcount, hc ▸ hc0, he ▸ hecount⟩

theorem low_lt_high_of_made (hv : ∀ v ∈ access.vars, LoopVar.make v.name v.low v.high = .ok v)
    (he : access.vars.any LoopVar.isEmpty = false) : ∀ v ∈ access.vars, v.low < v.high := by
  rw [List.any_eq_false] at he
  exact fun v hm => LoopVar.low_lt_high (hv v hm) (Bool.eq_false_iff.2 (he v hm))

theorem Safe.fits (h : Safe source dest access)
    (hv : ∀ v ∈ access.vars, LoopVar.make v.name v.low v.high = .ok v) :
    Fits source dest access where
  ranks := h.ranks
  dims := h.dims
  multiples := h.multiples
  selected := h.selected
  bounds he _ ha := h.bounds (low_lt_high_of_made hv he) ha

/-! ## Refused movements -/

theorem checkBounds_outOfBounds {edge label : String} {counts : List Nat}
    (hcounts : ∀ count ∈ counts, (count : Int) ≤ Int64.maxValue.toInt)
    {selected : List (Nat × Nat)} {dim tiles : Nat} {least greatest : Int64}
    (h : (checkBounds edge access counts selected).run =
      some (.error (.outOfBounds label dim least greatest tiles))) :
    ∃ k, (dim, k) ∈ selected ∧ (access.bounds k).run = some (some (least, greatest)) := by
  induction selected with
  | nil => cases h
  | cons p selected ih =>
    obtain ⟨first, k⟩ := p
    rw [run_checkBounds_cons hcounts] at h
    obtain ⟨bounds, hb, h⟩ := Option.bind_eq_some_iff.1 h
    cases bounds with
    | none => cases h
    | some b =>
      obtain ⟨count, -, h⟩ := Option.bind_eq_some_iff.1 h
      split at h
      · obtain ⟨j, hj, hbounds⟩ := ih h
        exact ⟨j, List.mem_cons_of_mem _ hj, hbounds⟩
      · cases h
        exact ⟨k, List.mem_cons_self, hb⟩

/-- A fault of the number of tiles is one of uneven extents. -/
theorem exists_of_tileCounts_eq_error {edge : String} {dim : Nat} {as bs : List Nat}
    (ha : ∀ e ∈ as, 0 < e) (hb : ∀ e ∈ bs, 0 < e) {fault : Fault}
    (h : (tileCounts edge dim as bs).run = some (.error fault)) :
    ∃ uneven larger smaller,
      fault = .malformedAccess (.unevenExtents edge uneven larger smaller) := by
  induction as generalizing bs dim with
  | nil => simp [tileCounts] at h
  | cons a as ih =>
    cases bs with
    | nil => simp [tileCounts] at h
    | cons b bs =>
      rw [List.forall_mem_cons] at ha hb
      rw [run_tileCounts_cons ha.1 hb.1] at h
      split at h
      · obtain ⟨rest, hr, he⟩ := Option.map_eq_some_iff.1 h
        cases rest with
        | ok rest => cases he
        | error f =>
          cases he
          exact ih ha.2 hb.2 hr
      · cases h
        exact ⟨dim, _, _, rfl⟩

/-- A coordinate that is reported out of bounds is one of an axis, with the bounds of that axis,
    and no loop is empty. -/
theorem checkEnds_outOfBounds {edge : String} {dim tiles : Nat} {least greatest : Int64}
    (h : (checkEnds source dest access).run =
      some (.error (.outOfBounds edge dim least greatest tiles))) :
    access.vars.any LoopVar.isEmpty = false ∧ (∀ dim ∈ access.dims, dim < source.rank) ∧
      ∃ a ∈ access.axes, a.dim = dim ∧ a.bounds? access.vars = some (least, greatest) := by
  unfold checkEnds at h
  dsimp only at h
  split at h
  · cases h
  · split at h
    · cases h
    · next hd =>
      rw [Arith.run_bind] at h
      obtain ⟨counts, hc, h⟩ := Option.bind_eq_some_iff.1 h
      cases counts with
      | error fault =>
        obtain ⟨_, _, _, rfl⟩ :=
          exists_of_tileCounts_eq_error source.extent_pos dest.extent_pos hc
        cases h
      | ok counts =>
        obtain ⟨rfl, -⟩ := tileCounts_between_iff.1 hc
        dsimp only at h
        split at h
        · cases h
        · split at h
          · cases h
          · next he =>
            obtain ⟨k, hk, hb⟩ := checkBounds_outOfBounds (fun _ => tilesBetween_le source dest) h
            have hdim := List.mem_zipIdx_iff_getElem?.1 hk
            rw [← access.map_dim_axes, List.getElem?_map] at hdim
            obtain ⟨a, ha, hdim⟩ := Option.map_eq_some_iff.1 hdim
            exact ⟨Bool.eq_false_iff.2 he, find?_dims_eq_none_iff.1 hd, a,
              List.mem_of_getElem? ha, hdim, (Access.run_bounds_eq_some_iff ha).1 hb⟩

theorem make_outOfBounds {edge : String} {dim tiles : Nat} {least greatest : Int64}
    (h : make source dest access = .error (.outOfBounds edge dim least greatest tiles)) :
    (checkEnds source dest access).run =
      some (.error (.outOfBounds edge dim least greatest tiles)) := by
  rw [make_eq_error_iff, check, inspect] at h
  split at h
  · cases h
  · rw [Arith.run_bind] at h
    cases hends : (checkEnds source dest access).run with
    | none => simp [hends] at h
    | some ends =>
      cases ends with
      | ok u => simp [hends, Except.map] at h
      | error fault => simpa [hends, Except.map] using h

end

/-- A movement is accepted exactly when it is safe. Numbers of tiles fit in 64 bits with a sign,
    so that no comparison with them wraps around. Where bounds are reported, they are the least and
    the greatest coordinate along the reported dimension over the iteration box, both attained. -/
theorem make_exact {source dest : Tensor} {access : Access}
    (hv : ∀ v ∈ access.vars, LoopVar.make v.name v.low v.high = .ok v) :
    ((∃ m, make source dest access = .ok m ∧ m.source = source ∧ m.dest = dest ∧
      m.access = access) ↔ Safe source dest access) ∧
    (∀ count ∈ tilesBetween source dest, (count : Int) ≤ Int64.maxValue.toInt) ∧
    ∀ edge dim least greatest tiles,
      make source dest access = .error (.outOfBounds edge dim least greatest tiles) →
      ∃ a, access.axis? dim = some a ∧
        (∃ point, Point access.vars point ∧ a.coordinate? point = some least) ∧
        (∃ point, Point access.vars point ∧ a.coordinate? point = some greatest) ∧
        ∀ point, Point access.vars point → ∃ c, a.coordinate? point = some c ∧
          least.toInt ≤ c.toInt ∧ c.toInt ≤ greatest.toInt ∧
          ∀ tile, access.resolve source.rank point = .ok tile → tile[dim]? = some c := by
  refine ⟨⟨?_, fun h => ?_⟩, fun _ => tilesBetween_le source dest, ?_⟩
  · rintro ⟨m, -, rfl, rfl, rfl⟩
    exact m.safe
  · obtain ⟨route, hroute⟩ := Option.isSome_iff_exists.1
      ((Route.between?_isSome_iff source.tier dest.tier).trans h.tiers)
    exact ⟨_, make_of_check (check_eq_ok_iff.2 ⟨hroute, h.fits hv⟩), rfl, rfl, rfl⟩
  · intro edge dim least greatest tiles h
    obtain ⟨he, hdims, a, ha, rfl, hb⟩ := checkEnds_outOfBounds (make_outOfBounds h)
    obtain ⟨hleast, hgreatest⟩ := Axis.bounds?_attained (low_lt_high_of_made hv he) hb
    refine ⟨a, Access.axis?_of_mem ha, hleast, hgreatest, fun point hp => ?_⟩
    obtain ⟨c, hc, hl, hg⟩ := Axis.coordinate?_mem_bounds hp.mem_values hb
    refine ⟨c, hc, hl, hg, fun tile ht => ?_⟩
    rw [Access.getElem?_of_resolve ht ha (hdims a.dim (Access.dim_mem ha)), hc]

end Movement

/-- A map with a weight below zero. Its coordinate runs from -2 at the point `(0, 2)` to 2 at the
    point `(1, 0)`. -/
def Sample.skewed : Access :=
  { along with
    rows := [[2], [-1]], vars := [loop, ⟨"j", 0, 3⟩], row_count := by decide,
    row_widths := by decide, names_nodup := by decide }

theorem Movement.make_exact_sample :
    (∀ v ∈ Sample.along.vars, LoopVar.make v.name v.low v.high = .ok v) ∧
    Safe Sample.input Sample.staged Sample.along ∧
    (∀ v ∈ Sample.skewed.vars, LoopVar.make v.name v.low v.high = .ok v) ∧
    make Sample.input Sample.staged Sample.skewed = .error (.outOfBounds "in -> a" 0 (-2) 2 2) ∧
    ∃ a, Sample.skewed.axis? 0 = some a ∧
      (∃ point, LoopVar.Point Sample.skewed.vars point ∧ a.coordinate? point = some (-2)) ∧
      ∃ point, LoopVar.Point Sample.skewed.vars point ∧ a.coordinate? point = some 2 := by
  have hskewed : ∀ v ∈ Sample.skewed.vars, LoopVar.make v.name v.low v.high = .ok v := by
    intro v hv
    rcases List.mem_pair.1 hv with rfl | rfl
    · rfl
    · rfl
  have halong : ∀ v ∈ Sample.along.vars, LoopVar.make v.name v.low v.high = .ok v := by
    intro v hv
    rw [List.mem_singleton.1 hv]
    rfl
  have hrefused : make Sample.input Sample.staged Sample.skewed =
      .error (.outOfBounds "in -> a" 0 (-2) 2 2) := make_eq_error_iff.2 rfl
  have hsafe : Safe Sample.input Sample.staged Sample.along :=
    (make_exact halong).1.1 ⟨Sample.fetch, make_of_check Sample.fetch.valid, rfl, rfl, rfl⟩
  obtain ⟨a, ha, hleast, hgreatest, -⟩ := (make_exact hskewed).2.2 _ _ _ _ _ hrefused
  exact ⟨halong, hsafe, hskewed, hrefused, a, ha, hleast, hgreatest⟩

end TileNest
