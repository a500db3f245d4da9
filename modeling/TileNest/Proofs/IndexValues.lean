import Mathlib.Algebra.Ring.Int.Defs
import TileNest.Proofs.SafeTransfers

/-
  A map is read in two ways. As expressions it goes through the dimensions of the tensor, leaves out
  the variables of weight zero and looks the others up by name; as coordinates it goes through its
  own axes and takes the values by their place. Main result: `Access.index_evaluates_as_resolved`.
  The two agree for all values of the variables, up to the limits of 64 bits, and where one has no
  value the other has none.

  When an axis has a coordinate is said in integers: every product and every partial sum is a number
  of 64 bits (`Axis.Stays`, `Axis.sum?_eq_some_iff`). The order in which axes are visited
  decides which of them is reported, and so does not matter for whether one is.
-/

namespace TileNest

/-! ## Sums in range -/

namespace Checked

/-- The number has 64 bits. -/
def Fits (n : Int) : Prop := Int64.minValue.toInt ≤ n ∧ n ≤ Int64.maxValue.toInt

theorem fits_toInt (a : Int64) : Fits a.toInt := toInt_mem_range a

theorem fits_iff {n : Int} : Fits n ↔ ∃ c : Int64, c.toInt = n := by
  constructor
  · intro h
    obtain ⟨c, -, hc⟩ := ofInt?_of_between Int64.minValue Int64.maxValue h.1 h.2
    exact ⟨c, hc⟩
  · rintro ⟨c, rfl⟩
    exact fits_toInt c

end Checked

namespace Axis

/-- The weighted values added to a number, as integers. -/
def exact (start : Int) (terms : List (Int64 × Int64)) : Int :=
  start + (terms.map fun t => t.1.toInt * t.2.toInt).sum

/-- Every product and every partial sum has 64 bits. -/
def Stays (offset : Int64) (terms : List (Int64 × Int64)) : Prop :=
  ∀ before t after, terms = before ++ t :: after →
    Checked.Fits (t.1.toInt * t.2.toInt) ∧ Checked.Fits (exact offset.toInt (before ++ [t]))

theorem exact_cons (start : Int) (t : Int64 × Int64) (terms : List (Int64 × Int64)) :
    exact start (t :: terms) = exact (start + t.1.toInt * t.2.toInt) terms := by
  simp only [exact, List.map_cons, List.sum_cons]
  omega

/-- One term more in front: its product and the sum with it fit, and so do the later sums. -/
theorem stays_cons {offset : Int64} {t : Int64 × Int64} {terms : List (Int64 × Int64)} :
    Stays offset (t :: terms) ↔ Checked.Fits (t.1.toInt * t.2.toInt) ∧
      ∃ total : Int64, total.toInt = offset.toInt + t.1.toInt * t.2.toInt ∧ Stays total terms := by
  constructor
  · intro h
    obtain ⟨hproduct, hsum⟩ := h [] t terms rfl
    obtain ⟨total, ht⟩ := Checked.fits_iff.1 hsum
    have htotal : total.toInt = offset.toInt + t.1.toInt * t.2.toInt := by
      simpa [exact] using ht
    refine ⟨hproduct, total, htotal, fun before u after hsplit => ?_⟩
    have hlater := h (t :: before) u after (by rw [hsplit]; rfl)
    rwa [List.cons_append, exact_cons, ← htotal] at hlater
  · rintro ⟨hproduct, total, htotal, hrest⟩ before u after hsplit
    rcases List.cons_eq_append_iff.1 hsplit with ⟨rfl, hcons⟩ | ⟨before', rfl, hcons⟩
    · obtain ⟨rfl, rfl⟩ := List.cons.inj hcons
      refine ⟨hproduct, ?_⟩
      rw [List.nil_append, exact_cons, ← htotal]
      exact Checked.fits_iff.2 ⟨total, by simp [exact]⟩
    · have hlater := hrest before' u after hcons
      rwa [htotal, ← exact_cons] at hlater

/-- One step of the checked sum. -/
theorem sum?_cons_eq_some_iff {offset c : Int64} {t : Int64 × Int64}
    {terms : List (Int64 × Int64)} :
    sum? offset (t :: terms) = some c ↔ Checked.Fits (t.1.toInt * t.2.toInt) ∧
      ∃ total : Int64, total.toInt = offset.toInt + t.1.toInt * t.2.toInt ∧
        sum? total terms = some c := by
  have hstep : ∀ total, (Checked.mul? t.1 t.2).bind (Checked.add? offset) = some total ↔
      Checked.Fits (t.1.toInt * t.2.toInt) ∧
        total.toInt = offset.toInt + t.1.toInt * t.2.toInt := by
    intro total
    simp only [Option.bind_eq_some_iff, Checked.mul?_eq_some_iff, Checked.add?_eq_some_iff,
      Checked.fits_iff]
    constructor
    · rintro ⟨product, hp, ht⟩
      exact ⟨⟨product, hp⟩, by rw [ht, hp]⟩
    · rintro ⟨⟨product, hp⟩, ht⟩
      exact ⟨product, hp, by rw [ht, hp]⟩
  obtain ⟨x, w⟩ := t
  rw [sum?]
  constructor
  · intro h
    split at h
    · cases h
    · next total ht =>
      obtain ⟨hproduct, htotal⟩ := (hstep total).1 ht
      exact ⟨hproduct, total, htotal, h⟩
  · rintro ⟨hproduct, total, htotal, h⟩
    rw [(hstep total).2 ⟨hproduct, htotal⟩]
    exact h

/-- The checked sum is the exact one, and exists where no step leaves the range. -/
theorem sum?_eq_some_iff {offset c : Int64} {terms : List (Int64 × Int64)} :
    sum? offset terms = some c ↔ Stays offset terms ∧ c.toInt = exact offset.toInt terms := by
  induction terms generalizing offset with
  | nil =>
    have hstays : Stays offset [] := fun before t after h => by simp at h
    simp only [sum?, Option.some.injEq, hstays, true_and, exact, List.map_nil, List.sum_nil,
      Int.add_zero, Int64.toInt_inj]
    exact eq_comm
  | cons t terms ih =>
    rw [sum?_cons_eq_some_iff, stays_cons, exact_cons]
    constructor
    · rintro ⟨hproduct, total, htotal, hsum⟩
      obtain ⟨hstays, hc⟩ := ih.1 hsum
      exact ⟨⟨hproduct, total, htotal, hstays⟩, htotal ▸ hc⟩
    · rintro ⟨⟨hproduct, total, htotal, hstays⟩, hc⟩
      exact ⟨hproduct, total, htotal, ih.2 ⟨hstays, htotal ▸ hc⟩⟩

end Axis

/-! ## Faults -/

theorem Axis.flaw_of_coordinates {rank : Nat} {values : List Int64} {axes : List Axis}
    {fault : Fault} (h : coordinates rank values axes = .error fault) :
    ∃ flaw, fault = .malformedAccess flaw := by
  induction axes with
  | nil => cases h
  | cons a axes ih =>
    rw [coordinates] at h
    split at h
    · exact ⟨_, (Except.error.inj h).symm⟩
    · split at h
      · exact ⟨_, (Except.error.inj h).symm⟩
      · cases hrest : coordinates rank values axes with
        | error other =>
          rw [hrest] at h
          exact ih (hrest.trans h)
        | ok found =>
          rw [hrest] at h
          cases h

namespace Access

variable {m : Access} {rank : Nat} {values : List Int64} {env : Env}

theorem flaw_of_resolve {fault : Fault} (h : m.resolve rank values = .error fault) :
    ∃ flaw, fault = .malformedAccess flaw := by
  unfold resolve at h
  split at h
  · exact ⟨_, (Except.error.inj h).symm⟩
  · cases hc : Axis.coordinates rank values m.axes with
    | error other =>
      rw [hc] at h
      obtain ⟨flaw, rfl⟩ := Axis.flaw_of_coordinates hc
      exact ⟨flaw, (Except.error.inj h).symm⟩
    | ok found =>
      rw [hc] at h
      cases h

/-- No variable is unbound where each has its value, so that only the range can be left. -/
theorem flaw_of_evaluate_index (hb : env.Gives m.vars values) {fault : Fault}
    (h : (m.index rank).evaluate env = .error fault) : ∃ flaw, fault = .malformedAccess flaw := by
  obtain ⟨e, he, hfault⟩ := Lists.exists_of_mapM_eq_error h
  obtain ⟨dim, -, rfl⟩ := List.mem_map.1 he
  cases hd : m.axis? dim with
  | none => simp [hd, Affine.evaluate, Affine.ofConstant, Affine.sum] at hfault
  | some a =>
    simp only [hd, Affine.evaluate_expression a hb] at hfault
    cases hc : a.coordinate? values with
    | none =>
      rw [hc] at hfault
      exact ⟨_, (Except.error.inj hfault).symm⟩
    | some c =>
      rw [hc] at hfault
      cases hfault

/-- Where the expressions have values, all axes below the rank have coordinates. -/
theorem isSome_of_evaluate_index (hb : env.Gives m.vars values) {tile : List Int64}
    (h : (m.index rank).evaluate env = .ok tile) {a : Axis} (ha : a ∈ m.axes) (hd : a.dim < rank) :
    (a.coordinate? values).isSome := by
  unfold index TileIndex.evaluate at h
  rw [Lists.mapM_eq_ok_iff, List.forall₂_map_left_iff] at h
  obtain ⟨c, -, hc⟩ := Lists.forall₂_partner h.flip (List.mem_range.2 hd)
  simp only [axis?_of_mem ha, Affine.evaluate_expression a hb] at hc
  cases hnone : a.coordinate? values with
  | none =>
    rw [hnone] at hc
    cases hc
  | some c => rfl

/-- The expressions have the values that the map resolves to. -/
theorem evaluate_index_eq_ok_iff (hd : ∀ a ∈ m.axes, a.dim < rank) (hb : env.Gives m.vars values)
    {tile : List Int64} :
    (m.index rank).evaluate env = .ok tile ↔ m.resolve rank values = .ok tile := by
  constructor
  · intro h
    have hc : ∀ a ∈ m.axes, (a.coordinate? values).isSome :=
      fun a ha => isSome_of_evaluate_index hb h ha (hd a ha)
    rw [evaluate_index_eq_ok rank hc hb] at h
    rw [resolve_eq_ok hb.length_eq.symm hd hc, h]
  · intro h
    obtain ⟨hc, rfl⟩ := of_resolve_eq_ok h
    exact evaluate_index_eq_ok rank hc hb

/-- The tile that a map resolves to: the coordinates of the axes, and 0 along all other
    dimensions. -/
theorem resolve_eq_ok_iff (hv : values.length = m.vars.length) (hd : ∀ a ∈ m.axes, a.dim < rank)
    {tile : List Int64} :
    m.resolve rank values = .ok tile ↔ tile.length = rank ∧
      (∀ dim, dim < rank → m.axis? dim = none → tile[dim]? = some 0) ∧
      ∀ a ∈ m.axes, ∃ c, tile[a.dim]? = some c ∧ a.coordinate? values = some c := by
  constructor
  · intro h
    obtain ⟨hc, htile⟩ := of_resolve_eq_ok h
    refine ⟨by simp [htile], fun dim hdim hnone => ?_, fun a ha => ?_⟩
    · rw [htile, List.getElem?_map, List.getElem?_range hdim, Option.map_some, coordinateAt, hnone]
      rfl
    · obtain ⟨c, hac⟩ := Option.isSome_iff_exists.1 (hc a ha)
      exact ⟨c, by rw [getElem?_of_resolve h ha (hd a ha), hac], hac⟩
  · rintro ⟨hlen, hzero, hall⟩
    have hc : ∀ a ∈ m.axes, (a.coordinate? values).isSome := by
      intro a ha
      obtain ⟨c, -, hac⟩ := hall a ha
      rw [hac]
      rfl
    rw [resolve_eq_ok hv hd hc]
    refine congrArg Except.ok (List.ext_getElem? fun dim => ?_)
    rcases Nat.lt_or_ge dim rank with hdim | hdim
    · rw [List.getElem?_map, List.getElem?_range hdim, Option.map_some, coordinateAt]
      cases hax : m.axis? dim with
      | none => exact (hzero dim hdim hax).symm
      | some a =>
        obtain ⟨ha, rfl⟩ := mem_axes_of_axis? hax
        obtain ⟨c, htile, hac⟩ := hall a ha
        rw [htile, Option.bind_some, hac]
        rfl
    · rw [List.getElem?_eq_none (by simpa using hdim), List.getElem?_eq_none (by omega)]

/-! ## Maps and the tables that they were made from -/

section

variable {dims : List Nat} {rows : List (List Int64)} {offsets : List Int64} {vars : List LoopVar}

/-- The entries of the tables along a selected dimension: an offset, and one weight of each row. -/
structure Column (rows : List (List Int64)) (offsets : List Int64) (k : Nat) (offset : Int64)
    (weights : List Int64) : Prop where
  offset : offsets[k]? = some offset
  weights : List.Forall₂ (fun row w => row[k]? = some w) rows weights

/-- The coordinate along a selected dimension: the offset and the weighted values, added up in
    integers without a product or a partial sum that leaves the range. -/
def Coordinate (rows : List (List Int64)) (offsets values : List Int64) (k : Nat) (c : Int64) :
    Prop :=
  ∃ offset weights, Column rows offsets k offset weights ∧
    Axis.Stays offset (values.zip weights) ∧ c.toInt = Axis.exact offset.toInt (values.zip weights)

/-- An accepted map holds the tables that it was made from. -/
theorem make_eq_ok (h : make dims rows offsets vars = .ok m) :
    m.dims = dims ∧ m.rows = rows ∧ m.offsets = offsets ∧ m.vars = vars := by
  unfold make at h
  split at h
  · split at h
    · cases h
    · split at h
      · split at h
        · cases h
        · split at h
          · cases h
          · cases h
            exact ⟨rfl, rfl, rfl, rfl⟩
      · cases h
  · cases h

theorem mem_axes_iff {a : Axis} : a ∈ m.axes ↔
    ∃ k dim, m.dims[k]? = some dim ∧ a = ⟨dim, m.rows.map (·.getD k 0), m.offsets.getD k 0⟩ := by
  rw [List.mem_iff_getElem?]
  refine exists_congr fun k => ?_
  rw [getElem?_axes, Option.map_eq_some_iff]
  exact exists_congr fun dim => and_congr_right fun _ => eq_comm

theorem axis?_eq_none_iff {dim : Nat} : m.axis? dim = none ↔ dim ∉ m.dims := by
  rw [axis?, List.find?_eq_none, ← m.map_dim_axes, List.mem_map, not_exists]
  simp

/-- Along every selected dimension all entries of the tables exist. -/
theorem exists_column {k dim : Nat} (hk : m.dims[k]? = some dim) :
    Column m.rows m.offsets k (m.offsets.getD k 0) (m.rows.map (·.getD k 0)) := by
  have hlt : k < m.dims.length := (List.getElem?_eq_some_iff.1 hk).1
  have hentry : ∀ row : List Int64, row.length = m.dims.length → row[k]? = some (row.getD k 0) := by
    intro row hrow
    rw [List.getD_eq_getElem?_getD, List.getElem?_eq_getElem (hrow ▸ hlt)]
    rfl
  refine ⟨hentry m.offsets m.offset_count, ?_⟩
  rw [List.forall₂_map_right_iff, List.forall₂_same]
  exact fun row hrow => hentry row (m.row_widths row hrow)

theorem Column.unique {k : Nat} {o p : Int64} {ws us : List Int64}
    (h : Column rows offsets k o ws) (h' : Column rows offsets k p us) : o = p ∧ ws = us := by
  refine ⟨Option.some.inj (h.offset.symm.trans h'.offset), ?_⟩
  have hright : Relator.RightUnique fun (row : List Int64) (w : Int64) => row[k]? = some w :=
    fun row w u hw hu => Option.some.inj (hw.symm.trans hu)
  exact hright.forall₂ h.weights h'.weights

theorem coordinate_iff {k dim : Nat} {offset c : Int64} {weights : List Int64}
    (h : Column rows offsets k offset weights) :
    Coordinate rows offsets values k c ↔
      (⟨dim, weights, offset⟩ : Axis).coordinate? values = some c := by
  rw [Axis.coordinate?, Axis.sum?_eq_some_iff]
  constructor
  · rintro ⟨o, ws, hcolumn, hsum⟩
    obtain ⟨rfl, rfl⟩ := hcolumn.unique h
    exact hsum
  · exact fun hsum => ⟨offset, weights, h, hsum⟩

/-- Reading a map as expressions and reading it as coordinates is the same. For a map made from
    tables (the map of a whole tile is made from empty ones), a rank above all its dimensions, and
    bindings that give the variables their values: both readings have a value or neither has, the
    values are the same, and where there is none both report a malformed access. Every entry that
    they ask the tables for exists. The value has the exact coordinate along each selected
    dimension, as long as no product and no partial sum leaves 64 bits, and 0 along all others. -/
theorem index_evaluates_as_resolved (hm : make dims rows offsets vars = .ok m)
    (hr : ∀ dim ∈ dims, dim < rank) (hb : env.Gives vars values) :
    (∀ tile, (m.index rank).evaluate env = .ok tile ↔ m.resolve rank values = .ok tile) ∧
    ((∃ tile, m.resolve rank values = .ok tile) ∨
      (∃ flaw, (m.index rank).evaluate env = .error (.malformedAccess flaw)) ∧
        ∃ flaw, m.resolve rank values = .error (.malformedAccess flaw)) ∧
    (∀ tile, m.resolve rank values = .ok tile ↔ tile.length = rank ∧
      (∀ dim, dim < rank → dim ∉ dims → tile[dim]? = some 0) ∧
      ∀ k dim, dims[k]? = some dim →
        ∃ c, tile[dim]? = some c ∧ Coordinate rows offsets values k c) ∧
    (∀ k dim, dims[k]? = some dim →
      ∃ offset weights, Column rows offsets k offset weights ∧ weights.length = vars.length) ∧
    make [] [] [] [] = .ok bulk := by
  obtain ⟨rfl, rfl, rfl, rfl⟩ := make_eq_ok hm
  have hd : ∀ a ∈ m.axes, a.dim < rank := fun a ha => hr a.dim (dim_mem ha)
  have hagree : ∀ tile, (m.index rank).evaluate env = .ok tile ↔ m.resolve rank values = .ok tile :=
    fun _ => evaluate_index_eq_ok_iff hd hb
  refine ⟨hagree, ?_, fun tile => ?_, fun k dim hk => ?_, rfl⟩
  · cases hresolve : m.resolve rank values with
    | ok tile => exact .inl ⟨tile, rfl⟩
    | error fault =>
      cases hevaluate : (m.index rank).evaluate env with
      | ok tile =>
        rw [(hagree tile).1 hevaluate] at hresolve
        cases hresolve
      | error other =>
        obtain ⟨flaw, rfl⟩ := flaw_of_resolve hresolve
        obtain ⟨flaw', rfl⟩ := flaw_of_evaluate_index hb hevaluate
        exact .inr ⟨⟨flaw', rfl⟩, flaw, rfl⟩
  · rw [resolve_eq_ok_iff hb.length_eq.symm hd]
    refine and_congr_right fun _ => and_congr ?_ ?_
    · exact forall₂_congr fun dim _ => imp_congr_left axis?_eq_none_iff
    · simp only [mem_axes_iff]
      constructor
      · intro h k dim hk
        obtain ⟨c, htile, hc⟩ := h _ ⟨k, dim, hk, rfl⟩
        exact ⟨c, htile, (coordinate_iff (exists_column hk)).2 hc⟩
      · rintro h a ⟨k, dim, hk, rfl⟩
        obtain ⟨c, htile, hc⟩ := h k dim hk
        exact ⟨c, htile, (coordinate_iff (exists_column hk)).1 hc⟩
  · exact ⟨_, _, exists_column hk, by rw [List.length_map, m.row_count]⟩

end

end Access

namespace Sample

def wideVars : List LoopVar := [⟨"i", 0, 2⟩, ⟨"j", 0, 2⟩, ⟨"k", 0, 2⟩]

/-- The sum of the first and the last of three variables, along the second dimension. -/
def wide : Access := { dims := [1], rows := [[1], [0], [1]], offsets := [0], vars := wideVars }

theorem wide_made : Access.make [1] [[1], [0], [1]] [0] wideVars = .ok wide := rfl

/-- The first two variables at the upper limit of 64 bits. -/
def atLimit (last : Int64) : Env :=
  ((Env.empty.bind "i" Int64.maxValue).bind "j" Int64.maxValue).bind "k" last

theorem atLimit_gives (last : Int64) :
    (atLimit last).Gives wideVars [Int64.maxValue, Int64.maxValue, last] :=
  .cons rfl (.cons rfl (.cons rfl .nil))

end Sample

/-- The coordinate reaches the limit, and one more takes it out of range in both readings. -/
theorem Access.index_evaluates_as_resolved_limit :
    (Sample.wide.index 2).evaluate (Sample.atLimit 0) = .ok [0, Int64.maxValue] ∧
    ∃ flaw, (Sample.wide.index 2).evaluate (Sample.atLimit 1) = .error (.malformedAccess flaw) := by
  have hr : ∀ dim ∈ [1], dim < 2 := by decide
  obtain ⟨hsame, -⟩ := index_evaluates_as_resolved Sample.wide_made hr (Sample.atLimit_gives 0)
  obtain ⟨-, hfails, -⟩ := index_evaluates_as_resolved Sample.wide_made hr (Sample.atLimit_gives 1)
  refine ⟨(hsame _).2 (by decide +kernel), ?_⟩
  rcases hfails with ⟨tile, htile⟩ | ⟨hflaw, -⟩
  · have hnone : Sample.wide.resolve 2 [Int64.maxValue, Int64.maxValue, 1] =
        .error (.malformedAccess (.coordinateOverflow 1)) := by decide +kernel
    rw [hnone] at htile
    cases htile
  · exact hflaw

end TileNest
