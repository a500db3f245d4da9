import Mathlib.Data.List.Forall2
import Mathlib.Data.List.Perm.Basic

/-
  Facts about lists that the proofs of several modules share: lists of computations that all
  succeed, greatest entries as a fold, lists split at an entry, lists without repeats, and lookups
  in lists of pairs.
-/

namespace TileNest.Lists

/-- Results of a list of computations that all succeed, one by one. -/
theorem mapM_eq_ok_iff {ε α β : Type} {f : α → Except ε β} {xs : List α} {ys : List β} :
    xs.mapM f = .ok ys ↔ List.Forall₂ (fun x y => f x = .ok y) xs ys := by
  induction xs generalizing ys with
  | nil => simp [pure, Except.pure, eq_comm]
  | cons x xs ih =>
    rw [List.mapM_cons]
    constructor
    · intro h
      cases hx : f x with
      | error e => simp [hx, bind, Except.bind] at h
      | ok y =>
        cases hs : xs.mapM f with
        | error e => simp [hx, hs, bind, Except.bind] at h
        | ok zs =>
          simp only [hx, hs, bind, Except.bind, pure, Except.pure, Except.ok.injEq] at h
          exact h ▸ .cons hx (ih.1 hs)
    · intro h
      cases h with
      | @cons _ y _ zs hx hs =>
        rw [hx, ih.2 hs]
        rfl

/-- A list of computations fails as the first of them that does. -/
theorem mapM_eq_error_iff {ε α β : Type} {f : α → Except ε β} {xs : List α} {e : ε} :
    xs.mapM f = .error e ↔
      ∃ before x after, xs = before ++ x :: after ∧ (∀ y ∈ before, ∃ z, f y = .ok z) ∧
        f x = .error e := by
  constructor
  · intro h
    induction xs with
    | nil => cases h
    | cons x xs ih =>
      rw [List.mapM_cons] at h
      cases hx : f x with
      | error e' =>
        simp only [hx, bind, Except.bind, Except.error.injEq] at h
        exact ⟨[], x, xs, rfl, by simp, h ▸ hx⟩
      | ok y =>
        cases hs : xs.mapM f with
        | error e' =>
          simp only [hx, hs, bind, Except.bind, Except.error.injEq] at h
          obtain ⟨before, z, after, rfl, hbefore, hz⟩ := ih (h ▸ hs)
          exact ⟨x :: before, z, after, rfl, List.forall_mem_cons.2 ⟨⟨y, hx⟩, hbefore⟩, hz⟩
        | ok ys => simp [hx, hs, bind, Except.bind, pure, Except.pure] at h
  · rintro ⟨before, x, after, rfl, hbefore, hx⟩
    induction before with
    | nil =>
      rw [List.nil_append, List.mapM_cons, hx]
      rfl
    | cons y before ih =>
      obtain ⟨⟨z, hz⟩, hrest⟩ := List.forall_mem_cons.1 hbefore
      rw [List.cons_append, List.mapM_cons, hz, ih hrest]
      rfl

/-- A list of computations fails as one of them does. -/
theorem exists_of_mapM_eq_error {ε α β : Type} {f : α → Except ε β} {xs : List α} {e : ε}
    (h : xs.mapM f = .error e) : ∃ x ∈ xs, f x = .error e := by
  obtain ⟨before, x, after, rfl, -, hx⟩ := mapM_eq_error_iff.1 h
  exact ⟨x, by simp, hx⟩

/-- Computations in groups are carried out group by group. -/
theorem mapM_flatMap {ε α β γ : Type} (f : α → List β) (g : β → Except ε γ) (xs : List α) :
    (xs.flatMap f).mapM g = (xs.mapM fun x => (f x).mapM g).map List.flatten := by
  induction xs with
  | nil => rfl
  | cons x xs ih =>
    rw [List.flatMap_cons, List.mapM_append, List.mapM_cons, ih]
    cases (f x).mapM g with
    | error e => rfl
    | ok ys => cases xs.mapM fun x => (f x).mapM g <;> rfl

theorem le_foldl_max (xs : List Nat) (init : Nat) :
    init ≤ xs.foldl max init ∧ ∀ x ∈ xs, x ≤ xs.foldl max init := by
  induction xs generalizing init with
  | nil => simp
  | cons y xs ih =>
    obtain ⟨h1, h2⟩ := ih (max init y)
    rw [List.foldl_cons]
    refine ⟨by omega, fun x hx => ?_⟩
    rcases List.mem_cons.1 hx with rfl | hx
    · omega
    · exact h2 x hx

theorem foldl_max_mem (xs : List Nat) (init : Nat) :
    xs.foldl max init = init ∨ xs.foldl max init ∈ xs := by
  induction xs generalizing init with
  | nil => simp
  | cons y xs ih =>
    rw [List.foldl_cons]
    rcases ih (max init y) with h | h
    · rcases Nat.le_total init y with hy | hy
      · rw [h, Nat.max_eq_right hy]
        exact .inr (by simp)
      · exact .inl (h.trans (Nat.max_eq_left hy))
    · exact .inr (List.mem_cons_of_mem y h)

/-- Entries that all have an image are paired with their images. -/
theorem forall₂_filterMap {α β : Type} {f : α → Option β} {xs : List α}
    (h : ∀ x ∈ xs, (f x).isSome) :
    List.Forall₂ (fun x y => f x = some y) xs (xs.filterMap f) := by
  induction xs with
  | nil => exact .nil
  | cons x xs ih =>
    obtain ⟨y, hy⟩ := Option.isSome_iff_exists.1 (h x (by simp))
    rw [List.filterMap_cons, hy]
    exact .cons hy (ih fun z hz => h z (List.mem_cons_of_mem x hz))

theorem filterMap_range_getElem? {α : Type} (xs : List α) :
    (List.range xs.length).filterMap (xs[·]?) = xs := by
  induction xs with
  | nil => rfl
  | cons x xs ih =>
    rw [List.length_cons, List.range_succ_eq_map, List.filterMap_cons, List.filterMap_map]
    simpa using ih

/-- Where the values of `f` are all different, the entry with a given value is found where it
    stands. -/
theorem findIdx?_eq_some_of_nodup {α β : Type} [BEq β] [LawfulBEq β] {f : α → β} {xs : List α}
    (hn : (xs.map f).Nodup) {i : Nat} {y : β} :
    xs.findIdx? (f · == y) = some i ↔ xs[i]?.map f = some y := by
  rw [List.findIdx?_eq_some_iff_getElem]
  constructor
  · rintro ⟨hi, hx, -⟩
    rw [List.getElem?_eq_getElem hi]
    simpa using hx
  · intro h
    obtain ⟨x, hx, e⟩ := Option.map_eq_some_iff.1 h
    obtain ⟨hi, rfl⟩ := List.getElem?_eq_some_iff.1 hx
    refine ⟨hi, by simpa using e, fun j hj he => ?_⟩
    have hsame : (xs.map f)[j]? = (xs.map f)[i]? := by
      rw [List.getElem?_map, List.getElem?_map, List.getElem?_eq_getElem (Nat.lt_trans hj hi), hx]
      simpa [e] using he
    have := (List.getElem?_inj (by simpa using Nat.lt_trans hj hi) hn).1 hsame
    omega

/-- An entry is found by its value, where the values are all different. -/
theorem find?_eq_some_of_nodup {α β : Type} [BEq β] [LawfulBEq β] {f : α → β} {xs : List α}
    (hn : (xs.map f).Nodup) {x : α} (hx : x ∈ xs) : xs.find? (f · == f x) = some x := by
  induction xs with
  | nil => cases hx
  | cons y xs ih =>
    rw [List.map_cons, List.nodup_cons] at hn
    rcases List.mem_cons.1 hx with rfl | hx
    · exact List.find?_cons_of_pos (beq_self_eq_true (f x))
    · have hne : f y ≠ f x := fun h => hn.1 (h ▸ List.mem_map_of_mem hx)
      rw [List.find?_cons_of_neg (by simpa using hne)]
      exact ih hn.2 hx

/-! ## Splitting at an entry -/

section

variable {α β : Type}

/-- An entry of a list made of two parts lies in the first or in the second. -/
theorem append_eq_append_cons {as bs cs ds : List α} {d : α} (h : as ++ bs = cs ++ d :: ds) :
    (∃ ds', as = cs ++ d :: ds' ∧ ds = ds' ++ bs) ∨
      ∃ cs', cs = as ++ cs' ∧ bs = cs' ++ d :: ds := by
  rcases List.append_eq_append_iff.1 h with ⟨cs', hc, hb⟩ | ⟨es, ha, hd⟩
  · exact .inr ⟨cs', hc, hb⟩
  · rcases List.cons_eq_append_iff.1 hd with ⟨rfl, rfl⟩ | ⟨ds', rfl, rfl⟩
    · exact .inr ⟨[], by simp [ha], rfl⟩
    · exact .inl ⟨ds', ha, rfl⟩

/-- An entry of a list with one more at its end is one of the list, or the one at the end. -/
theorem concat_eq_append_cons {as cs ds : List α} {a d : α} (h : as ++ [a] = cs ++ d :: ds) :
    (∃ ds', as = cs ++ d :: ds') ∨ as = cs ∧ a = d := by
  rcases append_eq_append_cons h with ⟨ds', has, -⟩ | ⟨cs', rfl, hs⟩
  · exact .inl ⟨ds', has⟩
  · cases cs' with
    | nil => exact .inr ⟨(List.append_nil as).symm, (List.cons.inj hs).1⟩
    | cons c cs' => simp at hs

/-- Lists that are related entry by entry are split together. -/
theorem forall₂_append_cons {R : α → β → Prop} {xs : List α} {ys zs : List β} {y : β}
    (h : List.Forall₂ R xs (ys ++ y :: zs)) :
    ∃ us u vs, xs = us ++ u :: vs ∧ List.Forall₂ R us ys ∧ R u y ∧ List.Forall₂ R vs zs := by
  induction ys generalizing xs with
  | nil =>
    cases h with
    | @cons u _ vs _ hu hv => exact ⟨[], u, vs, rfl, .nil, hu, hv⟩
  | cons w ys ih =>
    cases h with
    | @cons a _ xs _ ha hx =>
      obtain ⟨us, u, vs, rfl, hus, hu, hvs⟩ := ih hx
      exact ⟨a :: us, u, vs, rfl, .cons ha hus, hu, hvs⟩

/-- Every entry of the second list has a partner in the first. -/
theorem forall₂_partner {R : α → β → Prop} {xs : List α} {ys : List β} (h : List.Forall₂ R xs ys)
    {y : β} (hy : y ∈ ys) : ∃ x ∈ xs, R x y := by
  obtain ⟨before, after, rfl⟩ := List.append_of_mem hy
  obtain ⟨us, u, vs, rfl, -, hu, -⟩ := forall₂_append_cons h
  exact ⟨u, by simp, hu⟩

/-- What is related to a list of two parts has two parts. -/
theorem forall₂_append_right {R : α → β → Prop} {as : List α} {xs ys : List β}
    (h : List.Forall₂ R as (xs ++ ys)) :
    ∃ bs cs, as = bs ++ cs ∧ List.Forall₂ R bs xs ∧ List.Forall₂ R cs ys :=
  ⟨as.take xs.length, as.drop xs.length, (List.take_append_drop _ _).symm,
    List.forall₂_take_append _ _ _ h, List.forall₂_drop_append _ _ _ h⟩

end

theorem nodup_eraseDups {α : Type} [BEq α] [LawfulBEq α] : (xs : List α) → xs.eraseDups.Nodup
  | [] => by simp
  | x :: xs => by
    rw [List.eraseDups_cons, List.nodup_cons, List.mem_eraseDups]
    exact ⟨by simp, nodup_eraseDups _⟩
termination_by xs => xs.length
decreasing_by exact Nat.lt_succ_of_le (List.length_filter_le _ _)

/-- Where entries with one image are equal, dropping repeats before or after taking images is the
    same. -/
theorem map_eraseDups {α β : Type} [BEq α] [LawfulBEq α] [BEq β] [LawfulBEq β] {f : α → β} :
    (xs : List α) → (∀ a ∈ xs, ∀ b ∈ xs, f a = f b → a = b) →
      xs.eraseDups.map f = (xs.map f).eraseDups
  | [], _ => by simp
  | x :: xs, h => by
    have hrest : ∀ a ∈ xs.filter (fun b => !b == x), ∀ b ∈ xs.filter (fun b => !b == x),
        f a = f b → a = b := fun a ha b hb =>
      h a (List.mem_cons_of_mem x (List.mem_of_mem_filter ha)) b
        (List.mem_cons_of_mem x (List.mem_of_mem_filter hb))
    have hsame : (xs.filter fun b => !b == x).map f = (xs.map f).filter fun b => !b == f x := by
      rw [List.filter_map]
      refine congrArg (List.map f) (List.filter_congr fun a ha => ?_)
      have hiff : a = x ↔ f a = f x :=
        ⟨congrArg f, h a (List.mem_cons_of_mem x ha) x List.mem_cons_self⟩
      simp [hiff]
    rw [List.eraseDups_cons, List.map_cons, List.map_cons, List.eraseDups_cons,
      map_eraseDups _ hrest, hsame]
termination_by xs => xs.length
decreasing_by exact Nat.lt_succ_of_le (List.length_filter_le _ _)

/-! ## Lists of pairs -/

section

variable {α : Type} {pairs : List (String × α)} {x : String}

theorem lookup_cons_of_ne {κ : Type} [BEq κ] [LawfulBEq κ] {x y : κ} {pairs : List (κ × α)}
    (h : x ≠ y) (a : α) : ((y, a) :: pairs).lookup x = pairs.lookup x := by
  rw [List.lookup_cons, beq_eq_false_iff_ne.2 h]

theorem mem_of_lookup {a : α} (h : pairs.lookup x = some a) : (x, a) ∈ pairs := by
  obtain ⟨l₁, l₂, rfl, -⟩ := List.lookup_eq_some_iff.1 h
  simp

theorem lookup_of_mem {a : α} (hn : (pairs.map Prod.fst).Nodup) (h : (x, a) ∈ pairs) :
    pairs.lookup x = some a := by
  induction pairs with
  | nil => cases h
  | cons e pairs ih =>
    rw [List.map_cons, List.nodup_cons] at hn
    rcases List.mem_cons.1 h with rfl | h
    · simp
    · have hne : x ≠ e.1 := by
        intro hx
        exact hn.1 (hx ▸ List.mem_map_of_mem h)
      rw [lookup_cons_of_ne hne]
      exact ih hn.2 h

end

end TileNest.Lists
