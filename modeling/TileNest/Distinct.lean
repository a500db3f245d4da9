/-
  Repeats in a list. `firstRepeat?` gives the first entry that also stands earlier in the list, and
  gives none exactly on the lists without repeats (`firstRepeat?_eq_none_iff`).
-/

namespace TileNest

variable {α : Type} [DecidableEq α]

/-- The first entry that is among `seen` or among the entries before it. -/
def repeatAfter? (seen : List α) : List α → Option α
  | [] => none
  | x :: xs => if x ∈ seen then some x else repeatAfter? (x :: seen) xs

/-- The first entry that also stands earlier in the list. -/
def firstRepeat? (xs : List α) : Option α := repeatAfter? [] xs

theorem repeatAfter?_eq_none_iff (seen xs : List α) :
    repeatAfter? seen xs = none ↔ xs.Nodup ∧ ∀ x ∈ xs, x ∉ seen := by
  induction xs generalizing seen with
  | nil => simp [repeatAfter?]
  | cons x xs ih =>
    by_cases h : x ∈ seen
    · simp [repeatAfter?, h]
    · simp only [repeatAfter?, h, if_false, ih, List.nodup_cons, List.mem_cons]
      constructor
      · rintro ⟨hn, hs⟩
        refine ⟨⟨fun hx => hs x hx (.inl rfl), hn⟩, ?_⟩
        rintro y (rfl | hy)
        · exact h
        · exact fun hys => hs y hy (.inr hys)
      · rintro ⟨⟨hx, hn⟩, hs⟩
        refine ⟨hn, fun y hy => ?_⟩
        rintro (rfl | hys)
        · exact hx hy
        · exact hs y (.inr hy) hys

theorem firstRepeat?_eq_none_iff (xs : List α) : firstRepeat? xs = none ↔ xs.Nodup := by
  simp [firstRepeat?, repeatAfter?_eq_none_iff]

end TileNest
