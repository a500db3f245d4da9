/-
  Maps with one value for each key, held as the list of their entries.
-/

namespace TileNest

/-- The entries of a map, in the order in which their keys came. -/
abbrev KeyMap (κ α : Type) := List (κ × α)

namespace KeyMap

variable {κ α : Type} [DecidableEq κ]

/-- The value of a key. -/
def get? (m : KeyMap κ α) (key : κ) : Option α := (m.find? (·.1 == key)).map Prod.snd

/-- The key has a value. -/
def contains (m : KeyMap κ α) (key : κ) : Bool := (m.get? key).isSome

/-- The map with a value for the key, in place of the one that it had. -/
def insert (key : κ) (value : α) : KeyMap κ α → KeyMap κ α
  | [] => [(key, value)]
  | (other, old) :: m =>
    if other = key then (key, value) :: m else (other, old) :: insert key value m

/-- The map without the key. -/
def erase (key : κ) (m : KeyMap κ α) : KeyMap κ α := m.filter (·.1 != key)

theorem get?_cons_self (key : κ) (value : α) (m : KeyMap κ α) :
    get? ((key, value) :: m) key = some value := by
  rw [get?, List.find?_cons_of_pos (by simp)]
  rfl

theorem get?_cons_of_ne {key other : κ} (h : key ≠ other) (value : α) (m : KeyMap κ α) :
    get? ((other, value) :: m) key = m.get? key := by
  rw [get?, List.find?_cons_of_neg (by simpa using Ne.symm h)]
  rfl

theorem get?_insert_self (m : KeyMap κ α) (key : κ) (value : α) :
    (m.insert key value).get? key = some value := by
  induction m with
  | nil => exact get?_cons_self key value []
  | cons entry m ih =>
    obtain ⟨other, old⟩ := entry
    by_cases h : other = key
    · rw [insert, if_pos h, get?_cons_self]
    · rw [insert, if_neg h, get?_cons_of_ne (Ne.symm h), ih]

theorem get?_insert_of_ne (m : KeyMap κ α) {key other : κ} (h : other ≠ key) (value : α) :
    (m.insert key value).get? other = m.get? other := by
  induction m with
  | nil => exact get?_cons_of_ne h value []
  | cons entry m ih =>
    obtain ⟨first, old⟩ := entry
    by_cases hf : first = key
    · rw [insert, if_pos hf, get?_cons_of_ne h, hf, get?_cons_of_ne h]
    · rw [insert, if_neg hf]
      by_cases ho : other = first
      · rw [ho, get?_cons_self, get?_cons_self]
      · rw [get?_cons_of_ne ho, get?_cons_of_ne ho, ih]

/-- Inserting the value that a key has changes nothing. -/
theorem insert_of_get? {m : KeyMap κ α} {key : κ} {value : α} (h : m.get? key = some value) :
    m.insert key value = m := by
  induction m with
  | nil => cases h
  | cons entry m ih =>
    obtain ⟨other, old⟩ := entry
    by_cases ho : other = key
    · subst ho
      rw [get?_cons_self] at h
      rw [insert, if_pos rfl, Option.some.inj h]
    · rw [get?_cons_of_ne (Ne.symm ho)] at h
      rw [insert, if_neg ho, ih h]

theorem insert_insert (m : KeyMap κ α) (key : κ) (first second : α) :
    (m.insert key first).insert key second = m.insert key second := by
  induction m with
  | nil => simp [insert]
  | cons entry m ih =>
    obtain ⟨other, old⟩ := entry
    by_cases h : other = key
    · simp [insert, h]
    · simp [insert, h, ih]

/-- Erasing a key that was inserted anew gives the map as it was. -/
theorem erase_insert {m : KeyMap κ α} {key : κ} (h : m.get? key = none) (value : α) :
    (m.insert key value).erase key = m := by
  induction m with
  | nil => simp [insert, erase]
  | cons entry m ih =>
    obtain ⟨other, old⟩ := entry
    have ho : other ≠ key := by
      rintro rfl
      rw [get?_cons_self] at h
      cases h
    rw [get?_cons_of_ne (Ne.symm ho)] at h
    have hm := ih h
    unfold erase at hm ⊢
    rw [insert, if_neg ho, List.filter_cons_of_pos (by simpa using ho), hm]

/-- Erasing a key without a value changes nothing. -/
theorem erase_of_get? {m : KeyMap κ α} {key : κ} (h : m.get? key = none) : m.erase key = m := by
  unfold erase
  rw [List.filter_eq_self]
  intro entry hentry
  rw [bne_iff_ne]
  rintro rfl
  rw [get?, Option.map_eq_none_iff, List.find?_eq_none] at h
  exact h entry hentry (beq_self_eq_true entry.1)

end KeyMap

end TileNest
