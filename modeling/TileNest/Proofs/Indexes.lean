import Mathlib.Data.List.Nodup
import TileNest.KeyMap

/-
  Stored indexes: maps that give the key of every entry of a list the position of that entry. A list
  that grows at its end by an entry with a new key keeps its index exact (`KeyMap.Indexes.push`),
  and a list whose keys are all different can be indexed from its first entry on
  (`KeyMap.indexes_foldl`).
-/

namespace TileNest.KeyMap

variable {κ : Type} [DecidableEq κ] {m : KeyMap κ Nat} {keys : List κ} {key : κ}

/-- Every key has the position where it stands in the list, and no other key has a value. -/
def Indexes (m : KeyMap κ Nat) (keys : List κ) : Prop :=
  ∀ key i, m.get? key = some i ↔ keys[i]? = some key

theorem indexes_nil : Indexes [] ([] : List κ) := by
  intro key i
  simp [get?]

theorem contains_eq_false_iff : m.contains key = false ↔ m.get? key = none := by
  rw [contains, Option.isSome_eq_false_iff, Option.isNone_iff_eq_none]

namespace Indexes

theorem mem_iff (h : m.Indexes keys) : key ∈ keys ↔ ∃ i, m.get? key = some i := by
  rw [List.mem_iff_getElem?]
  exact exists_congr fun i => (h key i).symm

theorem contains_iff (h : m.Indexes keys) : m.contains key = true ↔ key ∈ keys := by
  rw [contains, Option.isSome_iff_exists, h.mem_iff]

theorem get?_eq_none_iff (h : m.Indexes keys) : m.get? key = none ↔ key ∉ keys := by
  rw [h.mem_iff, not_exists, Option.eq_none_iff_forall_ne_some]

theorem lt_length (h : m.Indexes keys) {i : Nat} (hi : m.get? key = some i) : i < keys.length :=
  (List.getElem?_eq_some_iff.1 ((h key i).1 hi)).1

/-- One key stands at one position only. -/
theorem nodup (h : m.Indexes keys) : keys.Nodup := by
  rw [List.nodup_iff_getElem?_ne_getElem?]
  intro i j hij hj hsame
  have hi := List.getElem?_eq_getElem (Nat.lt_trans hij hj)
  have hfirst := (h _ i).2 hi
  have hsecond := (h _ j).2 (hsame ▸ hi)
  have heq : i = j := Option.some.inj (hfirst.symm.trans hsecond)
  exact Nat.ne_of_lt hij heq

/-- The list with one more entry, whose key is new. -/
theorem push (h : m.Indexes keys) (hnew : key ∉ keys) :
    (m.insert key keys.length).Indexes (keys ++ [key]) := by
  intro other i
  by_cases ho : other = key
  · subst ho
    rw [get?_insert_self, Option.some.injEq]
    constructor
    · rintro rfl
      exact List.getElem?_concat_length
    · intro hi
      rcases Nat.lt_or_ge i keys.length with hlt | hge
      · rw [List.getElem?_append_left hlt] at hi
        exact absurd (List.mem_of_getElem? hi) hnew
      · have hlt := (List.getElem?_eq_some_iff.1 hi).1
        rw [List.length_append, List.length_singleton] at hlt
        omega
  · rw [get?_insert_of_ne m ho, h other i]
    rcases Nat.lt_or_ge i keys.length with hlt | hge
    · rw [List.getElem?_append_left hlt]
    · rw [List.getElem?_eq_none hge, List.getElem?_append_right hge]
      constructor
      · intro hi
        cases hi
      · intro hi
        exact absurd (List.mem_singleton.1 (List.mem_of_getElem? hi)) ho

end Indexes

/-- Keys that are all different, inserted one after the other with their positions. -/
theorem indexes_foldl {α : Type} (f : α → κ) {xs : List α} (h : m.Indexes keys)
    (hn : (keys ++ xs.map f).Nodup) :
    ((xs.zipIdx keys.length).foldl (fun m (x, i) => m.insert (f x) i) m).Indexes
      (keys ++ xs.map f) := by
  induction xs generalizing m keys with
  | nil =>
    rw [List.map_nil, List.append_nil]
    exact h
  | cons x xs ih =>
    rw [List.map_cons, List.append_cons] at hn ⊢
    have hnew : f x ∉ keys := by
      have hpair := (List.nodup_append.1 hn).1
      rw [List.nodup_append_comm] at hpair
      exact (List.nodup_cons.1 hpair).1
    have hrest := ih (h.push hnew) hn
    rwa [List.length_append] at hrest

end TileNest.KeyMap
