/-
  Signed 64-bit arithmetic that refuses to wrap. A checked operation gives the exact result when
  it fits and nothing otherwise, so that every lemma speaks about the integers `Int64.toInt`.
-/

namespace TileNest.Checked

/-- The number of 64-bit sizes. Every size in bytes is below it. -/
def sizeLimit : Nat := 0x10000000000000000

/-- The 64-bit number of this value, when it has one. -/
def ofInt? (n : Int) : Option Int64 :=
  if Int64.minValue.toInt ≤ n ∧ n ≤ Int64.maxValue.toInt then some (Int64.ofInt n) else none

/-- The exact sum, when it fits. -/
def add? (a b : Int64) : Option Int64 := ofInt? (a.toInt + b.toInt)

/-- The exact product, when it fits. -/
def mul? (a b : Int64) : Option Int64 := ofInt? (a.toInt * b.toInt)

theorem toInt_mem_range (a : Int64) :
    Int64.minValue.toInt ≤ a.toInt ∧ a.toInt ≤ Int64.maxValue.toInt :=
  ⟨Int64.minValue_le_toInt a, Int64.toInt_le a⟩

theorem ofInt?_eq_some_iff {n : Int} {c : Int64} : ofInt? n = some c ↔ c.toInt = n := by
  unfold ofInt?
  constructor
  · intro h
    split at h
    · next hr =>
      have hc := Option.some.inj h
      rw [← hc, Int64.toInt_ofInt_of_le]
      · exact hr.1
      · have := hr.2
        simp only [Int64.toInt_maxValue] at this
        omega
    · exact absurd h (by simp)
  · rintro rfl
    rw [if_pos (toInt_mem_range c), Int64.ofInt_toInt]

theorem ofInt?_toInt (a : Int64) : ofInt? a.toInt = some a := ofInt?_eq_some_iff.2 rfl

theorem add?_eq_some_iff {a b c : Int64} : add? a b = some c ↔ c.toInt = a.toInt + b.toInt :=
  ofInt?_eq_some_iff

theorem mul?_eq_some_iff {a b c : Int64} : mul? a b = some c ↔ c.toInt = a.toInt * b.toInt :=
  ofInt?_eq_some_iff

end TileNest.Checked
