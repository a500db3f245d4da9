import TileNest.Checked

/-
  Machine arithmetic as a program meets it. An operation on 64-bit numbers, sizes or positions may
  have no result: a division by zero, an entry beyond the end of a list, a decrement of the least
  number. A computation is the tree of its operations, each with what follows for every result, so
  that one definition says what is returned (`Arith.run`) and what is carried out on the way.
-/

namespace TileNest

namespace Arith

/-- An operation with its operands. -/
inductive Step where
  | remainder (a b : Nat)
  | quotient (a b : Nat)
  | signed (n : Nat)
  | entry (position length : Nat)
  | product (a b : Int64)
  | sum (a b : Int64)
  | decrement (a : Int64)
  deriving DecidableEq, Repr

namespace Step

/-- What the operation gives. Products and sums say when they do not fit. -/
def Result : Step → Type
  | remainder _ _ => Nat
  | quotient _ _ => Nat
  | signed _ => Int64
  | entry _ length => Fin length
  | product _ _ => Option Int64
  | sum _ _ => Option Int64
  | decrement _ => Int64

/-- The result of the operation, if the machine has one. A size from half of the range on is read
    as another signed number. -/
def result? : (s : Step) → Option s.Result
  | remainder a b => if b = 0 then none else some (show Nat from a % b)
  | quotient a b => if b = 0 then none else some (show Nat from a / b)
  | signed n => some (Int64.ofNat n)
  | entry position length => if h : position < length then some ⟨position, h⟩ else none
  | product a b => some (Checked.mul? a b)
  | sum a b => some (Checked.add? a b)
  | decrement a => Checked.ofInt? (a.toInt - 1)

end Step

end Arith

/-- A computation: a value, or an operation and what follows for each of its results. -/
inductive Arith (α : Type) where
  | done (value : α)
  | perform (step : Arith.Step) (next : step.Result → Arith α)

namespace Arith

variable {α β : Type}

/-- The one computation, and the other with its value. -/
def andThen : Arith α → (α → Arith β) → Arith β
  | done a, f => f a
  | perform s next, f => perform s fun r => (next r).andThen f

instance : Monad Arith where
  pure := done
  bind := andThen

/-- The value, or nothing where an operation has no result. -/
def run : Arith α → Option α
  | done a => some a
  | perform s next => s.result?.bind fun r => (next r).run

/-- A single operation. -/
def one (s : Step) : Arith s.Result := perform s done

def remainder (a b : Nat) : Arith Nat := one (.remainder a b)

def quotient (a b : Nat) : Arith Nat := one (.quotient a b)

/-- The size read as a signed number. -/
def signed (n : Nat) : Arith Int64 := one (.signed n)

/-- The entry of a list at a position. -/
def entry (xs : List α) (position : Nat) : Arith α :=
  perform (.entry position xs.length) fun i => done (xs.get i)

def product (a b : Int64) : Arith (Option Int64) := one (.product a b)

def sum (a b : Int64) : Arith (Option Int64) := one (.sum a b)

/-- The number before. -/
def decrement (a : Int64) : Arith Int64 := one (.decrement a)

/-- Goes on with the result, if there is one. -/
def orStop (x : Arith (Option α)) (f : α → Arith (Option β)) : Arith (Option β) := do
  match ← x with
  | none => pure none
  | some a => f a

@[simp] theorem run_pure (a : α) : (pure a : Arith α).run = some a := rfl

@[simp] theorem run_signed (n : Nat) : (signed n).run = some (Int64.ofNat n) := rfl

@[simp] theorem run_product (a b : Int64) : (product a b).run = some (Checked.mul? a b) := rfl

@[simp] theorem run_sum (a b : Int64) : (sum a b).run = some (Checked.add? a b) := rfl

@[simp] theorem run_one (s : Step) : (one s).run = s.result? := by
  show s.result?.bind some = s.result?
  cases s.result? with
  | none => rfl
  | some r => rfl

@[simp] theorem run_decrement (a : Int64) : (decrement a).run = Checked.ofInt? (a.toInt - 1) :=
  run_one (.decrement a)

theorem run_remainder {a b : Nat} (h : b ≠ 0) : (remainder a b).run = some (a % b) :=
  (run_one (.remainder a b)).trans (if_neg h)

theorem run_quotient {a b : Nat} (h : b ≠ 0) : (quotient a b).run = some (a / b) :=
  (run_one (.quotient a b)).trans (if_neg h)

@[simp] theorem run_entry (xs : List α) (position : Nat) :
    (entry xs position).run = xs[position]? := by
  by_cases h : position < xs.length
  · have hs : (Step.entry position xs.length).result? = some ⟨position, h⟩ := dif_pos h
    rw [entry, run, hs, List.getElem?_eq_getElem h]
    rfl
  · have hs : (Step.entry position xs.length).result? = none := dif_neg h
    rw [entry, run, hs, List.getElem?_eq_none (Nat.not_lt.1 h)]
    rfl

@[simp] theorem run_bind (x : Arith α) (f : α → Arith β) :
    (x >>= f).run = x.run.bind fun a => (f a).run := by
  induction x with
  | done a => rfl
  | perform s next ih =>
    show (s.result?.bind fun r => (next r >>= f).run) =
      (s.result?.bind fun r => (next r).run).bind _
    cases s.result? with
    | none => rfl
    | some r => exact ih r

/-- A computation that stops where there is no result, with a panic taken for a stop. -/
theorem join_run_orStop (x : Arith (Option α)) (f : α → Arith (Option β)) :
    (x.orStop f).run.join = x.run.join.bind fun a => (f a).run.join := by
  rw [orStop, run_bind]
  cases x.run with
  | none => rfl
  | some o =>
    cases o with
    | none => rfl
    | some a => rfl

end Arith

end TileNest
