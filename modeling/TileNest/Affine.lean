import TileNest.Checked
import TileNest.Fault

/-
  Affine expressions over loop variables and the tile indices made of them: their value under
  bindings of the variables, computed in checked 64-bit arithmetic, and their text.
-/

namespace TileNest

/-- The value that each bound variable has. -/
abbrev Env := String → Option Int64

namespace Env

/-- No variable is bound. -/
def empty : Env := fun _ => none

/-- The bindings with `name` bound to `value`, whatever it was bound to before. -/
def bind (env : Env) (name : String) (value : Int64) : Env :=
  fun other => if other = name then some value else env other

theorem bind_self (env : Env) (name : String) (value : Int64) :
    env.bind name value name = some value := by simp [bind]

theorem bind_of_ne (env : Env) {name other : String} (value : Int64) (h : other ≠ name) :
    env.bind name value other = env other := by simp [bind, h]

end Env

/-- A constant plus a sum of weighted loop variables. -/
structure Affine where
  terms : List (String × Int64)
  constant : Int64
  deriving DecidableEq, Repr

namespace Affine

/-- The expression without terms. -/
def ofConstant (value : Int64) : Affine := ⟨[], value⟩

def isConstant (e : Affine) : Bool := e.terms.isEmpty

/-- The absolute value of a weight. -/
def magnitude (weight : Int64) : Nat := weight.toInt.natAbs

/-- A term without its sign. A weight of one is left out. -/
def termText (name : String) (weight : Int64) : String :=
  if magnitude weight = 1 then name else toString (magnitude weight) ++ "*" ++ name

/-- The terms that follow another one, each with its sign as an operator. -/
def laterText : List (String × Int64) → String
  | [] => ""
  | (name, weight) :: terms =>
    (if weight < 0 then " - " else " + ") ++ termText name weight ++ laterText terms

/-- The constant after some terms. Zero is left out. -/
def constantText (c : Int64) : String :=
  if c = 0 then "" else (if c < 0 then " - " else " + ") ++ toString (magnitude c)

/-- The expression as text, such as `2*i - j + 1`. -/
def text (e : Affine) : String :=
  match e.terms with
  | [] => toString e.constant.toInt
  | (name, weight) :: terms =>
    (if weight < 0 then "-" else "") ++ termText name weight ++ laterText terms
      ++ constantText e.constant

/-- Adds the terms to `total`. The first term whose variable is unbound, or that takes the total
    out of range, ends the sum. -/
def sum (e : Affine) (env : Env) (total : Int64) : List (String × Int64) → Except Fault Int64
  | [] => .ok total
  | (name, weight) :: terms =>
    match env name with
    | none => .error (.unboundVar name (.index e.text))
    | some value =>
      match (Checked.mul? weight value).bind (Checked.add? total) with
      | none => .error (.malformedAccess (.indexOverflow e.text))
      | some total => sum e env total terms

/-- The value under the bindings. -/
def evaluate (e : Affine) (env : Env) : Except Fault Int64 := e.sum env e.constant e.terms

end Affine

/-- One expression for each dimension of a tensor. -/
structure TileIndex where
  axes : List Affine
  deriving DecidableEq, Repr

namespace TileIndex

/-- The expressions in square brackets. -/
def text (index : TileIndex) : String := Text.bracketed (index.axes.map Affine.text)

/-- The coordinates under the bindings, or the fault of the first expression without a value. -/
def evaluate (index : TileIndex) (env : Env) : Except Fault (List Int64) :=
  index.axes.mapM fun e => e.evaluate env

end TileIndex

end TileNest
