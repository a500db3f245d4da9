import TileNest.Tensor

/-
  The computations on tensors of one tier. An operation names its operands together with the nodes
  that hold them; the last operand is the one that receives the result.
-/

namespace TileNest

/-- The identity of a node. Two nodes are the same exactly when their identities are. -/
structure NodeId where
  index : Nat
  deriving DecidableEq, Repr

def NodeId.text (id : NodeId) : String := "n" ++ toString id.index

/-- A tensor as the node that holds it. -/
structure TensorNode where
  id : NodeId
  tensor : Tensor
  deriving DecidableEq, Repr

def TensorNode.name (n : TensorNode) : String := n.tensor.name

/-- The kinds of operations. -/
inductive Operator where
  | gemm
  | convert
  deriving DecidableEq, Repr

namespace Operator

def text : Operator → String
  | gemm => "gemm"
  | convert => "convert"

/-- The number of operands, the result included. -/
def arity : Operator → Nat
  | gemm => 3
  | convert => 2

end Operator

/-- An operation with its operands: `acc` grows by the product of `a` and `b`, or `dst` receives
    the elements of `src` in its own element type. -/
inductive Operation where
  | gemm (a b acc : TensorNode)
  | convert (src dst : TensorNode)
  deriving DecidableEq, Repr

namespace Operation

def operator : Operation → Operator
  | gemm .. => .gemm
  | convert .. => .convert

/-- The operands that are only read. -/
def inputs : Operation → List TensorNode
  | gemm a b _ => [a, b]
  | convert src _ => [src]

/-- The operand that receives the result. -/
def result : Operation → TensorNode
  | gemm _ _ acc => acc
  | convert _ dst => dst

/-- All operands, the result last. -/
def operands (op : Operation) : List TensorNode := op.inputs ++ [op.result]

def label (op : Operation) : String :=
  op.operator.text ++ "(" ++ Text.commas (op.operands.map TensorNode.name) ++ ")"

theorem length_operands (op : Operation) : op.operands.length = op.operator.arity := by
  cases op <;> rfl

private def refuse (op : Operator) (t : Tensor) (flaw : OperandFlaw) : Except Fault Unit :=
  .error (.invalidOperand op.text t.name flaw)

/-- All tensors lie in the tier of the first. -/
def checkTiers (op : Operator) (first : Tensor) (others : List Tensor) : Except Fault Unit :=
  match others.find? (·.tier != first.tier) with
  | some t => refuse op t (.tier t.tier first.name first.tier)
  | none => .ok ()

/-- All tensors are matrices. -/
def checkRanks (op : Operator) (tensors : List Tensor) : Except Fault Unit :=
  match tensors.find? (·.rank != 2) with
  | some t => refuse op t (.rank t.rank)
  | none => .ok ()

/-- The rows and columns of matrices match those of a product. -/
def checkSides (a b acc : Tensor) : Except Fault Unit :=
  let m := a.shape.getD 0 0
  let k := a.shape.getD 1 0
  let n := b.shape.getD 1 0
  if b.shape.getD 0 0 ≠ k then refuse .gemm b (.rows k a.name b.shape)
  else if acc.shape ≠ [m, n] then refuse .gemm acc (.accumulator m n acc.shape)
  else .ok ()

/-- The tensors fit a product: matrices of one tier with matching sides. -/
def checkGemm (a b acc : Tensor) : Except Fault Unit := do
  checkRanks .gemm [a, b, acc]
  checkTiers .gemm a [b, acc]
  checkSides a b acc

/-- The tensors fit a conversion: one shape and one tier. -/
def checkConvert (src dst : Tensor) : Except Fault Unit :=
  if src.shape ≠ dst.shape then refuse .convert dst (.shape src.shape dst.shape)
  else checkTiers .convert src [dst]

end Operation

end TileNest
