import TileNest.Movement
import TileNest.Operation

/-
  The hierarchy of a kernel: a graph orders nodes of one tier, a node may be a block, and a block
  is a loop nest around a graph with the movements that feed and drain it. Edges refer to nodes by
  their identities, the order by their positions in the graph.
-/

namespace TileNest

/-- A dependency between two nodes of a graph, given by their identities. -/
structure Edge where
  source : NodeId
  target : NodeId
  deriving DecidableEq, Repr

mutual

/-- A tensor, an operation on tensors, or a loop nest. -/
inductive Node where
  | tensor (node : TensorNode)
  | compute (id : NodeId) (operation : Operation)
  | block (id : NodeId) (block : Block)

/-- A loop nest around a body, the outermost loop first, with the movements that run in it. -/
structure Block where
  loads : List Movement
  body : Graph
  stores : List Movement
  vars : List LoopVar

/-- Nodes and their dependencies, with the positions of the nodes in the order to run them. -/
structure Graph where
  nodes : List Node
  edges : List Edge
  order : List Nat

end

namespace Block

def label (b : Block) : String := "block" ++ Text.bracketed (b.vars.map LoopVar.name)

/-- The number of the block's loops that a transfer with this map runs inside: up to the innermost
    one that the map refers to. -/
def depthOf (b : Block) (access : Access) : Nat :=
  (access.vars.filterMap fun v => (b.vars.findIdx? (·.name == v.name)).map (· + 1)).foldl max 0

end Block

namespace Node

def id : Node → NodeId
  | tensor n => n.id
  | compute id _ => id
  | block id _ => id

def label : Node → String
  | tensor n => n.name
  | compute _ op => op.label
  | block _ b => b.label

/-- The tensor node, if the node is one. -/
def tensor? : Node → Option TensorNode
  | tensor n => some n
  | _ => none

def operation? : Node → Option Operation
  | compute _ op => some op
  | _ => none

def block? : Node → Option Block
  | block _ b => some b
  | _ => none

/-- The tensor node behind an operand of this operator. -/
def operand (op : Operator) (n : Node) : Except Fault TensorNode :=
  match n.tensor? with
  | some t => .ok t
  | none => .error (.invalidOperand op.text n.label .notTensor)

/-- The node of a matrix product, if its operands fit. -/
def gemm (id : NodeId) (a b acc : Node) : Except Fault Node := do
  let a ← a.operand .gemm
  let b ← b.operand .gemm
  let acc ← acc.operand .gemm
  Operation.checkGemm a.tensor b.tensor acc.tensor
  return .compute id (.gemm a b acc)

/-- The node of a conversion, if its operands fit. -/
def convert (id : NodeId) (src dst : Node) : Except Fault Node := do
  let src ← src.operand .convert
  let dst ← dst.operand .convert
  Operation.checkConvert src.tensor dst.tensor
  return .compute id (.convert src dst)

/-- The tensors that an enclosing block can refer to: the node's own tensor, or the outward ends
    of a nested block's movements. -/
def visible : Node → List Tensor
  | tensor n => [n.tensor]
  | compute .. => []
  | block _ b => b.loads.map Movement.source ++ b.stores.map Movement.dest

end Node

namespace Graph

/-- The entries of a table with one entry per node, in the order of the nodes to run. -/
def inOrder {α : Type} (g : Graph) (table : List α) : List α := g.order.filterMap (table[·]?)

/-- The nodes in the order to run them. -/
def ordered (g : Graph) : List Node := g.inOrder g.nodes

/-- The tensors that an enclosing block can refer to. -/
def visible (g : Graph) : List Tensor := g.nodes.flatMap Node.visible

end Graph

end TileNest
