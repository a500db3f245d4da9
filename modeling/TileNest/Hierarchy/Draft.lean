import TileNest.Hierarchy.Basic
import TileNest.Hierarchy.Order
import TileNest.KeyMap

/-
  Graphs under construction. Nodes and edges are added one by one; `Draft.connect` checks the whole
  and fixes the order of its nodes, and any later addition makes the order void. Every change gives
  the draft that it leaves, also when it fails.
-/

namespace TileNest

/-- A dependency between two nodes, with the nodes themselves. -/
structure Link where
  source : Node
  target : Node

namespace Link

/-- The dependency by the identities of its ends. -/
def edge (l : Link) : Edge := ⟨l.source.id, l.target.id⟩

/-- The tensors that the link joins, if they lie in different tiers. -/
def tierClash? (l : Link) : Option (Tensor × Tensor) :=
  match l.source.tensor?, l.target.tensor? with
  | some a, some b => if a.tensor.tier = b.tensor.tier then none else some (a.tensor, b.tensor)
  | _, _ => none

end Link

/-- Nodes and links so far, where each identity stands among the nodes, and the order of the nodes
    if the draft is connected. -/
structure Draft where
  nodes : List Node
  index : KeyMap NodeId Nat
  links : List Link
  order : Option (List Nat)

namespace Draft

/-- The draft without nodes. -/
def empty : Draft := ⟨[], [], [], none⟩

/-- Some tensor node has this name. -/
def hasTensorNamed (d : Draft) (name : String) : Bool :=
  (d.nodes.filterMap Node.tensor?).any (·.name == name)

/-- Adds a node. Its identity must be new, and so must be its tensor's name. -/
def addNode (d : Draft) (n : Node) : Draft × Option Fault :=
  if d.index.contains n.id then (d, some (.duplicateNode n.label))
  else if n.tensor?.any (d.hasTensorNamed ·.name) then (d, some (.duplicateNode n.label))
  else
    let d := { d with index := d.index.insert n.id d.nodes.length }
    let d := { d with nodes := d.nodes ++ [n] }
    ({ d with order := none }, none)

/-- Adds nodes until one fails. -/
def addNodes (d : Draft) : List Node → Draft × Option Fault
  | [] => (d, none)
  | n :: ns =>
    match d.addNode n with
    | (d, none) => d.addNodes ns
    | (d, some fault) => (d, some fault)

/-- Adds an edge. Both ends must be nodes of the draft. -/
def addEdge (d : Draft) (l : Link) : Draft × Option Fault :=
  match [l.source, l.target].find? (!d.index.contains ·.id) with
  | some missing =>
    (d, some (.danglingEdge l.source.label l.target.label missing.label))
  | none =>
    let d := { d with links := d.links ++ [l] }
    ({ d with order := none }, none)

/-- Adds edges until one fails. -/
def addEdges (d : Draft) : List Link → Draft × Option Fault
  | [] => (d, none)
  | l :: ls =>
    match d.addEdge l with
    | (d, none) => d.addEdges ls
    | (d, some fault) => (d, some fault)

/-- The operand is in the draft, and a link joins it to the node with this identity. -/
def linked (d : Draft) (id : NodeId) (operand : TensorNode) : Bool :=
  d.index.contains operand.id && d.links.any fun l =>
    (l.source.id == operand.id && l.target.id == id) ||
      (l.source.id == id && l.target.id == operand.id)

/-- The first operand, with its operation, that is not linked to its compute node. -/
def unlinked? (d : Draft) : Option (Operation × TensorNode) :=
  d.nodes.findSome? fun n =>
    n.operation?.bind fun op => (op.operands.find? (!d.linked n.id ·)).map (op, ·)

/-- Where the node stands. -/
def position (d : Draft) (n : Node) : Except Fault Nat :=
  match d.index.get? n.id with
  | some i => .ok i
  | none => .error (.danglingEdge n.label n.label n.label)

/-- The link by the positions of its ends. -/
def arrow (d : Draft) (l : Link) : Except Fault Arrow := do
  let source ← d.position l.source
  let target ← d.position l.target
  return ⟨source, target⟩

/-- The labels of the nodes at these positions. -/
def labels (d : Draft) (positions : List Nat) : List String :=
  positions.filterMap fun i => d.nodes[i]?.map Node.label

/-- The order to run the nodes in. Edges between tiers, unlinked operands, ends that are not in the
    draft and cycles are looked for in this order. -/
def findOrder (d : Draft) : Except Fault (List Nat) :=
  match d.links.findSome? Link.tierClash? with
  | some (a, b) => .error (.tierMismatch a.name a.tier b.name b.tier)
  | none =>
    match d.unlinked? with
    | some (op, operand) => .error (.unlinkedOperand op.operator.text operand.name)
    | none =>
      match d.links.mapM d.arrow with
      | .error fault => .error fault
      | .ok arrows =>
        let s := Order.sort d.nodes.length arrows
        if s.taken.length < d.nodes.length then .error (.cycle (d.labels s.held)) else .ok s.taken

/-- Checks the draft and fixes its order. A draft that fails is left without one. -/
def connect (d : Draft) : Draft × Option Fault :=
  let d := { d with order := none }
  match d.findOrder with
  | .ok order => ({ d with order := some order }, none)
  | .error fault => (d, some fault)

/-- A change to a draft. -/
inductive Change where
  | addNode (node : Node)
  | addNodes (nodes : List Node)
  | addEdge (link : Link)
  | addEdges (links : List Link)
  | connect

/-- The draft after a change, with the fault if it failed. -/
def change (d : Draft) : Change → Draft × Option Fault
  | .addNode n => d.addNode n
  | .addNodes ns => d.addNodes ns
  | .addEdge l => d.addEdge l
  | .addEdges ls => d.addEdges ls
  | .connect => d.connect

def isConnected (d : Draft) : Bool := d.order.isSome

/-- The finished graph, which the given stage needs. -/
def graph (d : Draft) (stage : Stage) : Except Fault Graph :=
  match d.order with
  | some order => .ok ⟨d.nodes, d.links.map Link.edge, order⟩
  | none => .error (.notConnected stage)

/-- The two labels of each link. -/
def linkLabels (d : Draft) : List (List String) :=
  d.links.map fun l => [l.source.label, l.target.label]

end Draft

end TileNest
