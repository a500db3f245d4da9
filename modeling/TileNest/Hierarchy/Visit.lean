import TileNest.Hierarchy.Basic

/-
  The walk through a hierarchy, in the order in which its parts were added: each graph before its
  nodes, each node before the block that it may hold, and in a block the loads, the body and the
  stores. Everything that is collected from a hierarchy is read off the list of visits.
-/

namespace TileNest

/-- One part of a hierarchy that the walk meets. -/
inductive Visit where
  | graph (nodes : List Node)
  | node (siblings : List Node) (node : Node)
  | block (block : Block)
  | load (block : Block) (movement : Movement)
  | store (block : Block) (movement : Movement)

namespace Visit

/-- The visit in words. -/
def text : Visit → String
  | graph nodes => "graph " ++ toString nodes.length
  | node siblings n => "node " ++ n.label ++ " of " ++ toString siblings.length
  | block b => b.label
  | load b m => "load " ++ m.label ++ " in " ++ b.label
  | store b m => "store " ++ m.label ++ " in " ++ b.label

/-- The tensors met: a node's own, or the two ends of a movement. -/
def tensors : Visit → List Tensor
  | graph _ => []
  | node _ n => (n.tensor?.map TensorNode.tensor).toList
  | block _ => []
  | load _ m => [m.source, m.dest]
  | store _ m => [m.source, m.dest]

/-- The movement met. -/
def movement? : Visit → Option Movement
  | load _ m => some m
  | store _ m => some m
  | _ => none

end Visit

mutual

/-- The walk through the block that the node may hold. -/
def Node.inside : Node → List Visit
  | .tensor _ => []
  | .compute .. => []
  | .block _ b => b.visits

/-- The walk through a block. -/
def Block.visits : Block → List Visit
  | ⟨loads, body, stores, vars⟩ =>
    let b : Block := ⟨loads, body, stores, vars⟩
    .block b :: loads.map (.load b) ++ body.visits ++ stores.map (.store b)

/-- The walk through a graph. -/
def Graph.visits : Graph → List Visit
  | ⟨nodes, _, _⟩ => .graph nodes :: Node.visitsIn nodes nodes

/-- The walk through some of the nodes of a graph. -/
def Node.visitsIn (siblings : List Node) : List Node → List Visit
  | [] => []
  | n :: ns => .node siblings n :: n.inside ++ Node.visitsIn siblings ns

end

theorem Node.visitsIn_eq (siblings ns : List Node) :
    Node.visitsIn siblings ns = ns.flatMap fun n => .node siblings n :: n.inside := by
  induction ns with
  | nil => rfl
  | cons n ns ih => simp [Node.visitsIn, ih]

theorem Graph.visits_eq (g : Graph) :
    g.visits = .graph g.nodes :: g.nodes.flatMap fun n => .node g.nodes n :: n.inside := by
  cases g with
  | mk nodes edges order => rw [Graph.visits, Node.visitsIn_eq]

theorem Block.visits_eq (b : Block) :
    b.visits = .block b :: b.loads.map (.load b) ++ b.body.visits ++ b.stores.map (.store b) := by
  cases b; rfl

end TileNest
