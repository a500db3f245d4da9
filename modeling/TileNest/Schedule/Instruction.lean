import TileNest.Hierarchy.Basic

/-
  Instructions and the schedule of a hierarchy. A graph emits its nodes in their order. A block
  emits each load at the start and each store at the end of the innermost loop that its map refers
  to; a movement that no loop affects stands outside all of them.
-/

namespace TileNest

/-- One copy of a tile: the names of its ends, the route, and the tile as expressions. -/
structure Transfer where
  source : String
  dest : String
  route : Route
  index : TileIndex
  deriving DecidableEq, Repr

/-- One step of a schedule, or a mark where a loop begins or ends. -/
inductive Instruction where
  | compute (op : Operator) (operands : List String) (result : String)
  | load (transfer : Transfer)
  | store (transfer : Transfer)
  | loopBegin (var : String) (low high : Int64)
  | loopEnd (var : String)
  deriving DecidableEq, Repr

/-- The transfer that carries out a movement. -/
def Movement.transfer (m : Movement) : Transfer := ⟨m.source.name, m.dest.name, m.route, m.index⟩

/-- The instruction that carries out an operation. -/
def Operation.instruction (op : Operation) : Instruction :=
  .compute op.operator (op.inputs.map TensorNode.name) op.result.name

namespace Block

/-- The loads that stand just inside the loop of this depth. -/
def loadsAt (b : Block) (depth : Nat) : List Instruction :=
  (b.loads.filter fun m => b.depthOf m.access == depth).map fun m => .load m.transfer

/-- The stores that stand just inside the loop of this depth. -/
def storesAt (b : Block) (depth : Nat) : List Instruction :=
  (b.stores.filter fun m => b.depthOf m.access == depth).map fun m => .store m.transfer

/-- The loops of the given variables around the body's schedule, from this depth inward. -/
def nest (b : Block) (body : List Instruction) (depth : Nat) : List LoopVar → List Instruction
  | [] => b.loadsAt depth ++ body ++ b.storesAt depth
  | v :: vars =>
    b.loadsAt depth ++ .loopBegin v.name v.low v.high :: b.nest body (depth + 1) vars
      ++ .loopEnd v.name :: b.storesAt depth

end Block

mutual

/-- The schedule of a node. A tensor needs no instruction. -/
def Node.code : Node → List Instruction
  | .tensor _ => []
  | .compute _ op => [op.instruction]
  | .block _ b => b.code

/-- The schedule of a block. -/
def Block.code : Block → List Instruction
  | ⟨loads, body, stores, vars⟩ => Block.nest ⟨loads, body, stores, vars⟩ body.code 0 vars

/-- The schedule of a graph. -/
def Graph.code : Graph → List Instruction
  | ⟨nodes, edges, order⟩ => (Graph.inOrder ⟨nodes, edges, order⟩ (Node.codes nodes)).flatten

/-- The schedules of the nodes, one by one. -/
def Node.codes : List Node → List (List Instruction)
  | [] => []
  | n :: ns => n.code :: Node.codes ns

end

theorem Node.codes_eq_map (ns : List Node) : Node.codes ns = ns.map Node.code := by
  induction ns with
  | nil => rfl
  | cons n ns ih => simp [Node.codes, ih]

theorem Graph.code_eq (g : Graph) : g.code = g.ordered.flatMap Node.code := by
  cases g with
  | mk nodes edges order =>
    simp only [Graph.code, Graph.ordered, Graph.inOrder, Node.codes_eq_map, List.flatMap,
      List.map_filterMap, List.getElem?_map]

theorem Block.code_eq (b : Block) : b.code = b.nest b.body.code 0 b.vars := by
  cases b; rfl

end TileNest
