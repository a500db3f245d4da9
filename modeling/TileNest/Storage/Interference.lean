import TileNest.Hierarchy.Order
import TileNest.Hierarchy.Visit
import TileNest.KeyMap
import TileNest.Storage.Reach

/-
  Conflicts of storage that the order of emission cannot show. A schedule runs the nodes of a graph
  one after the other even where either could run first. Here each graph of a hierarchy is looked
  at alone: two tensors conflict unless every node that refers to one reaches every node that
  refers to the other. A tensor that no node of its graph takes up is an output and has to survive
  to the end of its scope.
-/

namespace TileNest

/-- A node that refers to a tensor. A reference inside a block is ordered by the graphs in it. -/
structure Site where
  position : Nat
  nested : Bool
  deriving DecidableEq, Repr

/-- Pairs of tensors in conflict, and outputs with the last position that they survive to. -/
structure Interference where
  pairs : List (String × String)
  outputs : List (String × Nat)
  deriving DecidableEq, Repr

namespace Interference

def none : Interference := ⟨[], []⟩

instance : Append Interference := ⟨fun a b => ⟨a.pairs ++ b.pairs, a.outputs ++ b.outputs⟩⟩

/-- The two tensors conflict. -/
def conflicts (i : Interference) (a b : String) : Bool :=
  i.pairs.contains (a, b) || i.pairs.contains (b, a)

/-- The tensors that conflict with the given one. -/
def foes (i : Interference) (name : String) : List String :=
  i.pairs.filterMap fun p =>
    if p.1 = name then some p.2 else if p.2 = name then some p.1 else Option.none

theorem contains_foes (i : Interference) (a b : String) :
    (i.foes b).contains a = i.conflicts a b := by
  rw [Bool.eq_iff_iff, conflicts, Bool.or_eq_true, List.contains_iff_mem, List.contains_iff_mem,
    List.contains_iff_mem, foes, List.mem_filterMap]
  constructor
  · rintro ⟨⟨x, y⟩, hp, h⟩
    dsimp only at h
    split at h
    · next hx => exact .inr (hx ▸ Option.some.inj h ▸ hp)
    · split at h
      · next hy => exact .inl (hy ▸ Option.some.inj h ▸ hp)
      · cases h
  · rintro (h | h)
    · refine ⟨(a, b), h, ?_⟩
      by_cases hab : a = b
      · simp [hab]
      · simp [hab]
    · exact ⟨(b, a), h, if_pos rfl⟩

/-- The two names in ascending order. -/
def sorted (pair : String × String) : String × String :=
  if pair.1 ≤ pair.2 then pair else (pair.2, pair.1)

/-- Pairs by their names in ascending order. -/
def before (p q : String × String) : Bool :=
  let p := sorted p
  let q := sorted q
  p.1 < q.1 || (p.1 == q.1 && p.2 ≤ q.2)

/-- The pairs without those that occurred before in one of the two orders. -/
def distinctPairs (pairs : List (String × String)) : List (String × String) :=
  (pairs.mergeSort before).eraseRepsBy fun p q => sorted p == sorted q

/-- The positions with that of `name` raised to `last`, if it is lower. -/
def raise (name : String) (last : Nat) : List (String × Nat) → List (String × Nat)
  | [] => [(name, last)]
  | (other, n) :: ends =>
    if other = name then (other, max n last) :: ends else (other, n) :: raise name last ends

/-- The last position that each output survives to. -/
def ends (i : Interference) : List (String × Nat) :=
  i.outputs.foldl (fun ends output => raise output.1 output.2 ends) []

/-- The findings of parts that follow each other, given the length of each. -/
def inSequence (start : Nat) : List (Nat × (Nat → Interference)) → Interference
  | [] => none
  | (length, part) :: parts => part start ++ inSequence (start + length) parts

end Interference

mutual

/-- The number of instructions of a node. -/
def Node.steps : Node → Nat
  | .tensor _ => 0
  | .compute .. => 1
  | .block _ b => b.steps

/-- The number of instructions of a block. -/
def Block.steps : Block → Nat
  | ⟨loads, body, stores, vars⟩ => loads.length + stores.length + 2 * vars.length + body.steps

/-- The number of instructions of a graph. -/
def Graph.steps : Graph → Nat
  | ⟨nodes, _, _⟩ => (Node.stepsOf nodes).foldr (· + ·) 0

/-- The numbers of instructions of the nodes. -/
def Node.stepsOf : List Node → List Nat
  | [] => []
  | n :: ns => n.steps :: Node.stepsOf ns

end

theorem Node.stepsOf_eq_map (ns : List Node) : Node.stepsOf ns = ns.map Node.steps := by
  induction ns with
  | nil => rfl
  | cons n ns ih => simp [Node.stepsOf, ih]

theorem Graph.steps_eq (g : Graph) : g.steps = (g.nodes.map Node.steps).foldr (· + ·) 0 := by
  cases g with
  | mk nodes edges order => rw [Graph.steps, Node.stepsOf_eq_map]

theorem Block.steps_eq (b : Block) :
    b.steps = b.loads.length + b.stores.length + 2 * b.vars.length + b.body.steps := by
  cases b; rfl

/-- The references of the node at this position, with the names of the tensors. -/
def Node.sites (position : Nat) : Node → List (String × Site)
  | .tensor n => [(n.name, ⟨position, false⟩)]
  | .compute _ op => op.operands.map fun operand => (operand.name, ⟨position, false⟩)
  | .block _ b => (b.visits.flatMap Visit.tensors).map fun t => (t.name, ⟨position, true⟩)

namespace Graph

/-- The references of all nodes. -/
def sites (g : Graph) : List (String × Site) := (g.nodes.mapIdx Node.sites).flatten

/-- Where each identity stands among the nodes. -/
def index (g : Graph) : KeyMap NodeId Nat :=
  g.nodes.zipIdx.foldl (fun index (n, position) => index.insert n.id position) []

/-- The edges by the positions of their ends, as far as both ends are nodes of the graph. -/
def arrows (g : Graph) : List Arrow :=
  let index := g.index
  g.edges.filterMap fun e => do
    let source ← index.get? e.source
    let target ← index.get? e.target
    return ⟨source, target⟩

/-- The positions that the edges lead to from each position. -/
def successors (g : Graph) : List (List Nat) := Order.successors g.nodes.length g.arrows

/-- The positions of the nodes in the order to run them, looked up by their identities. -/
def sequence (g : Graph) : List Nat :=
  let index := g.index
  g.ordered.filterMap fun n => index.get? n.id

/-- The nodes below each node. -/
def reach (g : Graph) : Reach.Below := Reach.below (Reach.listed g.successors) g.sequence

/-- Every reference of the first list reaches every one of the second, where two references inside
    one block need no path. -/
def precedes (below : Reach.Below) (first second : List Site) : Bool :=
  first.all fun a =>
    let row := below.row a.position
    second.all fun b =>
      (a.position == b.position && a.nested && b.nested) || row.testBit b.position

/-- The pairs of tensors, each with its references, that are in neither order. -/
def unordered (below : Reach.Below) : List (String × List Site) → List (String × String)
  | [] => []
  | (a, first) :: rest =>
    (rest.filter fun (_, second) =>
      !(precedes below first second || precedes below second first)).map (fun (b, _) => (a, b)) ++
        unordered below rest

/-- The tensors that the graph refers to, each with its references, every one of them once. -/
def references (g : Graph) : List (String × List Site) :=
  let sites := g.sites
  (sites.map Prod.fst).eraseDups.map fun name =>
    (name, ((sites.filter (·.1 == name)).map Prod.snd).eraseDups)

/-- The tensor nodes without successors that are not stored from the scope. -/
def outputs (g : Graph) (stored : List String) : List String :=
  let successors := g.successors
  (g.nodes.zipIdx.filterMap fun (n, position) =>
    if (Reach.listed successors position).isEmpty then n.tensor?.map TensorNode.name
    else none).filter fun name => !stored.contains name

/-- The findings about the graph itself, whose outputs survive to `last`. -/
def ownInterference (g : Graph) (last : Nat) (stored : List String) : Interference :=
  ⟨unordered g.reach g.references, (g.outputs stored).map (·, last)⟩

end Graph

mutual

/-- The findings inside a node that starts at a position. -/
def Node.interference : Node → (start : Nat) → Interference
  | .tensor _, _ => .none
  | .compute .., _ => .none
  | .block _ b, start => b.interference start

/-- The findings inside a block that starts at a position. -/
def Block.interference : Block → (start : Nat) → Interference
  | ⟨loads, body, stores, vars⟩, start =>
    body.interference (start + loads.length + vars.length)
      (start + Block.steps ⟨loads, body, stores, vars⟩ - 1) (stores.map (·.source.name))

/-- The findings about a graph that starts at a position, in a scope that ends at `last`, and about
    the blocks in it. -/
def Graph.interference : Graph → (start last : Nat) → (stored : List String) → Interference
  | ⟨nodes, edges, order⟩, start, last, stored =>
    let g : Graph := ⟨nodes, edges, order⟩
    let parts := (Node.stepsOf nodes).zip (Node.interferences nodes)
    g.ownInterference last stored
      ++ Interference.inSequence start (g.sequence.filterMap (parts[·]?))

/-- The findings inside each of the nodes, by the position where it starts. -/
def Node.interferences : List Node → List (Nat → Interference)
  | [] => []
  | n :: ns => (fun start => n.interference start) :: Node.interferences ns

end

theorem Node.interferences_eq_map (ns : List Node) :
    Node.interferences ns = ns.map Node.interference := by
  induction ns with
  | nil => rfl
  | cons n ns ih => simp [Node.interferences, ih]

theorem Graph.interference_eq (g : Graph) (start last : Nat) (stored : List String) :
    g.interference start last stored = g.ownInterference last stored ++
      Interference.inSequence start
        ((g.sequence.filterMap (g.nodes[·]?)).map fun n => (n.steps, n.interference)) := by
  cases g with
  | mk nodes edges order =>
    rw [Graph.interference, Node.stepsOf_eq_map, Node.interferences_eq_map, List.zip_map']
    simp only [List.getElem?_map, List.map_filterMap]

theorem Block.interference_eq (b : Block) (start : Nat) :
    b.interference start = b.body.interference (start + b.loads.length + b.vars.length)
      (start + b.steps - 1) (b.stores.map (·.source.name)) := by
  cases b; rfl

end TileNest
