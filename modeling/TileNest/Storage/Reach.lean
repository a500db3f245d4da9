/-
  Reachability in a graph whose nodes come with an order. Going through the order backward, the
  nodes below a node are its successors and everything below them.
-/

namespace TileNest.Reach

/-- For each node handled so far, the set of the nodes that a path of at least one edge leads to,
    as a number with a bit for each of them. -/
abbrev Below := List (Nat × Nat)

/-- The nodes known to be below a node. -/
def Below.row (table : Below) (node : Nat) : Nat := (table.lookup node).getD 0

/-- The table with the nodes below `node` added: its successors and all below them. -/
def extend (successors : Nat → List Nat) (node : Nat) (table : Below) : Below :=
  (node, (successors node).foldl (fun row next => row ||| (1 <<< next ||| table.row next)) 0) :: table

/-- The nodes below each node of the order. -/
def below (successors : Nat → List Nat) (order : List Nat) : Below :=
  order.foldr (extend successors) []

/-- A path of at least one edge leads from `source` to `target`. -/
def reaches (table : Below) (source target : Nat) : Bool := (table.row source).testBit target

/-- The successors that a table lists for a node. Its nodes are the numbers below its length. -/
def listed (successors : List (List Nat)) (node : Nat) : List Nat := successors.getD node []

end TileNest.Reach
