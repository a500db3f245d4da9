import TileNest.Text
import TileNest.Tier

/-
  Everything that can go wrong, as causes. The wording of each cause stands in one place,
  `Fault.message`.
-/

namespace TileNest

/-- What makes an access map unusable. -/
inductive MapFlaw where
  | rowCount (rows vars : Nat)
  | rowWidth (row width dims : Nat)
  | offsetCount (offsets dims : Nat)
  | repeatedDim (dim : Nat)
  | valueCount (values vars : Nat)
  | dimBeyondRank (dim rank : Nat)
  | coordinateOverflow (dim : Nat)
  | indexOverflow (index : String)
  | ranksDiffer (edge : String) (source dest : Nat)
  | selectsBeyondRank (edge : String) (dim rank : Nat)
  | unevenExtents (edge : String) (dim larger smaller : Nat)
  | boundsOverflow (edge : String) (dim : Nat)
  deriving DecidableEq, Repr

/-- What makes a tensor's shape unusable. -/
inductive ShapeFlaw where
  | noAxes
  | emptyAxis (axis : Nat)
  | tooLarge
  deriving DecidableEq, Repr

/-- What makes a node unusable as an operand. -/
inductive OperandFlaw where
  | notTensor
  | rank (found : Nat)
  | tier (found : Tier) (first : String) (firstTier : Tier)
  | rows (expected : Nat) (first : String) (found : List Nat)
  | accumulator (rows columns : Nat) (found : List Nat)
  | shape (expected found : List Nat)
  deriving DecidableEq, Repr

/-- The uses of a graph that need its order. -/
inductive Stage where
  | ordering
  | emission
  | allocation
  | nesting
  deriving DecidableEq, Repr

/-- Where a list of loop variables stands. -/
inductive VarScope where
  | access
  | block
  deriving DecidableEq, Repr

/-- What refers to a loop variable. -/
inductive VarUse where
  | index (text : String)
  | access (edge : String)
  deriving DecidableEq, Repr

/-- The ends of a block's movements that its body has to know. -/
inductive InnerEnd where
  | loadDest
  | storeSource
  deriving DecidableEq, Repr

/-- A reason why a construction, a run or a plan fails. All but the last are reported; `panic`
    stands for a number that has no decrement, which stops the program. -/
inductive Fault where
  | duplicateNode (node : String)
  | danglingEdge (source target missing : String)
  | cycle (nodes : List String)
  | notConnected (stage : Stage)
  | malformedAccess (flaw : MapFlaw)
  | unselectedDim (edge : String) (dim tiles : Nat)
  | outOfBounds (edge : String) (dim : Nat) (least greatest : Int64) (tiles : Nat)
  | tierMismatch (source : String) (sourceTier : Tier) (target : String) (targetTier : Tier)
  | namelessTensor
  | invalidShape (tensor : String) (flaw : ShapeFlaw)
  | invertedRange (name : String) (low high : Int64)
  | repeatedVar (name : String) (scope : VarScope)
  | unboundVar (name : String) (use : VarUse)
  | missingTensor (place : InnerEnd) (tensor : String)
  | nameConflict (name : String)
  | invalidOperand (op operand : String) (flaw : OperandFlaw)
  | unlinkedOperand (op operand : String)
  | unbalancedLoop (var : String)
  | capacityExceeded (tier : Tier) (required capacity : Nat)
  | panic
  deriving DecidableEq, Repr

def MapFlaw.text : MapFlaw → String
  | rowCount rows vars => s!"{rows} coefficient rows for {vars} iteration vars"
  | rowWidth row width dims => s!"coefficient row {row} has {width} entries for {dims} selected dims"
  | offsetCount offsets dims => s!"{offsets} offsets for {dims} selected dims"
  | repeatedDim dim => s!"dimension {dim} is selected twice"
  | valueCount values vars => s!"{values} iteration values for {vars} iteration vars"
  | dimBeyondRank dim rank => s!"dimension {dim} is out of range for rank {rank}"
  | coordinateOverflow dim => s!"tile coordinate along dimension {dim} overflows i64"
  | indexOverflow index => s!"index expression {index} overflows i64"
  | ranksDiffer edge source dest => s!"{edge} joins rank {source} and rank {dest} tensors"
  | selectsBeyondRank edge dim rank => s!"{edge} selects dimension {dim} of rank {rank} tensors"
  | unevenExtents edge dim larger smaller =>
    s!"{edge} dimension {dim}: extent {larger} is not a multiple of {smaller}"
  | boundsOverflow edge dim => s!"{edge} tile coordinate along dimension {dim} overflows i64"

def ShapeFlaw.text : ShapeFlaw → String
  | noAxes => "rank must be at least 1"
  | emptyAxis axis => s!"extent of axis {axis} must be positive"
  | tooLarge => "byte length overflows usize"

def OperandFlaw.text : OperandFlaw → String
  | notTensor => "operands must be tensor nodes"
  | rank found => s!"expected a rank 2 tile, found rank {found}"
  | tier found first firstTier =>
    "lives in " ++ found.text ++ " memory but " ++ first ++ " lives in " ++ firstTier.text ++ " memory"
  | rows expected first found =>
    s!"expected {expected} rows to match {first}, found " ++ Text.sizes found
  | accumulator m n found =>
    s!"expected accumulator shape [{m}, {n}], found " ++ Text.sizes found
  | shape expected found => "expected shape " ++ Text.sizes expected ++ ", found " ++ Text.sizes found

def Stage.text : Stage → String
  | ordering => "topological ordering"
  | emission => "codegen"
  | allocation => "allocation"
  | nesting => "block construction"

def VarScope.text : VarScope → String
  | access => "access map"
  | block => "block"

def VarUse.text : VarUse → String
  | index text => "index expression " ++ text
  | access edge => "access " ++ edge

def InnerEnd.text : InnerEnd → String
  | loadDest => "load destination"
  | storeSource => "store source"

/-- The fault in words. -/
def Fault.message : Fault → String
  | duplicateNode node => s!"node {node} was already added to the graph"
  | danglingEdge source target missing =>
    s!"edge {source} -> {target} references node {missing} which is not in the graph"
  | cycle nodes => "dependency cycle through nodes " ++ Text.bracketed nodes
  | notConnected stage => "graph must be connected before " ++ stage.text
  | malformedAccess flaw => "malformed access map: " ++ flaw.text
  | unselectedDim edge dim tiles =>
    s!"access {edge} leaves dimension {dim} unselected but it spans {tiles} tiles"
  | outOfBounds edge dim least greatest tiles =>
    s!"access {edge} reaches tiles {least.toInt}..={greatest.toInt} along dimension {dim}, "
      ++ s!"valid tiles are 0..{tiles}"
  | tierMismatch source sourceTier target targetTier =>
    sourceTier.text ++ " tensor " ++ source ++ " cannot be linked directly to "
      ++ targetTier.text ++ " tensor " ++ target
  | namelessTensor => "invalid tensor name \"\": must not be empty"
  | invalidShape tensor flaw => "invalid shape for tensor " ++ tensor ++ ": " ++ flaw.text
  | invertedRange name low high =>
    s!"iteration var {name} has inverted range {low.toInt}..{high.toInt}"
  | repeatedVar name scope => "iteration var " ++ name ++ " is declared twice in " ++ scope.text
  | unboundVar name use =>
    "iteration var " ++ name ++ " used by " ++ use.text ++ " is not bound by the enclosing loop nest"
  | missingTensor place tensor =>
    "block " ++ place.text ++ " tensor " ++ tensor ++ " does not appear in the body graph"
  | nameConflict name => s!"tensor name {name} refers to two different tensors"
  | invalidOperand op operand flaw => op ++ " operand " ++ operand ++ " is invalid: " ++ flaw.text
  | unlinkedOperand op operand =>
    op ++ " operand " ++ operand ++ " is not linked to its compute node in this graph"
  | unbalancedLoop var => s!"loop markers are unbalanced at {var}"
  | capacityExceeded tier required capacity =>
    tier.text ++ s!" storage needs {required} bytes but only {capacity} are available"
  | panic => "attempt to subtract with overflow"

end TileNest
