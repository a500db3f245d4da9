import TileNest.Schedule.Instruction

/-
  Live ranges of the tensors that a schedule refers to. A range covers every reference. A tensor
  whose first reference inside a loop takes up its previous value is carried from one iteration to
  the next, so its range also covers that loop's begin and end.
-/

namespace TileNest

/-- Positions of a schedule, both ends included. -/
structure LiveRange where
  first : Nat
  last : Nat
  deriving DecidableEq, Repr

namespace LiveRange

/-- The two ranges have a position in common. -/
def overlaps (a b : LiveRange) : Bool := a.first ≤ b.last && b.first ≤ a.last

/-- The range extended to a position. -/
def cover (r : LiveRange) (position : Nat) : LiveRange := ⟨min r.first position, max r.last position⟩

/-- The range in words. -/
def text (r : LiveRange) : String := toString r.first ++ "..=" ++ toString r.last

end LiveRange

/-- How an instruction refers to a tensor. Only a definition makes its previous value irrelevant. -/
inductive Mode where
  | use
  | define
  | update
  deriving DecidableEq, Repr

def Mode.text : Mode → String
  | use => "Use"
  | define => "Def"
  | update => "ReadWrite"

/-- Tensors by name. -/
abbrev TensorTable := List Tensor

def TensorTable.get? (table : TensorTable) (name : String) : Option Tensor :=
  table.find? (·.name == name)

namespace Transfer

/-- The destination is larger than the source along some dimension, as far as both are known. -/
def fillsPart (table : TensorTable) (t : Transfer) : Bool :=
  match table.get? t.source, table.get? t.dest with
  | some source, some dest => (dest.shape.zip source.shape).any fun (d, s) => s < d
  | _, _ => false

/-- The references of a transfer. A copy that fills only a part keeps the rest. -/
def references (table : TensorTable) (t : Transfer) : List (String × Mode) :=
  [(t.source, .use), (t.dest, if t.fillsPart table then .update else .define)]

end Transfer

/-- How the operator treats the operand that receives the result. -/
def Operator.resultMode : Operator → Mode
  | gemm => .update
  | convert => .define

/-- The references of an instruction, in the order in which they count. -/
def Instruction.references (table : TensorTable) : Instruction → List (String × Mode)
  | compute op operands result => operands.map (·, .use) ++ [(result, op.resultMode)]
  | load t => t.references table
  | store t => t.references table
  | loopBegin .. => []
  | loopEnd _ => []

/-- Live ranges by name, in the order of the first references. -/
abbrev LiveRanges := List (String × LiveRange)

namespace LiveRanges

/-- Extends the range of a tensor to a position, or starts it there. -/
def touch (name : String) (position : Nat) : LiveRanges → LiveRanges
  | [] => [(name, ⟨position, position⟩)]
  | (other, r) :: ranges =>
    if other = name then (other, r.cover position) :: ranges
    else (other, r) :: touch name position ranges

/-- Extends the range of a tensor to a position, if it has one. -/
def widen (name : String) (position : Nat) (ranges : LiveRanges) : LiveRanges :=
  ranges.map fun (other, r) => (other, if other = name then r.cover position else r)

end LiveRanges

namespace Liveness

/-- An open loop: where it began and how each tensor was first referred to in it. -/
structure Frame where
  var : String
  start : Nat
  firsts : List (String × Mode)
  deriving DecidableEq, Repr

/-- The frame after a reference. Only a tensor's first one is kept. -/
def Frame.note (f : Frame) (name : String) (mode : Mode) : Frame :=
  if f.firsts.any (·.1 == name) then f else { f with firsts := f.firsts ++ [(name, mode)] }

/-- The tensors whose previous value an iteration takes up. -/
def Frame.carried (f : Frame) : List String :=
  (f.firsts.filter (·.2 != .define)).map Prod.fst

/-- Ranges so far and the open loops, innermost first. -/
structure State where
  ranges : LiveRanges
  frames : List Frame
  deriving DecidableEq, Repr

def State.initial : State := ⟨[], []⟩

/-- The state after a reference at a position. -/
def refer (position : Nat) (s : State) (ref : String × Mode) : State :=
  ⟨LiveRanges.touch ref.1 position s.ranges, s.frames.map (·.note ref.1 ref.2)⟩

/-- Widens the ranges of the carried tensors to the whole loop. -/
def closeLoop (f : Frame) (position : Nat) (ranges : LiveRanges) : LiveRanges :=
  f.carried.foldl
    (fun ranges name => LiveRanges.widen name position (LiveRanges.widen name f.start ranges)) ranges

/-- The state after the instruction at a position. -/
def step (table : TensorTable) (position : Nat) (s : State) : Instruction → Except Fault State
  | .loopBegin var _ _ => .ok ⟨s.ranges, ⟨var, position, []⟩ :: s.frames⟩
  | .loopEnd var =>
    match s.frames with
    | [] => .error (.unbalancedLoop var)
    | f :: frames =>
      if f.var = var then .ok ⟨closeLoop f position s.ranges, frames⟩
      else .error (.unbalancedLoop var)
  | i => .ok ((i.references table).foldl (refer position) s)

/-- The ranges after the rest of a schedule, which starts at a position. -/
def scan (table : TensorTable) (position : Nat) (s : State) :
    List Instruction → Except Fault LiveRanges
  | [] =>
    match s.frames with
    | [] => .ok s.ranges
    | f :: _ => .error (.unbalancedLoop f.var)
  | i :: code =>
    match step table position s i with
    | .ok s => scan table (position + 1) s code
    | .error fault => .error fault

/-- The live ranges of a schedule. -/
def analyze (table : TensorTable) (code : List Instruction) : Except Fault LiveRanges :=
  scan table 0 .initial code

end Liveness

end TileNest
