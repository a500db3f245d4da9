import TileNest.Hierarchy.Block
import TileNest.Kernel.Copier
import TileNest.Schedule.Trace
import TileNest.Storage.Plan

/-
  Programs: a connected graph or a block, with everything that is derived from it: its schedule,
  its walk, its copiers and its storage plan. A target is what a caller has in hand, which is not a
  program before it is connected.
-/

namespace TileNest

/-- A hierarchy that can be scheduled. -/
inductive Program where
  | graph (graph : Graph)
  | block (block : Block)

namespace Program

/-- The schedule. -/
def code : Program → List Instruction
  | graph g => g.code
  | block b => b.code

/-- The walk. -/
def visits : Program → List Visit
  | graph g => g.visits
  | block b => b.visits

/-- The number of instructions, counted without the schedule. -/
def steps : Program → Nat
  | graph g => g.steps
  | block b => b.steps

/-- The conflicts and outputs of the whole hierarchy. -/
def interference : Program → Interference
  | graph g => g.interference 0 (g.steps - 1) []
  | block b => b.interference 0

/-- The tensors met by the walk. -/
def tensors (p : Program) : List Tensor := p.visits.flatMap Visit.tensors

/-- The copiers that the kernel declares. -/
def copiers (p : Program) : List Copier := Copier.ofVisits p.visits

/-- The plan of the tensors in the table, whatever the capacities. -/
def layout (p : Program) (options : PlanOptions) (table : TensorTable) : Except Fault Plan :=
  let interference := p.interference
  let code := p.code
  (Liveness.analyze table code).map fun ranges =>
    Plan.pack options interference
      (Plan.declared table (Plan.keepOutputs interference ranges) (Plan.wholeRange code))

/-- The storage plan. Two tensors of one name are reported before a capacity that does not
    suffice. -/
def plan (p : Program) (options : PlanOptions) : Except Fault Plan := do
  let table ← TensorTable.ofTensors p.tensors
  let plan ← p.layout options table
  plan.checkCapacity options

end Program

/-- What schedules and plans are asked of: a draft, once it is connected, or a block. -/
inductive Target where
  | graph (draft : Draft)
  | block (block : Block)

namespace Target

/-- What the given stage works on. -/
def program (stage : Stage) : Target → Except Fault Program
  | graph d => (d.graph stage).map .graph
  | block b => .ok (.block b)

/-- The schedule. -/
def schedule (t : Target) : Except Fault (List Instruction) :=
  (t.program .emission).map Program.code

/-- The storage plan. -/
def plan (t : Target) (options : PlanOptions) : Except Fault Plan := do
  let p ← t.program .allocation
  p.plan options

/-- The walk, which needs no order. -/
def visits : Target → List Visit
  | graph d => .graph d.nodes :: Node.visitsIn d.nodes d.nodes
  | block b => b.visits

/-- The tensors met by the walk. -/
def tensors (t : Target) : List Tensor := t.visits.flatMap Visit.tensors

/-- The copiers that a kernel declares. -/
def copiers (t : Target) : List Copier := Copier.ofVisits t.visits

end Target

end TileNest
