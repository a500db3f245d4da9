import TileNest.KeyMap
import TileNest.Schedule.Liveness
import TileNest.Storage.Interference
import TileNest.Storage.Packing

/-
  Storage plans. Every tensor of a hierarchy gets an offset in its tier. Global tensors are laid
  end to end; shared and register tensors go to the first place where they avoid the tensors that
  are live at the same time or in conflict, or all of them where slots are not reused.
-/

namespace TileNest

/-- How storage is planned. -/
structure PlanOptions where
  alignment : Nat := 16
  reuseSlots : Bool := true
  sharedCapacity : Option Nat := none
  registerCapacity : Option Nat := none
  deriving DecidableEq, Repr

namespace PlanOptions

/-- The number of bytes that the tier may need. -/
def capacity (o : PlanOptions) : Tier → Option Nat
  | .shared => o.sharedCapacity
  | .register => o.registerCapacity
  | .global => none

/-- The alignment that offsets have. -/
def step (o : PlanOptions) : Nat := max o.alignment 1

end PlanOptions

/-- The place of one tensor. -/
structure Allocation where
  name : String
  tier : Tier
  dtype : DType
  shape : List Nat
  offset : Nat
  size : Nat
  live : LiveRange
  deriving DecidableEq, Repr

/-- The first byte after the tensor. -/
def Allocation.stop (a : Allocation) : Nat := a.offset + a.size

/-- The places of all tensors, in the order of their declaration, and where each name stands among
    them. -/
structure Plan where
  allocations : List Allocation
  index : KeyMap String Nat
  deriving DecidableEq, Repr

namespace TensorTable

/-- The distinct tensors, in the order of their first occurrence. A tensor that differs from the
    first one of its name is reported. -/
def ofTensors (tensors : List Tensor) : Except Fault TensorTable :=
  match tensors.find? fun t => TensorTable.get? tensors t.name != some t with
  | some t => .error (.nameConflict t.name)
  | none => .ok tensors.eraseDups

end TensorTable

namespace Plan

/-- The plan without tensors. -/
def empty : Plan := ⟨[], []⟩

/-- The plan with one more place. -/
def push (p : Plan) (a : Allocation) : Plan :=
  ⟨p.allocations ++ [a], p.index.insert a.name p.allocations.length⟩

/-- The place of the tensor with this name. -/
def get? (p : Plan) (name : String) : Option Allocation :=
  (p.index.get? name).bind fun i => p.allocations[i]?

/-- The bytes that the tier needs. -/
def footprint (p : Plan) (tier : Tier) : Nat :=
  ((p.allocations.filter (·.tier == tier)).map Allocation.stop).foldl max 0

/-- The tensors with their ranges: those that the schedule refers to, in the order of their first
    references, and then the others, which live throughout. -/
def declared (table : TensorTable) (ranges : LiveRanges) (whole : LiveRange) :
    List (Tensor × LiveRange) :=
  (ranges.filterMap fun (name, live) => (table.get? name).map (·, live))
    ++ (table.filter fun t => (ranges.lookup t.name).isNone).map (·, whole)

/-- The placed tensors that a tensor of this tier, name and range has to avoid. -/
def rivals (options : PlanOptions) (interference : Interference) (p : Plan) (t : Tensor)
    (live : LiveRange) : List Allocation :=
  let foes := interference.foes t.name
  p.allocations.filter fun a =>
    a.tier == t.tier && (!options.reuseSlots || a.live.overlaps live || foes.contains a.name)

/-- Where the next tensor goes. -/
def offsetFor (options : PlanOptions) (interference : Interference) (p : Plan) (t : Tensor)
    (live : LiveRange) : Nat :=
  match t.tier with
  | .global => Packing.alignUp (p.footprint .global) options.step
  | _ =>
    Packing.firstFit ((p.rivals options interference t live).map fun a => (a.offset, a.stop))
      t.bytes options.step

/-- The plan with one more tensor. -/
def place (options : PlanOptions) (interference : Interference) (p : Plan)
    (entry : Tensor × LiveRange) : Plan :=
  let (t, live) := entry
  let offset := p.offsetFor options interference t live
  p.push ⟨t.name, t.tier, t.dtype, t.shape, offset, t.bytes, live⟩

/-- The plan of the tensors, placed one after the other. -/
def pack (options : PlanOptions) (interference : Interference)
    (entries : List (Tensor × LiveRange)) : Plan :=
  entries.foldl (place options interference) empty

/-- The tier needs no more than its capacity. -/
def checkTier (options : PlanOptions) (p : Plan) (tier : Tier) : Except Fault Unit :=
  match options.capacity tier with
  | none => .ok ()
  | some capacity =>
    if capacity < p.footprint tier then
      .error (.capacityExceeded tier (p.footprint tier) capacity)
    else .ok ()

/-- The plan, if shared memory and then registers suffice. -/
def checkCapacity (options : PlanOptions) (p : Plan) : Except Fault Plan := do
  p.checkTier options .shared
  p.checkTier options .register
  return p

/-- The live ranges with the outputs kept to the end of their scopes. -/
def keepOutputs (interference : Interference) (ranges : LiveRanges) : LiveRanges :=
  interference.ends.foldl (fun ranges output => LiveRanges.widen output.1 output.2 ranges) ranges

/-- The range of a whole schedule. -/
def wholeRange (code : List Instruction) : LiveRange := ⟨0, code.length - 1⟩

end Plan

end TileNest
