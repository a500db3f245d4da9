import TileNest.Codec.Names
import TileNest.Json.Printer
import TileNest.Kernel.Listing
import TileNest.Storage.Plan

/-
  Plans, copiers and options as data values, and back. Options may be given in part; what is left
  out has its usual value.
-/

namespace TileNest

namespace LiveRange

def toJson (r : LiveRange) : Json := .obj [("start", .ofNat r.first), ("end", .ofNat r.last)]

def ofJson? (v : Json) : Option LiveRange :=
  match v.record? ["start", "end"] with
  | some [first, last] => do return ⟨← first.size?, ← last.size?⟩
  | _ => none

end LiveRange

namespace Allocation

/-- The fields of an allocation. -/
def toFields (a : Allocation) : List (String × Json) :=
  [("name", .str a.name), ("tier", a.tier.toJson), ("dtype", a.dtype.toJson),
    ("shape", .arr (a.shape.map .ofNat)), ("offset", .ofNat a.offset), ("size", .ofNat a.size),
    ("live_range", a.live.toJson)]

def ofJson? (v : Json) : Option Allocation :=
  match v.record? ["name", "tier", "dtype", "shape", "offset", "size", "live_range"] with
  | some [name, tier, dtype, shape, offset, size, live] => do
    return ⟨← name.string?, ← Tier.ofJson? tier, ← DType.ofJson? dtype, ← shape.list? Json.size?,
      ← offset.size?, ← size.size?, ← LiveRange.ofJson? live⟩
  | _ => none

end Allocation

namespace Plan

def toJson (p : Plan) : Json :=
  .obj [("allocations", .arr (p.allocations.map fun a => .obj a.toFields))]

/-- The text of a plan. -/
def text (p : Plan) : String := p.toJson.pretty

end Plan

namespace Copier

def toFields (c : Copier) : List (String × Json) :=
  [("kind", c.route.toJson), ("source", .str c.source), ("dest", .str c.dest)]

def ofJson? (v : Json) : Option Copier :=
  match v.record? ["kind", "source", "dest"] with
  | some [kind, source, dest] => do return ⟨← Route.ofJson? kind, ← source.string?, ← dest.string?⟩
  | _ => none

end Copier

/-- The value of a field that may be left out. -/
def fieldOr? {α : Type} (value : Json → Option α) (usual : α) : Option Json → Option α
  | none => some usual
  | some v => value v

namespace PlanOptions

/-- The number of bytes, or null where there is no limit. -/
def capacityToJson : Option Nat → Json
  | none => .null
  | some bytes => .ofNat bytes

def toJson (o : PlanOptions) : Json :=
  .obj [("alignment", .ofNat o.alignment), ("reuse_slots", .bool o.reuseSlots),
    ("shared_capacity", capacityToJson o.sharedCapacity),
    ("register_capacity", capacityToJson o.registerCapacity)]

/-- Options of which some may be left out. -/
def ofJson? (usual : PlanOptions) (v : Json) : Option PlanOptions :=
  match v.partialRecord? ["alignment", "reuse_slots", "shared_capacity", "register_capacity"] with
  | some [alignment, reuse, shared, register] => do
    return ⟨← fieldOr? Json.size? usual.alignment alignment,
      ← fieldOr? Json.bool? usual.reuseSlots reuse,
      ← fieldOr? (Json.optional? Json.size?) usual.sharedCapacity shared,
      ← fieldOr? (Json.optional? Json.size?) usual.registerCapacity register⟩
  | _ => none

end PlanOptions

namespace ListingOptions

def toJson (o : ListingOptions) : Json :=
  .obj [("indent_width", .ofNat o.indentWidth), ("emit_barriers", .bool o.barriers)]

/-- Options of which some may be left out. -/
def ofJson? (v : Json) : Option ListingOptions :=
  let usual : ListingOptions := {}
  match v.partialRecord? ["indent_width", "emit_barriers"] with
  | some [width, barriers] => do
    return ⟨← fieldOr? Json.size? usual.indentWidth width,
      ← fieldOr? Json.bool? usual.barriers barriers⟩
  | _ => none

end ListingOptions

end TileNest
