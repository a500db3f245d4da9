import TileNest.Codec.Names
import TileNest.Json.Printer
import TileNest.Schedule.Trace

/-
  Loop variables, indices, instructions and events as data values, and back.
-/

namespace TileNest

namespace LoopVar

def toJson (v : LoopVar) : Json :=
  .obj [("name", .str v.name), ("low", .ofInt64 v.low), ("high", .ofInt64 v.high)]

/-- A loop variable, whatever the order of its bounds. -/
def ofJson? (v : Json) : Option LoopVar :=
  match v.record? ["name", "low", "high"] with
  | some [name, low, high] => do return ⟨← name.string?, ← low.int64?, ← high.int64?⟩
  | _ => none

end LoopVar

namespace Affine

def termToJson (term : String × Int64) : Json := .arr [.str term.1, .ofInt64 term.2]

def termOfJson? : Json → Option (String × Int64)
  | .arr [name, weight] => do return (← name.string?, ← weight.int64?)
  | _ => none

def toJson (e : Affine) : Json :=
  .obj [("terms", .arr (e.terms.map termToJson)), ("constant", .ofInt64 e.constant)]

def ofJson? (v : Json) : Option Affine :=
  match v.record? ["terms", "constant"] with
  | some [terms, constant] => do return ⟨← terms.list? termOfJson?, ← constant.int64?⟩
  | _ => none

end Affine

namespace TileIndex

def toJson (index : TileIndex) : Json := .arr (index.axes.map Affine.toJson)

def ofJson? (v : Json) : Option TileIndex := (v.list? Affine.ofJson?).map (⟨·⟩)

end TileIndex

namespace Transfer

/-- The fields of a transfer. -/
def toFields (t : Transfer) : List (String × Json) :=
  [("source", .str t.source), ("dest", .str t.dest), ("kind", t.route.toJson),
    ("index", t.index.toJson)]

def ofJson? (v : Json) : Option Transfer :=
  match v.record? ["source", "dest", "kind", "index"] with
  | some [source, dest, kind, index] => do
    return ⟨← source.string?, ← dest.string?, ← Route.ofInnerJson? kind, ← TileIndex.ofJson? index⟩
  | _ => none

end Transfer

/-- The fields of a computation. -/
def computeFields (op : Operator) (operands : List String) (result : String) :
    List (String × Json) :=
  [("op", op.toJson), ("operands", .ofStrings operands), ("result", .str result)]

/-- The operator, the operands and the result of a computation. -/
def computeOfJson? (v : Json) : Option (Operator × List String × String) :=
  match v.record? ["op", "operands", "result"] with
  | some [op, operands, result] => do
    return (← Operator.ofInnerJson? op, ← operands.list? Json.string?, ← result.string?)
  | _ => none

/-- A tagged value. -/
def tagged (tag : String) (fields : List (String × Json)) : Json := .obj (("type", .str tag) :: fields)

namespace Instruction

def toJson : Instruction → Json
  | compute op operands result => tagged "compute" (computeFields op operands result)
  | load t => tagged "load" t.toFields
  | store t => tagged "store" t.toFields
  | loopBegin var low high =>
    tagged "loop_begin" [("var", .str var), ("low", .ofInt64 low), ("high", .ofInt64 high)]
  | loopEnd var => tagged "loop_end" [("var", .str var)]

def loopBeginOfJson? (v : Json) : Option Instruction :=
  match v.record? ["var", "low", "high"] with
  | some [var, low, high] => do return .loopBegin (← var.string?) (← low.int64?) (← high.int64?)
  | _ => none

def loopEndOfJson? (v : Json) : Option Instruction :=
  match v.record? ["var"] with
  | some [var] => var.string?.map .loopEnd
  | _ => none

/-- An instruction of the case that the tag names. -/
def ofTagged? : String × Json → Option Instruction
  | ("compute", v) => (computeOfJson? v).map fun (op, operands, result) => .compute op operands result
  | ("load", v) => (Transfer.ofJson? v).map .load
  | ("store", v) => (Transfer.ofJson? v).map .store
  | ("loop_begin", v) => loopBeginOfJson? v
  | ("loop_end", v) => loopEndOfJson? v
  | _ => none

def ofJson? (v : Json) : Option Instruction := v.tagged?.bind ofTagged?

/-- A schedule as a data value. -/
def listToJson (code : List Instruction) : Json := .arr (code.map toJson)

def listOfJson? (v : Json) : Option (List Instruction) := v.list? ofJson?

/-- The text of a schedule. -/
def listText (code : List Instruction) : String := (listToJson code).pretty

end Instruction

namespace TileCopy

def toFields (c : TileCopy) : List (String × Json) :=
  [("source", .str c.source), ("dest", .str c.dest), ("kind", c.route.toJson),
    ("tile", .arr (c.tile.map .ofInt64))]

def ofJson? (v : Json) : Option TileCopy :=
  match v.record? ["source", "dest", "kind", "tile"] with
  | some [source, dest, kind, tile] => do
    return ⟨← source.string?, ← dest.string?, ← Route.ofInnerJson? kind, ← tile.list? Json.int64?⟩
  | _ => none

end TileCopy

namespace Event

def toJson : Event → Json
  | load c => tagged "load" c.toFields
  | store c => tagged "store" c.toFields
  | compute op operands result => tagged "compute" (computeFields op operands result)

/-- An event of the case that the tag names. -/
def ofTagged? : String × Json → Option Event
  | ("load", v) => (TileCopy.ofJson? v).map .load
  | ("store", v) => (TileCopy.ofJson? v).map .store
  | ("compute", v) => (computeOfJson? v).map fun (op, operands, result) => .compute op operands result
  | _ => none

def ofJson? (v : Json) : Option Event := v.tagged?.bind ofTagged?

def listToJson (events : List Event) : Json := .arr (events.map toJson)

def listOfJson? (v : Json) : Option (List Event) := v.list? ofJson?

end Event

end TileNest
