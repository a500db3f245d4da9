import TileNest.Json.Decode
import TileNest.Operation

/-
  The names of tiers, layouts, element types, routes and operators in data values.
-/

namespace TileNest

namespace Tier

def codeName : Tier → String
  | register => "Register"
  | shared => "Shared"
  | global => "Global"

def ofCodeName? : String → Option Tier
  | "Register" => some register
  | "Shared" => some shared
  | "Global" => some global
  | _ => none

def toJson (t : Tier) : Json := .str t.codeName

def ofJson? (v : Json) : Option Tier := v.case?.bind ofCodeName?

end Tier

namespace Layout

def codeName : Layout → String
  | rowMajor => "RowMajor"
  | colMajor => "ColMajor"

def ofCodeName? : String → Option Layout
  | "RowMajor" => some rowMajor
  | "ColMajor" => some colMajor
  | _ => none

def toJson (l : Layout) : Json := .str l.codeName

def ofJson? (v : Json) : Option Layout := v.case?.bind ofCodeName?

end Layout

namespace DType

def codeName : DType → String
  | f16 => "F16"
  | bf16 => "Bf16"
  | f32 => "F32"
  | f64 => "F64"

def ofCodeName? : String → Option DType
  | "F16" => some f16
  | "Bf16" => some bf16
  | "F32" => some f32
  | "F64" => some f64
  | _ => none

def toJson (d : DType) : Json := .str d.codeName

def ofJson? (v : Json) : Option DType := v.case?.bind ofCodeName?

end DType

namespace Route

def codeName : Route → String
  | globalToShared => "global_to_shared"
  | sharedToRegister => "shared_to_register"
  | registerToShared => "register_to_shared"
  | sharedToGlobal => "shared_to_global"

def ofCodeName? : String → Option Route
  | "global_to_shared" => some globalToShared
  | "shared_to_register" => some sharedToRegister
  | "register_to_shared" => some registerToShared
  | "shared_to_global" => some sharedToGlobal
  | _ => none

def toJson (r : Route) : Json := .str r.codeName

def ofJson? (v : Json) : Option Route := v.case?.bind ofCodeName?

/-- A route inside a tagged value. -/
def ofInnerJson? (v : Json) : Option Route := v.innerCase?.bind ofCodeName?

end Route

namespace Operator

def ofCodeName? : String → Option Operator
  | "gemm" => some gemm
  | "convert" => some convert
  | _ => none

def toJson (o : Operator) : Json := .str o.text

def ofJson? (v : Json) : Option Operator := v.case?.bind ofCodeName?

/-- An operator inside a tagged value. -/
def ofInnerJson? (v : Json) : Option Operator := v.innerCase?.bind ofCodeName?

end Operator

namespace NodeId

def toJson (id : NodeId) : Json := .ofNat id.index

def ofJson? (v : Json) : Option NodeId := v.size?.map (⟨·⟩)

end NodeId

end TileNest
