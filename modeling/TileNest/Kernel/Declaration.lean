import TileNest.Kernel.Copier
import TileNest.Storage.Plan

/-
  The declarations of a kernel: a pool of bytes for each tier in use, a view into its pool for each
  tensor, and the copiers.
-/

namespace TileNest.Declaration

/-- The pool of a tier, unless it is empty. -/
def pool (p : Plan) (tier : Tier) : String :=
  if p.footprint tier = 0 then ""
  else (if tier = .shared then "__shared__ " else "") ++ "alignas(16) char " ++ tier.text ++ "_pool["
    ++ toString (p.footprint tier) ++ "];\n"

/-- The view of a tensor into its pool. -/
def view (a : Allocation) : String :=
  a.dtype.text ++ "* " ++ a.name ++ " = reinterpret_cast<" ++ a.dtype.text ++ "*>(" ++ a.tier.text
    ++ "_pool + " ++ toString a.offset ++ "); // " ++ Text.sizes a.shape ++ ", " ++ toString a.size
    ++ " bytes\n"

def copier (c : Copier) : String := c.typeName ++ " " ++ c.instanceName ++ ";\n"

/-- All declarations of a kernel with this plan and these copiers. -/
def render (p : Plan) (copiers : List Copier) : String :=
  String.join ([Tier.global, .shared, .register].map (pool p) ++ p.allocations.map view
    ++ copiers.map copier)

end TileNest.Declaration
