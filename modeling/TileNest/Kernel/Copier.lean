import TileNest.Hierarchy.Visit
import TileNest.Schedule.Instruction

/-
  Copiers: the distinct objects that a kernel declares for its transfers, one for each route and
  pair of tensors.
-/

namespace TileNest

/-- What a kernel copies from where to where. -/
structure Copier where
  route : Route
  source : String
  dest : String
  deriving DecidableEq, Repr

namespace Copier

/-- The name of the copier that carries out these transfers. -/
def instanceOf (route : Route) (source dest : String) : String :=
  route.text ++ "_" ++ source ++ "_" ++ dest

def instanceName (c : Copier) : String := instanceOf c.route c.source c.dest

/-- The name of the copier's type. It loads toward the registers and stores away from them. -/
def typeName (c : Copier) : String :=
  c.route.capitals ++ (if c.route.inward then "Loader" else "Storer") ++ "_" ++ c.source ++ "_" ++ c.dest

/-- The copier of a movement. -/
def ofMovement (m : Movement) : Copier := ⟨m.route, m.source.name, m.dest.name⟩

/-- The distinct copiers of the movements met, in the order of the walk. -/
def ofVisits (visits : List Visit) : List Copier :=
  ((visits.filterMap Visit.movement?).map ofMovement).eraseDups

end Copier

end TileNest
