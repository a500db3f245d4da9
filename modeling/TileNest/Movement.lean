import TileNest.Access
import TileNest.Tensor

/-
  Movements of tiles between adjacent tiers. Along every dimension the larger end of a movement is
  cut into tiles of the smaller end's extent, and the access map picks one of them. The type
  carries the outcome of `Movement.check`, so every movement can be carried out inside its tiles.
-/

namespace TileNest

namespace Movement

/-- How a movement is named in messages. -/
def edgeText (source dest : Tensor) : String := source.name ++ " -> " ++ dest.name

/-- The number of tiles along each dimension, from dimension `dim` on. -/
def tileCounts (edge : String) (dim : Nat) :
    List Nat → List Nat → Arith (Except Fault (List Nat))
  | a :: as, b :: bs => do
    let rest ← Arith.remainder (max a b) (min a b)
    if rest ≠ 0 then
      pure (.error (.malformedAccess (.unevenExtents edge dim (max a b) (min a b))))
    else
      let tiles ← Arith.quotient (max a b) (min a b)
      let counts ← tileCounts edge (dim + 1) as bs
      pure (counts.map (tiles :: ·))
  | _, _ => pure (.ok [])

/-- The first dimension, from `dim` on, that has several tiles and is not selected. -/
def unselected? (dims : List Nat) (dim : Nat) : List Nat → Option (Nat × Nat)
  | [] => none
  | tiles :: counts =>
    if 1 < tiles ∧ dim ∉ dims then some (dim, tiles) else unselected? dims (dim + 1) counts

/-- Every coordinate stays inside the tiles, over the whole ranges of the variables. The selected
    dimensions come with their positions. -/
def checkBounds (edge : String) (access : Access) (counts : List Nat) :
    List (Nat × Nat) → Arith (Except Fault Unit)
  | [] => pure (.ok ())
  | (dim, k) :: selected => do
    match ← access.bounds k with
    | none => pure (.error (.malformedAccess (.boundsOverflow edge dim)))
    | some (least, greatest) =>
      let tiles ← Arith.entry counts dim
      if least < 0 then pure (.error (.outOfBounds edge dim least greatest tiles))
      else
        let limit ← Arith.signed tiles
        if limit ≤ greatest then pure (.error (.outOfBounds edge dim least greatest tiles))
        else checkBounds edge access counts selected

/-- The map fits the two ends: equal ranks, selected dimensions below the rank, extents that are
    multiples of each other, no dimension of several tiles left out, and, unless some variable's
    range is empty, coordinates inside the tiles. -/
def checkEnds (source dest : Tensor) (access : Access) : Arith (Except Fault Unit) :=
  let edge := edgeText source dest
  if source.rank ≠ dest.rank then
    pure (.error (.malformedAccess (.ranksDiffer edge source.rank dest.rank)))
  else match access.dims.find? (source.rank ≤ ·) with
    | some dim => pure (.error (.malformedAccess (.selectsBeyondRank edge dim source.rank)))
    | none => do
      match ← tileCounts edge 0 source.shape dest.shape with
      | .error fault => pure (.error fault)
      | .ok counts =>
        match unselected? access.dims 0 counts with
        | some (dim, tiles) => pure (.error (.unselectedDim edge dim tiles))
        | none =>
          if access.vars.any LoopVar.isEmpty then pure (.ok ())
          else checkBounds edge access counts access.dims.zipIdx

/-- The check of a movement between the two tensors, which finds its route if the tiers are
    adjacent and the map fits. -/
def inspect (source dest : Tensor) (access : Access) : Arith (Except Fault Route) :=
  match Route.between? source.tier dest.tier with
  | none => pure (.error (.tierMismatch source.name source.tier dest.name dest.tier))
  | some route => do
    let ends ← checkEnds source dest access
    pure (ends.map fun _ => route)

/-- The outcome of the check. It is cut short where an operation has no result. -/
def check (source dest : Tensor) (access : Access) : Except Fault Route :=
  (inspect source dest access).run.getD (.error .panic)

end Movement

/-- A copy of tiles from one tensor to another that passed its check. -/
structure Movement where
  source : Tensor
  dest : Tensor
  access : Access
  route : Route
  valid : Movement.check source dest access = .ok route

namespace Movement

/-- The movement with these ends, if it passes its check. -/
def make (source dest : Tensor) (access : Access) : Except Fault Movement :=
  match h : check source dest access with
  | .ok route => .ok ⟨source, dest, access, route, h⟩
  | .error fault => .error fault

def label (m : Movement) : String := edgeText m.source m.dest

/-- The destination is larger along some dimension, so one copy fills only a part of it. -/
def fillsPart (m : Movement) : Bool :=
  (m.dest.shape.zip m.source.shape).any fun (dest, source) => source < dest

/-- The tile to copy, as expressions in the loop variables. -/
def index (m : Movement) : TileIndex := m.access.index m.source.rank

/-- The tile to copy for given values of the map's variables. -/
def resolve (m : Movement) (values : List Int64) : Except Fault (List Int64) :=
  m.access.resolve m.source.rank values

/-- The first of the map's variables that is not, with this range, among `vars`. -/
def unbound? (m : Movement) (vars : List LoopVar) : Option LoopVar :=
  m.access.vars.find? fun v => !vars.contains v

end Movement

end TileNest
