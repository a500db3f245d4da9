/-
  The order of positions that depend on each other. Every position has a counter of the arrows that
  lead to it from positions not yet taken; those with a counter of zero are ready. The least ready
  position is taken next and released from the counters of its successors. Positions that keep a
  counter above zero are those that a cycle holds up.
-/

namespace TileNest

/-- A dependency between two nodes, given by their positions. -/
structure Arrow where
  source : Nat
  target : Nat
  deriving DecidableEq, Repr

namespace Order

/-- The positions that the arrows lead to from each position, once for every arrow. -/
def successors (count : Nat) (arrows : List Arrow) : List (List Nat) :=
  arrows.foldl (fun lists a => lists.modify a.source (· ++ [a.target])) (List.replicate count [])

/-- The number of arrows that lead to each position. -/
def inDegrees (count : Nat) (arrows : List Arrow) : List Nat :=
  arrows.foldl (fun counters a => counters.modify a.target (· + 1)) (List.replicate count 0)

/-- The counters, the ready positions in ascending order, and the positions taken so far. -/
structure State where
  counters : List Nat
  ready : List Nat
  taken : List Nat
  deriving DecidableEq, Repr

/-- Adds a position to an ascending list, once. -/
def insert (position : Nat) : List Nat → List Nat
  | [] => [position]
  | first :: rest =>
    if position < first then position :: first :: rest
    else if position = first then first :: rest
    else first :: insert position rest

/-- Lowers the counter of a position, which is ready when it comes to zero. -/
def release (s : State) (position : Nat) : State :=
  let counters := s.counters.modify position (· - 1)
  ⟨counters, if counters[position]? = some 0 then insert position s.ready else s.ready, s.taken⟩

/-- Takes the least ready position until none is ready, at most `steps` times. -/
def drain (successors : List (List Nat)) : (steps : Nat) → State → State
  | 0, s => s
  | steps + 1, s =>
    match s.ready with
    | [] => s
    | position :: ready =>
      drain successors steps
        ((successors.getD position []).foldl release ⟨s.counters, ready, s.taken ++ [position]⟩)

/-- Nothing is taken, and the positions without an arrow to them are ready. -/
def start (count : Nat) (arrows : List Arrow) : State :=
  let counters := inDegrees count arrows
  ⟨counters, (List.range count).filter fun i => counters[i]? = some 0, []⟩

/-- The positions below `count`, taken as long as some are ready. Every position is taken at most
    once. -/
def sort (count : Nat) (arrows : List Arrow) : State :=
  drain (successors count arrows) count (start count arrows)

/-- The positions with a counter above zero. -/
def State.held (s : State) : List Nat :=
  (List.range s.counters.length).filter fun i => 0 < s.counters.getD i 0

end Order

end TileNest
