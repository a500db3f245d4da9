import TileNest.KeyMap
import TileNest.Schedule.Instruction

/-
  Execution of a schedule. Loops are first checked to nest (`loopSpans`), which gives a table of
  their ends. Then one state is threaded through the schedule: a loop binds its variable for each
  value of its range, runs the positions up to its end, restores the binding that it shadowed and
  jumps past its end. Copies and computations are recorded as they happen. A loop counts through its
  range and stops at the first fault, so a range of any size costs no more than the iterations that
  are carried out.
-/

namespace TileNest

/-- A copy that was carried out, with the coordinates of its tile. -/
structure TileCopy where
  source : String
  dest : String
  route : Route
  tile : List Int64
  deriving DecidableEq, Repr

/-- One executed step. -/
inductive Event where
  | load (copy : TileCopy)
  | store (copy : TileCopy)
  | compute (op : Operator) (operands : List String) (result : String)
  deriving DecidableEq, Repr

/-- What happened in a run, and the fault that ended it, if any. -/
structure Run where
  events : List Event
  fault : Option Fault
  deriving DecidableEq, Repr

/-- The events, or the fault. -/
def Run.outcome (r : Run) : Except Fault (List Event) :=
  match r.fault with
  | some fault => .error fault
  | none => .ok r.events

namespace Trace

/-- The positions of the begin and the end of each loop, with `opened` the loops that wait for
    their end, innermost first. -/
def spansFrom (position : Nat) (opened : List (Nat × String)) :
    List Instruction → Except Fault (KeyMap Nat Nat)
  | [] =>
    match opened with
    | [] => .ok []
    | (_, var) :: _ => .error (.unbalancedLoop var)
  | .loopBegin var _ _ :: code => spansFrom (position + 1) ((position, var) :: opened) code
  | .loopEnd var :: code =>
    match opened with
    | [] => .error (.unbalancedLoop var)
    | (start, name) :: opened =>
      if name = var then (spansFrom (position + 1) opened code).map ((start, position) :: ·)
      else .error (.unbalancedLoop var)
  | _ :: code => spansFrom (position + 1) opened code

/-- The positions of the begin and the end of each loop of a schedule whose loops nest. -/
def loopSpans (code : List Instruction) : Except Fault (KeyMap Nat Nat) := spansFrom 0 [] code

/-- What a run has come to: the value of each bound variable, and the events, latest first. -/
structure State where
  bindings : KeyMap String Int64
  events : List Event
  deriving DecidableEq, Repr

namespace State

/-- Records an event. -/
def note (s : State) (event : Event) : State := { s with events := event :: s.events }

/-- Binds a variable, whatever it was bound to. -/
def bind (s : State) (var : String) (value : Int64) : State :=
  { s with bindings := s.bindings.insert var value }

/-- Gives a variable the value that it had before a loop, or none. -/
def restore (s : State) (var : String) : Option Int64 → State
  | some value => s.bind var value
  | none => { s with bindings := s.bindings.erase var }

/-- Carries out a transfer and records it by `event`. -/
def copy (s : State) (t : Transfer) (event : TileCopy → Event) : State × Option Fault :=
  match t.index.evaluate fun var => s.bindings.get? var with
  | .ok tile => (s.note (event ⟨t.source, t.dest, t.route, tile⟩), none)
  | .error fault => (s, some fault)

end State

/-- The one step and then the other, unless the first ends in a fault. -/
def andThen (r : State × Option Fault) (next : State → State × Option Fault) :
    State × Option Fault :=
  match r with
  | (s, none) => next s
  | (s, some fault) => (s, some fault)

/-- The body for the `count` values from `value` on. The first fault ends it. -/
def iterate (body : Int64 → State → State × Option Fault) (value : Int64) :
    (count : Nat) → State → State × Option Fault
  | 0, s => (s, none)
  | count + 1, s => andThen (body value s) (iterate body (value + 1) count)

/-- Runs the instructions from a position on, up to `stop`. A loop runs its body, the part up to its
    end in the table, once for each value of its range; then its variable gets back the value that
    it had, and the run goes on after the end. -/
def execute (code : Array Instruction) (ends : KeyMap Nat Nat) (stop position : Nat) (s : State) :
    State × Option Fault :=
  if position < stop then
    match code[position]? with
    | none => (s, none)
    | some (.compute op operands result) =>
      execute code ends stop (position + 1) (s.note (.compute op operands result))
    | some (.load t) => andThen (s.copy t .load) (execute code ends stop (position + 1))
    | some (.store t) => andThen (s.copy t .store) (execute code ends stop (position + 1))
    | some (.loopEnd _) => execute code ends stop (position + 1) s
    | some (.loopBegin var low high) =>
      match ends.get? position with
      | none => (s, some (.unbalancedLoop var))
      | some close =>
        if position < close ∧ close < stop then
          let shadowed := s.bindings.get? var
          let body value (s : State) := execute code ends close (position + 1) (s.bind var value)
          andThen (iterate body low (high.toInt - low.toInt).toNat s) fun s =>
            execute code ends stop (close + 1) (s.restore var shadowed)
        else (s, some (.unbalancedLoop var))
  else (s, none)
termination_by stop - position

/-- The run of a schedule. Loops that do not nest are reported before anything runs. -/
def record (code : List Instruction) : Run :=
  match loopSpans code with
  | .error fault => ⟨[], some fault⟩
  | .ok ends =>
    let (s, fault) := execute code.toArray ends code.length 0 ⟨[], []⟩
    ⟨s.events.reverse, fault⟩

/-- The events of a schedule, or the fault that ends its run. -/
def expand (code : List Instruction) : Except Fault (List Event) := (record code).outcome

end Trace

end TileNest
