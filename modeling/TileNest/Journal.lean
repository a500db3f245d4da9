import TileNest.Program

/-
  What the program reports about its work, from single references up to finished plans. Each report
  is read off the values that the work produces.
-/

namespace TileNest

/-- The weight of a note, the heaviest first. -/
inductive Level where
  | info
  | debug
  | trace
  deriving DecidableEq, Repr

namespace Level

/-- Larger for lighter notes. -/
def detail : Level → Nat
  | info => 0
  | debug => 1
  | trace => 2

def text : Level → String
  | info => "INFO"
  | debug => "DEBUG"
  | trace => "TRACE"

end Level

/-- One report. -/
structure Note where
  level : Level
  text : String
  deriving DecidableEq, Repr

namespace Journal

/-- The notes up to a level of detail, as lines. Single references and copies have no order that
    matters, so at that level the lines are sorted. -/
def lines (level : Level) (notes : List Note) : List String :=
  let kept := (notes.filter fun n => n.level.detail ≤ level.detail).map fun n =>
    n.level.text ++ " " ++ n.text
  if level = .trace then kept.mergeSort (fun a b => decide (a ≤ b)) else kept

/-- The report on a connected draft. -/
def ofConnected (d : Draft) : List Note :=
  match d.order with
  | some order => [⟨.debug, "graph connected: " ++ " -> ".intercalate (d.labels order)⟩]
  | none => []

/-- The report on a block: where its movements run, and its parts. -/
def ofBlock (b : Block) : List Note :=
  ((b.loads ++ b.stores).map fun m =>
    ⟨.debug, b.label ++ ": " ++ m.route.text ++ " " ++ m.label ++ " placed at depth "
      ++ toString (b.depthOf m.access)⟩)
  ++ [⟨.info, b.label ++ ": " ++ toString b.loads.length ++ " loads, "
      ++ toString b.body.nodes.length ++ " body nodes, " ++ toString b.stores.length ++ " stores"⟩]

private def copyNote (c : TileCopy) : Note :=
  ⟨.trace, c.route.text ++ " " ++ c.source ++ " -> " ++ c.dest ++ " at " ++ Text.coordinates c.tile⟩

/-- The report on a run: the copies that it carried out. -/
def ofRun (r : Run) : List Note :=
  r.events.filterMap fun
    | .load c => some (copyNote c)
    | .store c => some (copyNote c)
    | .compute .. => none

/-- The report on conflicts and outputs. -/
def ofInterference (i : Interference) : List Note :=
  let pairs := Interference.distinctPairs i.pairs
  pairs.map (fun (a, b) => ⟨.trace, a ++ " and " ++ b ++ " are referenced by unordered nodes"⟩)
    ++ [⟨.debug, "interference: " ++ toString pairs.length ++ " unordered pairs, "
      ++ toString i.ends.length ++ " graph outputs"⟩]

/-- The report on a loop that ends with the given ranges. -/
def ofLoopEnd (f : Liveness.Frame) (ranges : LiveRanges) : List Note :=
  f.carried.filterMap fun name => (ranges.lookup name).map fun live =>
    ⟨.trace, name ++ " is carried across loop " ++ f.var ++ ": live " ++ live.text⟩

/-- The report on the references of a schedule and the loops that carry tensors. -/
def ofLiveness (table : TensorTable) (position : Nat) (s : Liveness.State) :
    List Instruction → List Note
  | [] => []
  | i :: code =>
    let references := (i.references table).map fun (name, mode) =>
      ⟨.trace, name ++ ": " ++ mode.text ++ " at " ++ toString position⟩
    match Liveness.step table position s i with
    | .error _ => references
    | .ok next =>
      let carried := match i, s.frames with
        | .loopEnd _, f :: _ => ofLoopEnd f next.ranges
        | _, _ => []
      references ++ carried ++ ofLiveness table (position + 1) next code

/-- The report on outputs that are kept. -/
def ofOutputs (i : Interference) (ranges : LiveRanges) : List Note :=
  i.ends.filterMap fun (name, last) => (ranges.lookup name).map fun live =>
    ⟨.trace, name ++ " is a graph output: live " ++ (live.cover last).text⟩

/-- The report on the place of a tensor. -/
def ofAllocation (a : Allocation) : Note :=
  ⟨.debug, a.tier.text ++ " " ++ a.dtype.text ++ " tensor " ++ a.name ++ ": offset "
    ++ toString a.offset ++ ", " ++ toString a.size ++ " bytes, live " ++ a.live.text⟩

/-- The report on a finished plan. -/
def ofFootprints (p : Plan) : Note :=
  ⟨.info, "allocation plan: " ++ toString p.allocations.length ++ " tensors, global "
    ++ toString (p.footprint .global) ++ " bytes, shared " ++ toString (p.footprint .shared)
    ++ " bytes, register " ++ toString (p.footprint .register) ++ " bytes"⟩

/-- The report on the planning of a program, as far as it comes. -/
def ofPlanning (p : Program) (options : PlanOptions) : List Note :=
  let interference := p.interference
  ofInterference interference ++
    match TensorTable.ofTensors p.tensors with
    | .error _ => []
    | .ok table =>
      ofLiveness table 0 .initial p.code ++
        match Liveness.analyze table p.code, p.layout options table with
        | .ok ranges, .ok plan =>
          ofOutputs interference ranges ++ plan.allocations.map ofAllocation ++
            match plan.checkCapacity options with
            | .ok plan => [ofFootprints plan]
            | .error _ => []
        | _, _ => []

end Journal

end TileNest
