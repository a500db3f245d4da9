import TileNest.Kernel.Copier

/-
  The kernel text of a schedule. Each instruction is one line, indented by the loops around it.
  With barriers, a run of loads is followed by a wait for the copies into shared memory, if it has
  any, and by a synchronisation; a run of stores is followed by a synchronisation if it writes
  shared memory from registers.
-/

namespace TileNest

/-- How a listing is laid out. -/
structure ListingOptions where
  indentWidth : Nat := 4
  barriers : Bool := true
  deriving DecidableEq, Repr

/-- A line of a listing with the number of loops that indent it. -/
structure Line where
  depth : Nat
  text : String
  deriving DecidableEq, Repr

namespace Line

/-- The line with its indentation and its end. -/
def render (indentWidth : Nat) (l : Line) : String :=
  String.ofList (List.replicate (l.depth * indentWidth) ' ') ++ l.text ++ "\n"

end Line

namespace Instruction

def isLoad : Instruction → Bool
  | load _ => true
  | _ => false

def isStore : Instruction → Bool
  | store _ => true
  | _ => false

end Instruction

namespace Listing

/-- The call that carries out a transfer. -/
def call (t : Transfer) : String :=
  Copier.instanceOf t.route t.source t.dest ++ "(" ++ t.source ++ ", " ++ t.dest ++ ", \x7b"
    ++ Text.commas (t.index.axes.map Affine.text) ++ "\x7d);"

/-- The text of an instruction. -/
def statement : Instruction → String
  | .compute op operands result =>
    "compute::" ++ op.text ++ "(" ++ Text.commas (operands ++ [result]) ++ ");"
  | .load t => call t
  | .store t => call t
  | .loopBegin var low high =>
    s!"for (int {var} = {low.toInt}; {var} < {high.toInt}; ++{var}) \x7b"
  | .loopEnd _ => "\x7d"

/-- The depth of an instruction's own line. The end of a loop lines up with its begin. -/
def lineDepth (depth : Nat) : Instruction → Nat
  | .loopEnd _ => depth - 1
  | _ => depth

/-- The depth after an instruction. -/
def nextDepth (depth : Nat) : Instruction → Nat
  | .loopBegin .. => depth + 1
  | .loopEnd _ => depth - 1
  | _ => depth

/-- The lines after a run of loads along these routes. -/
def loadBarrier (depth : Nat) (loads : List Route) : List Line :=
  if loads.isEmpty then []
  else (if loads.contains .globalToShared then [⟨depth, "__copy_async_wait();"⟩] else [])
    ++ [⟨depth, "__syncthreads();"⟩]

/-- The lines after a run of stores along these routes. -/
def storeBarrier (depth : Nat) (stores : List Route) : List Line :=
  if stores.contains .registerToShared then [⟨depth, "__syncthreads();"⟩] else []

/-- The routes of the run of loads that the instruction ends or continues. -/
def loadsAfter (loads : List Route) : Instruction → List Route
  | .load t => loads ++ [t.route]
  | _ => []

/-- The routes of the run of stores that the instruction ends or continues. -/
def storesAfter (stores : List Route) : Instruction → List Route
  | .store t => stores ++ [t.route]
  | _ => []

/-- The lines with barriers, after a run of loads and a run of stores along the given routes. -/
def linesFrom (depth : Nat) (loads stores : List Route) : List Instruction → List Line
  | [] => loadBarrier depth loads ++ storeBarrier depth stores
  | i :: code =>
    (if i.isLoad then [] else loadBarrier depth loads)
      ++ (if i.isStore then [] else storeBarrier depth stores)
      ++ ⟨lineDepth depth i, statement i⟩
      :: linesFrom (nextDepth depth i) (loadsAfter loads i) (storesAfter stores i) code

/-- The lines without barriers, one for each instruction. -/
def plainLines (depth : Nat) : List Instruction → List Line
  | [] => []
  | i :: code => ⟨lineDepth depth i, statement i⟩ :: plainLines (nextDepth depth i) code

/-- The lines of a schedule. -/
def lines (options : ListingOptions) (code : List Instruction) : List Line :=
  if options.barriers then linesFrom 0 [] [] code else plainLines 0 code

/-- The kernel text of a schedule. -/
def render (options : ListingOptions) (code : List Instruction) : String :=
  String.join ((lines options code).map (Line.render options.indentWidth))

end Listing

end TileNest
