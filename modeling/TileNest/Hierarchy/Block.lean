import TileNest.Hierarchy.Draft

/-
  Construction of blocks. A block needs a connected body, loop variables with different names, a
  body that knows the inner ends of the movements, and a loop for every variable of their maps.
-/

namespace TileNest.Block

/-- The inner ends of the movements: where loads arrive and where stores start. -/
def innerEnds (loads stores : List Movement) : List (InnerEnd × Tensor) :=
  loads.map (fun m => (.loadDest, m.dest)) ++ stores.map fun m => (.storeSource, m.source)

/-- For each inner end, the first visible tensor of its name is the end's own tensor. -/
def checkInnerEnds (visible : List Tensor) : List (InnerEnd × Tensor) → Except Fault Unit
  | [] => .ok ()
  | (place, t) :: ends =>
    match visible.find? (·.name == t.name) with
    | none => .error (.missingTensor place t.name)
    | some found =>
      if found = t then checkInnerEnds visible ends else .error (.nameConflict t.name)

/-- Every variable of the movements' maps is one of the loops. -/
def checkVars (vars : List LoopVar) : List Movement → Except Fault Unit
  | [] => .ok ()
  | m :: ms =>
    match m.unbound? vars with
    | some v => .error (.unboundVar v.name (.access m.label))
    | none => checkVars vars ms

/-- The loops have different names. -/
def checkNames (vars : List LoopVar) : Except Fault Unit :=
  match firstRepeat? (vars.map LoopVar.name) with
  | some name => .error (.repeatedVar name .block)
  | none => .ok ()

/-- The block with these parts, if they fit together. -/
def make (loads : List Movement) (body : Draft) (stores : List Movement) (vars : List LoopVar) :
    Except Fault Block := do
  let body ← body.graph .nesting
  checkNames vars
  checkInnerEnds body.visible (innerEnds loads stores)
  checkVars vars (loads ++ stores)
  return { loads, body, stores, vars }

end TileNest.Block
