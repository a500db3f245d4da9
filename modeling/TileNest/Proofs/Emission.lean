import TileNest.Proofs.Construction

/-
  What a block emits around its body. Everything before the body is its opening, everything after
  it the closing (`Block.code_eq_around`). A movement stands at one depth, between the loops that
  its map refers to and those further in, so the opening consists of all loads and all begins of
  loops, each once, at whatever depth they stand (`Block.opening_perm`), and likewise the closing
  (`Block.closing_perm`).

  Hence the number of instructions that is counted without a schedule is the length of the schedule
  (`Program.length_code`).
-/

namespace TileNest

open scoped List

/-- The mark where the loop begins. -/
def LoopVar.beginning (v : LoopVar) : Instruction := .loopBegin v.name v.low v.high

/-- The mark where the loop ends. -/
def LoopVar.ending (v : LoopVar) : Instruction := .loopEnd v.name

namespace Block

/-- What stands before the body, from a depth inward, where the given loops are still to begin. -/
def openingFrom (b : Block) (depth : Nat) : List LoopVar → List Instruction
  | [] => b.loadsAt depth
  | v :: vars => b.loadsAt depth ++ v.beginning :: b.openingFrom (depth + 1) vars

/-- What stands after the body, from a depth inward, where the given loops are still to end. -/
def closingFrom (b : Block) (depth : Nat) : List LoopVar → List Instruction
  | [] => b.storesAt depth
  | v :: vars => b.closingFrom (depth + 1) vars ++ v.ending :: b.storesAt depth

def opening (b : Block) : List Instruction := b.openingFrom 0 b.vars

def closing (b : Block) : List Instruction := b.closingFrom 0 b.vars

theorem nest_eq_around (b : Block) (body : List Instruction) (depth : Nat) (vars : List LoopVar) :
    b.nest body depth vars = b.openingFrom depth vars ++ body ++ b.closingFrom depth vars := by
  induction vars generalizing depth with
  | nil => rfl
  | cons v vars ih =>
    simp only [nest, openingFrom, closingFrom, ih, LoopVar.beginning, LoopVar.ending,
      List.append_assoc, List.cons_append]

theorem code_eq_around (b : Block) : b.code = b.opening ++ b.body.code ++ b.closing := by
  rw [code_eq, nest_eq_around]
  rfl

/-! ## Each movement at one depth -/

theorem depthOf_le (b : Block) (access : Access) : b.depthOf access ≤ b.vars.length := by
  unfold depthOf
  rcases Lists.foldl_max_mem (access.vars.filterMap fun v =>
    (b.vars.findIdx? (·.name == v.name)).map (· + 1)) 0 with h | h
  · omega
  · obtain ⟨v, -, hv⟩ := List.mem_filterMap.1 h
    obtain ⟨i, hi, he⟩ := Option.map_eq_some_iff.1 hv
    obtain ⟨hlt, -, -⟩ := List.findIdx?_eq_some_iff_getElem.1 hi
    omega

/-- The movements at a depth together with those further in are those from that depth inward. -/
theorem filter_depth_perm (b : Block) (ms : List Movement) (depth : Nat) :
    (ms.filter (fun m => b.depthOf m.access == depth) ++
      ms.filter fun m => decide (depth + 1 ≤ b.depthOf m.access)).Perm
      (ms.filter fun m => decide (depth ≤ b.depthOf m.access)) := by
  have hsplit := List.filter_append_perm (fun m => b.depthOf m.access == depth)
    (ms.filter fun m => decide (depth ≤ b.depthOf m.access))
  rw [List.filter_filter, List.filter_filter] at hsplit
  have hat : ∀ m : Movement, (b.depthOf m.access == depth &&
      decide (depth ≤ b.depthOf m.access)) = (b.depthOf m.access == depth) := by
    intro m
    rw [Bool.eq_iff_iff, Bool.and_eq_true, beq_iff_eq, decide_eq_true_eq]
    omega
  have hin : ∀ m : Movement, (!(b.depthOf m.access == depth) &&
      decide (depth ≤ b.depthOf m.access)) = decide (depth + 1 ≤ b.depthOf m.access) := by
    intro m
    rw [Bool.eq_iff_iff, Bool.and_eq_true, Bool.not_eq_true', beq_eq_false_iff_ne,
      decide_eq_true_eq, decide_eq_true_eq]
    omega
  simpa only [hat, hin] using hsplit

/-- At the innermost depth there are no movements further in. -/
theorem filter_innermost (b : Block) (ms : List Movement) :
    (ms.filter fun m => b.depthOf m.access == b.vars.length) =
      ms.filter fun m => decide (b.vars.length ≤ b.depthOf m.access) := by
  refine List.filter_congr fun m _ => ?_
  have hle := b.depthOf_le m.access
  rw [Bool.eq_iff_iff, beq_iff_eq, decide_eq_true_eq]
  omega

/-- One more depth around movements that are further in, with the mark of its loop. -/
theorem perm_depth (b : Block) (ms : List Movement) (f : Movement → Instruction) {depth : Nat}
    {inner marks : List Instruction} (mark : Instruction)
    (h : inner.Perm
      ((ms.filter fun m => decide (depth + 1 ≤ b.depthOf m.access)).map f ++ marks)) :
    ((ms.filter fun m => b.depthOf m.access == depth).map f ++ mark :: inner).Perm
      ((ms.filter fun m => decide (depth ≤ b.depthOf m.access)).map f ++ mark :: marks) := by
  have hmoved := (b.filter_depth_perm ms depth).map f
  rw [List.map_append] at hmoved
  calc (ms.filter fun m => b.depthOf m.access == depth).map f ++ mark :: inner
      ~ mark :: ((ms.filter fun m => b.depthOf m.access == depth).map f ++ inner) :=
        List.perm_middle
    _ ~ mark :: ((ms.filter fun m => b.depthOf m.access == depth).map f ++
          ((ms.filter fun m => decide (depth + 1 ≤ b.depthOf m.access)).map f ++ marks)) :=
        (h.append_left _).cons mark
    _ ~ mark :: ((ms.filter fun m => decide (depth ≤ b.depthOf m.access)).map f ++ marks) := by
        rw [← List.append_assoc]
        exact (hmoved.append_right marks).cons mark
    _ ~ (ms.filter fun m => decide (depth ≤ b.depthOf m.access)).map f ++ mark :: marks :=
        List.perm_middle.symm

theorem openingFrom_perm (b : Block) (depth : Nat) (vars : List LoopVar)
    (h : depth + vars.length = b.vars.length) :
    (b.openingFrom depth vars).Perm
      ((b.loads.filter fun m => decide (depth ≤ b.depthOf m.access)).map (.load ·.transfer) ++
        vars.map LoopVar.beginning) := by
  induction vars generalizing depth with
  | nil =>
    rw [List.length_nil, Nat.add_zero] at h
    subst h
    rw [openingFrom, loadsAt, filter_innermost, List.map_nil, List.append_nil]
  | cons v vars ih =>
    rw [List.length_cons] at h
    exact b.perm_depth b.loads _ v.beginning (ih (depth + 1) (by omega))

theorem closingFrom_perm (b : Block) (depth : Nat) (vars : List LoopVar)
    (h : depth + vars.length = b.vars.length) :
    (b.closingFrom depth vars).Perm
      ((b.stores.filter fun m => decide (depth ≤ b.depthOf m.access)).map (.store ·.transfer) ++
        vars.map LoopVar.ending) := by
  induction vars generalizing depth with
  | nil =>
    rw [List.length_nil, Nat.add_zero] at h
    subst h
    rw [closingFrom, storesAt, filter_innermost, List.map_nil, List.append_nil]
  | cons v vars ih =>
    rw [List.length_cons] at h
    have hdepth := b.perm_depth b.stores (.store ·.transfer) v.ending
      (ih (depth + 1) (by omega))
    -- the stores of this depth stand behind the inner loops and not before them
    exact ((List.perm_middle.trans (List.perm_append_comm.cons _)).trans
      List.perm_middle.symm).trans hdepth

/-- Before the body stand all loads and the begins of all loops, each once. -/
theorem opening_perm (b : Block) :
    b.opening.Perm (b.loads.map (.load ·.transfer) ++ b.vars.map LoopVar.beginning) := by
  have h := b.openingFrom_perm 0 b.vars (Nat.zero_add _)
  simpa [opening] using h

/-- After the body stand all stores and the ends of all loops, each once. -/
theorem closing_perm (b : Block) :
    b.closing.Perm (b.stores.map (.store ·.transfer) ++ b.vars.map LoopVar.ending) := by
  have h := b.closingFrom_perm 0 b.vars (Nat.zero_add _)
  simpa [closing] using h

theorem length_opening (b : Block) : b.opening.length = b.loads.length + b.vars.length := by
  simp [b.opening_perm.length_eq]

theorem length_closing (b : Block) : b.closing.length = b.stores.length + b.vars.length := by
  simp [b.closing_perm.length_eq]

end Block

/-! ## Lengths of schedules -/

/-- Nodes are counted in the order of their addition and emitted in another one. -/
theorem Hierarchy.length_code : Hierarchy.Closed (fun n => n.Built → n.code.length = n.steps)
    (fun b => b.Built → b.code.length = b.steps) (fun g => g.Built → g.code.length = g.steps) where
  tensor _ _ := rfl
  compute _ _ _ := rfl
  block _ _ h := h
  nest b h hb := by
    rw [Block.code_eq_around, Block.steps_eq, List.length_append, List.length_append,
      b.length_opening, b.length_closing, h hb.body_built]
    omega
  graph g h hg := by
    have hsteps : g.ordered.map (fun n => n.code.length) = g.ordered.map Node.steps := by
      refine List.map_congr_left fun n hn => ?_
      have hmem := hg.mem_ordered.1 hn
      exact h n hmem (hg.node hmem)
    rw [Graph.code_eq, List.length_flatMap, hsteps, Graph.steps_eq]
    exact (hg.ordered_perm.map Node.steps).sum_nat

theorem Node.Built.length_code {n : Node} (h : n.Built) : n.code.length = n.steps :=
  Hierarchy.length_code.onNode n h

/-- The steps that are counted are the instructions that are emitted. -/
theorem Program.length_code {p : Program} (h : p.Built) : p.code.length = p.steps := by
  cases p with
  | graph g => exact Hierarchy.length_code.onGraph g h
  | block b => exact Hierarchy.length_code.onBlock b h

end TileNest
