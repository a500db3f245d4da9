import TileNest.Proofs.ScanPositions

/-
  The walk and the schedule see one hierarchy. The walk goes through a graph in the order in which
  its nodes were added and meets the movements of a block at once; the schedule runs the nodes in
  the graph's order and spreads the movements over the depths of the loops. Still each visit stands
  for instructions of its own (`Visit.instructions`), and those of all visits are the schedule, each
  of them as often (`Program.instructions_perm`).

  What is said about transfers, operations and loops in `Program.walked_is_emitted` is read off
  that permutation. That a movement without variables stands outside the loops of its block is a
  matter of one block: its schedule is the movements of depth 0 around `Block.looped`.
-/

namespace TileNest

/-! ## Instructions of a visit -/

namespace Visit

/-- The instructions that the visited part itself stands for. -/
def instructions : Visit → List Instruction
  | graph _ => []
  | node _ (.compute _ op) => [op.instruction]
  | node _ _ => []
  | block b => b.vars.map LoopVar.beginning ++ b.vars.map LoopVar.ending
  | load _ m => [.load m.transfer]
  | store _ m => [.store m.transfer]

/-- The transfer of a load that is met. -/
def loaded : Visit → List Transfer
  | load _ m => [m.transfer]
  | _ => []

/-- The transfer of a store that is met. -/
def stored : Visit → List Transfer
  | store _ m => [m.transfer]
  | _ => []

/-- The operation that is met, with the names of its operands. -/
def computed : Visit → List (Operator × List String)
  | node _ (.compute _ op) => [(op.operator, op.operands.map TensorNode.name)]
  | _ => []

/-- The loops of a block that is met. -/
def loops : Visit → List LoopVar
  | block b => b.vars
  | _ => []

end Visit

namespace Instruction

def loaded? : Instruction → Option Transfer
  | load t => some t
  | _ => none

def stored? : Instruction → Option Transfer
  | store t => some t
  | _ => none

/-- The operation with the names of its operands, the result last. -/
def computed? : Instruction → Option (Operator × List String)
  | compute op operands result => some (op, operands ++ [result])
  | _ => none

theorem loaded?_eq_some {i : Instruction} {t : Transfer} : i.loaded? = some t ↔ i = .load t := by
  cases i <;> simp [loaded?]

theorem stored?_eq_some {i : Instruction} {t : Transfer} : i.stored? = some t ↔ i = .store t := by
  cases i <;> simp [stored?]

def begun? : Instruction → Option LoopVar
  | loopBegin var low high => some ⟨var, low, high⟩
  | _ => none

end Instruction

/-- The loops of the tree, each of them one begin and the end that matches it. -/
def LoopTree.loops : LoopTree → List LoopVar
  | done => []
  | step _ _ rest => rest.loops
  | loop var low high body rest => ⟨var, low, high⟩ :: (body.loops ++ rest.loops)

theorem LoopTree.filterMap_begun? (t : LoopTree) :
    t.code.filterMap Instruction.begun? = t.loops := by
  induction t with
  | done => rfl
  | step i plain rest ih =>
    have hi : i.begun? = none := by
      cases i with
      | loopBegin var low high => cases plain
      | _ => rfl
    rw [code, List.filterMap_cons_none hi, ih]
    rfl
  | loop var low high body rest ihb ihr =>
    have hend : (Instruction.loopEnd var).begun? = none := rfl
    have hbegin : (Instruction.loopBegin var low high).begun? = some ⟨var, low, high⟩ := rfl
    rw [code, List.filterMap_cons_some hbegin, List.filterMap_append,
      List.filterMap_cons_none hend, ihb, ihr]
    rfl

/-! ## Visits and schedule -/

theorem Block.instructions_perm {b : Block}
    (h : (b.body.visits.flatMap Visit.instructions).Perm b.body.code) :
    (b.visits.flatMap Visit.instructions).Perm b.code := by
  have hloads : (b.loads.map (Visit.load b)).flatMap Visit.instructions =
      b.loads.map (.load ·.transfer) := by
    rw [List.flatMap_map, List.map_eq_flatMap]
    rfl
  have hstores : (b.stores.map (Visit.store b)).flatMap Visit.instructions =
      b.stores.map (.store ·.transfer) := by
    rw [List.flatMap_map, List.map_eq_flatMap]
    rfl
  rw [Block.visits_eq, Block.code_eq_around, List.flatMap_append, List.flatMap_append,
    List.flatMap_cons, hloads, hstores, Visit.instructions]
  refine List.perm_iff_count.2 fun i => ?_
  have hopen := b.opening_perm.count_eq i
  have hclose := b.closing_perm.count_eq i
  have hbody := h.count_eq i
  simp only [List.count_append] at hopen hclose ⊢
  omega

theorem Hierarchy.instructions_perm : Closed
    (fun n => n.Built → ∀ siblings,
      ((.node siblings n :: n.inside).flatMap Visit.instructions).Perm n.code)
    (fun b => b.Built → (b.visits.flatMap Visit.instructions).Perm b.code)
    (fun g => g.Built → (g.visits.flatMap Visit.instructions).Perm g.code) where
  tensor _ _ _ := .refl _
  compute _ _ _ _ := .refl _
  block _ _ h hb _ := h hb
  nest b h hb := Block.instructions_perm (h hb.body_built)
  graph g h hg := by
    rw [Graph.visits_eq, Graph.code_eq, List.flatMap_cons, List.flatMap_assoc]
    have hnodes := List.Perm.flatMap_left g.nodes fun n hn => h n hn (hg.node hn) g.nodes
    exact hnodes.trans (hg.ordered_perm.symm.flatMap_right Node.code)

namespace Program

variable {p : Program}

/-- The instructions of all visits are the schedule, in another order. -/
theorem instructions_perm (h : p.Built) : (p.visits.flatMap Visit.instructions).Perm p.code := by
  cases p with
  | graph g => exact Hierarchy.instructions_perm.onGraph g h
  | block b => exact Hierarchy.instructions_perm.onBlock b h

/-- What is read off the instructions of each visit is read off the schedule. -/
theorem flatMap_perm_filterMap (h : p.Built) {α : Type} {f : Instruction → Option α}
    {g : Visit → List α} (hfg : ∀ v : Visit, v.instructions.filterMap f = g v) :
    (p.visits.flatMap g).Perm (p.code.filterMap f) := by
  have hperm := (instructions_perm h).filterMap f
  rwa [List.filterMap_flatMap, funext hfg] at hperm

end Program

namespace Visit

theorem filterMap_marks {α : Type} {f : Instruction → Option α}
    (hbegin : ∀ var low high, f (.loopBegin var low high) = none)
    (hend : ∀ var, f (.loopEnd var) = none) (b : Block) :
    (block b).instructions.filterMap f = [] := by
  simp [instructions, LoopVar.beginning, LoopVar.ending, hbegin, hend, List.filterMap_map]

theorem filterMap_loaded? (v : Visit) :
    v.instructions.filterMap Instruction.loaded? = v.loaded := by
  cases v with
  | node siblings n => cases n <;> rfl
  | block b => exact filterMap_marks (fun _ _ _ => rfl) (fun _ => rfl) b
  | _ => rfl

theorem filterMap_stored? (v : Visit) :
    v.instructions.filterMap Instruction.stored? = v.stored := by
  cases v with
  | node siblings n => cases n <;> rfl
  | block b => exact filterMap_marks (fun _ _ _ => rfl) (fun _ => rfl) b
  | _ => rfl

theorem filterMap_computed? (v : Visit) :
    v.instructions.filterMap Instruction.computed? = v.computed := by
  cases v with
  | node siblings n =>
    cases n with
    | compute id op =>
      show [(op.operator, op.inputs.map TensorNode.name ++ [op.result.name])] =
        [(op.operator, (op.inputs ++ [op.result]).map TensorNode.name)]
      rw [List.map_append, List.map_singleton]
    | _ => rfl
  | block b => exact filterMap_marks (fun _ _ _ => rfl) (fun _ => rfl) b
  | _ => rfl

theorem filterMap_begun? (v : Visit) : v.instructions.filterMap Instruction.begun? = v.loops := by
  cases v with
  | node siblings n => cases n <;> rfl
  | block b =>
    have hbegin : ∀ v : LoopVar, v.beginning.begun? = some v := fun _ => rfl
    have hend : ∀ v : LoopVar, v.ending.begun? = none := fun _ => rfl
    simp [instructions, loops, List.filterMap_map, hbegin, hend]
  | _ => rfl

end Visit

/-! ## Movements outside the loops -/

namespace Block

variable {b : Block}

/-- The instructions of the movements that depend on no loop, or of those that do. -/
def emitted (f : Transfer → Instruction) (invariant : Bool) (ms : List Movement) :
    List Instruction :=
  (ms.filter fun m => m.access.isInvariant == invariant).map (f ·.transfer)

/-- The outermost loop with what it holds, or the body where the block has no loop. -/
def looped (b : Block) : List Instruction :=
  match b.vars with
  | [] => b.body.code
  | v :: vars => v.beginning :: (b.nest b.body.code 1 vars ++ [v.ending])

theorem emitted_perm (f : Transfer → Instruction) (ms : List Movement) :
    (emitted f true ms ++ emitted f false ms).Perm (ms.map (f ·.transfer)) := by
  have hsplit := (List.filter_append_perm (fun m : Movement => m.access.isInvariant) ms).map
    (f ·.transfer)
  simpa [emitted] using hsplit

theorem depthOf_eq_zero_iff (h : b.Built) {m : Movement} (hm : m ∈ b.loads ++ b.stores) :
    b.depthOf m.access = 0 ↔ m.access.isInvariant = true := by
  unfold Access.isInvariant
  rw [List.isEmpty_iff]
  constructor
  · intro hd
    refine List.eq_nil_iff_forall_not_mem.2 fun v hv => ?_
    obtain ⟨i, hi⟩ := List.getElem?_of_mem (h.var_mem hm hv)
    have hle := le_depthOf h.names_nodup hi (usesVar_iff.2 ⟨v, hv, rfl⟩)
    omega
  · intro hv
    unfold depthOf
    rw [hv]
    rfl

theorem emitted_of_depth (h : b.Built) {ms : List Movement} (hms : ms ⊆ b.loads ++ b.stores)
    (f : Transfer → Instruction) :
    (ms.filter fun m => b.depthOf m.access == 0).map (f ·.transfer) = emitted f true ms := by
  refine congrArg (List.map _) (List.filter_congr fun m hm => ?_)
  rw [Bool.eq_iff_iff, beq_iff_eq, beq_iff_eq]
  exact depthOf_eq_zero_iff h (hms hm)

/-- Movements that depend on no loop stand before and after the loops. -/
theorem code_eq_looped (h : b.Built) :
    b.code = emitted .load true b.loads ++ b.looped ++ emitted .store true b.stores := by
  rw [← emitted_of_depth h (List.subset_append_left _ _) .load,
    ← emitted_of_depth h (List.subset_append_right _ _) .store, code_eq]
  unfold looped
  cases b.vars with
  | nil => rfl
  | cons v vars => simp [nest, loadsAt, storesAt, LoopVar.beginning, LoopVar.ending]

/-- The other movements stand inside, with all marks of the loops and the body. -/
theorem looped_perm (h : b.Built) :
    b.looped.Perm (emitted .load false b.loads ++ b.vars.map LoopVar.beginning ++ b.body.code ++
      b.vars.map LoopVar.ending ++ emitted .store false b.stores) := by
  refine List.perm_iff_count.2 fun i => ?_
  have hcode := congrArg (List.count i) ((code_eq_looped h).symm.trans b.code_eq_around)
  have hopen := b.opening_perm.count_eq i
  have hclose := b.closing_perm.count_eq i
  have hloads := (emitted_perm .load b.loads).count_eq i
  have hstores := (emitted_perm .store b.stores).count_eq i
  simp only [List.count_append] at hcode hopen hclose hloads hstores ⊢
  omega

end Block

/-! ## Copiers -/

/-- The copier that carries the transfer out. -/
def Copier.ofTransfer (t : Transfer) : Copier := ⟨t.route, t.source, t.dest⟩

namespace Program

variable {p : Program}

theorem loaded_perm (h : p.Built) :
    (p.visits.flatMap Visit.loaded).Perm (p.code.filterMap Instruction.loaded?) :=
  flatMap_perm_filterMap h Visit.filterMap_loaded?

theorem stored_perm (h : p.Built) :
    (p.visits.flatMap Visit.stored).Perm (p.code.filterMap Instruction.stored?) :=
  flatMap_perm_filterMap h Visit.filterMap_stored?

/-- Copiers are those of the transfers that the walk meets. -/
theorem mem_copiers {c : Copier} : c ∈ p.copiers ↔
    ∃ v ∈ p.visits, ∃ t ∈ v.loaded ++ v.stored, c = .ofTransfer t := by
  unfold copiers Copier.ofVisits
  rw [List.mem_eraseDups, List.mem_map]
  constructor
  · rintro ⟨m, hm, rfl⟩
    obtain ⟨v, hv, he⟩ := List.mem_filterMap.1 hm
    refine ⟨v, hv, m.transfer, ?_, rfl⟩
    cases v <;> cases he <;> simp [Visit.loaded, Visit.stored]
  · rintro ⟨v, hv, t, ht, rfl⟩
    cases v with
    | load b m =>
      cases List.mem_singleton.1 ht
      exact ⟨m, List.mem_filterMap.2 ⟨_, hv, rfl⟩, rfl⟩
    | store b m =>
      cases List.mem_singleton.1 ht
      exact ⟨m, List.mem_filterMap.2 ⟨_, hv, rfl⟩, rfl⟩
    | _ => cases ht

/-- Copiers are those of the transfers of the schedule. -/
theorem mem_copiers_iff (h : p.Built) {c : Copier} : c ∈ p.copiers ↔
    ∃ t, (.load t ∈ p.code ∨ .store t ∈ p.code) ∧ c = .ofTransfer t := by
  have hmem : ∀ t, (.load t ∈ p.code ∨ .store t ∈ p.code) ↔
      ∃ v ∈ p.visits, t ∈ v.loaded ++ v.stored := by
    intro t
    have hload := (loaded_perm h).mem_iff (a := t)
    have hstore := (stored_perm h).mem_iff (a := t)
    simp only [List.mem_filterMap, Instruction.loaded?_eq_some, Instruction.stored?_eq_some,
      exists_eq_right] at hload hstore
    rw [← hload, ← hstore, List.mem_flatMap, List.mem_flatMap]
    simp only [List.mem_append, and_or_left, exists_or]
  rw [mem_copiers]
  constructor
  · rintro ⟨v, hv, t, ht, rfl⟩
    exact ⟨t, (hmem t).2 ⟨v, hv, ht⟩, rfl⟩
  · rintro ⟨t, ht, rfl⟩
    obtain ⟨v, hv, hvt⟩ := (hmem t).1 ht
    exact ⟨v, hv, t, hvt, rfl⟩

/-- The walk meets what the schedule emits: the same transfers of loads and of stores, the same
    operations and the same loops, each as often. Of the movements of a block, those that depend on
    no loop stand outside its loops and the others inside. The copiers are those of the transfers
    emitted, each once. -/
theorem walked_is_emitted (h : p.Built) :
    (p.visits.flatMap Visit.loaded).Perm (p.code.filterMap Instruction.loaded?) ∧
    (p.visits.flatMap Visit.stored).Perm (p.code.filterMap Instruction.stored?) ∧
    (p.visits.flatMap Visit.computed).Perm (p.code.filterMap Instruction.computed?) ∧
    (∃ tree : LoopTree, tree.code = p.code ∧ (p.visits.flatMap Visit.loops).Perm tree.loops) ∧
    (∀ b, .block b ∈ p.visits →
      (∃ before after, p.code = before ++ Block.emitted .load true b.loads ++ b.looped ++
        Block.emitted .store true b.stores ++ after) ∧
      b.looped.Perm (Block.emitted .load false b.loads ++ b.vars.map LoopVar.beginning ++
        b.body.code ++ b.vars.map LoopVar.ending ++ Block.emitted .store false b.stores)) ∧
    p.copiers.Nodup ∧
    ∀ c, c ∈ p.copiers ↔ ∃ t, (.load t ∈ p.code ∨ .store t ∈ p.code) ∧ c = .ofTransfer t := by
  refine ⟨loaded_perm h, stored_perm h, flatMap_perm_filterMap h Visit.filterMap_computed?, ?_,
    fun b hb => ?_, Lists.nodup_eraseDups _, fun c => mem_copiers_iff h⟩
  · obtain ⟨tree, htree⟩ := p.nested_code
    refine ⟨tree, htree, ?_⟩
    rw [← tree.filterMap_begun?, htree]
    exact flatMap_perm_filterMap h Visit.filterMap_begun?
  · obtain ⟨path, before, after, hq⟩ := exists_placeAt h hb
    obtain ⟨s, -, hof, -⟩ := exists_scanAt h hq
    have hbuilt : b.Built := hof.built
    refine ⟨⟨before, after, ?_⟩, Block.looped_perm hbuilt⟩
    have hcode : p.code = before ++ b.code ++ after := hof.code
    rw [hcode, Block.code_eq_looped hbuilt]
    simp only [List.append_assoc]

end Program

namespace Sample

/-- The shared tile in registers, as a whole. -/
def copied : Tensor := { gathered with tier := .register }

def copyAll : Movement := ⟨staged, copied, .bulk, .sharedToRegister, rfl⟩

def mixedDraft : Draft := (Draft.empty.addNodes [.tensor x, .tensor ⟨⟨1⟩, copied⟩]).1.connect.1

/-- A load that follows the loop, and one that depends on no loop. -/
def mixed : Block where
  loads := [pick, copyAll]
  body := { nodes := [.tensor x, .tensor ⟨⟨1⟩, copied⟩], edges := [], order := [0, 1] }
  stores := []
  vars := [loop]

theorem mixed_built : mixed.Built := by
  refine Block.built_of_make (d := mixedDraft) (Draft.Reachable.empty.addNodes _).connect rfl
    (fun n hn => ?_) (by decide) rfl
  simp only [mixed, List.mem_cons, List.not_mem_nil, or_false] at hn
  rcases hn with rfl | rfl
  · trivial
  · trivial

end Sample

/-- The second load is emitted first, before the loop. -/
theorem Program.walked_is_emitted_mixed :
    Sample.mixed.Built ∧ Sample.mixed.code = [.load Sample.copyAll.transfer,
      Sample.loop.beginning, .load Sample.pick.transfer, Sample.loop.ending] ∧
    [Sample.pick.transfer, Sample.copyAll.transfer].Perm
      (Sample.mixed.code.filterMap Instruction.loaded?) :=
  ⟨Sample.mixed_built, rfl, (walked_is_emitted (p := .block Sample.mixed) Sample.mixed_built).1⟩

end TileNest
