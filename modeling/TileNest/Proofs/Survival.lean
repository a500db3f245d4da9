import TileNest.Proofs.DirectRun
import TileNest.Proofs.Placement
import TileNest.Proofs.ValueFlow

/-
  Shared storage does not corrupt values. An event writes the tensor that receives its result and
  reads its sources, and the receiving tensor too where only a part of it is replaced
  (`Event.written`, `Event.Reads`). Main result: `Program.values_survive`. Whatever is written
  between a write of a tensor and a read that takes the written value up lies elsewhere in the
  plan.

  The run keeps to the live range between the two (`LoopTree.kept`), what is written there is live
  at that position as well, and the plan keeps tensors apart whose ranges meet
  (`Plan.pack_permits`). What remains for this module is to tie the three descriptions together:
  events to instructions, instructions to the tensors of the hierarchy (`Instruction.Origin`), and
  allocations to the ranges of the analysis (`Program.get?_plan`).
-/

namespace TileNest

/-! ## Reads and writes of events -/

/-- The copy fills only a part of its destination, which is larger along some dimension. -/
def TileCopy.FillsPart (tensors : List Tensor) (c : TileCopy) : Prop :=
  ∃ source ∈ tensors, ∃ dest ∈ tensors, source.name = c.source ∧ dest.name = c.dest ∧
    ∃ extents ∈ dest.shape.zip source.shape, extents.2 < extents.1

namespace Event

/-- The tensor that the event writes. -/
def written : Event → String
  | load c => c.dest
  | store c => c.dest
  | compute _ _ result => result

/-- The event depends on the value of the tensor. -/
def Reads (tensors : List Tensor) : Event → String → Prop
  | load c, x => x = c.source ∨ x = c.dest ∧ c.FillsPart tensors
  | store c, x => x = c.source ∨ x = c.dest ∧ c.FillsPart tensors
  | compute .gemm operands result, x => x ∈ operands ∨ x = result
  | compute .convert operands _, x => x ∈ operands

end Event

section

variable {tensors : List Tensor} {table : TensorTable} {x : String}

/-- A tensor of the hierarchy is the one that the table has under its name. -/
theorem TensorTable.get?_of_mem (h : ofTensors tensors = .ok table) {t : Tensor}
    (ht : t ∈ tensors) : table.get? t.name = some t := by
  obtain ⟨rfl, hagree⟩ := ofTensors_eq_ok h
  refine get?_of_agree (fun a ha b hb => ?_) (List.mem_eraseDups.2 ht)
  exact hagree a (List.mem_eraseDups.1 ha) b (List.mem_eraseDups.1 hb)

theorem Transfer.fillsPart_of_fillsPart (h : TensorTable.ofTensors tensors = .ok table)
    {t : Transfer} {c : TileCopy} (hs : c.source = t.source) (hd : c.dest = t.dest)
    (hc : c.FillsPart tensors) : t.fillsPart table = true := by
  obtain ⟨source, ms, dest, md, es, ed, extents, he, hlt⟩ := hc
  have gs := TensorTable.get?_of_mem h ms
  have gd := TensorTable.get?_of_mem h md
  rw [es, hs] at gs
  rw [ed, hd] at gd
  unfold fillsPart
  rw [gs, gd]
  exact List.any_eq_true.2 ⟨extents, he, decide_eq_true hlt⟩

/-- A transfer takes up its source, and its destination where that is filled in part. -/
theorem Transfer.carries_references {t : Transfer}
    (h : x = t.source ∨ x = t.dest ∧ t.fillsPart table = true) :
    Liveness.carries (t.references table) x = true := by
  unfold Liveness.carries references
  by_cases hs : x = t.source
  · rw [hs, List.lookup_cons_self]
    rfl
  · obtain ⟨rfl, hf⟩ := h.resolve_left hs
    rw [Lists.lookup_cons_of_ne hs, List.lookup_cons_self, if_pos hf]
    rfl

theorem lookup_uses (operands : List String) :
    (operands.map (·, Mode.use)).lookup x = if x ∈ operands then some .use else none := by
  induction operands with
  | nil => rfl
  | cons operand operands ih =>
    rw [List.map_cons]
    by_cases h : x = operand
    · simp [h]
    · rw [Lists.lookup_cons_of_ne h, ih]
      simp [h]

/-- What an event reads is taken up by its instruction. -/
theorem Instruction.takesUp_of_reads (h : TensorTable.ofTensors tensors = .ok table)
    {i : Instruction} {e : Event} (hi : i.Emits e) (hr : e.Reads tensors x) :
    i.TakesUp table x := by
  unfold TakesUp
  cases i with
  | compute op operands result =>
    obtain rfl := hi
    unfold Liveness.carries references
    rw [List.lookup_append, lookup_uses]
    by_cases hx : x ∈ operands
    · simp [hx]
    · cases op with
      | gemm =>
        obtain rfl := hr.resolve_left hx
        simp [hx, Operator.resultMode]
      | convert => exact absurd hr hx
  | load t =>
    obtain ⟨tile, rfl⟩ := hi
    refine Transfer.carries_references (hr.imp_right fun hd => ⟨hd.1, ?_⟩)
    exact Transfer.fillsPart_of_fillsPart h rfl rfl hd.2
  | store t =>
    obtain ⟨tile, rfl⟩ := hi
    refine Transfer.carries_references (hr.imp_right fun hd => ⟨hd.1, ?_⟩)
    exact Transfer.fillsPart_of_fillsPart h rfl rfl hd.2
  | loopBegin var low high => cases hi
  | loopEnd var => cases hi

theorem Transfer.mem_references {t : Transfer} :
    (∃ mode, (x, mode) ∈ t.references table ∧ mode ≠ .use) ↔ t.dest = x := by
  unfold references
  constructor
  · rintro ⟨mode, hm, hne⟩
    simp only [List.mem_cons, Prod.mk.injEq, List.not_mem_nil, or_false] at hm
    rcases hm with ⟨-, hu⟩ | ⟨hd, -⟩
    · exact absurd hu hne
    · exact hd.symm
  · rintro rfl
    refine ⟨_, List.mem_cons_of_mem _ (List.mem_singleton_self _), ?_⟩
    split <;> exact Mode.noConfusion

/-- An event writes what its instruction gives a value. -/
theorem Instruction.writes_iff {i : Instruction} {e : Event} (hi : i.Emits e) :
    i.Writes table x ↔ e.written = x := by
  unfold Writes
  cases i with
  | compute op operands result =>
    obtain rfl := hi
    unfold references
    constructor
    · rintro ⟨mode, hm, hne⟩
      rcases List.mem_append.1 hm with hm | hm
      · obtain ⟨operand, -, ho⟩ := List.mem_map.1 hm
        exact absurd (congrArg Prod.snd ho).symm hne
      · exact (congrArg Prod.fst (List.mem_singleton.1 hm)).symm
    · rintro rfl
      refine ⟨op.resultMode, List.mem_append_right _ (List.mem_singleton_self _), ?_⟩
      cases op <;> exact Mode.noConfusion
  | load t =>
    obtain ⟨tile, rfl⟩ := hi
    exact Transfer.mem_references
  | store t =>
    obtain ⟨tile, rfl⟩ := hi
    exact Transfer.mem_references
  | loopBegin var low high => cases hi
  | loopEnd var => cases hi

end

/-! ## Where instructions come from -/

theorem Movement.exists_end (m : Movement) {table : TensorTable} {x : String} {mode : Mode}
    (h : (x, mode) ∈ m.transfer.references table) : ∃ t ∈ [m.source, m.dest], t.name = x := by
  rcases List.mem_cons.1 h with e | h
  · exact ⟨m.source, List.mem_cons_self .., (congrArg Prod.fst e).symm⟩
  · have e := List.mem_singleton.1 h
    exact ⟨m.dest, List.mem_cons_of_mem _ (List.mem_singleton_self _), (congrArg Prod.fst e).symm⟩

/-- The part of a hierarchy that an instruction of its schedule comes from. -/
inductive Instruction.Origin (visits : List Visit) : Instruction → Prop
  | operation (op : Operation)
      (h : ∀ t ∈ op.operands, ∃ siblings, .node siblings (.tensor t) ∈ visits) :
      Origin visits op.instruction
  | load (b : Block) (m : Movement) (h : .load b m ∈ visits) : Origin visits (.load m.transfer)
  | store (b : Block) (m : Movement) (h : .store b m ∈ visits) : Origin visits (.store m.transfer)
  | loopBegin (b : Block) (v : LoopVar) (h : .block b ∈ visits) (hv : v ∈ b.vars) :
      Origin visits (.loopBegin v.name v.low v.high)
  | loopEnd (name : String) : Origin visits (.loopEnd name)

namespace Instruction.Origin

theorem mono {visits more : List Visit} {i : Instruction} (h : Origin visits i)
    (hs : ∀ v ∈ visits, v ∈ more) : Origin more i := by
  cases h with
  | operation op h =>
    refine operation op fun t ht => ?_
    obtain ⟨siblings, hm⟩ := h t ht
    exact ⟨siblings, hs _ hm⟩
  | load b m h => exact load b m (hs _ h)
  | store b m h => exact store b m (hs _ h)
  | loopBegin b v h hv => exact loopBegin b v (hs _ h) hv
  | loopEnd name => exact loopEnd name

/-- An instruction refers to tensors that the walk meets. -/
theorem tensor_mem {visits : List Visit} {i : Instruction} (h : Origin visits i)
    {table : TensorTable} {x : String} (hx : i.Touches table x) :
    ∃ t ∈ visits.flatMap Visit.tensors, t.name = x := by
  obtain ⟨mode, hm⟩ := hx
  cases h with
  | operation op h =>
    have hname : ∃ t ∈ op.operands, t.name = x := by
      rcases List.mem_append.1 hm with hm | hm
      · obtain ⟨name, hn, he⟩ := List.mem_map.1 hm
        obtain ⟨t, ht, rfl⟩ := List.mem_map.1 hn
        exact ⟨t, List.mem_append_left _ ht, congrArg Prod.fst he⟩
      · exact ⟨op.result, List.mem_append_right _ (List.mem_singleton_self _),
          (congrArg Prod.fst (List.mem_singleton.1 hm)).symm⟩
    obtain ⟨t, ht, rfl⟩ := hname
    obtain ⟨siblings, hv⟩ := h t ht
    exact ⟨t.tensor, List.mem_flatMap.2 ⟨_, hv, List.mem_singleton_self _⟩, rfl⟩
  | load b m h =>
    obtain ⟨t, ht, hn⟩ := m.exists_end hm
    exact ⟨t, List.mem_flatMap.2 ⟨_, h, ht⟩, hn⟩
  | store b m h =>
    obtain ⟨t, ht, hn⟩ := m.exists_end hm
    exact ⟨t, List.mem_flatMap.2 ⟨_, h, ht⟩, hn⟩
  | loopBegin b v h hv => cases hm
  | loopEnd name => cases hm

end Instruction.Origin

theorem Block.mem_nest {b : Block} {body : List Instruction} {depth : Nat} {vars : List LoopVar}
    {i : Instruction} (h : i ∈ b.nest body depth vars) :
    i ∈ body ∨ (∃ m ∈ b.loads, i = .load m.transfer) ∨ (∃ m ∈ b.stores, i = .store m.transfer) ∨
      (∃ v ∈ vars, i = .loopBegin v.name v.low v.high) ∨ ∃ name, i = .loopEnd name := by
  have hload : ∀ depth, i ∈ b.loadsAt depth → ∃ m ∈ b.loads, i = .load m.transfer := by
    intro depth hi
    obtain ⟨m, hm, rfl⟩ := List.mem_map.1 hi
    exact ⟨m, (List.mem_filter.1 hm).1, rfl⟩
  have hstore : ∀ depth, i ∈ b.storesAt depth → ∃ m ∈ b.stores, i = .store m.transfer := by
    intro depth hi
    obtain ⟨m, hm, rfl⟩ := List.mem_map.1 hi
    exact ⟨m, (List.mem_filter.1 hm).1, rfl⟩
  induction vars generalizing depth with
  | nil =>
    rw [nest, List.mem_append, List.mem_append] at h
    rcases h with (h | h) | h
    · exact .inr (.inl (hload depth h))
    · exact .inl h
    · exact .inr (.inr (.inl (hstore depth h)))
  | cons v vars ih =>
    rw [nest, List.append_assoc, List.cons_append, List.mem_append, List.mem_cons, List.mem_append,
      List.mem_cons] at h
    rcases h with h | h | h | h | h
    · exact .inr (.inl (hload depth h))
    · exact .inr (.inr (.inr (.inl ⟨v, List.mem_cons_self .., h⟩)))
    · rcases ih h with h | h | h | ⟨w, hw, h⟩ | h
      · exact .inl h
      · exact .inr (.inl h)
      · exact .inr (.inr (.inl h))
      · exact .inr (.inr (.inr (.inl ⟨w, List.mem_cons_of_mem v hw, h⟩)))
      · exact .inr (.inr (.inr (.inr h)))
    · exact .inr (.inr (.inr (.inr ⟨v.name, h⟩)))
    · exact .inr (.inr (.inl (hstore depth h)))

/-- Every instruction has an origin. The one of an operation is found in the graph, which has the
    nodes of its operands. -/
theorem Hierarchy.code_origin : Closed
    (fun n => n.Built → ∀ i ∈ n.code,
      (∃ id op, n = .compute id op ∧ i = op.instruction) ∨ i.Origin n.inside)
    (fun b => b.Built → ∀ i ∈ b.code, i.Origin b.visits)
    (fun g => g.Built → ∀ i ∈ g.code, i.Origin g.visits) where
  tensor n _ i hi := by simp [Node.code] at hi
  compute id op _ i hi := by
    rw [Node.code, List.mem_singleton] at hi
    exact .inl ⟨id, op, rfl, hi⟩
  block id b ih h i hi := .inr (ih h i hi)
  nest b ih h i hi := by
    rw [Block.code_eq] at hi
    rw [Block.visits_eq]
    rcases Block.mem_nest hi with hi | ⟨m, hm, rfl⟩ | ⟨m, hm, rfl⟩ | ⟨v, hv, rfl⟩ | ⟨name, rfl⟩
    · exact (ih h.body_built i hi).mono fun v hv => by simp [hv]
    · exact .load b m (by simp [hm])
    · exact .store b m (by simp [hm])
    · exact .loopBegin b v (by simp) hv
    · exact .loopEnd name
  graph g ih h i hi := by
    rw [Graph.code_eq] at hi
    rw [Graph.visits_eq]
    obtain ⟨n, hn, hi⟩ := List.mem_flatMap.1 hi
    rw [h.mem_ordered] at hn
    rcases ih n hn (h.node hn) i hi with ⟨id, op, rfl, rfl⟩ | ho
    · refine .operation op fun t ht => ⟨g.nodes, List.mem_cons_of_mem _ (List.mem_flatMap.2 ?_)⟩
      exact ⟨.tensor t, h.operand_mem hn ht, List.mem_cons_self ..⟩
    · refine ho.mono fun v hv => List.mem_cons_of_mem _ (List.mem_flatMap.2 ⟨n, hn, ?_⟩)
      exact List.mem_cons_of_mem _ hv

namespace Program

theorem code_origin {p : Program} (h : p.Built) : ∀ i ∈ p.code, i.Origin p.visits := by
  cases p with
  | graph g => exact Hierarchy.code_origin.onGraph g h
  | block b => exact Hierarchy.code_origin.onBlock b h

/-- Every loop of every block has a value to run for. -/
def LoopsRun (p : Program) : Prop := ∀ b, .block b ∈ p.visits → ∀ v ∈ b.vars, v.low < v.high

theorem LoopsRun.code {p : Program} (h : p.Built) (hl : p.LoopsRun) (var : String)
    (low high : Int64) (hm : .loopBegin var low high ∈ p.code) : low < high := by
  cases code_origin h _ hm with
  | loopBegin b v hb hv => exact hl b hb v hv

end Program

theorem Sample.kernel_loopsRun : Sample.kernel.LoopsRun := by
  intro b hb v hv
  have hblock : b = outer ∨ b = inner := by
    simpa [kernel, Program.visits, outer, inner, Block.visits_eq, Graph.visits_eq, Node.inside,
      narrow, widen] using hb
  rcases hblock with rfl | rfl
  · cases List.mem_singleton.1 hv
    decide
  · cases List.mem_singleton.1 hv
    decide

/-! ## Allocations and live ranges -/

namespace Plan

/-- Ranges only grow when outputs are kept, and reach the ends of their scopes. -/
theorem lookup_keepOutputs (interference : Interference) {ranges : LiveRanges} {x : String}
    {r : LiveRange} (h : ranges.lookup x = some r) :
    ∃ r', (keepOutputs interference ranges).lookup x = some r' ∧
      ∀ p, r.Contains p ∨ (x, p) ∈ interference.ends → r'.Contains p := by
  unfold keepOutputs
  induction interference.ends generalizing ranges r with
  | nil => exact ⟨r, h, fun p hp => hp.resolve_right List.not_mem_nil⟩
  | cons output ends ih =>
    rw [List.foldl_cons]
    by_cases hx : x = output.1
    · have hw := LiveRanges.lookup_widen output.1 output.2 ranges x
      rw [if_pos hx, h, Option.map_some] at hw
      obtain ⟨r', hr, hc⟩ := ih hw
      refine ⟨r', hr, fun p hp => hc p ?_⟩
      rw [List.mem_cons, ← or_assoc] at hp
      refine hp.imp_left fun hp => LiveRange.contains_cover (hp.imp_right ?_)
      exact congrArg Prod.snd
    · have hw := LiveRanges.lookup_widen output.1 output.2 ranges x
      rw [if_neg hx, h] at hw
      obtain ⟨r', hr, hc⟩ := ih hw
      refine ⟨r', hr, fun p hp => hc p (hp.imp_right fun hm => ?_)⟩
      exact (List.mem_cons.1 hm).resolve_left fun he => hx (congrArg Prod.fst he)

theorem names_keepOutputs (interference : Interference) (ranges : LiveRanges) :
    (keepOutputs interference ranges).map Prod.fst = ranges.map Prod.fst := by
  unfold keepOutputs
  induction interference.ends generalizing ranges with
  | nil => rfl
  | cons output ends ih => rw [List.foldl_cons, ih, LiveRanges.names_widen]

/-- A tensor with a range is declared with it, and with no other. -/
theorem declared_iff {table : TensorTable} {ranges : LiveRanges} {whole : LiveRange}
    (hn : (ranges.map Prod.fst).Nodup) {x : String} {r : LiveRange}
    (hr : ranges.lookup x = some r) {t : Tensor} {live : LiveRange} (ht : t.name = x) :
    (t, live) ∈ declared table ranges whole ↔ table.get? x = some t ∧ live = r := by
  unfold declared
  rw [List.mem_append]
  constructor
  · rintro (h | h)
    · obtain ⟨⟨name, live'⟩, hm, hg⟩ := List.mem_filterMap.1 h
      rw [Option.map_eq_some_iff] at hg
      obtain ⟨u, hu, he⟩ := hg
      cases he
      have hname := TensorTable.name_of_get? hu
      rw [← hname, ht] at hm hu
      rw [Lists.lookup_of_mem hn hm] at hr
      exact ⟨hu, Option.some.inj hr⟩
    · obtain ⟨u, hu, he⟩ := List.mem_map.1 h
      cases he
      have hnone := (List.mem_filter.1 hu).2
      rw [ht, hr] at hnone
      cases hnone
  · rintro ⟨hg, rfl⟩
    exact .inl (List.mem_filterMap.2 ⟨(x, live), Lists.mem_of_lookup hr, by simp [hg]⟩)

end Plan

namespace Program

/-- A tensor that the schedule refers to has a place in the plan, and is live there at all of its
    stamps. -/
theorem get?_plan {p : Program} (h : p.Built) {options : PlanOptions} {plan : Plan}
    (hp : p.plan options = .ok plan) {t : LoopTree} (ht : t.code = p.code) {table : TensorTable}
    (htab : TensorTable.ofTensors p.tensors = .ok table) {s : Nat × Instruction}
    (hs : s ∈ t.executed 0) {x : String} (hx : s.2.Touches table x) :
    ∃ a, plan.get? x = some a ∧ ∀ q ∈ t.stamps table x 0, a.live.Contains q := by
  obtain ⟨table', ranges, ht', ha, rfl⟩ := plan_eq_ok hp
  cases htab.symm.trans ht'
  obtain ⟨ranges', ha', hn, hlook⟩ := Liveness.analyze_code table t
  rw [ht, ha] at ha'
  cases ha'
  -- The range of the analysis, and the one that the plan was made with.
  have hne : t.stamps table x 0 ≠ [] := List.ne_nil_of_mem (LoopTree.mem_stamps hs hx)
  obtain ⟨r, hr⟩ := Option.isSome_iff_exists.1 (LiveRange.coverAll_isSome (r := none) (.inr hne))
  obtain ⟨r', hr', hgrow⟩ := Plan.lookup_keepOutputs p.interference ((hlook x).trans hr)
  rw [← Plan.names_keepOutputs p.interference] at hn
  have hcode : s.2 ∈ p.code := ht ▸ LoopTree.mem_code_of_executed hs
  obtain ⟨u, hu, hname⟩ := (code_origin h _ hcode).tensor_mem hx
  have hget : table.get? x = some u := hname ▸ TensorTable.get?_of_mem htab hu
  obtain ⟨a, ha, v, hv, hvn⟩ := Plan.get?_pack ((Plan.declared_iff hn hr' hname).2 ⟨hget, rfl⟩)
  rw [hname] at ha hvn
  obtain ⟨-, hlive⟩ := (Plan.declared_iff hn hr' hvn).1 hv
  refine ⟨a, ha, fun q hq => ?_⟩
  rw [hlive]
  exact hgrow q (.inl (LiveRange.contains_coverAll hr (.inr hq)))

/-- Tensors that are live at one position are kept apart by the plan. -/
theorem not_shares_of_live {p : Program} {options : PlanOptions} {plan : Plan}
    (hp : p.plan options = .ok plan) {a b : Allocation} (ha : a ∈ plan.allocations)
    (hb : b ∈ plan.allocations) (hne : a ≠ b) (ht : a.tier = b.tier) {q : Nat}
    (hqa : a.live.Contains q) (hqb : b.live.Contains q) : ¬ a.Shares b := by
  intro hs
  obtain ⟨table, ranges, -, -, rfl⟩ := plan_eq_ok hp
  have hapart := (Plan.pack_permits ha hb hne ht hs).apart
  have hmeet : a.live.overlaps b.live = true := by
    unfold LiveRange.overlaps
    rw [Bool.and_eq_true, decide_eq_true_eq, decide_eq_true_eq]
    exact ⟨Nat.le_trans hqa.1 hqb.2, Nat.le_trans hqb.1 hqa.2⟩
  rw [hmeet] at hapart
  cases hapart

/-- What is written from a write of a tensor up to a read that takes the written value up, both as
    instructions carried out, lies elsewhere in the plan. -/
theorem apart_until_read {p : Program} (h : p.Built) (hl : p.LoopsRun) {options : PlanOptions}
    {plan : Plan} (hp : p.plan options = .ok plan) {t : LoopTree} (ht : t.code = p.code)
    {table : TensorTable} (htab : TensorTable.ofTensors p.tensors = .ok table)
    {before inner after : List (Nat × Instruction)} {w v s : Nat × Instruction} {x y : String}
    (hsplit : t.executed 0 = (before ++ w :: inner) ++ v :: after) (hw : w.2.Writes table x)
    (hv : v.2.TakesUp table x) (hn : ∀ u ∈ inner, ¬ u.2.Writes table x) (hs : s ∈ inner ++ [v])
    (hy : s.2.Writes table y) (hne : y ≠ x) :
    ∃ a b, plan.get? x = some a ∧ plan.get? y = some b ∧ (a.tier = b.tier → ¬ a.Shares b) := by
  have hwrun : w ∈ t.executed 0 := by simp [hsplit]
  have hsrun : s ∈ t.executed 0 := by
    simp only [hsplit, List.mem_append, List.mem_cons, List.not_mem_nil, or_false] at hs ⊢
    exact hs.elim (fun hs => .inl (.inr (.inr hs))) fun hs => .inr (.inl hs)
  obtain ⟨a, ha, hacover⟩ := get?_plan h hp ht htab hwrun hw.touches
  obtain ⟨b, hb, hbcover⟩ := get?_plan h hp ht htab hsrun hy.touches
  have hloops : t.LoopsRun := LoopTree.loopsRun_of_code (ht ▸ hl.code h)
  have hkept : Kept table x a.live (t.executed 0) := LoopTree.kept hloops hacover
  have hqa : a.live.Contains s.1 := by
    rcases List.mem_append.1 hs with hs | hs
    · exact hkept.between before w inner v after hsplit hw hv hn s hs
    · rw [List.mem_singleton.1 hs]
      exact hkept.covers v (by simp [hsplit]) hv.touches
  have hqb : b.live.Contains s.1 := hbcover _ (LoopTree.mem_stamps hsrun hy.touches)
  have hindexed := plan_indexed hp
  obtain ⟨hma, hna⟩ := hindexed.mem_of_get? ha
  obtain ⟨hmb, hnb⟩ := hindexed.mem_of_get? hb
  refine ⟨a, b, ha, hb, fun htier => not_shares_of_live hp hma hmb ?_ htier hqa hqb⟩
  rintro rfl
  exact hne (hnb.symm.trans hna)

/-- The events of a built program are those of the instructions that its run carries out. -/
theorem expand_emits {p : Program} (h : p.Built) {t : LoopTree} (ht : t.code = p.code) :
    ∃ events, Trace.expand p.code = .ok events ∧
      List.Forall₂ (fun s e => s.2.Emits e) (t.executed 0) events := by
  obtain ⟨events, hexpand, -⟩ := p.expand_yields h
  have hrun : t.run Env.empty = ⟨events, none⟩ := by
    rw [← Trace.record_code, ht]
    exact Run.eq_of_outcome hexpand
  exact ⟨events, hexpand, LoopTree.run_emits hrun 0⟩

/-- **Values survive.** No event between a write of a tensor and a read that takes the written
    value up, nor the reading event itself, writes to bytes of the tensor, unless it writes the
    tensor. -/
theorem values_survive {p : Program} (h : p.Built) (hl : p.LoopsRun) {options : PlanOptions}
    {plan : Plan} (hp : p.plan options = .ok plan) :
    ∃ events, Trace.expand p.code = .ok events ∧
      ∀ before w between r after x, events = before ++ w :: (between ++ r :: after) →
        w.written = x → r.Reads p.tensors x → (∀ e ∈ between, e.written ≠ x) →
        ∀ e ∈ between ++ [r], e.written ≠ x →
          ∃ a b, plan.get? x = some a ∧ plan.get? e.written = some b ∧
            (a.tier = b.tier → ¬ a.Shares b) := by
  obtain ⟨t, ht⟩ := p.nested_code
  obtain ⟨table, -, htab, -, -⟩ := plan_eq_ok hp
  obtain ⟨events, hexpand, hemit⟩ := expand_emits h ht
  refine ⟨events, hexpand, ?_⟩
  rintro before w between r after x rfl hw hr hn e he hne
  -- The instructions carried out are split where the events are.
  rw [← List.cons_append, ← List.append_assoc] at hemit
  obtain ⟨front, v, rest, hsplit, hfront, hv, -⟩ := Lists.forall₂_append_cons hemit
  obtain ⟨start, u, inner, rfl, -, hu, hinner⟩ := Lists.forall₂_append_cons hfront
  have hquiet : ∀ s ∈ inner, ¬ s.2.Writes table x := by
    intro s hs hsw
    obtain ⟨e, he, hse⟩ := Lists.forall₂_partner hinner.flip hs
    exact hn e he ((Instruction.writes_iff hse).1 hsw)
  obtain ⟨s, hs, hse⟩ := Lists.forall₂_partner (List.rel_append hinner (.cons hv .nil)) he
  exact apart_until_read h hl hp ht htab hsplit ((Instruction.writes_iff hu).2 hw)
    (Instruction.takesUp_of_reads htab hv hr) hquiet hs ((Instruction.writes_iff hse).2 rfl) hne

/-- The tile in `a` is read in the second inner iteration, after the first has written to `b`. -/
theorem values_survive_kernel :
    Sample.kernel.Built ∧ Sample.kernel.LoopsRun ∧ Sample.kernel.plan {} = .ok Sample.placed ∧
      ∃ w between r after,
        Trace.expand Sample.kernel.code = .ok (w :: (between ++ r :: after)) ∧
        w.written = "a" ∧ r.Reads Sample.kernel.tensors "a" ∧ (∀ e ∈ between, e.written ≠ "a") ∧
        (∃ e ∈ between, e.written = "b") ∧
        ∃ a b, Sample.placed.get? "a" = some a ∧ Sample.placed.get? "b" = some b ∧
          (a.tier = b.tier → ¬ a.Shares b) := by
  obtain ⟨events, hexpand, hsafe⟩ :=
    values_survive Sample.kernel_built Sample.kernel_loopsRun Sample.kernel_plan
  have hevents := Sample.kernel_expand
  rw [hexpand] at hevents
  cases hevents
  have hkeep : ∀ e ∈ Sample.innerEvents 0, e.written ≠ "a" := by decide
  have hwrites : Event.store ⟨"z", "b", .registerToShared, [0]⟩ ∈ Sample.innerEvents 0 := by decide
  have happart := hsafe [] (.load ⟨"in", "a", .globalToShared, [0]⟩) (Sample.innerEvents 0)
    (.load ⟨"a", "x", .sharedToRegister, [1]⟩) _ "a" rfl rfl (.inl rfl) hkeep _
    (List.mem_append_left _ hwrites) (by decide)
  exact ⟨Sample.kernel_built, Sample.kernel_loopsRun, Sample.kernel_plan, _, Sample.innerEvents 0,
    _, _, hexpand, rfl, .inl rfl, hkeep, ⟨_, hwrites, rfl⟩, happart⟩

end Program

end TileNest
