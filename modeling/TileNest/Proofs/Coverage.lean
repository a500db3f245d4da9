import TileNest.Proofs.LiveHull
import TileNest.Proofs.PlanOutcome

/-
  What a plan lists. Names reach a plan by two routes: the walk through nodes and movements finds
  the tensors, and the instructions of the schedule refer to some of them by name. Main result:
  `Program.plan_covers`. The plan of a built program has one allocation for each tensor that the
  hierarchy mentions and no other, those that the schedule refers to first.

  No name is lost between the two routes, since an operation only gets into a graph that has the
  nodes of its operands (`Program.exists_tensor_of_name`). The order is read off the entries that
  are packed: packing changes neither their order nor what they say about a tensor
  (`Plan.pack_records`), and the table of tensors is as long as the list of their names
  (`TensorTable.names_ofTensors`).
-/

namespace TileNest

/-- The tensor is one of the tensor nodes, or an end of one of the movements, at any depth. -/
def Program.Mentions (t : Tensor) : Program → Prop
  | .graph g => g.Mentions t
  | .block b => b.Mentions t

theorem Program.mem_tensors_iff {p : Program} {t : Tensor} : t ∈ p.tensors ↔ p.Mentions t := by
  cases p with
  | graph g => exact Hierarchy.mem_tensors_iff.onGraph g t
  | block b => exact Hierarchy.mem_tensors_iff.onBlock b t

/-! ## Names of the walk -/

namespace TensorTable

variable {table : TensorTable} {tensors : List Tensor}

/-- The table has each name of the walk once, in the order in which the walk meets them. -/
theorem names_ofTensors (h : ofTensors tensors = .ok table) :
    table.map Tensor.name = (tensors.map Tensor.name).eraseDups := by
  obtain ⟨rfl, hagree⟩ := ofTensors_eq_ok h
  exact Lists.map_eraseDups tensors hagree

theorem mem_ofTensors (h : ofTensors tensors = .ok table) {t : Tensor} :
    t ∈ table ↔ t ∈ tensors := by
  rw [(ofTensors_eq_ok h).1, List.mem_eraseDups]

end TensorTable

/-- Every name in an instruction of a built program is that of a tensor which the walk meets. -/
theorem Program.exists_tensor_of_name {p : Program} (h : p.Built) {i : Instruction}
    (hi : i ∈ p.code) {x : String} (hx : x ∈ i.names) : ∃ t ∈ p.tensors, t.name = x := by
  rw [← Instruction.map_fst_references p.tensors] at hx
  obtain ⟨⟨name, mode⟩, href, rfl⟩ := List.mem_map.1 hx
  exact (code_origin h i hi).tensor_mem ⟨mode, href⟩

/-! ## Entries and allocations -/

/-- The allocation is that of the tensor, wherever it lies. -/
structure Allocation.MadeFor (a : Allocation) (t : Tensor) : Prop where
  name : a.name = t.name
  tier : a.tier = t.tier
  dtype : a.dtype = t.dtype
  shape : a.shape = t.shape
  size : a.size = t.bytes

/-- The allocation is that of an entry: of its tensor, with its live range. -/
def Allocation.Records (a : Allocation) (entry : Tensor × LiveRange) : Prop :=
  a.MadeFor entry.1 ∧ a.live = entry.2

namespace Plan

/-- The allocations of a packing are those of its entries, one by one. -/
theorem pack_records (options : PlanOptions) (interference : Interference)
    (entries : List (Tensor × LiveRange)) :
    List.Forall₂ Allocation.Records (pack options interference entries).allocations entries := by
  induction entries using List.reverseRecOn with
  | nil => exact .nil
  | append_singleton entries entry ih =>
    rw [pack_concat, allocations_place]
    exact List.rel_append ih (.cons ⟨⟨rfl, rfl, rfl, rfl, rfl⟩, rfl⟩ .nil)

theorem names_of_records {allocations : List Allocation} {entries : List (Tensor × LiveRange)}
    (h : List.Forall₂ Allocation.Records allocations entries) :
    allocations.map Allocation.name = entries.map fun e => e.1.name := by
  induction h with
  | nil => rfl
  | cons hmade _ ih => rw [List.map_cons, List.map_cons, ih, hmade.1.name]

variable {table : TensorTable} {ranges : LiveRanges} {whole : LiveRange}

/-- Where the table knows all names that have a range, none of them is left out. -/
theorem names_referenced (h : ∀ x ∈ ranges.map Prod.fst, ∃ t, table.get? x = some t) :
    (ranges.filterMap fun (name, live) => (table.get? name).map (·, live)).map
      (fun e => e.1.name) = ranges.map Prod.fst := by
  induction ranges with
  | nil => rfl
  | cons e ranges ih =>
    obtain ⟨name, live⟩ := e
    obtain ⟨t, ht⟩ := h name List.mem_cons_self
    have hrest := ih fun x hx => h x (List.mem_cons_of_mem name hx)
    rw [List.filterMap_cons]
    simp only [ht, Option.map_some, List.map_cons, hrest, TensorTable.name_of_get? ht]

/-- The others are the tensors of the table without a range. -/
theorem names_others (table : TensorTable) (ranges : LiveRanges) (whole : LiveRange) :
    ((table.filter fun t => (ranges.lookup t.name).isNone).map (·, whole)).map
      (fun e => e.1.name) = (table.map Tensor.name).filter (· ∉ ranges.map Prod.fst) := by
  rw [List.map_map, List.filter_map]
  refine congrArg (List.map Tensor.name) (List.filter_congr fun t _ => ?_)
  rw [Function.comp_apply, Bool.eq_iff_iff, Option.isNone_iff_eq_none, List.lookup_eq_none_iff,
    decide_eq_true_eq, List.mem_map]
  simp only [bne_iff_ne, ne_eq, not_exists, not_and]
  exact ⟨fun h e he heq => h e he heq.symm, fun h e he heq => h e he heq.symm⟩

theorem mem_of_declared {e : Tensor × LiveRange} (h : e ∈ declared table ranges whole) :
    e.1 ∈ table := by
  rcases List.mem_append.1 h with h | h
  · obtain ⟨⟨name, live⟩, -, hg⟩ := List.mem_filterMap.1 h
    obtain ⟨t, ht, rfl⟩ := Option.map_eq_some_iff.1 hg
    exact List.mem_of_find?_eq_some ht
  · obtain ⟨t, ht, rfl⟩ := List.mem_map.1 h
    exact List.mem_of_mem_filter ht

/-- An allocation is found by its name, where the names are all different. -/
theorem get?_eq_some_iff {p : Plan} (hp : p.Indexed)
    (h : (p.allocations.map Allocation.name).Nodup) {x : String} {a : Allocation} :
    p.get? x = some a ↔ a ∈ p.allocations ∧ a.name = x := by
  constructor
  · exact hp.mem_of_get?
  · rintro ⟨ha, rfl⟩
    obtain ⟨b, hb⟩ := hp.exists_get? ha
    obtain ⟨hmem, hname⟩ := hp.mem_of_get? hb
    rwa [List.inj_on_of_nodup_map h hmem ha hname] at hb

end Plan

/-! ## Coverage -/

/-- The plan lists the tensors that the program mentions, each once, with the properties that they
    have. Those that the schedule refers to come first, in the order of their first references. The
    others follow in the order of the walk and live throughout. -/
structure Plan.Covers (plan : Plan) (p : Program) : Prop where
  once : (plan.allocations.map Allocation.name).Nodup
  complete : ∀ t, p.Mentions t → ∃ a ∈ plan.allocations, a.MadeFor t
  sound : ∀ a ∈ plan.allocations, ∃ t, p.Mentions t ∧ a.MadeFor t
  ordered : ∃ referenced others, plan.allocations = referenced ++ others ∧
    referenced.map Allocation.name = (p.code.flatMap Instruction.names).eraseDups ∧
    others.map Allocation.name =
      (p.tensors.map Tensor.name).eraseDups.filter (· ∉ p.code.flatMap Instruction.names) ∧
    ∀ a ∈ others, a.live = ⟨0, p.code.length - 1⟩
  known : ∀ i ∈ p.code, ∀ x ∈ i.names, ∃ t, p.Mentions t ∧ t.name = x ∧
    ∃ a ∈ plan.allocations, a.MadeFor t
  found : ∀ x a, plan.get? x = some a ↔ a ∈ plan.allocations ∧ a.name = x

namespace Program

variable {p : Program} {options : PlanOptions} {plan : Plan}

/-- Every allocation of a plan is made for a tensor of the program. -/
theorem plan_sound (hplan : p.plan options = .ok plan) {a : Allocation}
    (ha : a ∈ plan.allocations) : ∃ t ∈ p.tensors, a.MadeFor t := by
  obtain ⟨table, ranges, htable, -, rfl⟩ := plan_eq_ok hplan
  obtain ⟨e, he, hmade, -⟩ := Lists.forall₂_partner (Plan.pack_records _ _ _).flip ha
  exact ⟨e.1, (TensorTable.mem_ofTensors htable).1 (Plan.mem_of_declared he), hmade⟩

/-- The allocations of a plan in two parts: what the schedule refers to, and the rest. -/
theorem plan_ordered (h : p.Built) (hplan : p.plan options = .ok plan) :
    ∃ referenced others, plan.allocations = referenced ++ others ∧
      referenced.map Allocation.name = (p.code.flatMap Instruction.names).eraseDups ∧
      others.map Allocation.name =
        (p.tensors.map Tensor.name).eraseDups.filter (· ∉ p.code.flatMap Instruction.names) ∧
      ∀ a ∈ others, a.live = ⟨0, p.code.length - 1⟩ := by
  obtain ⟨table, ranges, htable, hranges, rfl⟩ := plan_eq_ok hplan
  obtain ⟨tree, htree⟩ := p.nested_code
  have hnames : (Plan.keepOutputs p.interference ranges).map Prod.fst =
      (p.code.flatMap Instruction.names).eraseDups := by
    rw [← htree] at hranges ⊢
    rw [Plan.names_keepOutputs, Liveness.analyze_names hranges]
  have hknown : ∀ x ∈ (Plan.keepOutputs p.interference ranges).map Prod.fst,
      ∃ t, table.get? x = some t := by
    intro x hx
    rw [hnames, List.mem_eraseDups, List.mem_flatMap] at hx
    obtain ⟨i, hi, hx⟩ := hx
    obtain ⟨t, ht, rfl⟩ := exists_tensor_of_name h hi hx
    exact ⟨t, TensorTable.get?_of_mem htable ht⟩
  obtain ⟨referenced, others, hsplit, hfirst, hsecond⟩ := Lists.forall₂_append_right
    (Plan.pack_records options p.interference (Plan.declared table
      (Plan.keepOutputs p.interference ranges) (Plan.wholeRange p.code)))
  refine ⟨referenced, others, hsplit, ?_, ?_, fun a ha => ?_⟩
  · rw [Plan.names_of_records hfirst, Plan.names_referenced hknown, hnames]
  · rw [Plan.names_of_records hsecond, Plan.names_others, TensorTable.names_ofTensors htable,
      hnames]
    simp only [List.mem_eraseDups]
  · obtain ⟨e, he, -, hlive⟩ := Lists.forall₂_partner hsecond.flip ha
    obtain ⟨t, -, rfl⟩ := List.mem_map.1 he
    exact hlive

/-- **A plan covers the hierarchy exactly.** A plan that is found for a built program has one
    allocation for each tensor of the program, and none for anything else. -/
theorem plan_covers (h : p.Built) (hplan : p.plan options = .ok plan) : plan.Covers p := by
  obtain ⟨referenced, others, hsplit, hreferenced, hothers, hwhole⟩ := plan_ordered h hplan
  have honce : (plan.allocations.map Allocation.name).Nodup := by
    rw [hsplit, List.map_append, hreferenced, hothers, List.nodup_append]
    refine ⟨Lists.nodup_eraseDups _, (Lists.nodup_eraseDups _).filter _, ?_⟩
    rintro x hx y hy rfl
    have hnot := (List.mem_filter.1 hy).2
    rw [decide_eq_true_eq] at hnot
    exact hnot (List.mem_eraseDups.1 hx)
  have hcomplete : ∀ t, p.Mentions t → ∃ a ∈ plan.allocations, a.MadeFor t := by
    intro t ht
    rw [← mem_tensors_iff] at ht
    have hlisted : t.name ∈ plan.allocations.map Allocation.name := by
      rw [hsplit, List.map_append, hreferenced, hothers, List.mem_append, List.mem_filter,
        List.mem_eraseDups, List.mem_eraseDups, decide_eq_true_eq]
      by_cases hx : t.name ∈ p.code.flatMap Instruction.names
      · exact .inl hx
      · exact .inr ⟨List.mem_map_of_mem ht, hx⟩
    obtain ⟨a, ha, hname⟩ := List.mem_map.1 hlisted
    obtain ⟨u, hu, hmade⟩ := plan_sound hplan ha
    obtain ⟨table, -, htable, -⟩ := plan_eq_ok hplan
    have hagree := (TensorTable.ofTensors_eq_ok htable).2
    obtain rfl := hagree u hu t ht (hmade.name.symm.trans hname)
    exact ⟨a, ha, hmade⟩
  exact
    { once := honce
      complete := hcomplete
      sound := fun a ha => by
        obtain ⟨t, ht, hmade⟩ := plan_sound hplan ha
        exact ⟨t, mem_tensors_iff.1 ht, hmade⟩
      ordered := ⟨referenced, others, hsplit, hreferenced, hothers, hwhole⟩
      known := fun i hi x hx => by
        obtain ⟨t, ht, hname⟩ := exists_tensor_of_name h hi hx
        exact ⟨t, mem_tensors_iff.1 ht, hname, hcomplete t (mem_tensors_iff.1 ht)⟩
      found := fun x a => Plan.get?_eq_some_iff (plan_indexed hplan) honce }

end Program

/-! ## A tensor that nothing refers to -/

namespace Sample

def sparedDraft : Draft :=
  ((Draft.empty.addNodes
    [.tensor ⟨⟨4⟩, output⟩, .block ⟨2⟩ source, .block ⟨3⟩ sink]).1.addEdges
      [⟨.block ⟨2⟩ source, .block ⟨3⟩ sink⟩]).1.connect.1

/-- A tile is handed over beside a tensor that no instruction refers to. -/
def spared : Program :=
  .graph
    { nodes := [.tensor ⟨⟨4⟩, output⟩, .block ⟨2⟩ source, .block ⟨3⟩ sink]
      edges := [⟨⟨2⟩, ⟨3⟩⟩]
      order := [0, 1, 2] }

theorem spared_built : spared.Built := by
  refine (Graph.built_iff _).2
    ⟨⟨sparedDraft, ((Draft.Reachable.empty.addNodes _).addEdges _).connect, rfl⟩, fun n hn => ?_,
      by decide⟩
  simp only [List.mem_cons, List.not_mem_nil, or_false] at hn
  rcases hn with rfl | rfl | rfl
  · trivial
  · exact source_built
  · exact sink_built

/-- The walk meets the tensor first, the plan has it last. -/
def sparedPlan : Plan :=
  planOf [slot input 0 0 2, slot staged 0 1 5, slot first 0 4 5, slot output 16 0 5]

theorem spared_plan : spared.plan {} = .ok sparedPlan := by decide +kernel

end Sample

theorem Program.plan_covers_spared :
    Sample.spared.Built ∧ Sample.spared.plan {} = .ok Sample.sparedPlan ∧
    Sample.sparedPlan.Covers Sample.spared ∧
    (Sample.spared.code.flatMap Instruction.names).eraseDups = ["in", "a", "x"] ∧
    (Sample.spared.tensors.map Tensor.name).eraseDups = ["out", "in", "a", "x"] :=
  ⟨Sample.spared_built, Sample.spared_plan, plan_covers Sample.spared_built Sample.spared_plan,
    by decide +kernel, by decide +kernel⟩

end TileNest
