import Mathlib.Logic.Relation
import TileNest.Proofs.Construction
import TileNest.Proofs.Placement

/-
  When two tensors may share bytes. The analysis of conflicts is compared with paths in the graphs
  of a hierarchy: what the rows of `Reach.below` hold is reached by a path
  (`Reach.path_of_reaches`), so two tensors without a conflict are ordered by every graph that refers
  to both (`Graph.ordered_of_not_conflicting`), and the conflicts of every graph, however deep, are among
  those of the program (`Program.mem_pairs`).

  The analysis looks the ends of edges and the ordered nodes up by their identities. Identities of a
  built graph are all different, so its index is exact (`Graph.index_exact`), the successors are
  those of its edges (`Graph.mem_successors`), and the sequence of positions that is swept is the
  order of the graph (`Graph.sequence_eq`).

  Together with the packing this gives `Program.shares_only_when_ordered`. Paths are found, not
  denied: that the table of `Reach.below` is complete needs an order that respects the edges and is
  not used here.
-/

namespace TileNest

/-! ## Paths -/

namespace Reach

variable {successors : Nat → List Nat}

/-- Every node of the table's rows is reached by a path. -/
def Sound (successors : Nat → List Nat) (table : Below) : Prop :=
  ∀ source target, reaches table source target = true →
    Relation.TransGen (fun i j => j ∈ successors i) source target

theorem reaches_nil (source target : Nat) : reaches [] source target = false :=
  Nat.zero_testBit target

/-- A row joined with those of successors holds what it held, the successors, and what lies below
    these. -/
theorem testBit_foldl (table : Below) (nexts : List Nat) (row target : Nat) :
    (nexts.foldl (fun row next => row ||| (1 <<< next ||| table.row next)) row).testBit target =
      true ↔ row.testBit target = true ∨
        ∃ next ∈ nexts, target = next ∨ reaches table next target = true := by
  induction nexts generalizing row with
  | nil => simp
  | cons next nexts ih =>
    have hbit : (1 <<< next).testBit target = true ↔ target = next := by
      rw [Nat.one_shiftLeft, Nat.testBit_two_pow, decide_eq_true_iff, eq_comm]
    rw [List.foldl_cons, ih, Nat.testBit_or, Nat.testBit_or, Bool.or_eq_true, Bool.or_eq_true, hbit,
      or_assoc, List.exists_mem_cons_iff]
    rfl

theorem reaches_extend_self {table : Below} {node target : Nat} :
    reaches (extend successors node table) node target = true ↔
      ∃ next ∈ successors node, target = next ∨ reaches table next target = true := by
  rw [reaches, extend, Below.row, List.lookup_cons_self, Option.getD_some, testBit_foldl,
    Nat.zero_testBit]
  simp

theorem reaches_extend_of_ne {table : Below} {node source : Nat} (h : source ≠ node)
    (target : Nat) :
    reaches (extend successors node table) source target = reaches table source target := by
  rw [reaches, extend, Below.row, Lists.lookup_cons_of_ne h]
  rfl

theorem Sound.extend {table : Below} (h : Sound successors table) (node : Nat) :
    Sound successors (extend successors node table) := by
  intro source target ht
  by_cases hs : source = node
  · subst hs
    obtain ⟨next, hn, ht⟩ := reaches_extend_self.1 ht
    have hedge : Relation.TransGen (fun i j => j ∈ successors i) source next := .single hn
    rcases ht with rfl | ht
    · exact hedge
    · exact hedge.trans (h next target ht)
  · rw [reaches_extend_of_ne hs] at ht
    exact h source target ht

theorem path_of_reaches {order : List Nat} : Sound successors (below successors order) := by
  unfold below
  induction order with
  | nil =>
    intro source target ht
    rw [List.foldr_nil, reaches_nil] at ht
    cases ht
  | cons node order ih => exact ih.extend node

end Reach

/-! ## Nodes by their identities -/

namespace Graph

variable {g : Graph}

/-- Some edge leads from the node at position `i` to the node at position `j`. -/
def Joins (g : Graph) (i j : Nat) : Prop := ∃ e ∈ g.edges, e.Joins g.nodes i j

/-- A path of at least one edge. -/
def Path (g : Graph) : Nat → Nat → Prop := Relation.TransGen g.Joins

section

variable (hn : (g.nodes.map Node.id).Nodup)

include hn

theorem index_exact : g.index.Indexes (g.nodes.map Node.id) :=
  KeyMap.indexes_foldl Node.id KeyMap.indexes_nil hn

theorem get?_index {id : NodeId} {i : Nat} :
    g.index.get? id = some i ↔ g.nodes[i]?.map Node.id = some id := by
  rw [index_exact hn, List.getElem?_map]

theorem mem_arrows_iff {i j : Nat} : ⟨i, j⟩ ∈ g.arrows ↔ g.Joins i j := by
  unfold arrows
  rw [List.mem_filterMap]
  refine exists_congr fun e => and_congr_right fun _ => ?_
  rw [Edge.Joins, ← get?_index hn, ← get?_index hn]
  cases g.index.get? e.source with
  | none => simp
  | some source =>
    cases g.index.get? e.target with
    | none => simp
    | some target => simp

theorem mem_successors {i j : Nat} : j ∈ Reach.listed g.successors i ↔ g.Joins i j := by
  rw [← mem_arrows_iff hn]
  by_cases hi : i < g.nodes.length
  · exact Order.mem_successors_iff hi
  · have hnone : g.nodes[i]? = none := List.getElem?_eq_none (Nat.le_of_not_lt hi)
    have hlist : g.successors[i]? = none := by
      rw [successors, Order.getElem?_successors, if_neg hi]
    rw [mem_arrows_iff hn, Reach.listed, List.getD_eq_getElem?_getD, hlist, Option.getD_none]
    constructor
    · exact fun hj => absurd hj List.not_mem_nil
    · rintro ⟨e, -, hsource, -⟩
      rw [hnone] at hsource
      cases hsource

/-- Looking the ordered nodes up by their identities gives the order. -/
theorem sequence_eq (ho : ∀ i ∈ g.order, i < g.nodes.length) : g.sequence = g.order := by
  unfold sequence ordered inOrder
  have hself : ∀ i ∈ g.order, (g.nodes[i]?.bind fun n => g.index.get? n.id) = some i := by
    intro i hi
    have hget := List.getElem?_eq_getElem (ho i hi)
    rw [hget, Option.bind_some, get?_index hn, hget, Option.map_some]
  rw [List.filterMap_filterMap, List.filterMap_congr hself, List.filterMap_some]

end

theorem Built.ids (h : g.Built) : (g.nodes.map Node.id).Nodup := by
  obtain ⟨d, r, hd⟩ := (g.built_iff.1 h).1
  exact r.graph_ids hd

theorem Built.sequence_eq (h : g.Built) : g.sequence = g.order :=
  Graph.sequence_eq h.ids fun _ hi => List.mem_range.1 (h.order_perm.mem_iff.1 hi)

/-- The findings inside the nodes, in the order to run these. -/
theorem Built.interference_eq (h : g.Built) (start last : Nat) (stored : List String) :
    g.interference start last stored = g.ownInterference last stored ++
      Interference.inSequence start (g.ordered.map fun n => (n.steps, n.interference)) := by
  rw [Graph.interference_eq, h.sequence_eq]
  rfl

end Graph

/-! ## References of a graph -/

/-- The node refers to the tensor: it is the tensor's node, an operation on it, or a block with the
    tensor in its hierarchy. -/
def Node.RefersTo (name : String) : Node → Prop
  | .tensor n => n.name = name
  | .compute _ op => ∃ operand ∈ op.operands, operand.name = name
  | .block _ b => ∃ t ∈ b.visits.flatMap Visit.tensors, t.name = name

/-- Whether references of the node lie inside a block. -/
def Node.isBlock (n : Node) : Bool := n.block?.isSome

theorem Node.mem_sites {n : Node} {name : String} (h : n.RefersTo name) (position : Nat) :
    (name, ⟨position, n.isBlock⟩) ∈ n.sites position := by
  cases n with
  | tensor n => exact List.mem_singleton.2 (by rw [← h]; rfl)
  | compute id op =>
    obtain ⟨operand, ho, rfl⟩ := h
    exact List.mem_map_of_mem ho
  | block id b =>
    obtain ⟨t, ht, rfl⟩ := h
    exact List.mem_map_of_mem ht

namespace Graph

/-- Some node of the graph refers to the tensor. -/
def RefersTo (g : Graph) (name : String) : Prop := ∃ n ∈ g.nodes, n.RefersTo name

/-- Every node that refers to `a` has a path to every node that refers to `b`. Two references
    inside one and the same block are for the graphs of that block to order. -/
def Orders (g : Graph) (a b : String) : Prop :=
  ∀ i j m n, g.nodes[i]? = some m → g.nodes[j]? = some n → m.RefersTo a → n.RefersTo b →
    i = j ∧ m.isBlock = true ∨ g.Path i j

/-- The conflicts of the graph itself. -/
def conflicting (g : Graph) : List (String × String) := unordered g.reach g.references

theorem path_of_reaches {g : Graph} (h : g.Built) {i j : Nat}
    (hr : Reach.reaches g.reach i j = true) : g.Path i j :=
  Relation.TransGen.mono (fun _ _ => (mem_successors h.ids).1) _ _ (Reach.path_of_reaches i j hr)

/-- The references to a tensor. -/
def sitesOf (g : Graph) (name : String) : List Site :=
  ((g.sites.filter (·.1 == name)).map Prod.snd).eraseDups

theorem mem_sitesOf {g : Graph} {i : Nat} {n : Node} {name : String} (hi : g.nodes[i]? = some n)
    (h : n.RefersTo name) : ⟨i, n.isBlock⟩ ∈ g.sitesOf name := by
  have hsites : (name, ⟨i, n.isBlock⟩) ∈ g.sites := by
    unfold sites
    refine List.mem_flatten.2 ⟨n.sites i, ?_, n.mem_sites h i⟩
    exact List.mem_of_getElem? (by rw [List.getElem?_mapIdx, hi]; rfl)
  unfold sitesOf
  rw [List.mem_eraseDups, List.mem_map]
  exact ⟨_, List.mem_filter.2 ⟨hsites, beq_self_eq_true name⟩, rfl⟩

theorem mem_references {g : Graph} {name : String} (h : g.RefersTo name) :
    (name, g.sitesOf name) ∈ g.references := by
  obtain ⟨n, hn, hr⟩ := h
  obtain ⟨i, hi⟩ := List.getElem?_of_mem hn
  have hm := mem_sitesOf hi hr
  unfold sitesOf at hm
  rw [List.mem_eraseDups, List.mem_map] at hm
  obtain ⟨⟨other, site⟩, hs, -⟩ := hm
  obtain ⟨hs, ho⟩ := List.mem_filter.1 hs
  rw [beq_iff_eq] at ho
  refine List.mem_map.2 ⟨name, List.mem_eraseDups.2 (List.mem_map.2 ⟨_, hs, ho⟩), rfl⟩

/-- Where the analysis finds one tensor before another, paths lead from the one to the other. -/
theorem orders_of_precedes {g : Graph} (h : g.Built) {a b : String}
    (hp : precedes g.reach (g.sitesOf a) (g.sitesOf b) = true) : g.Orders a b := by
  intro i j m n hi hj ha hb
  unfold precedes at hp
  have hfirst := List.all_eq_true.1 hp _ (mem_sitesOf hi ha)
  have hpair := List.all_eq_true.1 hfirst _ (mem_sitesOf hj hb)
  simp only [Bool.or_eq_true, Bool.and_eq_true, beq_iff_eq] at hpair
  rcases hpair with ⟨⟨hij, hm⟩, -⟩ | hr
  · exact .inl ⟨hij, hm⟩
  · exact .inr (path_of_reaches h hr)

/-- Two tensors in neither order are listed as a pair, in one of its two forms. -/
theorem mem_unordered {below : Reach.Below} {refs : List (String × List Site)} {a b : String}
    {first second : List Site} (ha : (a, first) ∈ refs) (hb : (b, second) ∈ refs) (hne : a ≠ b)
    (hab : precedes below first second = false) (hba : precedes below second first = false) :
    (a, b) ∈ unordered below refs ∨ (b, a) ∈ unordered below refs := by
  induction refs with
  | nil => cases ha
  | cons ref refs ih =>
    unfold unordered
    rw [List.mem_append, List.mem_append, List.mem_map, List.mem_map]
    rcases List.mem_cons.1 ha with rfl | ha'
    · rcases List.mem_cons.1 hb with e | hb'
      · exact absurd (congrArg Prod.fst e).symm hne
      · exact .inl (.inl ⟨(b, second), List.mem_filter.2 ⟨hb', by simp [hab, hba]⟩, rfl⟩)
    · rcases List.mem_cons.1 hb with rfl | hb'
      · exact .inr (.inl ⟨(a, first), List.mem_filter.2 ⟨ha', by simp [hab, hba]⟩, rfl⟩)
      · exact (ih ha' hb').imp .inr .inr

/-- A graph that refers to two tensors and does not list them as a conflict orders them. -/
theorem ordered_of_not_conflicting {g : Graph} (h : g.Built) {a b : String} (hne : a ≠ b)
    (ha : g.RefersTo a) (hb : g.RefersTo b) (hab : (a, b) ∉ g.conflicting)
    (hba : (b, a) ∉ g.conflicting) :
    g.Orders a b ∨ g.Orders b a := by
  by_contra hno
  rw [not_or] at hno
  have hfirst := Bool.eq_false_iff.2 fun hp => hno.1 (orders_of_precedes h hp)
  have hsecond := Bool.eq_false_iff.2 fun hp => hno.2 (orders_of_precedes h hp)
  rcases mem_unordered (mem_references ha) (mem_references hb) hne hfirst hsecond with hm | hm
  · exact hab hm
  · exact hba hm

end Graph

/-! ## All graphs of a hierarchy -/

/-- The graph around which the visited block runs its loops. -/
def Visit.body? : Visit → Option Graph
  | .block b => some b.body
  | _ => none

/-- The graphs of the hierarchy: the outermost one and the body of every block. -/
def Program.graphs : Program → List Graph
  | .graph g => g :: g.visits.filterMap Visit.body?
  | .block b => b.visits.filterMap Visit.body?

theorem Visit.body?_eq_some {v : Visit} {g : Graph} :
    v.body? = some g ↔ ∃ b, v = .block b ∧ b.body = g := by
  cases v <;> simp [Visit.body?]

theorem Visit.mem_bodies {visits : List Visit} {g : Graph} :
    g ∈ visits.filterMap Visit.body? ↔ ∃ b, .block b ∈ visits ∧ b.body = g := by
  simp only [List.mem_filterMap, Visit.body?_eq_some]
  constructor
  · rintro ⟨v, hv, b, rfl, hb⟩
    exact ⟨b, hv, hb⟩
  · rintro ⟨b, hv, hb⟩
    exact ⟨.block b, hv, b, rfl, hb⟩

theorem Program.mem_graphs {p : Program} {g : Graph} :
    g ∈ p.graphs ↔ p = .graph g ∨ ∃ b, .block b ∈ p.visits ∧ b.body = g := by
  cases p with
  | graph root =>
    show g ∈ root :: root.visits.filterMap Visit.body? ↔ _
    rw [List.mem_cons, Visit.mem_bodies, Program.graph.injEq, eq_comm]
    rfl
  | block c =>
    show g ∈ c.visits.filterMap Visit.body? ↔ _
    rw [Visit.mem_bodies]
    exact ⟨.inr, fun h => h.resolve_left (by simp)⟩

theorem Block.block_mem_visits {b c : Block} :
    .block b ∈ c.visits ↔ b = c ∨ .block b ∈ c.body.visits := by
  rw [Block.visits_eq]
  simp

theorem Graph.block_mem_visits {g : Graph} {b : Block} :
    .block b ∈ g.visits ↔ ∃ n ∈ g.nodes, .block b ∈ n.inside := by
  rw [Graph.visits_eq]
  simp

namespace Interference

theorem pairs_append (i j : Interference) : (i ++ j).pairs = i.pairs ++ j.pairs := rfl

/-- A conflict of one part, wherever the part starts, is a conflict of the sequence. -/
theorem mem_pairs_inSequence {parts : List (Nat × (Nat → Interference))} {steps : Nat}
    {part : Nat → Interference} (hm : (steps, part) ∈ parts) {pair : String × String}
    (h : ∀ start, pair ∈ (part start).pairs) (start : Nat) :
    pair ∈ (inSequence start parts).pairs := by
  induction parts generalizing start with
  | nil => cases hm
  | cons head parts ih =>
    unfold inSequence
    rw [pairs_append, List.mem_append]
    rcases List.mem_cons.1 hm with rfl | hm
    · exact .inl (h start)
    · exact .inr (ih hm (start + head.1))

end Interference

namespace Hierarchy

/-- The blocks of a built hierarchy are built. -/
theorem blocks_built : Closed
    (fun n => n.Built → ∀ b, .block b ∈ n.inside → b.Built)
    (fun c => c.Built → ∀ b, .block b ∈ c.visits → b.Built)
    (fun g => g.Built → ∀ b, .block b ∈ g.visits → b.Built) where
  tensor n _ b hb := by simp [Node.inside] at hb
  compute id op _ b hb := by simp [Node.inside] at hb
  block id c ih := ih
  nest c ih h b hb := by
    rcases Block.block_mem_visits.1 hb with rfl | hb
    · exact h
    · exact ih h.body_built b hb
  graph g ih h b hb := by
    obtain ⟨n, hn, hb⟩ := Graph.block_mem_visits.1 hb
    exact ih n hn (h.node hn) b hb

/-- The conflicts of the bodies of all blocks are among the findings. -/
theorem conflicts_found : Closed
    (fun n => n.Built → ∀ b, .block b ∈ n.inside → ∀ pair ∈ b.body.conflicting,
      ∀ start, pair ∈ (n.interference start).pairs)
    (fun c => c.Built → ∀ b, .block b ∈ c.visits → ∀ pair ∈ b.body.conflicting,
      ∀ start, pair ∈ (c.interference start).pairs)
    (fun g => g.Built → ∀ b, .block b ∈ g.visits → ∀ pair ∈ b.body.conflicting,
      ∀ start last stored, pair ∈ (g.interference start last stored).pairs) where
  tensor n _ b hb := by simp [Node.inside] at hb
  compute id op _ b hb := by simp [Node.inside] at hb
  block id c ih := ih
  nest c ih h b hb pair hp start := by
    rw [Block.interference_eq]
    rcases Block.block_mem_visits.1 hb with rfl | hb
    · rw [Graph.interference_eq, Interference.pairs_append]
      exact List.mem_append_left _ hp
    · exact ih h.body_built b hb pair hp _ _ _
  graph g ih h b hb pair hp start last stored := by
    obtain ⟨n, hn, hb⟩ := Graph.block_mem_visits.1 hb
    have hpart : (n.steps, n.interference) ∈ g.ordered.map fun n => (n.steps, n.interference) :=
      List.mem_map_of_mem (h.mem_ordered.2 hn)
    rw [h.interference_eq, Interference.pairs_append]
    refine List.mem_append_right _ (Interference.mem_pairs_inSequence hpart (fun start => ?_) start)
    exact ih n hn (h.node hn) b hb pair hp start

end Hierarchy

namespace Program

theorem Built.graph {p : Program} (h : p.Built) {g : Graph} (hg : g ∈ p.graphs) : g.Built := by
  rcases mem_graphs.1 hg with rfl | ⟨b, hb, rfl⟩
  · exact h
  · cases p with
    | graph root => exact (Hierarchy.blocks_built.onGraph root h b hb).body_built
    | block c => exact (Hierarchy.blocks_built.onBlock c h b hb).body_built

/-- A conflict of any graph of the hierarchy is one of the program. -/
theorem mem_pairs {p : Program} (h : p.Built) {g : Graph} (hg : g ∈ p.graphs)
    {pair : String × String} (hp : pair ∈ g.conflicting) : pair ∈ p.interference.pairs := by
  rcases mem_graphs.1 hg with rfl | ⟨b, hb, rfl⟩
  · show pair ∈ (g.interference _ _ _).pairs
    rw [Graph.interference_eq, Interference.pairs_append]
    exact List.mem_append_left _ hp
  · cases p with
    | graph root => exact Hierarchy.conflicts_found.onGraph root h b hb pair hp _ _ _
    | block c => exact Hierarchy.conflicts_found.onBlock c h b hb pair hp _

/-- Tensors without a conflict are ordered by every graph that refers to both. -/
theorem orders_of_quiet {p : Program} (h : p.Built) {a b : String} (hne : a ≠ b)
    (hq : p.interference.conflicts a b = false) {g : Graph} (hg : g ∈ p.graphs)
    (ha : g.RefersTo a) (hb : g.RefersTo b) : g.Orders a b ∨ g.Orders b a := by
  unfold Interference.conflicts at hq
  rw [Bool.or_eq_false_iff, ← Bool.not_eq_true, ← Bool.not_eq_true, List.contains_iff_mem,
    List.contains_iff_mem] at hq
  exact Graph.ordered_of_not_conflicting (h.graph hg) hne ha hb (fun hc => hq.1 (mem_pairs h hg hc))
    (fun hc => hq.2 (mem_pairs h hg hc))

/-- Two tensors of one tier of a plan have bytes in common only outside of global memory, where
    slots are reused, the live ranges are apart, and every graph of the hierarchy that refers to
    both runs all of the one's nodes before all of the other's. -/
theorem shares_only_when_ordered {p : Program} (h : p.Built) {options : PlanOptions} {plan : Plan}
    (hp : p.plan options = .ok plan) {a b : Allocation} (ha : a ∈ plan.allocations)
    (hb : b ∈ plan.allocations) (hne : a.name ≠ b.name) (ht : a.tier = b.tier)
    (hs : a.Shares b) :
    a.tier ≠ .global ∧ options.reuseSlots = true ∧ a.live.overlaps b.live = false ∧
      ∀ g ∈ p.graphs, g.RefersTo a.name → g.RefersTo b.name →
        g.Orders a.name b.name ∨ g.Orders b.name a.name := by
  obtain ⟨table, ranges, -, -, rfl⟩ := plan_eq_ok hp
  have hpermit := Plan.pack_permits ha hb (fun e => hne (congrArg Allocation.name e)) ht hs
  refine ⟨hpermit.tier, hpermit.reuse, hpermit.apart, fun g hg hga hgb => ?_⟩
  exact orders_of_quiet h hne hpermit.quiet hg hga hgb

theorem shares_only_when_ordered_kernel :
    Sample.kernel.Built ∧ Sample.kernel.plan {} = .ok Sample.placed ∧
      (Sample.slot Sample.first 0 3 4).Shares (Sample.slot Sample.third 0 5 6) ∧
      Sample.inner.body ∈ Sample.kernel.graphs ∧
      (Sample.inner.body.Orders "x" "z" ∨ Sample.inner.body.Orders "z" "x") := by
  have hshares : (Sample.slot Sample.first 0 3 4).Shares (Sample.slot Sample.third 0 5 6) :=
    ⟨0, by unfold Allocation.Holds; decide, by unfold Allocation.Holds; decide⟩
  have hbody : Sample.inner.body ∈ Sample.kernel.graphs := .tail _ (.head _)
  have hx : Sample.inner.body.RefersTo "x" := ⟨.tensor Sample.x, .head _, rfl⟩
  have hz : Sample.inner.body.RefersTo "z" := ⟨.tensor Sample.z, .tail _ (.tail _ (.head _)), rfl⟩
  obtain ⟨-, -, -, horder⟩ := shares_only_when_ordered Sample.kernel_built Sample.kernel_plan
    (.tail _ (.tail _ (.head _))) (.tail _ (.tail _ (.tail _ (.tail _ (.head _))))) (by decide) rfl
    hshares
  exact ⟨Sample.kernel_built, Sample.kernel_plan, hshares, hbody, horder _ hbody hx hz⟩

end Program

end TileNest
