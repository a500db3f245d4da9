import TileNest.Proofs.Renaming
import TileNest.Proofs.Sharing

/-
  Of the edges of a graph only the set counts. Main result: `Draft.only_edge_set_matters`. Two
  drafts of the same nodes and the same links, added in whatever order and however often, connect
  alike, in the same order, and then have the same schedule and the same plans.

  The lists of edges enter in two places. The loop that orders the nodes counts them: with an edge
  added again its counters start higher and its lists of successors are longer, and with edges in
  another order positions become ready in another one. Still it takes the same positions and holds
  up the same ones, because it takes the least position to which no edge leads from a waiting one
  (`Order.sort_congr`). The analysis of conflicts joins the rows of the successors of a node, which
  as sets are the same (`Reach.below_congr`). What may differ is the report about a link between
  tiers, which names the first such link that was added.
-/

namespace TileNest

/-! ## Order -/

namespace Order

variable {arrows others : List Arrow} (h : ∀ a, a ∈ arrows ↔ a ∈ others)

include h

theorem ready_congr (waiting : List Nat) : ready arrows waiting = ready others waiting := by
  funext position
  rw [Bool.eq_iff_iff, ready_iff, ready_iff]
  exact forall_congr' fun a => imp_congr_left (h a)

theorem takeReady_congr (steps : Nat) (waiting : List Nat) :
    takeReady arrows steps waiting = takeReady others steps waiting := by
  induction steps generalizing waiting with
  | zero => rfl
  | succ steps ih => simp only [takeReady, ready_congr h, ih]

/-- The loop takes the same positions and leaves the same ones with counters above zero, whatever
    its counters and its lists of successors are. -/
theorem sort_congr {count : Nat} (hends : ∀ a ∈ arrows, a.source < count ∧ a.target < count) :
    (sort count arrows).taken = (sort count others).taken ∧
      (sort count arrows).held = (sort count others).held := by
  have hothers : ∀ a ∈ others, a.source < count ∧ a.target < count :=
    fun a ha => hends a ((h a).2 ha)
  have hleast : leastFirst count arrows = leastFirst count others := takeReady_congr h count _
  obtain ⟨htaken, hheld, -⟩ := sort_eq hends
  obtain ⟨htaken', hheld', -⟩ := sort_eq hothers
  exact ⟨by rw [htaken, htaken', hleast], by rw [hheld, hheld', hleast]⟩

end Order

/-! ## Reachability -/

namespace Reach

variable {successors others : Nat → List Nat}

/-- Rows joined from the same set of successors are the same number. -/
theorem extend_congr (h : ∀ i j, j ∈ successors i ↔ j ∈ others i) :
    extend successors = extend others := by
  funext node table
  have hrow : ∀ target, ((successors node).foldl
      (fun row next => row ||| (1 <<< next ||| table.row next)) 0).testBit target =
      ((others node).foldl
        (fun row next => row ||| (1 <<< next ||| table.row next)) 0).testBit target := by
    intro target
    rw [Bool.eq_iff_iff, testBit_foldl, testBit_foldl]
    exact or_congr_right (exists_congr fun next => and_congr_left fun _ => h node next)
  rw [extend, extend, Nat.eq_of_testBit_eq hrow]

theorem below_congr (h : ∀ i j, j ∈ successors i ↔ j ∈ others i) :
    below successors = below others := by
  unfold below
  rw [extend_congr h]

end Reach

/-! ## Graphs -/

namespace Graph

/-- The same nodes in the same order to run them, and the same edges, whatever their order and
    however often each of them stands in its list. -/
structure Alike (g k : Graph) : Prop where
  nodes : g.nodes = k.nodes
  order : g.order = k.order
  edges : ∀ e, e ∈ g.edges ↔ e ∈ k.edges

namespace Alike

variable {g k : Graph} (h : g.Alike k)

include h

theorem ordered : g.ordered = k.ordered := by
  unfold Graph.ordered inOrder
  rw [h.nodes, h.order]

theorem code : g.code = k.code := by
  rw [code_eq, code_eq, h.ordered]

theorem visits : g.visits = k.visits := by
  rw [visits_eq, visits_eq, h.nodes]

theorem steps : g.steps = k.steps := by
  rw [steps_eq, steps_eq, h.nodes]

theorem index : g.index = k.index := by
  unfold Graph.index
  rw [h.nodes]

theorem mem_arrows (a : Arrow) : a ∈ g.arrows ↔ a ∈ k.arrows := by
  unfold arrows
  rw [h.index, List.mem_filterMap, List.mem_filterMap]
  exact exists_congr fun e => and_congr_left fun _ => h.edges e

theorem mem_successors (i j : Nat) :
    j ∈ Reach.listed g.successors i ↔ j ∈ Reach.listed k.successors i := by
  unfold Reach.listed successors
  rw [h.nodes, List.getD_eq_getElem?_getD, List.getD_eq_getElem?_getD, Order.getElem?_successors,
    Order.getElem?_successors]
  split
  · simp only [Option.getD_some, List.mem_map, List.mem_filter, h.mem_arrows]
  · rfl

/-- A node without successors in the one graph has none in the other. -/
theorem isEmpty_successors (i : Nat) :
    (Reach.listed g.successors i).isEmpty = (Reach.listed k.successors i).isEmpty := by
  rw [Bool.eq_iff_iff, List.isEmpty_iff, List.isEmpty_iff, List.eq_nil_iff_forall_not_mem,
    List.eq_nil_iff_forall_not_mem]
  exact forall_congr' fun j => not_congr (h.mem_successors i j)

theorem sequence : g.sequence = k.sequence := by
  unfold Graph.sequence
  rw [h.ordered, h.index]

theorem reach : g.reach = k.reach := by
  unfold Graph.reach
  rw [h.sequence, Reach.below_congr h.mem_successors]

theorem references : g.references = k.references := by
  unfold Graph.references sites
  rw [h.nodes]

theorem outputs (stored : List String) : g.outputs stored = k.outputs stored := by
  unfold Graph.outputs
  simp only [h.nodes, h.isEmpty_successors]

theorem interference (start last : Nat) (stored : List String) :
    g.interference start last stored = k.interference start last stored := by
  have hown : g.ownInterference last stored = k.ownInterference last stored := by
    unfold ownInterference
    rw [h.reach, h.references, h.outputs]
  rw [interference_eq, interference_eq, hown, h.sequence, h.nodes]

theorem plan (options : PlanOptions) :
    (Program.graph g).plan options = (Program.graph k).plan options := by
  refine Program.plan_congr (p := .graph g) (q := .graph k) ?_ h.code ?_ options
  · show g.visits.flatMap Visit.tensors = k.visits.flatMap Visit.tensors
    rw [h.visits]
  · show g.interference 0 (g.steps - 1) [] = k.interference 0 (k.steps - 1) []
    rw [h.steps, h.interference]

end Alike

end Graph

/-! ## Drafts -/

namespace Draft

/-- Drafts of the same nodes and the same links, whatever the order of the links and however often
    each was added. -/
structure Alike (d e : Draft) : Prop where
  left : d.Reachable
  right : e.Reachable
  nodes : d.nodes = e.nodes
  links : ∀ l, l ∈ d.links ↔ l ∈ e.links

namespace Alike

variable {d e : Draft} (h : d.Alike e)

include h

theorem symm : e.Alike d := ⟨h.right, h.left, h.nodes.symm, fun l => (h.links l).symm⟩

/-- Both indexes are exact, so they hold the same. -/
theorem index (id : NodeId) : d.index.get? id = e.index.get? id := by
  refine Option.ext fun i => ?_
  rw [h.left.wellFormed.index_iff, h.right.wellFormed.index_iff, h.nodes]

theorem mem_arrows (a : Arrow) : a ∈ d.arrows ↔ a ∈ e.arrows := by
  rw [mem_arrows_iff, mem_arrows_iff]
  refine exists_congr fun l => ?_
  rw [arrow_eq_ok_iff, arrow_eq_ok_iff, h.index, h.index, h.links]

theorem linked (id : NodeId) (operand : TensorNode) :
    d.linked id operand = e.linked id operand := by
  have hany : ∀ p, d.links.any p = e.links.any p := by
    intro p
    rw [Bool.eq_iff_iff, List.any_eq_true, List.any_eq_true]
    exact exists_congr fun l => and_congr_left fun _ => h.links l
  unfold Draft.linked KeyMap.contains
  rw [h.index, hany]

theorem unlinked? : d.unlinked? = e.unlinked? := by
  unfold Draft.unlinked?
  simp only [h.nodes, h.linked]

/-- Without a link between tiers the order or the fault is the same. -/
theorem findOrder_of_oneTier (hd : d.links.findSome? Link.tierClash? = none) :
    d.findOrder = e.findOrder := by
  have he : e.links.findSome? Link.tierClash? = none := by
    rw [List.findSome?_eq_none_iff] at hd ⊢
    exact fun l hl => hd l ((h.links l).2 hl)
  obtain ⟨htaken, hheld⟩ := Order.sort_congr h.mem_arrows h.left.wellFormed.arrows_lt
  unfold findOrder labels
  rw [hd, he, h.unlinked?, h.left.wellFormed.mapM_arrow, h.right.wellFormed.mapM_arrow]
  dsimp only
  rw [htaken, hheld, h.nodes]

/-- A link between tiers is reported in both, though not always the same one. -/
theorem findOrder :
    d.findOrder = e.findOrder ∨ ∃ a b x y : Tensor,
      d.findOrder = .error (.tierMismatch a.name a.tier b.name b.tier) ∧
      e.findOrder = .error (.tierMismatch x.name x.tier y.name y.tier) := by
  cases hd : d.links.findSome? Link.tierClash? with
  | none => exact .inl (h.findOrder_of_oneTier hd)
  | some clash =>
    cases he : e.links.findSome? Link.tierClash? with
    | none => exact .inl (h.symm.findOrder_of_oneTier he).symm
    | some other =>
      refine .inr ⟨clash.1, clash.2, other.1, other.2, ?_, ?_⟩
      · rw [Draft.findOrder, hd]
      · rw [Draft.findOrder, he]

/-- In whatever order both are run, the graphs are alike. -/
theorem graph (order : List Nat) : Graph.Alike ⟨d.nodes, d.links.map Link.edge, order⟩
    ⟨e.nodes, e.links.map Link.edge, order⟩ where
  nodes := h.nodes
  order := rfl
  edges edge := by
    rw [List.mem_map, List.mem_map]
    exact exists_congr fun l => and_congr_left fun _ => h.links l

end Alike

/-- Drafts of the same nodes and the same links connect alike, whatever the order in which the
    links were added and however often. Where they connect, their orders, their schedules and
    their plans or the faults of planning are the same. Where they do not, they report the same
    fault, unless links join tiers: then each reports the first of those links that it has. -/
theorem only_edge_set_matters {d e : Draft} (hd : d.Reachable) (he : e.Reachable)
    (hn : d.nodes = e.nodes) (hl : ∀ l, l ∈ d.links ↔ l ∈ e.links) :
    (d.connect.2 = none ↔ e.connect.2 = none) ∧
    (d.connect.2 = none →
      (∃ order, d.connect.1.order = some order ∧ e.connect.1.order = some order) ∧
      (∃ code, (Target.graph d.connect.1).schedule = .ok code ∧
        (Target.graph e.connect.1).schedule = .ok code) ∧
      ∀ options, (Target.graph d.connect.1).plan options =
        (Target.graph e.connect.1).plan options) ∧
    (d.connect.2 = e.connect.2 ∨ ∃ a b x y : Tensor,
      d.connect.2 = some (.tierMismatch a.name a.tier b.name b.tier) ∧
      e.connect.2 = some (.tierMismatch x.name x.tier y.name y.tier)) := by
  have h : d.Alike e := ⟨hd, he, hn, hl⟩
  rcases h.findOrder with hsame | ⟨a, b, x, y, hclash, hother⟩
  · cases hf : d.findOrder with
    | error fault =>
      rw [connect_of_error hf, connect_of_error (hsame.symm.trans hf)]
      exact ⟨Iff.rfl, fun hnone => (by cases hnone), .inl rfl⟩
    | ok order =>
      rw [connect_of_ok hf, connect_of_ok (hsame.symm.trans hf)]
      refine ⟨Iff.rfl, fun _ => ⟨⟨order, rfl, rfl⟩, ⟨_, rfl, ?_⟩, (h.graph order).plan⟩, .inl rfl⟩
      exact congrArg Except.ok (h.graph order).code.symm
  · rw [connect_of_error hclash, connect_of_error hother]
    exact ⟨by simp, fun hnone => (by cases hnone), .inr ⟨a, b, x, y, rfl, rfl⟩⟩

end Draft

namespace Sample

/-- The inner draft with its links added from the last to the first, two of them again. -/
def backward : Draft :=
  ((Draft.empty.addNodes [.tensor x, .tensor y, .tensor z, narrow, widen]).1.addEdges
    [⟨widen, .tensor z⟩, ⟨.tensor y, widen⟩, ⟨narrow, .tensor y⟩, ⟨.tensor x, narrow⟩,
      ⟨.tensor y, widen⟩, ⟨.tensor x, narrow⟩]).1

theorem backward_reachable : backward.Reachable := (Draft.Reachable.empty.addNodes _).addEdges _

end Sample

/-- The counters of both operations start at two where they started at one. -/
theorem Draft.only_edge_set_matters_backward :
    Order.inDegrees 5 Sample.innerDraft.arrows = [0, 1, 1, 1, 1] ∧
    Order.inDegrees 5 Sample.backward.arrows = [0, 1, 1, 2, 2] ∧
    Sample.backward.connect.2 = none ∧
    Sample.backward.connect.1.order = some [0, 3, 1, 4, 2] ∧
    (Target.graph Sample.backward.connect.1).plan {} =
      (Target.graph Sample.innerDraft.connect.1).plan {} := by
  have hlinks : ∀ l, l ∈ Sample.innerDraft.links ↔ l ∈ Sample.backward.links := by
    intro l
    show l ∈ [_, _, _, _] ↔ l ∈ [_, _, _, _, _, _]
    simp only [List.mem_cons, List.not_mem_nil, or_false]
    tauto
  have hnone : Sample.innerDraft.connect.2 = none := by decide +kernel
  have horder : Sample.innerDraft.connect.1.order = some [0, 3, 1, 4, 2] := by decide +kernel
  obtain ⟨hconnect, hsame, -⟩ := only_edge_set_matters Sample.innerDraft_reachable
    Sample.backward_reachable rfl hlinks
  obtain ⟨⟨order, hd, he⟩, -, hplan⟩ := hsame hnone
  exact ⟨by decide +kernel, by decide +kernel, hconnect.1 hnone,
    he.trans (hd.symm.trans horder), (hplan {}).symm⟩

end TileNest
