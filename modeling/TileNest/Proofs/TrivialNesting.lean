import TileNest.Proofs.Renaming
import TileNest.Proofs.ScanPositions

/-
  A graph around one block and a block without loops and movements around a graph add nothing.
  Main result: `Target.trivial_nesting`. Either has the schedule, the copiers and the plans of what
  it holds.

  Around a block, all references of the outer graph lie inside one node. Two of them need no path,
  so the graph finds no conflict of its own, and as its node is no tensor, it has no outputs either
  (`Graph.Holds.ownInterference_eq`). Around a graph, the block begins where the body does and ends
  with it (`Block.interference_bare`).
-/

namespace TileNest

/-- The two programs cannot be told apart by what is derived from them. -/
structure Program.Matches (p q : Program) : Prop where
  code : p.code = q.code
  tensors : p.tensors = q.tensors
  interference : p.interference = q.interference
  copiers : p.copiers = q.copiers

theorem Program.Matches.plan {p q : Program} (h : p.Matches q) (options : PlanOptions) :
    p.plan options = q.plan options :=
  plan_congr h.tensors h.code h.interference options

/-! ## A graph around one block -/

namespace Graph

/-- The block is all that the graph holds. -/
structure Holds (g : Graph) (id : NodeId) (b : Block) : Prop where
  nodes : g.nodes = [.block id b]
  order : g.order = [0]

/-- Where all references lie inside one node, every two tensors are in order. -/
theorem unordered_eq_nil (below : Reach.Below) {position : Nat}
    {references : List (String × List Site)}
    (h : ∀ r ∈ references, ∀ s ∈ r.2, s = ⟨position, true⟩) : unordered below references = [] := by
  induction references with
  | nil => rfl
  | cons r references ih =>
    obtain ⟨hr, hrest⟩ := List.forall_mem_cons.1 h
    have hprecedes : ∀ other ∈ references, precedes below r.2 other.2 = true := by
      intro other ho
      simp only [precedes, List.all_eq_true]
      intro a ha b hb
      simp [hr a ha, hrest other ho b hb]
    rw [unordered, ih hrest, List.append_nil, List.map_eq_nil_iff, List.filter_eq_nil_iff]
    intro other ho
    simp [hprecedes other ho]

namespace Holds

variable {g : Graph} {id : NodeId} {b : Block} (h : g.Holds id b)

include h

theorem ordered_eq : g.ordered = [.block id b] := by
  unfold ordered inOrder
  rw [h.order, h.nodes]
  rfl

theorem code_eq : g.code = b.code := by
  rw [Graph.code_eq, h.ordered_eq, List.flatMap_singleton]
  rfl

theorem visits_eq : g.visits =
    .graph [.block id b] :: .node [.block id b] (.block id b) :: b.visits := by
  rw [Graph.visits_eq, h.nodes, List.flatMap_singleton]
  rfl

theorem site_eq {r : String × List Site} (hr : r ∈ g.references) {s : Site} (hs : s ∈ r.2) :
    s = ⟨0, true⟩ := by
  obtain ⟨name, -, rfl⟩ := List.mem_map.1 hr
  obtain ⟨e, he, rfl⟩ := List.mem_map.1 (List.mem_eraseDups.1 hs)
  obtain ⟨he, -⟩ := List.mem_filter.1 he
  have hsites : g.sites = (Node.block id b).sites 0 := by
    unfold sites
    rw [h.nodes]
    exact List.append_nil _
  rw [hsites] at he
  obtain ⟨t, -, rfl⟩ := List.mem_map.1 he
  rfl

/-- The graph has no findings of its own. -/
theorem ownInterference_eq (last : Nat) (stored : List String) :
    g.ownInterference last stored = .none := by
  have houtputs : g.outputs stored = [] := by
    unfold outputs
    dsimp only
    rw [h.nodes, List.zipIdx_singleton, List.filterMap_cons_none]
    · rfl
    · show (if _ then none else none) = none
      exact ite_self none
  unfold ownInterference
  rw [unordered_eq_nil g.reach fun r hr s hs => h.site_eq hr hs, houtputs]
  rfl

theorem interference_eq (start last : Nat) (stored : List String) :
    g.interference start last stored = b.interference start := by
  have hids : (g.nodes.map Node.id).Nodup := by
    rw [h.nodes]
    exact List.nodup_singleton id
  have hsequence : g.sequence = g.order := by
    refine sequence_eq hids ?_
    rw [h.order, h.nodes]
    exact List.forall_mem_singleton.2 Nat.zero_lt_one
  have hnodes : g.sequence.filterMap (g.nodes[·]?) = [.block id b] := by
    rw [hsequence]
    exact h.ordered_eq
  rw [Graph.interference_eq, h.ownInterference_eq, hnodes, Interference.none_append]
  exact Interference.append_none _

/-- The graph and the block are one program. -/
theorem matches_block : (Program.graph g).Matches (.block b) where
  code := h.code_eq
  tensors := by
    show g.visits.flatMap Visit.tensors = b.visits.flatMap Visit.tensors
    rw [h.visits_eq]
    rfl
  interference := h.interference_eq 0 _ []
  copiers := by
    show Copier.ofVisits g.visits = Copier.ofVisits b.visits
    rw [h.visits_eq]
    rfl

end Holds

end Graph

/-! ## A block around a graph -/

namespace Block

/-- The block without loops and movements. -/
def bare (g : Graph) : Block := ⟨[], g, [], []⟩

theorem code_bare (g : Graph) : (bare g).code = g.code := by
  rw [code_eq_around]
  exact List.append_nil _

theorem visits_bare (g : Graph) : (bare g).visits = .block (bare g) :: g.visits := by
  rw [visits_eq]
  exact List.append_nil _

theorem steps_bare (g : Graph) : (bare g).steps = g.steps := by
  rw [steps_eq]
  exact Nat.zero_add _

theorem interference_bare (g : Graph) :
    (bare g).interference 0 = g.interference 0 (g.steps - 1) [] := by
  rw [interference_eq, steps_bare, Nat.zero_add g.steps]
  rfl

/-- The block and the graph are one program. -/
theorem bare_matches (g : Graph) : (Program.block (bare g)).Matches (.graph g) where
  code := code_bare g
  tensors := by
    show (bare g).visits.flatMap Visit.tensors = g.visits.flatMap Visit.tensors
    rw [visits_bare]
    rfl
  interference := interference_bare g
  copiers := by
    show Copier.ofVisits (bare g).visits = Copier.ofVisits g.visits
    rw [visits_bare]
    rfl

/-- Nothing of the block can fail but the connection of its body. -/
theorem make_bare {d : Draft} {g : Graph} (h : d.graph .nesting = .ok g) :
    make [] d [] [] = .ok (bare g) := by
  unfold make
  rw [h]
  rfl

end Block

/-! ## Drafts and blocks -/

namespace Target

/-- The program is what every stage works on. -/
structure Runs (t : Target) (p : Program) : Prop where
  program : ∀ stage, t.program stage = .ok p
  visits : t.visits = p.visits

/-- The same schedule, the same copiers and the same plans, or the same faults in their place. -/
structure Alike (t u : Target) : Prop where
  schedule : t.schedule = u.schedule
  copiers : t.copiers = u.copiers
  plan : ∀ options, t.plan options = u.plan options

theorem runs_block (b : Block) : (block b).Runs (.block b) := ⟨fun _ => rfl, rfl⟩

theorem runs_graph {d : Draft} {order : List Nat} (h : d.order = some order) :
    (graph d).Runs (.graph ⟨d.nodes, d.links.map Link.edge, order⟩) := by
  refine ⟨fun stage => ?_, rfl⟩
  show (d.graph stage).map Program.graph = _
  rw [Draft.graph, h]
  rfl

namespace Runs

variable {t u : Target} {p q : Program}

theorem schedule_eq (h : t.Runs p) : t.schedule = .ok p.code := by
  rw [schedule, h.program]
  rfl

theorem plan_eq (h : t.Runs p) (options : PlanOptions) : t.plan options = p.plan options := by
  rw [plan, h.program]
  rfl

theorem alike (ht : t.Runs p) (hu : u.Runs q) (h : p.Matches q) : t.Alike u where
  schedule := by rw [ht.schedule_eq, hu.schedule_eq, h.code]
  copiers := by
    unfold copiers
    rw [ht.visits, hu.visits]
    exact h.copiers
  plan options := by rw [ht.plan_eq, hu.plan_eq, h.plan]

end Runs

end Target

/-- A draft of one node is connected in the only order there is. -/
theorem Draft.Reachable.holds {d : Draft} (r : d.Reachable) {id : NodeId} {b : Block}
    (hn : d.nodes = [.block id b]) {order : List Nat} (ho : d.order = some order) :
    Graph.Holds ⟨d.nodes, d.links.map Link.edge, order⟩ id b := by
  have hperm := r.order_perm ho
  rw [hn] at hperm
  exact ⟨hn, List.perm_singleton.1 hperm⟩

/-- Nesting that adds nothing changes nothing. A graph of one node can be made around every block
    and connected, and every connected graph whose only node is the block has the block's schedule,
    copiers and plans. Every connected graph can be made the body of a block without loops and
    movements, and that block has the schedule, the copiers and the plans of the graph. -/
theorem Target.trivial_nesting :
    (∀ (id : NodeId) (b : Block),
      (∃ d, Draft.empty.addNode (.block id b) = (d, none) ∧ d.connect.2 = none) ∧
      ∀ d : Draft, d.Reachable → d.nodes = [.block id b] → d.isConnected = true →
        (graph d).Alike (block b)) ∧
    ∀ d : Draft, d.isConnected = true →
      ∃ b, Block.make [] d [] [] = .ok b ∧ (block b).Alike (graph d) := by
  refine ⟨fun id b => ⟨⟨_, rfl, rfl⟩, fun d r hn hc => ?_⟩, fun d hc => ?_⟩
  · obtain ⟨order, ho⟩ := Option.isSome_iff_exists.1 hc
    exact (runs_graph ho).alike (runs_block b) (r.holds hn ho).matches_block
  · obtain ⟨order, ho⟩ := Option.isSome_iff_exists.1 hc
    have hgraph : d.graph .nesting = .ok ⟨d.nodes, d.links.map Link.edge, order⟩ := by
      rw [Draft.graph, ho]
    exact ⟨_, Block.make_bare hgraph, (runs_block _).alike (runs_graph ho) (Block.bare_matches _)⟩

/-- The outer block of the kernel as the only node of a graph. -/
def Sample.shell : Draft := (Draft.empty.addNodes [.block ⟨6⟩ outer]).1.connect.1

/-- That graph in a block again. -/
theorem Target.trivial_nesting_shell :
    (graph Sample.shell).schedule = .ok Sample.kernel.code ∧
    ∃ b, Block.make [] Sample.shell [] [] = .ok b ∧ (block b).schedule = .ok Sample.kernel.code ∧
      (block b).plan {} = .ok Sample.placed := by
  obtain ⟨hblock, hgraph⟩ := trivial_nesting
  have hshell := (hblock ⟨6⟩ Sample.outer).2 Sample.shell
    (Draft.Reachable.empty.addNodes _).connect rfl rfl
  obtain ⟨b, hb, hbare⟩ := hgraph Sample.shell rfl
  refine ⟨hshell.schedule, b, hb, hbare.schedule.trans hshell.schedule, ?_⟩
  rw [hbare.plan, hshell.plan]
  exact Sample.kernel_plan

end TileNest
