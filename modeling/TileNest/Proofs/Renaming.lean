import Mathlib.Data.Set.Function
import TileNest.Proofs.DirectRun
import TileNest.Proofs.DraftRuns

/-
  Identities of nodes serve to tell nodes apart and for nothing else. `rename` replaces every
  identity in a hierarchy, at any depth, in the operands of its operations, at the ends of its edges
  and in the index of a draft. Main result: `Target.identities_unseen`. A renaming that keeps
  different identities different changes neither the outcome of connecting, nor the schedule, the
  plan, the copiers or what the walk reports.

  Identities are keys: of the index of a draft, which additions, the check of operands and the
  positions of edges are looked up in, and of the index that the analysis of conflicts makes of a
  graph. Under an injective renaming every look-up finds what it found (`KeyMap.get?_mapKeys`), and
  so the indexes are the renamed ones (`Graph.index_rename`, `Draft.addNode_rename`) while edges and
  orders by position are the same (`Graph.arrows_rename`, `Graph.sequence_rename`,
  `Draft.arrow_rename`). A renaming that is injective on the identities that occur does the same to
  the hierarchy as an injective one (`NodeId.exists_injective`).
-/

namespace TileNest

/-! ## Keys -/

namespace KeyMap

variable {κ α : Type} [DecidableEq κ]

/-- The map with other keys. -/
def mapKeys (f : κ → κ) (m : KeyMap κ α) : KeyMap κ α := m.map (Prod.map f id)

section

variable {f : κ → κ} (hf : Function.Injective f) (m : KeyMap κ α) (key : κ)

include hf

/-- A key finds the value that it found before both were renamed. -/
theorem get?_mapKeys : (m.mapKeys f).get? (f key) = m.get? key := by
  have hkey : (fun e : κ × α => e.1 == f key) ∘ Prod.map f id = fun e => e.1 == key := by
    funext e
    show (f e.1 == f key) = (e.1 == key)
    rw [Bool.eq_iff_iff, beq_iff_eq, beq_iff_eq]
    exact hf.eq_iff
  unfold get? mapKeys
  rw [List.find?_map, hkey, Option.map_map]
  rfl

theorem contains_mapKeys : (m.mapKeys f).contains (f key) = m.contains key := by
  rw [contains, get?_mapKeys hf, contains]

theorem insert_mapKeys (value : α) :
    (m.mapKeys f).insert (f key) value = (m.insert key value).mapKeys f := by
  induction m with
  | nil => rfl
  | cons e m ih =>
    obtain ⟨other, old⟩ := e
    show insert (f key) value ((f other, old) :: mapKeys f m) = _
    by_cases h : other = key
    · rw [insert, insert, if_pos h, if_pos (congrArg f h)]
      rfl
    · rw [insert, insert, if_neg h, if_neg (hf.ne h), ih]
      rfl

end

end KeyMap

/-! ## Renaming -/

def TensorNode.rename (f : NodeId → NodeId) (t : TensorNode) : TensorNode := ⟨f t.id, t.tensor⟩

def Operation.rename (f : NodeId → NodeId) : Operation → Operation
  | gemm a b acc => gemm (a.rename f) (b.rename f) (acc.rename f)
  | convert src dst => convert (src.rename f) (dst.rename f)

def Edge.rename (f : NodeId → NodeId) (e : Edge) : Edge := ⟨f e.source, f e.target⟩

mutual

def Node.rename (f : NodeId → NodeId) : Node → Node
  | .tensor t => .tensor (t.rename f)
  | .compute id op => .compute (f id) (op.rename f)
  | .block id b => .block (f id) (b.rename f)

def Block.rename (f : NodeId → NodeId) : Block → Block
  | ⟨loads, body, stores, vars⟩ => ⟨loads, body.rename f, stores, vars⟩

def Graph.rename (f : NodeId → NodeId) : Graph → Graph
  | ⟨nodes, edges, order⟩ => ⟨Node.renameAll f nodes, edges.map (Edge.rename f), order⟩

def Node.renameAll (f : NodeId → NodeId) : List Node → List Node
  | [] => []
  | n :: ns => n.rename f :: Node.renameAll f ns

end

def Edge.ids (e : Edge) : List NodeId := [e.source, e.target]

mutual

/-- The identities in a node: its own, those of the operands, and those in its block. -/
def Node.ids : Node → List NodeId
  | .tensor t => [t.id]
  | .compute id op => id :: op.operands.map TensorNode.id
  | .block id b => id :: b.ids

def Block.ids : Block → List NodeId
  | ⟨_, body, _, _⟩ => body.ids

def Graph.ids : Graph → List NodeId
  | ⟨nodes, edges, _⟩ => Node.idsOf nodes ++ edges.flatMap Edge.ids

def Node.idsOf : List Node → List NodeId
  | [] => []
  | n :: ns => n.ids ++ Node.idsOf ns

end

theorem Node.renameAll_eq_map (f : NodeId → NodeId) (ns : List Node) :
    Node.renameAll f ns = ns.map (Node.rename f) := by
  induction ns with
  | nil => rfl
  | cons n ns ih => rw [Node.renameAll, ih, List.map_cons]

theorem Node.idsOf_eq_flatMap (ns : List Node) : Node.idsOf ns = ns.flatMap Node.ids := by
  induction ns with
  | nil => rfl
  | cons n ns ih => rw [Node.idsOf, ih, List.flatMap_cons]

theorem Graph.ids_eq (g : Graph) :
    g.ids = g.nodes.flatMap Node.ids ++ g.edges.flatMap Edge.ids := by
  cases g with
  | mk nodes edges order => rw [Graph.ids, Node.idsOf_eq_flatMap]

theorem Block.ids_eq (b : Block) : b.ids = b.body.ids := by
  cases b; rfl

section

variable (f : NodeId → NodeId)

@[simp] theorem Operation.operator_rename (op : Operation) :
    (op.rename f).operator = op.operator := by
  cases op <;> rfl

@[simp] theorem Operation.inputs_rename (op : Operation) :
    (op.rename f).inputs = op.inputs.map (TensorNode.rename f) := by
  cases op <;> rfl

@[simp] theorem Operation.result_rename (op : Operation) :
    (op.rename f).result = op.result.rename f := by
  cases op <;> rfl

@[simp] theorem Operation.operands_rename (op : Operation) :
    (op.rename f).operands = op.operands.map (TensorNode.rename f) := by
  simp [Operation.operands]

theorem Operation.names_rename (op : Operation) :
    (op.rename f).operands.map TensorNode.name = op.operands.map TensorNode.name := by
  rw [operands_rename, List.map_map]
  rfl

@[simp] theorem Operation.label_rename (op : Operation) : (op.rename f).label = op.label := by
  unfold label
  rw [names_rename, operator_rename]

@[simp] theorem Operation.instruction_rename (op : Operation) :
    (op.rename f).instruction = op.instruction := by
  unfold instruction
  rw [operator_rename, inputs_rename, result_rename, List.map_map]
  rfl

@[simp] theorem Graph.nodes_rename (g : Graph) :
    (g.rename f).nodes = g.nodes.map (Node.rename f) := by
  cases g with
  | mk nodes edges order => exact Node.renameAll_eq_map f nodes

@[simp] theorem Graph.edges_rename (g : Graph) :
    (g.rename f).edges = g.edges.map (Edge.rename f) := by
  cases g; rfl

@[simp] theorem Graph.order_rename (g : Graph) : (g.rename f).order = g.order := by
  cases g; rfl

@[simp] theorem Graph.ordered_rename (g : Graph) :
    (g.rename f).ordered = g.ordered.map (Node.rename f) := by
  simp [Graph.ordered, Graph.inOrder, List.map_filterMap]

@[simp] theorem Block.loads_rename (b : Block) : (b.rename f).loads = b.loads := by
  cases b; rfl

@[simp] theorem Block.body_rename (b : Block) : (b.rename f).body = b.body.rename f := by
  cases b; rfl

@[simp] theorem Block.stores_rename (b : Block) : (b.rename f).stores = b.stores := by
  cases b; rfl

@[simp] theorem Block.vars_rename (b : Block) : (b.rename f).vars = b.vars := by
  cases b; rfl

@[simp] theorem Block.label_rename (b : Block) : (b.rename f).label = b.label := by
  simp [Block.label]

namespace Node

@[simp] theorem id_rename (n : Node) : (n.rename f).id = f n.id := by
  cases n <;> rfl

@[simp] theorem tensor?_rename (n : Node) :
    (n.rename f).tensor? = n.tensor?.map (TensorNode.rename f) := by
  cases n <;> rfl

@[simp] theorem operation?_rename (n : Node) :
    (n.rename f).operation? = n.operation?.map (Operation.rename f) := by
  cases n <;> rfl

@[simp] theorem label_rename (n : Node) : (n.rename f).label = n.label := by
  cases n with
  | tensor t => rfl
  | compute id op => exact op.label_rename f
  | block id b => exact b.label_rename f

@[simp] theorem visible_rename (n : Node) : (n.rename f).visible = n.visible := by
  cases n with
  | tensor t => rfl
  | compute id op => rfl
  | block id b => simp [rename, visible]

end Node

/-! ## Schedule, walk and conflicts -/

theorem Hierarchy.code_rename : Closed (fun n => (n.rename f).code = n.code)
    (fun b => (b.rename f).code = b.code) (fun g => (g.rename f).code = g.code) where
  tensor _ := rfl
  compute _ op := congrArg (fun i => [i]) (op.instruction_rename f)
  block _ _ h := h
  nest b h := by
    have hdepth : (b.rename f).depthOf = b.depthOf := by
      funext access
      simp [Block.depthOf]
    have hnest : ∀ body depth vars, (b.rename f).nest body depth vars = b.nest body depth vars := by
      intro body depth vars
      induction vars generalizing depth with
      | nil => simp [Block.nest, Block.loadsAt, Block.storesAt, hdepth]
      | cons v vars ih => simp [Block.nest, Block.loadsAt, Block.storesAt, hdepth, ih]
    rw [Block.code_eq, Block.code_eq, hnest, Block.body_rename, h, Block.vars_rename]
  graph g h := by
    rw [Graph.code_eq, Graph.code_eq, Graph.ordered_rename, List.flatMap_map]
    exact List.flatMap_congr fun n hn => h n (Graph.mem_nodes_of_mem_ordered hn)

/-- The visit in the hierarchy with other identities. -/
def Visit.rename : Visit → Visit
  | graph nodes => graph (nodes.map (Node.rename f))
  | node siblings n => node (siblings.map (Node.rename f)) (n.rename f)
  | block b => block (b.rename f)
  | load b m => load (b.rename f) m
  | store b m => store (b.rename f) m

@[simp] theorem Visit.text_rename (v : Visit) : (v.rename f).text = v.text := by
  cases v <;> simp [Visit.rename, Visit.text]

@[simp] theorem Visit.tensors_rename (v : Visit) : (v.rename f).tensors = v.tensors := by
  cases v with
  | node siblings n => cases n <;> rfl
  | _ => rfl

@[simp] theorem Visit.movement?_rename (v : Visit) : (v.rename f).movement? = v.movement? := by
  cases v <;> rfl

theorem Hierarchy.visits_rename : Closed
    (fun n => (n.rename f).inside = n.inside.map (Visit.rename f))
    (fun b => (b.rename f).visits = b.visits.map (Visit.rename f))
    (fun g => (g.rename f).visits = g.visits.map (Visit.rename f)) where
  tensor _ := rfl
  compute _ _ := rfl
  block _ _ h := h
  nest b h := by
    rw [Block.visits_eq, Block.visits_eq, Block.body_rename, h, Block.loads_rename,
      Block.stores_rename]
    simp only [List.map_append, List.map_cons, List.map_map]
    rfl
  graph g h := by
    rw [Graph.visits_eq, Graph.visits_eq, Graph.nodes_rename, List.map_cons, List.map_flatMap,
      List.flatMap_map]
    refine congrArg _ (List.flatMap_congr fun n hn => ?_)
    rw [h n hn, List.map_cons]
    rfl

theorem Visit.flatMap_tensors_rename (visits : List Visit) :
    (visits.map (Visit.rename f)).flatMap Visit.tensors = visits.flatMap Visit.tensors := by
  rw [List.flatMap_map]
  exact List.flatMap_congr fun v _ => v.tensors_rename f

@[simp] theorem Node.sites_rename (position : Nat) (n : Node) :
    (n.rename f).sites position = n.sites position := by
  cases n with
  | tensor t => rfl
  | compute id op =>
    show (op.rename f).operands.map _ = op.operands.map _
    rw [Operation.operands_rename, List.map_map]
    rfl
  | block id b =>
    show ((b.rename f).visits.flatMap Visit.tensors).map _ =
      (b.visits.flatMap Visit.tensors).map _
    rw [(Hierarchy.visits_rename f).onBlock b, Visit.flatMap_tensors_rename]

theorem Graph.sites_rename (g : Graph) : (g.rename f).sites = g.sites := by
  unfold Graph.sites
  rw [Graph.nodes_rename, List.mapIdx_eq_zipIdx_map, List.mapIdx_eq_zipIdx_map, List.zipIdx_map,
    List.map_map]
  refine congrArg List.flatten (List.map_congr_left fun e _ => ?_)
  obtain ⟨n, position⟩ := e
  exact n.sites_rename f position

theorem Hierarchy.steps_rename : Closed (fun n => (n.rename f).steps = n.steps)
    (fun b => (b.rename f).steps = b.steps) (fun g => (g.rename f).steps = g.steps) where
  tensor _ := rfl
  compute _ _ := rfl
  block _ _ h := h
  nest b h := by
    rw [Block.steps_eq, Block.steps_eq, Block.body_rename, h]
    simp
  graph g h := by
    rw [Graph.steps_eq, Graph.steps_eq, Graph.nodes_rename, List.map_map]
    exact congrArg _ (List.map_congr_left h)

/-- Plans depend on the tensors of the walk, the schedule and the conflicts. -/
theorem Program.plan_congr {p q : Program} (ht : p.tensors = q.tensors) (hc : p.code = q.code)
    (hi : p.interference = q.interference) (options : PlanOptions) :
    p.plan options = q.plan options := by
  unfold Program.plan Program.layout
  rw [ht, hc, hi]

def Program.rename : Program → Program
  | graph g => graph (g.rename f)
  | block b => block (b.rename f)

namespace Program

theorem code_rename (p : Program) : (p.rename f).code = p.code := by
  cases p with
  | graph g => exact (Hierarchy.code_rename f).onGraph g
  | block b => exact (Hierarchy.code_rename f).onBlock b

theorem visits_rename (p : Program) : (p.rename f).visits = p.visits.map (Visit.rename f) := by
  cases p with
  | graph g => exact (Hierarchy.visits_rename f).onGraph g
  | block b => exact (Hierarchy.visits_rename f).onBlock b

end Program

end

/-! ## Conflicts, looked up by identity -/

section

variable {f : NodeId → NodeId} (hf : Function.Injective f)

include hf

theorem Graph.index_rename (g : Graph) : (g.rename f).index = g.index.mapKeys f := by
  have hinsert : ∀ (entries : List (Node × Nat)) (m : KeyMap NodeId Nat),
      entries.foldl (fun m e => m.insert (e.1.rename f).id e.2) (m.mapKeys f) =
        (entries.foldl (fun m e => m.insert e.1.id e.2) m).mapKeys f := by
    intro entries
    induction entries with
    | nil => exact fun _ => rfl
    | cons e entries ih =>
      intro m
      rw [List.foldl_cons, List.foldl_cons, Node.id_rename, KeyMap.insert_mapKeys hf, ih]
  unfold index
  rw [Graph.nodes_rename, List.zipIdx_map, List.foldl_map]
  exact hinsert g.nodes.zipIdx []

/-- Both ends of an edge stand where they stood. -/
theorem Graph.arrows_rename (g : Graph) : (g.rename f).arrows = g.arrows := by
  unfold arrows
  rw [Graph.edges_rename, List.filterMap_map, Graph.index_rename hf]
  refine List.filterMap_congr fun e _ => ?_
  simp only [Function.comp_apply, Edge.rename, KeyMap.get?_mapKeys hf]

theorem Graph.sequence_rename (g : Graph) : (g.rename f).sequence = g.sequence := by
  unfold sequence
  rw [Graph.ordered_rename, List.filterMap_map, Graph.index_rename hf]
  refine List.filterMap_congr fun n _ => ?_
  rw [Function.comp_apply, Node.id_rename, KeyMap.get?_mapKeys hf]

theorem Graph.successors_rename (g : Graph) : (g.rename f).successors = g.successors := by
  unfold successors
  rw [Graph.arrows_rename hf, Graph.nodes_rename, List.length_map]

theorem Graph.outputs_rename (g : Graph) (stored : List String) :
    (g.rename f).outputs stored = g.outputs stored := by
  unfold Graph.outputs
  dsimp only
  rw [Graph.nodes_rename, List.zipIdx_map, List.filterMap_map, Graph.successors_rename hf]
  refine congrArg (List.filter _) (List.filterMap_congr fun e _ => ?_)
  obtain ⟨n, position⟩ := e
  show (if _ then (n.rename f).tensor?.map TensorNode.name else none) = if _ then _ else none
  rw [Node.tensor?_rename, Option.map_map]
  rfl

theorem Graph.ownInterference_rename (g : Graph) (last : Nat) (stored : List String) :
    (g.rename f).ownInterference last stored = g.ownInterference last stored := by
  have hreach : (g.rename f).reach = g.reach := by
    rw [reach, reach, Graph.successors_rename hf, Graph.sequence_rename hf]
  have hreferences : (g.rename f).references = g.references := by
    rw [references, references, Graph.sites_rename]
  rw [ownInterference, ownInterference, hreach, hreferences, Graph.outputs_rename hf]

theorem Hierarchy.interference_rename : Closed
    (fun n => (n.rename f).interference = n.interference)
    (fun b => (b.rename f).interference = b.interference)
    (fun g => (g.rename f).interference = g.interference) where
  tensor _ := rfl
  compute _ _ := rfl
  block _ _ h := funext fun start => congrFun h start
  nest b h := by
    funext start
    rw [Block.interference_eq, Block.interference_eq, Block.body_rename, h,
      (steps_rename f).onBlock b]
    simp
  graph g h := by
    funext start last stored
    have hnodes : g.sequence.filterMap ((g.rename f).nodes[·]?) =
        (g.sequence.filterMap (g.nodes[·]?)).map (Node.rename f) := by
      simp [List.map_filterMap]
    rw [Graph.interference_eq, Graph.interference_eq, Graph.ownInterference_rename hf,
      Graph.sequence_rename hf, hnodes, List.map_map]
    refine congrArg (fun parts => _ ++ Interference.inSequence start parts)
      (List.map_congr_left fun n hn => ?_)
    obtain ⟨i, -, hi⟩ := List.mem_filterMap.1 hn
    show ((n.rename f).steps, (n.rename f).interference) = (n.steps, n.interference)
    rw [(steps_rename f).onNode n, h n (List.mem_of_getElem? hi)]

namespace Program

theorem interference_rename (p : Program) : (p.rename f).interference = p.interference := by
  cases p with
  | graph g =>
    show (g.rename f).interference 0 ((g.rename f).steps - 1) [] = _
    rw [(Hierarchy.interference_rename hf).onGraph g, (Hierarchy.steps_rename f).onGraph g]
    rfl
  | block b => exact congrFun ((Hierarchy.interference_rename hf).onBlock b) 0

theorem plan_rename (p : Program) (options : PlanOptions) :
    (p.rename f).plan options = p.plan options := by
  refine plan_congr ?_ (p.code_rename f) (p.interference_rename hf) options
  unfold tensors
  rw [visits_rename, Visit.flatMap_tensors_rename]

end Program

end

/-! ## Drafts -/

namespace Link

def rename (f : NodeId → NodeId) (l : Link) : Link := ⟨l.source.rename f, l.target.rename f⟩

theorem edge_rename (f : NodeId → NodeId) (l : Link) :
    (l.rename f).edge = l.edge.rename f := by
  rw [edge, rename, Node.id_rename, Node.id_rename]
  rfl

theorem tierClash?_rename (f : NodeId → NodeId) (l : Link) :
    (l.rename f).tierClash? = l.tierClash? := by
  unfold tierClash? rename
  rw [Node.tensor?_rename, Node.tensor?_rename]
  cases l.source.tensor? with
  | none => rfl
  | some a =>
    cases l.target.tensor? with
    | none => rfl
    | some b => rfl

end Link

namespace Draft

def rename (f : NodeId → NodeId) (d : Draft) : Draft :=
  ⟨d.nodes.map (Node.rename f), d.index.mapKeys f, d.links.map (Link.rename f), d.order⟩

section

variable (f : NodeId → NodeId) (d : Draft)

theorem hasTensorNamed_rename : (d.rename f).hasTensorNamed = d.hasTensorNamed := by
  funext name
  have htensors : (d.rename f).nodes.filterMap Node.tensor? =
      (d.nodes.filterMap Node.tensor?).map (TensorNode.rename f) := by
    rw [rename, List.filterMap_map, List.map_filterMap]
    exact List.filterMap_congr fun n _ => n.tensor?_rename f
  rw [hasTensorNamed, htensors, List.any_map]
  rfl

theorem labels_rename : (d.rename f).labels = d.labels := by
  funext positions
  unfold labels rename
  refine List.filterMap_congr fun i _ => ?_
  rw [List.getElem?_map, Option.map_map]
  congr 1
  funext n
  exact n.label_rename f

theorem graph_rename (stage : Stage) :
    (d.rename f).graph stage = Graph.rename f <$> d.graph stage := by
  obtain ⟨nodes, index, links, order⟩ := d
  cases order with
  | none => rfl
  | some order =>
    have hedges : (links.map (Link.rename f)).map Link.edge =
        (links.map Link.edge).map (Edge.rename f) := by
      rw [List.map_map, List.map_map]
      exact List.map_congr_left fun l _ => l.edge_rename f
    show Except.ok (Graph.mk _ ((links.map (Link.rename f)).map Link.edge) order) =
      Except.ok (Graph.mk (Node.renameAll f nodes) _ order)
    rw [Node.renameAll_eq_map, hedges]
    rfl

end

section

variable {f : NodeId → NodeId} (hf : Function.Injective f)

include hf

/-- A node stands where it stood. -/
theorem position_rename (d : Draft) (n : Node) :
    (d.rename f).position (n.rename f) = d.position n := by
  unfold position rename
  rw [Node.id_rename, KeyMap.get?_mapKeys hf, Node.label_rename]

theorem arrow_rename (d : Draft) (l : Link) : (d.rename f).arrow (l.rename f) = d.arrow l := by
  unfold arrow
  rw [Link.rename, position_rename hf, position_rename hf]

/-- An operand is linked to a node where the operand with the new identity is linked to the new
    identity of the node. -/
theorem linked_rename (d : Draft) (id : NodeId) (operand : TensorNode) :
    (d.rename f).linked (f id) (operand.rename f) = d.linked id operand := by
  have hsame : ∀ a b : NodeId, (f a == f b) = (a == b) := by
    intro a b
    rw [Bool.eq_iff_iff, beq_iff_eq, beq_iff_eq]
    exact hf.eq_iff
  unfold linked rename
  simp only [List.any_map, TensorNode.rename, KeyMap.contains_mapKeys hf, Function.comp_def,
    Link.rename, Node.id_rename, hsame]

theorem unlinked?_rename (d : Draft) :
    (d.rename f).unlinked? = d.unlinked?.map fun e => (e.1.rename f, e.2.rename f) := by
  have hnode : ∀ n : Node,
      ((n.rename f).operation?.bind fun op =>
        (op.operands.find? (!(d.rename f).linked (n.rename f).id ·)).map (op, ·)) =
      (n.operation?.bind fun op => (op.operands.find? (!d.linked n.id ·)).map (op, ·)).map
        fun e => (e.1.rename f, e.2.rename f) := by
    intro n
    rw [Node.operation?_rename, Node.id_rename]
    cases n.operation? with
    | none => rfl
    | some op =>
      have hsame : (fun t => !(d.rename f).linked (f n.id) t) ∘ TensorNode.rename f =
          fun t => !d.linked n.id t :=
        funext fun t => congrArg not (linked_rename hf d n.id t)
      simp only [Option.map_some, Option.bind_some, Operation.operands_rename, List.find?_map,
        hsame, Option.map_map]
      rfl
  unfold unlinked?
  rw [show (d.rename f).nodes = d.nodes.map (Node.rename f) from rfl, List.findSome?_map,
    List.map_findSome?]
  exact congrArg (List.findSome? · _) (funext hnode)

theorem findOrder_rename (d : Draft) : (d.rename f).findOrder = d.findOrder := by
  have hlength : (d.rename f).nodes.length = d.nodes.length := List.length_map _
  have hclash : (d.rename f).links.findSome? Link.tierClash? =
      d.links.findSome? Link.tierClash? := by
    rw [rename, List.findSome?_map]
    exact congrArg (List.findSome? · _) (funext fun l => l.tierClash?_rename f)
  have harrows : (d.rename f).links.mapM (d.rename f).arrow = d.links.mapM d.arrow := by
    show (d.links.map (Link.rename f)).mapM (d.rename f).arrow = _
    rw [List.mapM_map]
    exact congrArg (d.links.mapM ·) (funext fun l => arrow_rename hf d l)
  unfold findOrder
  rw [hclash, unlinked?_rename hf, harrows, labels_rename, hlength]
  cases d.links.findSome? Link.tierClash? with
  | some clash => rfl
  | none =>
    cases d.unlinked? with
    | none => rfl
    | some e =>
      show Except.error (Fault.unlinkedOperand (e.1.rename f).operator.text _) = _
      rw [Operation.operator_rename]
      rfl

theorem connect_rename (d : Draft) :
    (d.rename f).connect = (d.connect.1.rename f, d.connect.2) := by
  cases ho : d.findOrder with
  | ok order =>
    rw [connect_of_ok ho, connect_of_ok ((findOrder_rename hf d).trans ho)]
    rfl
  | error fault =>
    rw [connect_of_error ho, connect_of_error ((findOrder_rename hf d).trans ho)]
    rfl

theorem addNode_rename (d : Draft) (n : Node) :
    (d.rename f).addNode (n.rename f) = ((d.addNode n).1.rename f, (d.addNode n).2) := by
  have hcontains : (d.rename f).index.contains (n.rename f).id = d.index.contains n.id := by
    rw [Node.id_rename]
    exact KeyMap.contains_mapKeys hf d.index n.id
  have hnamed : (n.rename f).tensor?.any ((d.rename f).hasTensorNamed ·.name) =
      n.tensor?.any (d.hasTensorNamed ·.name) := by
    rw [hasTensorNamed_rename, Node.tensor?_rename]
    cases n.tensor? <;> rfl
  unfold addNode
  rw [hcontains, hnamed, Node.label_rename]
  split
  · rfl
  · split
    · rfl
    · have hindex : (d.rename f).index.insert (n.rename f).id (d.rename f).nodes.length =
          (d.index.insert n.id d.nodes.length).mapKeys f := by
        rw [Node.id_rename, rename, List.length_map]
        exact KeyMap.insert_mapKeys hf d.index n.id d.nodes.length
      dsimp only
      rw [hindex]
      simp [rename]

theorem addEdge_rename (d : Draft) (l : Link) :
    (d.rename f).addEdge (l.rename f) = ((d.addEdge l).1.rename f, (d.addEdge l).2) := by
  have hmissing : [(l.rename f).source, (l.rename f).target].find?
      (!(d.rename f).index.contains ·.id) =
      ([l.source, l.target].find? (!d.index.contains ·.id)).map (Node.rename f) := by
    show ([l.source, l.target].map (Node.rename f)).find? _ = _
    rw [List.find?_map]
    congr 2
    funext n
    show (!(d.rename f).index.contains (n.rename f).id) = _
    rw [Node.id_rename]
    exact congrArg not (KeyMap.contains_mapKeys hf d.index n.id)
  unfold addEdge
  rw [hmissing]
  cases [l.source, l.target].find? (!d.index.contains ·.id) with
  | none => simp [rename]
  | some missing => simp [Link.rename]

end

theorem Batch.rename {α : Type} {add : Draft → α → Draft × Option Fault}
    {addAll : Draft → List α → Draft × Option Fault} (hb : Batch add addAll) {f : NodeId → NodeId}
    {g : α → α} (hadd : ∀ d x, add (d.rename f) (g x) = ((add d x).1.rename f, (add d x).2))
    (d : Draft) (xs : List α) :
    addAll (d.rename f) (xs.map g) = ((addAll d xs).1.rename f, (addAll d xs).2) := by
  induction xs generalizing d with
  | nil => rw [List.map_nil, hb.nil, hb.nil]
  | cons x xs ih =>
    rw [List.map_cons, hb.cons, hb.cons, hadd]
    obtain ⟨d', fault⟩ := add d x
    cases fault with
    | some fault => rfl
    | none => exact ih d'

/-! ## Construction with other identities -/

def Change.rename (f : NodeId → NodeId) : Change → Change
  | addNode n => addNode (n.rename f)
  | addNodes ns => addNodes (ns.map (Node.rename f))
  | addEdge l => addEdge (l.rename f)
  | addEdges ls => addEdges (ls.map (Link.rename f))
  | connect => connect

def Step.rename (f : NodeId → NodeId) : Step → Step
  | change number c => change number (c.rename f)
  | clone number => clone number

section

variable {f : NodeId → NodeId} (hf : Function.Injective f)

include hf

theorem change_rename (d : Draft) (c : Change) :
    (d.rename f).change (c.rename f) = ((d.change c).1.rename f, (d.change c).2) := by
  cases c with
  | addNode n => exact addNode_rename hf d n
  | addNodes ns => exact addNodes_batch.rename (addNode_rename hf) d ns
  | addEdge l => exact addEdge_rename hf d l
  | addEdges ls => exact addEdges_batch.rename (addEdge_rename hf) d ls
  | connect => exact connect_rename hf d

/-- A step on renamed drafts gives the drafts renamed, with the same fault. -/
theorem apply_rename (drafts : List Draft) (step : Step) :
    (step.rename f).apply (drafts.map (rename f)) =
      ((step.apply drafts).1.map (rename f), (step.apply drafts).2) := by
  cases step with
  | change number c =>
    simp only [Step.rename, Step.apply, List.getElem?_map]
    cases drafts[number]? with
    | none => rfl
    | some d =>
      simp only [Option.map_some, change_rename hf, List.map_set]
  | clone number =>
    show (drafts.map (rename f) ++ (drafts.map (rename f))[number]?.toList, none) =
      ((drafts ++ drafts[number]?.toList).map (rename f), none)
    rw [List.getElem?_map, List.map_append]
    cases drafts[number]? <;> rfl

/-- A run of the same steps with other identities. -/
theorem run_rename (steps : List Step) :
    run (steps.map (Step.rename f)) = (run steps).map (rename f) := by
  have hrun : ∀ drafts : List Draft, (steps.map (Step.rename f)).foldl
      (fun drafts step => (step.apply drafts).1) (drafts.map (rename f)) =
      (steps.foldl (fun drafts step => (step.apply drafts).1) drafts).map (rename f) := by
    induction steps with
    | nil => exact fun _ => rfl
    | cons step steps ih =>
      intro drafts
      rw [List.map_cons, List.foldl_cons, List.foldl_cons, apply_rename hf]
      exact ih _
  exact hrun [empty]

end


end Draft

section

variable (f : NodeId → NodeId)

theorem Node.operand_rename (op : Operator) (n : Node) :
    (n.rename f).operand op = TensorNode.rename f <$> n.operand op := by
  unfold operand
  rw [tensor?_rename, label_rename]
  cases n.tensor? <;> rfl

theorem Node.gemm_rename (id : NodeId) (a b acc : Node) :
    Node.gemm (f id) (a.rename f) (b.rename f) (acc.rename f) =
      Node.rename f <$> Node.gemm id a b acc := by
  unfold gemm
  simp only [operand_rename, bind_map_left, map_bind, map_pure]
  rfl

theorem Node.convert_rename (id : NodeId) (src dst : Node) :
    Node.convert (f id) (src.rename f) (dst.rename f) =
      Node.rename f <$> Node.convert id src dst := by
  unfold convert
  simp only [operand_rename, bind_map_left, map_bind, map_pure]
  rfl

theorem Block.make_rename (loads : List Movement) (d : Draft) (stores : List Movement)
    (vars : List LoopVar) :
    Block.make loads (d.rename f) stores vars =
      Block.rename f <$> Block.make loads d stores vars := by
  have hvisible : ∀ body : Graph, (body.rename f).visible = body.visible := by
    intro body
    simp [Graph.visible, List.flatMap_map]
  unfold make
  simp only [Draft.graph_rename, bind_map_left, map_bind, map_pure, hvisible]
  rfl

end

/-! ## Renamings that are injective where it matters -/

/-- Identities that do not occur can be moved beyond all others, and then the renaming is
    injective throughout. -/
theorem NodeId.exists_injective {f : NodeId → NodeId} {ids : List NodeId}
    (hf : Set.InjOn f {id | id ∈ ids}) :
    ∃ g : NodeId → NodeId, Function.Injective g ∧ ∀ id ∈ ids, f id = g id := by
  let bound := (ids.map fun id => (f id).index).foldl max 0
  have hbound : ∀ id ∈ ids, (f id).index ≤ bound :=
    fun id hid => (Lists.le_foldl_max _ 0).2 _ (List.mem_map_of_mem hid)
  have hapart : ∀ id ∈ ids, ∀ other : NodeId, f id ≠ ⟨bound + 1 + other.index⟩ := by
    intro id hid other h
    have hle := hbound id hid
    rw [h] at hle
    dsimp only at hle
    omega
  refine ⟨fun id => if id ∈ ids then f id else ⟨bound + 1 + id.index⟩, fun a b h => ?_,
    fun id hid => (if_pos hid).symm⟩
  by_cases ha : a ∈ ids <;> by_cases hb : b ∈ ids
  · simp only [ha, hb, if_true] at h
    exact hf ha hb h
  · simp only [ha, hb, if_true, if_false] at h
    exact absurd h (hapart a ha b)
  · simp only [ha, hb, if_true, if_false] at h
    exact absurd h.symm (hapart b hb a)
  · simp only [ha, hb, if_false] at h
    have hindex := congrArg NodeId.index h
    obtain ⟨i⟩ := a
    obtain ⟨j⟩ := b
    dsimp only at hindex
    rw [Nat.add_left_cancel hindex]

section

variable {f g : NodeId → NodeId}

theorem TensorNode.rename_congr {t : TensorNode} (h : f t.id = g t.id) :
    t.rename f = t.rename g := by
  unfold rename
  rw [h]

theorem Operation.rename_congr {op : Operation}
    (h : ∀ id ∈ op.operands.map TensorNode.id, f id = g id) : op.rename f = op.rename g := by
  have hoperand : ∀ t ∈ op.operands, t.rename f = t.rename g :=
    fun t ht => TensorNode.rename_congr (h _ (List.mem_map_of_mem ht))
  cases op with
  | gemm a b acc =>
    rw [rename, rename, hoperand a (by simp [operands, inputs]),
      hoperand b (by simp [operands, inputs]), hoperand acc (by simp [operands, result])]
  | convert src dst =>
    rw [rename, rename, hoperand src (by simp [operands, inputs]),
      hoperand dst (by simp [operands, result])]

theorem Hierarchy.rename_congr : Closed
    (fun n => (∀ id ∈ n.ids, f id = g id) → n.rename f = n.rename g)
    (fun b => (∀ id ∈ b.ids, f id = g id) → b.rename f = b.rename g)
    (fun e => (∀ id ∈ e.ids, f id = g id) → e.rename f = e.rename g) where
  tensor t h := congrArg Node.tensor (TensorNode.rename_congr (h _ (List.mem_singleton_self _)))
  compute id op h := by
    have hop := Operation.rename_congr fun id hid => h id (List.mem_cons_of_mem _ hid)
    rw [Node.rename, Node.rename, hop, h id List.mem_cons_self]
  block id b ih h := by
    have hb := ih fun id hid => h id (List.mem_cons_of_mem _ hid)
    rw [Node.rename, Node.rename, hb, h id List.mem_cons_self]
  nest b ih h := by
    rw [Block.ids_eq] at h
    obtain ⟨loads, body, stores, vars⟩ := b
    rw [Block.rename, Block.rename, ih h]
  graph e ih h := by
    obtain ⟨nodes, edges, order⟩ := e
    rw [Graph.ids_eq] at h
    have hnodes : nodes.map (Node.rename f) = nodes.map (Node.rename g) := by
      refine List.map_congr_left fun n hn => ih n hn fun id hid => h id ?_
      exact List.mem_append_left _ (List.mem_flatMap.2 ⟨n, hn, hid⟩)
    have hedges : edges.map (Edge.rename f) = edges.map (Edge.rename g) := by
      refine List.map_congr_left fun e he => ?_
      have hend : ∀ id ∈ e.ids, f id = g id := fun id hid =>
        h id (List.mem_append_right _ (List.mem_flatMap.2 ⟨e, he, hid⟩))
      rw [Edge.rename, Edge.rename, hend e.source (by simp [Edge.ids]),
        hend e.target (by simp [Edge.ids])]
    rw [Graph.rename, Graph.rename, Node.renameAll_eq_map, Node.renameAll_eq_map, hnodes, hedges]

/-- The identities in a draft: those in its nodes, the keys of its index, and those in the ends of
    its links. -/
def Draft.ids (d : Draft) : List NodeId :=
  d.nodes.flatMap Node.ids ++ d.index.map Prod.fst ++
    d.links.flatMap fun l => l.source.ids ++ l.target.ids

theorem Draft.rename_congr {d : Draft} (h : ∀ id ∈ d.ids, f id = g id) :
    d.rename f = d.rename g := by
  have hnode : ∀ n : Node, (∀ id ∈ n.ids, id ∈ d.ids) → n.rename f = n.rename g :=
    fun n hn => Hierarchy.rename_congr.onNode n fun id hid => h id (hn id hid)
  have hnodes : d.nodes.map (Node.rename f) = d.nodes.map (Node.rename g) := by
    refine List.map_congr_left fun n hn => hnode n fun id hid => ?_
    simp only [ids, List.mem_append, List.mem_flatMap]
    exact .inl (.inl ⟨n, hn, hid⟩)
  have hindex : d.index.mapKeys f = d.index.mapKeys g := by
    refine List.map_congr_left fun e he => ?_
    have hkey : e.1 ∈ d.ids :=
      List.mem_append_left _ (List.mem_append_right _ (List.mem_map_of_mem he))
    exact Prod.ext (h e.1 hkey) rfl
  have hlinks : d.links.map (Link.rename f) = d.links.map (Link.rename g) := by
    refine List.map_congr_left fun l hl => ?_
    have hend : ∀ id ∈ l.source.ids ++ l.target.ids, id ∈ d.ids := fun id hid =>
      List.mem_append_right _ (List.mem_flatMap.2 ⟨l, hl, hid⟩)
    rw [Link.rename, Link.rename,
      hnode l.source fun id hid => hend id (List.mem_append_left _ hid),
      hnode l.target fun id hid => hend id (List.mem_append_right _ hid)]
  rw [rename, rename, hnodes, hindex, hlinks]

end

/-! ## Targets -/

namespace Target

def rename (f : NodeId → NodeId) : Target → Target
  | graph d => graph (d.rename f)
  | block b => block (b.rename f)

/-- All identities in the target: of nodes, operands and ends of edges, at any depth, and the keys
    of a draft's index. -/
def ids : Target → List NodeId
  | graph d => d.ids
  | block b => b.ids

theorem rename_congr {t : Target} {f g : NodeId → NodeId} (h : ∀ id ∈ t.ids, f id = g id) :
    t.rename f = t.rename g := by
  cases t with
  | graph d => exact congrArg graph (Draft.rename_congr h)
  | block b => exact congrArg block (Hierarchy.rename_congr.onBlock b h)

section

variable (f : NodeId → NodeId) (t : Target)

theorem program_rename (stage : Stage) :
    (t.rename f).program stage = Program.rename f <$> t.program stage := by
  cases t with
  | graph d =>
    show Except.map Program.graph ((d.rename f).graph stage) = _
    rw [Draft.graph_rename]
    show _ = Program.rename f <$> Except.map Program.graph (d.graph stage)
    cases d.graph stage <;> rfl
  | block b => rfl

theorem schedule_rename : (t.rename f).schedule = t.schedule := by
  unfold schedule
  rw [program_rename]
  cases t.program .emission with
  | error fault => rfl
  | ok p => exact congrArg Except.ok (p.code_rename f)

theorem plan_rename {f : NodeId → NodeId} (hf : Function.Injective f) (options : PlanOptions) :
    (t.rename f).plan options = t.plan options := by
  unfold plan
  rw [program_rename]
  cases t.program .allocation with
  | error fault => rfl
  | ok p => exact p.plan_rename hf options

theorem visits_rename : (t.rename f).visits = t.visits.map (Visit.rename f) := by
  cases t with
  | graph d =>
    -- The walk through a draft is that through a graph in whatever order.
    have hwalk := (Hierarchy.visits_rename f).onGraph ⟨d.nodes, [], []⟩
    rw [Graph.rename, Node.renameAll_eq_map] at hwalk
    exact hwalk
  | block b => exact (Hierarchy.visits_rename f).onBlock b

theorem copiers_rename : (t.rename f).copiers = t.copiers := by
  unfold copiers Copier.ofVisits
  rw [visits_rename, List.filterMap_map]
  refine congrArg (fun ms => (List.map _ ms).eraseDups) (List.filterMap_congr fun v _ => ?_)
  exact v.movement?_rename f

end

/-- Identities of nodes tell nodes apart and do nothing else. Where a renaming keeps the identities
    of a target apart, the target with the new identities connects in the same order or with the
    same fault, and has the same schedule, the same plans and the same copiers, or the same faults
    in their place; the walk meets the same parts and reports the same of them. Construction with
    renamed identities gives what it gave, renamed, and fails where it failed. -/
theorem identities_unseen (t : Target) (f : NodeId → NodeId)
    (hf : Set.InjOn f {id | id ∈ t.ids}) :
    (∀ d, t = .graph d → (d.rename f).findOrder = d.findOrder ∧
      (d.rename f).connect = (d.connect.1.rename f, d.connect.2)) ∧
    (t.rename f).schedule = t.schedule ∧
    (∀ options, (t.rename f).plan options = t.plan options) ∧
    (t.rename f).copiers = t.copiers ∧
    (t.rename f).visits = t.visits.map (Visit.rename f) ∧
    (t.rename f).visits.map Visit.text = t.visits.map Visit.text ∧
    (t.rename f).visits.map Visit.tensors = t.visits.map Visit.tensors ∧
    ∀ g : NodeId → NodeId, Function.Injective g →
      (∀ (drafts : List Draft) (step : Draft.Step),
        (step.rename g).apply (drafts.map (Draft.rename g)) =
          ((step.apply drafts).1.map (Draft.rename g), (step.apply drafts).2)) ∧
      (∀ steps, Draft.run (steps.map (Draft.Step.rename g)) =
        (Draft.run steps).map (Draft.rename g)) ∧
      (∀ id a b acc, Node.gemm (g id) (a.rename g) (b.rename g) (acc.rename g) =
        Node.rename g <$> Node.gemm id a b acc) ∧
      (∀ id src dst, Node.convert (g id) (src.rename g) (dst.rename g) =
        Node.rename g <$> Node.convert id src dst) ∧
      ∀ loads d stores vars, Block.make loads (d.rename g) stores vars =
        Block.rename g <$> Block.make loads d stores vars := by
  obtain ⟨g, hg, hfg⟩ := NodeId.exists_injective hf
  have hsame : t.rename f = t.rename g := rename_congr hfg
  refine ⟨?_, t.schedule_rename f, fun options => ?_, t.copiers_rename f, t.visits_rename f, ?_, ?_,
    fun g hg => ⟨Draft.apply_rename hg, Draft.run_rename hg, Node.gemm_rename g,
      Node.convert_rename g, Block.make_rename g⟩⟩
  · rintro d rfl
    have hbefore : d.rename f = d.rename g := Draft.rename_congr hfg
    have hafter : d.connect.1.rename f = d.connect.1.rename g := by
      refine Draft.rename_congr fun id hid => hfg id ?_
      obtain ⟨order, -, hd⟩ | ⟨fault, -, hd⟩ := d.connect_cases
      · rwa [hd] at hid
      · rwa [hd] at hid
    rw [hbefore, hafter]
    exact ⟨Draft.findOrder_rename hg d, Draft.connect_rename hg d⟩
  · rw [hsame]
    exact t.plan_rename hg options
  · rw [visits_rename, List.map_map]
    exact List.map_congr_left fun v _ => v.text_rename f
  · rw [visits_rename, List.map_map]
    exact List.map_congr_left fun v _ => v.tensors_rename f

end Target

/-- Identities counted downward. -/
def Sample.downward (id : NodeId) : NodeId := ⟨9 - id.index⟩

theorem Target.identities_unseen_downward :
    (Sample.innerDraft.rename Sample.downward).connect.1.order = some [0, 3, 1, 4, 2] ∧
    ((Target.graph Sample.innerDraft).rename Sample.downward).schedule =
      .ok [.compute .convert ["x"] "y", .compute .convert ["y"] "z"] ∧
    ((Target.graph Sample.innerDraft).rename Sample.downward).plan {} =
      .ok (Sample.planOf [Sample.slot Sample.first 0 0 0, Sample.slot Sample.second 16 0 1,
        Sample.slot Sample.third 0 1 1]) := by
  have hinj : ∀ a ∈ (Target.graph Sample.innerDraft).ids,
      ∀ b ∈ (Target.graph Sample.innerDraft).ids,
      Sample.downward a = Sample.downward b → a = b := by decide +kernel
  have horder : Sample.innerDraft.connect.1.order = some [0, 3, 1, 4, 2] := by decide +kernel
  obtain ⟨hconnect, hschedule, hplan, -⟩ :=
    identities_unseen (.graph Sample.innerDraft) Sample.downward fun a ha b hb => hinj a ha b hb
  rw [(hconnect _ rfl).2, hschedule, hplan]
  exact ⟨horder, by decide +kernel, by decide +kernel⟩

end TileNest
