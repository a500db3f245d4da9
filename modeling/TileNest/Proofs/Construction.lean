import TileNest.Program
import TileNest.Proofs.DraftState

/-
  Hierarchies that come from the constructors. A graph is `Built` when a reachable draft was
  connected to it, its nodes are built, and their identities were given out once; a block is built
  when `Block.make` accepted it around a built body; an operation is built when its check
  accepted its operands.

  What the checks leave behind is read off once: the order of a built graph is a permutation of
  its positions (`Graph.Built.ordered_perm`), operands of its operations are nodes of it
  (`Graph.Built.operand_mem`), and a built block has loops of different names, among them every
  variable of its movements (`Block.Built.names_nodup`, `Block.Built.var_mem`).
  `Hierarchy.Closed` packages the induction over nodes, blocks and graphs for the later modules.
-/

namespace TileNest

/-! ## Induction over the hierarchy -/

namespace Hierarchy

/-- The properties pass from the parts of a hierarchy to the whole: from a block to its node, from
    a block's body to the block, from its nodes to a graph. -/
structure Closed (P : Node → Prop) (Q : Block → Prop) (R : Graph → Prop) : Prop where
  tensor : ∀ n, P (.tensor n)
  compute : ∀ id op, P (.compute id op)
  block : ∀ id b, Q b → P (.block id b)
  nest : ∀ b : Block, R b.body → Q b
  graph : ∀ g : Graph, (∀ n ∈ g.nodes, P n) → R g

namespace Closed

variable {P : Node → Prop} {Q : Block → Prop} {R : Graph → Prop}

mutual

theorem onNode (h : Closed P Q R) : (n : Node) → P n
  | .tensor n => h.tensor n
  | .compute id op => h.compute id op
  | .block id b => h.block id b (onBlock h b)

theorem onBlock (h : Closed P Q R) : (b : Block) → Q b
  | ⟨loads, body, stores, vars⟩ => h.nest ⟨loads, body, stores, vars⟩ (onGraph h body)

theorem onGraph (h : Closed P Q R) : (g : Graph) → R g
  | ⟨nodes, edges, order⟩ => h.graph ⟨nodes, edges, order⟩ (onNodes h nodes)

theorem onNodes (h : Closed P Q R) : (ns : List Node) → ∀ n ∈ ns, P n
  | [], _, hn => absurd hn List.not_mem_nil
  | m :: ns, n, hn => (List.mem_cons.1 hn).elim (fun e => e ▸ onNode h m) (onNodes h ns n)

end

end Closed

end Hierarchy

/-! ## Built hierarchies -/

/-- Identities are given out once: a node with the identity of an operand is this operand. -/
def Node.Coherent (nodes : List Node) : Prop :=
  ∀ t ∈ (nodes.filterMap Node.operation?).flatMap Operation.operands,
    ∀ n ∈ nodes, n.id = t.id → n.tensor? = some t

instance (nodes : List Node) : Decidable (Node.Coherent nodes) :=
  inferInstanceAs (Decidable (∀ t ∈ (nodes.filterMap Node.operation?).flatMap Operation.operands,
    ∀ n ∈ nodes, n.id = t.id → n.tensor? = some t))

mutual

/-- The node comes from its constructor. -/
def Node.Built : Node → Prop
  | .tensor _ => True
  | .compute id op =>
    (∃ a b acc, Node.gemm id a b acc = .ok (.compute id op)) ∨
      ∃ src dst, Node.convert id src dst = .ok (.compute id op)
  | .block _ b => b.Built

/-- The block was made around a built body. -/
def Block.Built : Block → Prop
  | ⟨loads, body, stores, vars⟩ =>
    body.Built ∧
      ∃ d : Draft, d.Reachable ∧ Block.make loads d stores vars = .ok ⟨loads, body, stores, vars⟩

/-- The graph is a connected draft of built nodes, which are coherent. -/
def Graph.Built : Graph → Prop
  | ⟨nodes, edges, order⟩ =>
    (∃ d : Draft, d.Reachable ∧ d.graph .ordering = .ok ⟨nodes, edges, order⟩) ∧
      Node.AllBuilt nodes ∧ Node.Coherent nodes

/-- All nodes come from their constructors. -/
def Node.AllBuilt : List Node → Prop
  | [] => True
  | n :: ns => n.Built ∧ Node.AllBuilt ns

end

/-- The program is a connected graph or a constructed block. -/
def Program.Built : Program → Prop
  | .graph g => g.Built
  | .block b => b.Built

theorem Node.allBuilt_iff (ns : List Node) : Node.AllBuilt ns ↔ ∀ n ∈ ns, n.Built := by
  induction ns with
  | nil => simp [Node.AllBuilt]
  | cons n ns ih => simp [Node.AllBuilt, ih]

/-! ## Facts about built graphs and blocks -/

namespace Graph

theorem built_iff (g : Graph) : g.Built ↔
    (∃ d : Draft, d.Reachable ∧ d.graph .ordering = .ok g) ∧ (∀ n ∈ g.nodes, n.Built) ∧
      Node.Coherent g.nodes := by
  cases g with
  | mk nodes edges order => rw [Graph.Built, Node.allBuilt_iff]

variable {g : Graph}

theorem Built.node (h : g.Built) {n : Node} (hn : n ∈ g.nodes) : n.Built :=
  (g.built_iff.1 h).2.1 n hn

/-- The order lists every position once. -/
theorem Built.order_perm (h : g.Built) : g.order.Perm (List.range g.nodes.length) := by
  obtain ⟨d, r, hd⟩ := (g.built_iff.1 h).1
  obtain ⟨hn, -, ho⟩ := Draft.graph_eq_ok hd
  rw [← hn]
  exact r.order_perm ho

/-- The nodes in the order to run them are all nodes, each once. -/
theorem Built.ordered_perm (h : g.Built) : g.ordered.Perm g.nodes := by
  have hp := h.order_perm.filterMap (g.nodes[·]?)
  rwa [Lists.filterMap_range_getElem?] at hp

theorem Built.mem_ordered (h : g.Built) {n : Node} : n ∈ g.ordered ↔ n ∈ g.nodes :=
  h.ordered_perm.mem_iff

/-- The operands of an operation of the graph are nodes of the graph. -/
theorem Built.operand_mem (h : g.Built) {id : NodeId} {op : Operation}
    (hn : .compute id op ∈ g.nodes) {t : TensorNode} (ht : t ∈ op.operands) :
    .tensor t ∈ g.nodes := by
  obtain ⟨⟨d, r, hd⟩, -, hcoherent⟩ := g.built_iff.1 h
  obtain ⟨hnodes, -, ho⟩ := Draft.graph_eq_ok hd
  obtain ⟨-, hu, -⟩ := r.wellFormed.findOrder_eq_ok (r.findOrder_eq ho)
  have hlinked := Draft.unlinked?_eq_none_iff.1 hu id op (hnodes ▸ hn) t ht
  rw [Draft.linked, Bool.and_eq_true, r.wellFormed.index.contains_iff, hnodes] at hlinked
  obtain ⟨n, hm, he⟩ := List.mem_map.1 hlinked.1
  have hop : t ∈ (g.nodes.filterMap Node.operation?).flatMap Operation.operands :=
    List.mem_flatMap.2 ⟨op, List.mem_filterMap.2 ⟨_, hn, rfl⟩, ht⟩
  exact Node.tensor?_eq_some (hcoherent t hop n hm he) ▸ hm

end Graph

namespace Block

theorem built_iff (b : Block) : b.Built ↔
    b.body.Built ∧ ∃ d : Draft, d.Reachable ∧ Block.make b.loads d b.stores b.vars = .ok b := by
  cases b with
  | mk loads body stores vars => rw [Block.Built]

variable {b : Block}

theorem Built.body_built (h : b.Built) : b.body.Built := (b.built_iff.1 h).1

/-- A block that was made around a reachable draft of built and coherent nodes is built. -/
theorem built_of_make {d : Draft} (r : d.Reachable) (hd : d.graph .ordering = .ok b.body)
    (hn : ∀ n ∈ b.body.nodes, n.Built) (hc : Node.Coherent b.body.nodes)
    (hm : Block.make b.loads d b.stores b.vars = .ok b) : b.Built :=
  b.built_iff.2 ⟨b.body.built_iff.2 ⟨⟨d, r, hd⟩, hn, hc⟩, d, r, hm⟩

theorem checkNames_eq_ok_iff {vars : List LoopVar} :
    checkNames vars = .ok () ↔ (vars.map LoopVar.name).Nodup := by
  rw [checkNames, ← firstRepeat?_eq_none_iff]
  cases firstRepeat? (vars.map LoopVar.name) with
  | none => simp
  | some name => simp

theorem checkVars_eq_ok_iff {vars : List LoopVar} {ms : List Movement} :
    checkVars vars ms = .ok () ↔ ∀ m ∈ ms, ∀ v ∈ m.access.vars, v ∈ vars := by
  induction ms with
  | nil => simp [checkVars]
  | cons m ms ih =>
    have hbound : m.unbound? vars = none ↔ ∀ v ∈ m.access.vars, v ∈ vars := by
      simp [Movement.unbound?]
    rw [checkVars, List.forall_mem_cons, ← ih, ← hbound]
    cases m.unbound? vars with
    | none => simp
    | some v => simp

/-- A block is made when its checks pass one after the other. -/
theorem make_eq_ok_iff {loads : List Movement} {d : Draft} {stores : List Movement}
    {vars : List LoopVar} : make loads d stores vars = .ok b ↔
    ∃ g, d.graph .nesting = .ok g ∧ checkNames vars = .ok () ∧
      checkInnerEnds g.visible (innerEnds loads stores) = .ok () ∧
      checkVars vars (loads ++ stores) = .ok () ∧ b = ⟨loads, g, stores, vars⟩ := by
  unfold make
  cases hg : d.graph .nesting with
  | error fault => simp [bind, Except.bind]
  | ok g =>
    cases hn : checkNames vars with
    | error fault => simp [bind, Except.bind]
    | ok u =>
      cases he : checkInnerEnds g.visible (innerEnds loads stores) with
      | error fault => simp [bind, Except.bind, he]
      | ok u =>
        cases hv : checkVars vars (loads ++ stores) with
        | error fault => simp [bind, Except.bind, he]
        | ok u => simp [bind, Except.bind, pure, Except.pure, he, eq_comm]

theorem Built.names_nodup (h : b.Built) : (b.vars.map LoopVar.name).Nodup := by
  obtain ⟨-, d, -, hm⟩ := b.built_iff.1 h
  obtain ⟨-, -, hn, -⟩ := make_eq_ok_iff.1 hm
  exact checkNames_eq_ok_iff.1 hn

/-- Every variable of a movement's map is a loop of the block, with the same range. -/
theorem Built.var_mem (h : b.Built) {m : Movement} (hm : m ∈ b.loads ++ b.stores) {v : LoopVar}
    (hv : v ∈ m.access.vars) : v ∈ b.vars := by
  obtain ⟨-, d, -, hk⟩ := b.built_iff.1 h
  obtain ⟨-, -, -, -, hvars, -⟩ := make_eq_ok_iff.1 hk
  exact checkVars_eq_ok_iff.1 hvars m hm v hv

end Block

/-! ## A small kernel

  Two nested blocks whose loops have the same name. Each tile of `in` is brought to the registers
  one element at a time, converted twice there, and gathered in a tile of `out`. -/

namespace Sample

def input : Tensor :=
  { name := "in", shape := [4], layout := .rowMajor, tier := .global, dtype := .f32 }

def staged : Tensor :=
  { name := "a", shape := [2], layout := .rowMajor, tier := .shared, dtype := .f32 }

def first : Tensor :=
  { name := "x", shape := [1], layout := .rowMajor, tier := .register, dtype := .f32 }

def second : Tensor :=
  { name := "y", shape := [1], layout := .rowMajor, tier := .register, dtype := .f16 }

def third : Tensor :=
  { name := "z", shape := [1], layout := .rowMajor, tier := .register, dtype := .f32 }

def gathered : Tensor :=
  { name := "b", shape := [2], layout := .rowMajor, tier := .shared, dtype := .f32 }

def output : Tensor :=
  { name := "out", shape := [4], layout := .rowMajor, tier := .global, dtype := .f32 }

def loop : LoopVar := ⟨"i", 0, 2⟩

/-- The tile at the loop's value. -/
def along : Access := { dims := [0], rows := [[1]], offsets := [0], vars := [loop] }

def fetch : Movement := ⟨input, staged, along, .globalToShared, rfl⟩
def pick : Movement := ⟨staged, first, along, .sharedToRegister, rfl⟩
def gather : Movement := ⟨third, gathered, along, .registerToShared, rfl⟩
def flush : Movement := ⟨gathered, output, along, .sharedToGlobal, rfl⟩

def x : TensorNode := ⟨⟨0⟩, first⟩
def y : TensorNode := ⟨⟨1⟩, second⟩
def z : TensorNode := ⟨⟨2⟩, third⟩
def narrow : Node := .compute ⟨3⟩ (.convert x y)
def widen : Node := .compute ⟨4⟩ (.convert y z)

def innerDraft : Draft :=
  ((Draft.empty.addNodes [.tensor x, .tensor y, .tensor z, narrow, widen]).1.addEdges
    [⟨.tensor x, narrow⟩, ⟨narrow, .tensor y⟩, ⟨.tensor y, widen⟩, ⟨widen, .tensor z⟩]).1.connect.1

def inner : Block where
  loads := [pick]
  body :=
    { nodes := [.tensor x, .tensor y, .tensor z, narrow, widen]
      edges := [⟨⟨0⟩, ⟨3⟩⟩, ⟨⟨3⟩, ⟨1⟩⟩, ⟨⟨1⟩, ⟨4⟩⟩, ⟨⟨4⟩, ⟨2⟩⟩]
      order := [0, 3, 1, 4, 2] }
  stores := [gather]
  vars := [loop]

def outerDraft : Draft := (Draft.empty.addNodes [.block ⟨5⟩ inner]).1.connect.1

def outer : Block where
  loads := [fetch]
  body := { nodes := [.block ⟨5⟩ inner], edges := [], order := [0] }
  stores := [flush]
  vars := [loop]

def kernel : Program := .block outer

theorem innerDraft_reachable : innerDraft.Reachable :=
  ((Draft.Reachable.empty.addNodes _).addEdges _).connect

theorem outerDraft_reachable : outerDraft.Reachable := (Draft.Reachable.empty.addNodes _).connect

theorem inner_built : inner.Built := by
  refine Block.built_of_make innerDraft_reachable rfl (fun n hn => ?_) (by decide) rfl
  simp only [inner, List.mem_cons, List.not_mem_nil, or_false] at hn
  rcases hn with rfl | rfl | rfl | rfl | rfl
  · trivial
  · trivial
  · trivial
  · exact .inr ⟨.tensor x, .tensor y, rfl⟩
  · exact .inr ⟨.tensor y, .tensor z, rfl⟩

theorem kernel_built : kernel.Built := by
  refine Block.built_of_make (b := outer) outerDraft_reachable rfl (fun n hn => ?_) (by decide) rfl
  simp only [outer, List.mem_singleton] at hn
  subst hn
  exact inner_built

/-- The tensor at an offset, live between two positions of the schedule. -/
def slot (t : Tensor) (offset first last : Nat) : Allocation :=
  ⟨t.name, t.tier, t.dtype, t.shape, offset, t.bytes, ⟨first, last⟩⟩

/-- The plan with these allocations. -/
def planOf (allocations : List Allocation) : Plan := allocations.foldl Plan.push .empty

/-- The plan of the kernel. The registers of `x` are free again when `z` is written. -/
def placed : Plan :=
  planOf [slot input 0 0 9, slot staged 0 1 7, slot first 0 3 4, slot second 16 4 5,
    slot third 0 5 6, slot gathered 16 0 9, slot output 16 0 9]

theorem kernel_plan : kernel.plan {} = .ok placed := by decide +kernel

/-- The events of one iteration of the inner loop. -/
def innerEvents (i : Int64) : List Event :=
  [.load ⟨"a", "x", .sharedToRegister, [i]⟩, .compute .convert ["x"] "y",
    .compute .convert ["y"] "z", .store ⟨"z", "b", .registerToShared, [i]⟩]

/-- The events of one iteration of the outer loop. -/
def outerEvents (i : Int64) : List Event :=
  .load ⟨"in", "a", .globalToShared, [i]⟩ ::
    (innerEvents 0 ++ innerEvents 1 ++ [.store ⟨"b", "out", .sharedToGlobal, [i]⟩])

theorem kernel_expand : Trace.expand kernel.code = .ok (outerEvents 0 ++ outerEvents 1) := by
  decide +kernel

/-! ## Blocks around single tensors -/

/-- The graph of a single tensor. -/
def alone (n : TensorNode) : Graph := { nodes := [.tensor n], edges := [], order := [0] }

def aloneDraft (n : TensorNode) : Draft := (Draft.empty.addNodes [.tensor n]).1.connect.1

theorem built_of_alone {b : Block} {n : TensorNode} (hb : b.body = alone n)
    (hm : Block.make b.loads (aloneDraft n) b.stores b.vars = .ok b) : b.Built := by
  have hd : (aloneDraft n).graph .ordering = .ok b.body := hb ▸ rfl
  refine Block.built_of_make (Draft.Reachable.empty.addNodes _).connect hd ?_ ?_ hm
  · rw [hb]
    intro m hm
    rw [List.mem_singleton.1 hm]
    trivial
  · rw [hb]
    exact fun t ht => absurd ht List.not_mem_nil

/-- A block in global memory that stores to shared memory. -/
def source : Block where
  loads := []
  body := alone ⟨⟨0⟩, input⟩
  stores := [fetch]
  vars := [loop]

/-- A block in registers that loads from there. -/
def sink : Block where
  loads := [pick]
  body := alone ⟨⟨1⟩, first⟩
  stores := []
  vars := [loop]

theorem source_built : source.Built := built_of_alone rfl rfl

theorem sink_built : sink.Built := built_of_alone rfl rfl

/-! ## A tile that is read again

  A tile is brought to shared memory once and read in every iteration of a loop. Each iteration
  opens with a loop that would write the tile anew but has no value to run for, and ends with
  another tile brought to shared memory. -/

def far : Tensor := { staged with name := "g", tier := .global, name_ne := by decide }
def near : Tensor := { staged with name := "r", tier := .register, name_ne := by decide }

/-- A loop without a value. -/
def never : LoopVar := ⟨"j", 0, 0⟩

def bring : Movement := ⟨far, staged, .bulk, .globalToShared, rfl⟩
def putBack : Movement :=
  ⟨near, staged, { dims := [0], rows := [[1]], offsets := [0], vars := [never] },
    .registerToShared, rfl⟩
def takeUp : Movement := ⟨staged, near, .bulk, .sharedToRegister, rfl⟩
def bringOther : Movement := ⟨far, gathered, .bulk, .globalToShared, rfl⟩

def returning : Block where
  loads := []
  body := alone ⟨⟨0⟩, near⟩
  stores := [putBack]
  vars := [never]

def taking : Block where
  loads := [takeUp]
  body := alone ⟨⟨1⟩, near⟩
  stores := []
  vars := []

def filling : Block where
  loads := [bringOther]
  body := alone ⟨⟨2⟩, gathered⟩
  stores := []
  vars := []

def rereadDraft : Draft :=
  ((Draft.empty.addNodes [.block ⟨3⟩ returning, .block ⟨4⟩ taking, .block ⟨5⟩ filling]).1.addEdges
    [⟨.block ⟨3⟩ returning, .block ⟨4⟩ taking⟩,
      ⟨.block ⟨4⟩ taking, .block ⟨5⟩ filling⟩]).1.connect.1

def reread : Block where
  loads := [bring]
  body :=
    { nodes := [.block ⟨3⟩ returning, .block ⟨4⟩ taking, .block ⟨5⟩ filling]
      edges := [⟨⟨3⟩, ⟨4⟩⟩, ⟨⟨4⟩, ⟨5⟩⟩]
      order := [0, 1, 2] }
  stores := []
  vars := [loop]

def rereading : Program := .block reread

theorem rereading_built : rereading.Built := by
  refine Block.built_of_make (b := reread) (d := rereadDraft)
    ((Draft.Reachable.empty.addNodes _).addEdges _).connect rfl (fun n hn => ?_) (by decide) rfl
  simp only [reread, List.mem_cons, List.not_mem_nil, or_false] at hn
  rcases hn with rfl | rfl | rfl
  · exact built_of_alone (b := returning) rfl rfl
  · exact built_of_alone (b := taking) rfl rfl
  · exact built_of_alone (b := filling) rfl rfl

/-- The plan, with the tile that is brought later at an offset. -/
def rereadPlan (offset : Nat) : Plan :=
  planOf [slot far 0 0 7, slot staged 0 0 5, slot near 0 1 7, slot gathered offset 6 6]

theorem rereading_plan : rereading.plan {} = .ok (rereadPlan 0) := by decide +kernel

end Sample

end TileNest
