import TileNest.Hierarchy.Draft
import TileNest.Proofs.Indexes
import TileNest.Proofs.Lists
import TileNest.Proofs.ReadyCounters

/-
  The state of a draft and what changes do to it. Each change is read off once, with the state that
  it leaves when it fails (`addNode_cases`, `addEdge_cases`, `connect_cases`). Whatever changes a
  draft went through, its index is exact, its tensors have different names, and the ends of its
  links are indexed (`Reachable.wellFormed`). So the look-ups of `connect` all succeed
  (`WellFormed.mapM_arrow`), its counter loop sorts the positions of the nodes by the links
  between them (`WellFormed.findOrder_of_checked`), and an order that is stored is the one that the
  present nodes and links give (`Reachable.findOrder_eq`).
-/

namespace TileNest

theorem Node.tensor?_eq_some {n : Node} {t : TensorNode} (h : n.tensor? = some t) :
    n = .tensor t := by
  cases n with
  | tensor u => exact congrArg Node.tensor (Option.some.inj h)
  | compute id op => cases h
  | block id b => cases h

/-- The edge leads from the node at position `i` to the node at position `j`. -/
def Edge.Joins (e : Edge) (nodes : List Node) (i j : Nat) : Prop :=
  nodes[i]?.map Node.id = some e.source ∧ nodes[j]?.map Node.id = some e.target

namespace Draft

/-- Some link leads from the node at position `i` to the node at position `j`. -/
def Joins (d : Draft) (i j : Nat) : Prop := ∃ l ∈ d.links, l.edge.Joins d.nodes i j

/-! ## Single changes -/

/-- A node is refused and changes nothing, or its identity and its name are new and it comes
    last. -/
theorem addNode_cases (d : Draft) (n : Node) :
    d.addNode n = (d, some (.duplicateNode n.label)) ∨
    d.index.get? n.id = none ∧ n.tensor?.any (d.hasTensorNamed ·.name) = false ∧
      d.addNode n =
        (⟨d.nodes ++ [n], d.index.insert n.id d.nodes.length, d.links, none⟩, none) := by
  unfold addNode
  split
  · exact .inl rfl
  · next hid =>
    rw [Bool.not_eq_true, KeyMap.contains_eq_false_iff] at hid
    split
    · exact .inl rfl
    · next hname => exact .inr ⟨hid, Bool.eq_false_iff.2 hname, rfl⟩

/-- A link is refused and changes nothing, or both its ends are indexed and it comes last. -/
theorem addEdge_cases (d : Draft) (l : Link) :
    (∃ missing, d.addEdge l =
      (d, some (.danglingEdge l.source.label l.target.label missing))) ∨
    d.index.contains l.source.id = true ∧ d.index.contains l.target.id = true ∧
      d.addEdge l = (⟨d.nodes, d.index, d.links ++ [l], none⟩, none) := by
  unfold addEdge
  split
  · next missing _ => exact .inl ⟨missing.label, rfl⟩
  · next hnone =>
    rw [List.find?_eq_none, List.forall_mem_cons, List.forall_mem_singleton] at hnone
    exact .inr ⟨by simpa using hnone.1, by simpa using hnone.2, rfl⟩

theorem connect_of_ok {d : Draft} {order : List Nat} (h : d.findOrder = .ok order) :
    d.connect = ({ d with order := some order }, none) := by
  have hsame : ({ d with order := none } : Draft).findOrder = .ok order := h
  unfold connect
  dsimp only
  rw [hsame]

theorem connect_of_error {d : Draft} {fault : Fault} (h : d.findOrder = .error fault) :
    d.connect = ({ d with order := none }, some fault) := by
  have hsame : ({ d with order := none } : Draft).findOrder = .error fault := h
  unfold connect
  dsimp only
  rw [hsame]

/-- A connection stores the order that is found, or leaves the draft without one. -/
theorem connect_cases (d : Draft) :
    (∃ order, d.findOrder = .ok order ∧ d.connect = ({ d with order := some order }, none)) ∨
    ∃ fault, d.findOrder = .error fault ∧ d.connect = ({ d with order := none }, some fault) := by
  cases h : d.findOrder with
  | ok order => exact .inl ⟨order, rfl, connect_of_ok h⟩
  | error fault => exact .inr ⟨fault, rfl, connect_of_error h⟩

/-! ## Reachable drafts -/

/-- The drafts that additions and connections lead to, with whatever success. -/
inductive Reachable : Draft → Prop
  | empty : Reachable .empty
  | addNode {d : Draft} (n : Node) : Reachable d → Reachable (d.addNode n).1
  | addEdge {d : Draft} (l : Link) : Reachable d → Reachable (d.addEdge l).1
  | connect {d : Draft} : Reachable d → Reachable d.connect.1

/-- The function adds entries one after the other and stops at the first that fails. -/
structure Batch {α : Type} (add : Draft → α → Draft × Option Fault)
    (addAll : Draft → List α → Draft × Option Fault) : Prop where
  nil : ∀ d, addAll d [] = (d, none)
  cons : ∀ d x xs, addAll d (x :: xs) =
    match add d x with
    | (d, none) => addAll d xs
    | (d, some fault) => (d, some fault)

theorem addNodes_batch : Batch addNode addNodes := ⟨fun _ => rfl, fun _ _ _ => rfl⟩

theorem addEdges_batch : Batch addEdge addEdges := ⟨fun _ => rfl, fun _ _ _ => rfl⟩

/-- What every single addition keeps, a batch keeps. -/
theorem Batch.keeps {α : Type} {add : Draft → α → Draft × Option Fault}
    {addAll : Draft → List α → Draft × Option Fault} (hb : Batch add addAll) {P : Draft → Prop}
    (hadd : ∀ d x, P d → P (add d x).1) {d : Draft} (h : P d) (xs : List α) :
    P (addAll d xs).1 := by
  induction xs generalizing d with
  | nil =>
    rw [hb.nil]
    exact h
  | cons x xs ih =>
    have hx := hadd d x h
    rw [hb.cons]
    split
    · next hd =>
      rw [hd] at hx
      exact ih hx
    · next hd =>
      rw [hd] at hx
      exact hx

namespace Reachable

/-- Adding nodes one after the other, up to the first that fails. -/
theorem addNodes {d : Draft} (h : d.Reachable) (ns : List Node) : (d.addNodes ns).1.Reachable :=
  addNodes_batch.keeps (fun _ n h => h.addNode n) h ns

/-- Adding edges one after the other, up to the first that fails. -/
theorem addEdges {d : Draft} (h : d.Reachable) (ls : List Link) : (d.addEdges ls).1.Reachable :=
  addEdges_batch.keeps (fun _ l h => h.addEdge l) h ls

end Reachable

/-! ## What every change keeps -/

/-- The index is exact, tensors differ in their names, and links join nodes. -/
structure WellFormed (d : Draft) : Prop where
  index : d.index.Indexes (d.nodes.map Node.id)
  names : ((d.nodes.filterMap Node.tensor?).map TensorNode.name).Nodup
  ends : ∀ l ∈ d.links, l.source.id ∈ d.nodes.map Node.id ∧ l.target.id ∈ d.nodes.map Node.id

namespace WellFormed

variable {d : Draft}

theorem empty : Draft.empty.WellFormed :=
  ⟨KeyMap.indexes_nil, List.nodup_nil, fun _ hl => absurd hl List.not_mem_nil⟩

/-- Nodes differ in their identities. -/
theorem ids (h : d.WellFormed) : (d.nodes.map Node.id).Nodup := h.index.nodup

theorem addNode (h : d.WellFormed) (n : Node) : (d.addNode n).1.WellFormed := by
  obtain hrefused | ⟨hid, hname, hadded⟩ := d.addNode_cases n
  · rw [hrefused]
    exact h
  rw [hadded]
  refine ⟨?_, ?_, fun l hl => ?_⟩
  · have hindex := h.index.push (h.index.get?_eq_none_iff.1 hid)
    rwa [List.length_map, ← List.map_singleton, ← List.map_append] at hindex
  · rw [List.filterMap_append, List.map_append]
    cases ht : n.tensor? with
    | none => simpa [ht] using h.names
    | some t =>
      have hnew : t.name ∉ (d.nodes.filterMap Node.tensor?).map TensorNode.name := by
        rw [ht, Option.any_some, hasTensorNamed, List.any_eq_false] at hname
        intro hm
        obtain ⟨u, hu, he⟩ := List.mem_map.1 hm
        exact hname u hu (beq_iff_eq.2 he)
      have hone : [n].filterMap Node.tensor? = [t] := by simp [ht]
      rw [hone, List.nodup_append_comm]
      exact List.nodup_cons.2 ⟨hnew, h.names⟩
  · rw [List.map_append]
    exact (h.ends l hl).imp (List.mem_append_left _) (List.mem_append_left _)

theorem addEdge (h : d.WellFormed) (l : Link) : (d.addEdge l).1.WellFormed := by
  obtain ⟨missing, hrefused⟩ | ⟨hsource, htarget, hadded⟩ := d.addEdge_cases l
  · rw [hrefused]
    exact h
  rw [hadded]
  refine ⟨h.index, h.names, fun k hk => ?_⟩
  rcases List.mem_append.1 hk with hk | hk
  · exact h.ends k hk
  · rw [List.mem_singleton.1 hk]
    exact ⟨h.index.contains_iff.1 hsource, h.index.contains_iff.1 htarget⟩

theorem connect (h : d.WellFormed) : d.connect.1.WellFormed := by
  obtain ⟨order, -, hd⟩ | ⟨fault, -, hd⟩ := d.connect_cases
  · rw [hd]
    exact ⟨h.index, h.names, h.ends⟩
  · rw [hd]
    exact ⟨h.index, h.names, h.ends⟩

end WellFormed

theorem Reachable.wellFormed {d : Draft} (r : d.Reachable) : d.WellFormed := by
  induction r with
  | empty => exact .empty
  | addNode n _ ih => exact ih.addNode n
  | addEdge l _ ih => exact ih.addEdge l
  | connect _ ih => exact ih.connect

/-! ## Links by position -/

theorem position_eq_ok_iff {d : Draft} {n : Node} {i : Nat} :
    d.position n = .ok i ↔ d.index.get? n.id = some i := by
  unfold position
  cases d.index.get? n.id with
  | none => simp
  | some j => simp

theorem arrow_eq_ok_iff {d : Draft} {l : Link} {a : Arrow} :
    d.arrow l = .ok a ↔
      d.index.get? l.source.id = some a.source ∧ d.index.get? l.target.id = some a.target := by
  rw [← position_eq_ok_iff, ← position_eq_ok_iff, arrow]
  cases d.position l.source with
  | error fault => simp [bind, Except.bind]
  | ok i =>
    cases d.position l.target with
    | error fault => simp [bind, Except.bind]
    | ok j =>
      obtain ⟨source, target⟩ := a
      simp [bind, Except.bind, pure, Except.pure]

/-- The links by the positions of their ends, as far as these are found. -/
def arrows (d : Draft) : List Arrow := d.links.filterMap fun l => (d.arrow l).toOption

theorem mem_arrows_iff {d : Draft} {a : Arrow} :
    a ∈ d.arrows ↔ ∃ l ∈ d.links, d.arrow l = .ok a := by
  rw [arrows, List.mem_filterMap]
  refine exists_congr fun l => and_congr_right fun _ => ?_
  cases d.arrow l with
  | error fault => simp [Except.toOption]
  | ok b => simp [Except.toOption]

namespace WellFormed

variable {d : Draft} (h : d.WellFormed)

include h

theorem index_iff {id : NodeId} {i : Nat} :
    d.index.get? id = some i ↔ d.nodes[i]?.map Node.id = some id := by
  rw [h.index, List.getElem?_map]

/-- Every end of a link is found: no connection stops there. -/
theorem mapM_arrow : d.links.mapM d.arrow = .ok d.arrows := by
  rw [Lists.mapM_eq_ok_iff]
  have hsome : ∀ l ∈ d.links, ((d.arrow l).toOption).isSome := by
    intro l hl
    obtain ⟨hs, ht⟩ := h.ends l hl
    obtain ⟨i, hi⟩ := h.index.mem_iff.1 hs
    obtain ⟨j, hj⟩ := h.index.mem_iff.1 ht
    have ha : d.arrow l = .ok ⟨i, j⟩ := arrow_eq_ok_iff.2 ⟨hi, hj⟩
    rw [ha]
    rfl
  refine (Lists.forall₂_filterMap hsome).imp fun l a ha => ?_
  cases hl : d.arrow l with
  | error fault => simp [hl, Except.toOption] at ha
  | ok b => simpa [hl, Except.toOption] using ha

theorem leads_arrows : Order.Leads d.arrows = d.Joins := by
  funext i j
  rw [Order.Leads, mem_arrows_iff, Joins, eq_iff_iff]
  refine exists_congr fun l => and_congr_right fun _ => ?_
  rw [arrow_eq_ok_iff, h.index_iff, h.index_iff]
  rfl

theorem arrows_lt : ∀ a ∈ d.arrows, a.source < d.nodes.length ∧ a.target < d.nodes.length := by
  intro a ha
  obtain ⟨l, -, hl⟩ := mem_arrows_iff.1 ha
  obtain ⟨hs, ht⟩ := arrow_eq_ok_iff.1 hl
  have hlength : (d.nodes.map Node.id).length = d.nodes.length := List.length_map _
  exact ⟨hlength ▸ h.index.lt_length hs, hlength ▸ h.index.lt_length ht⟩

/-- A draft that passes the first two checks is ordered, or its cycles are reported. -/
theorem findOrder_of_checked (hc : d.links.findSome? Link.tierClash? = none)
    (hu : d.unlinked? = none) :
    d.findOrder = if (Order.leastFirst d.nodes.length d.arrows).2 = [] then
      .ok (Order.leastFirst d.nodes.length d.arrows).1
    else .error (.cycle (d.labels (Order.leastFirst d.nodes.length d.arrows).2)) := by
  obtain ⟨htaken, hheld, -⟩ := Order.sort_eq h.arrows_lt
  have hlength := Order.length_leastFirst d.nodes.length d.arrows
  unfold findOrder
  rw [hc, hu, h.mapM_arrow]
  dsimp only
  rw [htaken, hheld]
  by_cases hnil : (Order.leastFirst d.nodes.length d.arrows).2 = []
  · rw [hnil, List.length_nil, Nat.add_zero] at hlength
    rw [if_pos hnil, if_neg (by omega)]
  · have hpos := List.length_pos_iff.2 hnil
    rw [if_neg hnil, if_pos (by omega)]

/-- What `findOrder` checked when it gives an order. -/
theorem findOrder_eq_ok {order : List Nat} (hf : d.findOrder = .ok order) :
    d.links.findSome? Link.tierClash? = none ∧ d.unlinked? = none ∧
      Order.leastFirst d.nodes.length d.arrows = (order, []) := by
  cases hc : d.links.findSome? Link.tierClash? with
  | some clash => simp [findOrder, hc] at hf
  | none =>
    cases hu : d.unlinked? with
    | some unlinked => simp [findOrder, hc, hu] at hf
    | none =>
      rw [h.findOrder_of_checked hc hu] at hf
      split at hf
      · next hnil => exact ⟨rfl, rfl, Prod.ext (Except.ok.inj hf) hnil⟩
      · cases hf

end WellFormed

/-! ## Stored orders -/

/-- A stored order is the one that the present nodes and links give: every addition drops it. -/
theorem Reachable.findOrder_eq {d : Draft} (r : d.Reachable) {order : List Nat}
    (h : d.order = some order) : d.findOrder = .ok order := by
  induction r with
  | empty => cases h
  | @addNode d n _ ih =>
    obtain hd | ⟨-, -, hd⟩ := d.addNode_cases n
    · rw [hd] at h ⊢
      exact ih h
    · rw [hd] at h
      cases h
  | @addEdge d l _ ih =>
    obtain ⟨_, hd⟩ | ⟨-, -, hd⟩ := d.addEdge_cases l
    · rw [hd] at h ⊢
      exact ih h
    · rw [hd] at h
      cases h
  | @connect d _ _ =>
    obtain ⟨found, hf, hd⟩ | ⟨_, -, hd⟩ := d.connect_cases
    · rw [hd] at h ⊢
      cases h
      exact hf
    · rw [hd] at h
      cases h

/-- A stored order lists every position once. -/
theorem Reachable.order_perm {d : Draft} (r : d.Reachable) {order : List Nat}
    (h : d.order = some order) : order.Perm (List.range d.nodes.length) := by
  obtain ⟨-, -, hs⟩ := r.wellFormed.findOrder_eq_ok (r.findOrder_eq h)
  have hp := Order.takeReady_perm d.arrows d.nodes.length (List.range d.nodes.length)
  rw [Order.leastFirst] at hs
  rwa [hs, List.append_nil] at hp

theorem graph_eq_ok {d : Draft} {stage : Stage} {g : Graph} (h : d.graph stage = .ok g) :
    d.nodes = g.nodes ∧ d.links.map Link.edge = g.edges ∧ d.order = some g.order := by
  unfold graph at h
  split at h
  · next order ho =>
    cases h
    exact ⟨rfl, rfl, ho⟩
  · cases h

theorem Reachable.graph_ids {d : Draft} (r : d.Reachable) {stage : Stage} {g : Graph}
    (h : d.graph stage = .ok g) : (g.nodes.map Node.id).Nodup := by
  obtain ⟨hnodes, -⟩ := graph_eq_ok h
  rw [← hnodes]
  exact r.wellFormed.ids

/-! ## Linked operands -/

/-- No operand is unlinked exactly when each is linked to the node of its operation. -/
theorem unlinked?_eq_none_iff {d : Draft} : d.unlinked? = none ↔
    ∀ id op, .compute id op ∈ d.nodes → ∀ t ∈ op.operands, d.linked id t = true := by
  unfold unlinked?
  rw [List.findSome?_eq_none_iff]
  constructor
  · intro h id op hn t ht
    have hs := h _ hn
    simp only [Node.operation?, Option.bind_some, Option.map_eq_none_iff] at hs
    simpa [Node.id] using List.find?_eq_none.1 hs t ht
  · intro h n hn
    cases n with
    | tensor t => rfl
    | block id b => rfl
    | compute id op =>
      simp only [Node.operation?, Option.bind_some, Option.map_eq_none_iff]
      refine List.find?_eq_none.2 fun t ht => ?_
      simpa [Node.id] using h id op hn t ht

end Draft

end TileNest
