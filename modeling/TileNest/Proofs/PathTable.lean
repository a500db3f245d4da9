import TileNest.Proofs.DraftRuns
import TileNest.Proofs.Sharing

/-
  The table of what lies below each node is the transitive closure of the successors. One sweep
  through the order from its end is enough, because the rows of all successors are final when they
  are joined (`Settled.extend`): every node of the part that was swept has its row, the rows stay
  inside that part, and no node lies below itself.

  Main result: `Reach.closure_of_table`, for every table of successors and every order of its nodes
  that puts successors later. `Draft.Reachable.reaches_iff_path` is the same of the graph of every
  connected draft.
-/

namespace TileNest

namespace Reach

variable {successors : Nat → List Nat} {order nodes : List Nat} {table : Below}

/-- A path of at least one edge. -/
def Path (successors : Nat → List Nat) : Nat → Nat → Prop :=
  Relation.TransGen fun i j => j ∈ successors i

/-- Every successor of a node of the order is in the order, after that node. -/
def Forward (successors : Nat → List Nat) (order : List Nat) : Prop :=
  ∀ node ∈ order, ∀ next ∈ successors node,
    next ∈ order ∧ order.idxOf node < order.idxOf next

/-! ## The part of the order that was swept -/

/-- The rows are final for the nodes of a part that was swept. -/
structure Settled (successors : Nat → List Nat) (nodes : List Nat) (table : Below) : Prop where
  complete : ∀ node ∈ nodes, ∀ target, Path successors node target →
    reaches table node target = true
  inside : ∀ node target, reaches table node target = true → target ∈ nodes
  irreflexive : ∀ node, reaches table node node = false

theorem Settled.nil : Settled successors [] [] where
  complete node hn := absurd hn List.not_mem_nil
  inside node target ht := by
    rw [reaches_nil] at ht
    cases ht
  irreflexive node := reaches_nil node node

section

variable (h : Settled successors nodes table) {node : Nat}
  (hnext : ∀ next ∈ successors node, next ∈ nodes)

include h hnext

/-- The first edge of a path from the new node leads into the part that was swept. -/
theorem Settled.reaches_extend {target : Nat} (hp : Path successors node target) :
    reaches (extend successors node table) node target = true := by
  obtain ⟨next, hn, hrest⟩ := Relation.TransGen.head'_iff.1 hp
  refine reaches_extend_self.2 ⟨next, hn, ?_⟩
  rcases Relation.reflTransGen_iff_eq_or_transGen.1 hrest with rfl | hrest
  · exact .inl rfl
  · exact .inr (h.complete next (hnext next hn) target hrest)

/-- What the new row holds was swept before. -/
theorem Settled.mem_of_reaches_extend {target : Nat}
    (ht : reaches (extend successors node table) node target = true) : target ∈ nodes := by
  obtain ⟨next, hn, rfl | ht⟩ := reaches_extend_self.1 ht
  · exact hnext target hn
  · exact h.inside next target ht

theorem Settled.extend (hnew : node ∉ nodes) :
    Settled successors (node :: nodes) (extend successors node table) where
  complete source hs target hp := by
    by_cases he : source = node
    · subst he
      exact h.reaches_extend hnext hp
    · rw [reaches_extend_of_ne he]
      exact h.complete source ((List.mem_cons.1 hs).resolve_left he) target hp
  inside source target ht := by
    by_cases he : source = node
    · subst he
      exact List.mem_cons_of_mem source (h.mem_of_reaches_extend hnext ht)
    · rw [reaches_extend_of_ne he] at ht
      exact List.mem_cons_of_mem node (h.inside source target ht)
  irreflexive source := by
    by_cases he : source = node
    · subst he
      exact Bool.eq_false_iff.2 fun hs => hnew (h.mem_of_reaches_extend hnext hs)
    · rw [reaches_extend_of_ne he]
      exact h.irreflexive source

end

/-! ## The whole sweep -/

theorem Forward.head {node : Nat} (h : Forward successors (node :: nodes)) :
    ∀ next ∈ successors node, next ∈ nodes := by
  intro next hn
  obtain ⟨hm, hlt⟩ := h node List.mem_cons_self next hn
  rcases List.mem_cons.1 hm with rfl | hm
  · exact absurd hlt (Nat.lt_irrefl _)
  · exact hm

theorem Forward.tail {node : Nat} (h : Forward successors (node :: nodes)) (hnew : node ∉ nodes) :
    Forward successors nodes := by
  intro source hs next hn
  have hsource : node ≠ source := fun e => hnew (e ▸ hs)
  obtain ⟨hm, hlt⟩ := h source (List.mem_cons_of_mem node hs) next hn
  rw [List.idxOf_cons_ne nodes hsource] at hlt
  have hnext : node ≠ next := by
    rintro rfl
    rw [List.idxOf_cons_self] at hlt
    exact Nat.not_lt_zero _ hlt
  rw [List.idxOf_cons_ne nodes hnext] at hlt
  exact ⟨(List.mem_cons.1 hm).resolve_left hnext.symm, Nat.lt_of_succ_lt_succ hlt⟩

theorem settled_below (hn : order.Nodup) (hf : Forward successors order) :
    Settled successors order (below successors order) := by
  unfold below
  induction order with
  | nil => exact .nil
  | cons node order ih =>
    obtain ⟨hnew, hn⟩ := List.nodup_cons.1 hn
    exact (ih hn (hf.tail hnew)).extend hf.head hnew

/-- From the nodes of the order, the table shows the paths and nothing else. -/
theorem reaches_iff_of_mem (hn : order.Nodup) (hf : Forward successors order) {source : Nat}
    (hs : source ∈ order) (target : Nat) :
    reaches (below successors order) source target = true ↔ Path successors source target := by
  refine ⟨path_of_reaches source target, fun hp => ?_⟩
  exact (settled_below hn hf).complete source hs target hp

/-- A node without successors starts no path. -/
theorem not_path_of_isEmpty {source target : Nat} (h : successors source = []) :
    ¬ Path successors source target := by
  intro hp
  obtain ⟨next, hn, -⟩ := Relation.TransGen.head'_iff.1 hp
  rw [h] at hn
  exact List.not_mem_nil hn

/-- When all nodes with successors are in the order, the table shows the paths and nothing else. -/
theorem reaches_iff (hn : order.Nodup) (hf : Forward successors order)
    (hall : ∀ node, successors node ≠ [] → node ∈ order) (source target : Nat) :
    reaches (below successors order) source target = true ↔ Path successors source target := by
  by_cases hs : source ∈ order
  · exact reaches_iff_of_mem hn hf hs target
  · have hnone : successors source = [] := not_not.1 (mt (hall source) hs)
    exact ⟨path_of_reaches source target, fun hp => absurd hp (not_path_of_isEmpty hnone)⟩

theorem reaches_self (hn : order.Nodup) (hf : Forward successors order) (node : Nat) :
    reaches (below successors order) node node = false :=
  (settled_below hn hf).irreflexive node

/-! ## Tables of successors -/

theorem lt_length_of_listed {successors : List (List Nat)} {node : Nat}
    (h : listed successors node ≠ []) : node < successors.length := by
  by_contra hge
  have hnone := List.getElem?_eq_none (Nat.le_of_not_lt hge)
  exact h (by rw [listed, List.getD_eq_getElem?_getD, hnone, Option.getD_none])

/-- The order lists every node of the table once, and successors after the node. -/
structure Linearizes (successors : List (List Nat)) (order : List Nat) : Prop where
  perm : order.Perm (List.range successors.length)
  forward : Forward (listed successors) order

theorem Linearizes.nodup {successors : List (List Nat)} (h : Linearizes successors order) :
    order.Nodup :=
  h.perm.nodup_iff.2 List.nodup_range

theorem Linearizes.reaches_iff {successors : List (List Nat)} (h : Linearizes successors order)
    (source target : Nat) :
    reaches (below (listed successors) order) source target = true ↔
      Path (listed successors) source target := by
  refine Reach.reaches_iff h.nodup h.forward (fun node hs => ?_) source target
  exact h.perm.mem_iff.2 (List.mem_range.2 (lt_length_of_listed hs))

/-- The table of what lies below each node is the transitive closure of the successors, and no node
    lies below itself. How often a successor is listed and which of the orders is swept makes no
    difference. -/
theorem closure_of_table {successors : List (List Nat)} (h : Linearizes successors order) :
    (∀ source target, reaches (below (listed successors) order) source target = true ↔
      Path (listed successors) source target) ∧
    (∀ node, reaches (below (listed successors) order) node node = false) ∧
    ∀ others sweep, Linearizes others sweep →
      (∀ i j, j ∈ listed others i ↔ j ∈ listed successors i) →
      reaches (below (listed others) sweep) = reaches (below (listed successors) order) := by
  refine ⟨h.reaches_iff, reaches_self h.nodup h.forward, fun others sweep ho hsame => ?_⟩
  have hpath : Path (listed others) = Path (listed successors) := by
    unfold Path
    simp only [hsame]
  funext source target
  rw [Bool.eq_iff_iff, ho.reaches_iff, h.reaches_iff, hpath]

/-- A chain, with one of its edges listed twice, beside a node of its own. -/
theorem closure_of_table_chain :
    Linearizes [[1, 1], [2], [], []] [0, 3, 1, 2] ∧
      reaches (below (listed [[1, 1], [2], [], []]) [0, 3, 1, 2]) 0 2 = true ∧
      Path (listed [[1, 1], [2], [], []]) 0 2 ∧ ¬ Path (listed [[1, 1], [2], [], []]) 0 3 := by
  have h : Linearizes [[1, 1], [2], [], []] [0, 3, 1, 2] := ⟨by decide, by unfold Forward; decide⟩
  have hclosure := (closure_of_table h).1
  have hreach : reaches (below (listed [[1, 1], [2], [], []]) [0, 3, 1, 2]) 0 2 = true := by decide
  refine ⟨h, hreach, (hclosure 0 2).1 hreach, fun hp => ?_⟩
  exact absurd ((hclosure 0 3).2 hp) (by decide)

end Reach

/-! ## Connected graphs -/

namespace Draft.Reachable

variable {d : Draft} (r : d.Reachable) {stage : Stage} {g : Graph} (hg : d.graph stage = .ok g)

include r hg

theorem graph_topological : Order.Topological g.Joins g.nodes.length g.order := by
  obtain ⟨hnodes, hedges, ho⟩ := graph_eq_ok hg
  have hjoins : g.Joins = d.Joins := by
    unfold Graph.Joins Joins
    simp only [← hnodes, ← hedges, List.mem_map, exists_exists_and_eq_and]
  rw [← hnodes, hjoins]
  exact (r.sound.connected g.order ho).1

/-- The analysis of a connected draft finds exactly the paths of its graph. -/
theorem reaches_iff_path (i j : Nat) : Reach.reaches g.reach i j = true ↔ g.Path i j := by
  have hids := r.graph_ids hg
  obtain ⟨hperm, hforward⟩ := r.graph_topological hg
  have hmem : ∀ {i j}, g.Joins i j → i ∈ g.order ∧ j ∈ g.order := by
    rintro i j ⟨e, -, hi, hj⟩
    obtain ⟨m, hm, -⟩ := Option.map_eq_some_iff.1 hi
    obtain ⟨n, hn, -⟩ := Option.map_eq_some_iff.1 hj
    rw [hperm.mem_iff, hperm.mem_iff, List.mem_range, List.mem_range]
    exact ⟨(List.getElem?_eq_some_iff.1 hm).1, (List.getElem?_eq_some_iff.1 hn).1⟩
  have hsequence : g.sequence = g.order :=
    Graph.sequence_eq hids fun i hi => List.mem_range.1 (hperm.mem_iff.1 hi)
  have hpath : Reach.Path (Reach.listed g.successors) = g.Path := by
    unfold Reach.Path Graph.Path
    simp only [Graph.mem_successors hids]
  unfold Graph.reach
  rw [hsequence, ← hpath]
  refine Reach.reaches_iff (hperm.nodup_iff.2 List.nodup_range) ?_ ?_ i j
  · intro node _ next hn
    have hjoins := (Graph.mem_successors hids).1 hn
    exact ⟨(hmem hjoins).2, hforward _ _ hjoins⟩
  · intro node hs
    obtain ⟨next, hn⟩ := List.exists_mem_of_ne_nil _ hs
    exact (hmem ((Graph.mem_successors hids).1 hn)).1

end Draft.Reachable

end TileNest
