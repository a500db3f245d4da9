import TileNest.Proofs.Emission
import TileNest.Proofs.Sharing
import TileNest.Proofs.Survival

/-
  Where the analysis of conflicts stands. The analysis follows the schedule by counting: it is
  called on each block with the position at which the block starts, and on each graph with the
  position of its first instruction and the last position of its scope. `Scan` is such a call and
  `Scan.calls` lists the calls that it makes; `Scan.findings_eq` says that a call finds what it
  finds by itself and what these calls find.

  A `Place` is a part of a hierarchy with the instructions emitted before and after it. Calls and
  places are followed side by side along a path, which picks one occurrence of a block even where
  equal blocks occur twice. `Program.scanned_where_emitted` says that they never part: each call
  has the bounds that its part has in the schedule. Outputs of a graph therefore live to the last
  instruction of their scope, in every plan.
-/

namespace TileNest

/-! ## Calls of the analysis -/

/-- The findings of parts, one after the other. -/
def Interference.joined (parts : List Interference) : Interference := parts.foldr (· ++ ·) .none

theorem Interference.none_append (i : Interference) : .none ++ i = i := rfl

theorem Interference.append_none (i : Interference) : i ++ .none = i := by
  show Interference.mk (i.pairs ++ []) (i.outputs ++ []) = i
  rw [List.append_nil, List.append_nil]

theorem Interference.outputs_append (i j : Interference) :
    (i ++ j).outputs = i.outputs ++ j.outputs := rfl

theorem Interference.mem_outputs_joined {parts : List Interference} {i : Interference}
    (hi : i ∈ parts) {output : String × Nat} (h : output ∈ i.outputs) :
    output ∈ (joined parts).outputs := by
  induction parts with
  | nil => cases hi
  | cons j parts ih =>
    show output ∈ (j ++ joined parts).outputs
    rw [outputs_append, List.mem_append]
    rcases List.mem_cons.1 hi with rfl | hi
    · exact .inl h
    · exact .inr (ih hi)

/-- A call of the analysis: on a block that starts at a position, or on a graph that starts at a
    position, in a scope that ends at `last` and from which the named tensors are stored. -/
inductive Scan where
  | block (block : Block) (start : Nat)
  | graph (graph : Graph) (start last : Nat) (stored : List String)

namespace Scan

/-- The part of the hierarchy that is looked at. -/
def part : Scan → Program
  | block b _ => .block b
  | graph g _ _ _ => .graph g

def start : Scan → Nat
  | block _ start => start
  | graph _ start _ _ => start

/-- What the call gives back. -/
def findings : Scan → Interference
  | block b start => b.interference start
  | graph g start last stored => g.interference start last stored

/-- What the call finds by itself. -/
def own : Scan → Interference
  | block _ _ => .none
  | graph g _ last stored => g.ownInterference last stored

/-- The calls for nodes that follow each other from a position on. -/
def ofNodes (start : Nat) : List Node → List Scan
  | [] => []
  | .tensor _ :: ns => ofNodes start ns
  | .compute .. :: ns => ofNodes (start + 1) ns
  | .block _ b :: ns => .block b start :: ofNodes (start + b.steps) ns

/-- The calls that the call makes, in their order. Those of a graph are for its nodes as their
    identities are looked up. -/
def calls : Scan → List Scan
  | block b start => [.graph b.body (start + b.loads.length + b.vars.length) (start + b.steps - 1)
      (b.stores.map (·.source.name))]
  | graph g start _ _ => ofNodes start (g.sequence.filterMap (g.nodes[·]?))

theorem inSequence_eq (start : Nat) (ns : List Node) :
    Interference.inSequence start (ns.map fun n => (n.steps, n.interference)) =
      Interference.joined ((ofNodes start ns).map findings) := by
  induction ns generalizing start with
  | nil => rfl
  | cons n ns ih =>
    rw [List.map_cons, Interference.inSequence, ih]
    cases n with
    | tensor t => rfl
    | compute id op => rfl
    | block id b => rfl

/-- A call gives back what it finds by itself and what its calls give back. -/
theorem findings_eq (s : Scan) :
    s.findings = s.own ++ Interference.joined (s.calls.map findings) := by
  cases s with
  | block b start =>
    show b.interference start = Interference.none ++ (b.body.interference _ _ _ ++ .none)
    rw [Interference.none_append, Interference.append_none]
    exact b.interference_eq start
  | graph g start last stored =>
    show g.interference start last stored = _
    rw [Graph.interference_eq, inSequence_eq]
    rfl

theorem mem_outputs_of_calls {s t : Scan} (h : t ∈ s.calls) {output : String × Nat}
    (ho : output ∈ t.findings.outputs) : output ∈ s.findings.outputs := by
  rw [findings_eq, Interference.outputs_append]
  exact List.mem_append_right _ (Interference.mem_outputs_joined (List.mem_map_of_mem h) ho)

end Scan

/-! ## Places in the schedule -/

/-- A part of a hierarchy with the instructions that are emitted before and after it. -/
structure Place where
  before : List Instruction
  part : Program
  after : List Instruction

namespace Place

/-- The places of the blocks among nodes that are emitted one after the other. -/
def ofNodes (before after : List Instruction) : List Node → List Place
  | [] => []
  | .tensor _ :: ns => ofNodes before after ns
  | .compute _ op :: ns => ofNodes (before ++ [op.instruction]) after ns
  | .block _ b :: ns =>
    ⟨before, .block b, ns.flatMap Node.code ++ after⟩ :: ofNodes (before ++ b.code) after ns

/-- The body of a block, or the blocks of a graph in the order in which they run. -/
def inner : Place → List Place
  | ⟨before, .block b, after⟩ => [⟨before ++ b.opening, .graph b.body, b.closing ++ after⟩]
  | ⟨before, .graph g, after⟩ => ofNodes before after g.ordered

end Place

/-- What a path leads to: at each step to the entry of its number. -/
def descend {α : Type} (inner : α → List α) : (path : List Nat) → α → Option α
  | [], x => some x
  | k :: path, x => (inner x)[k]?.bind (descend inner path)

namespace Program

/-- The call on the whole program. -/
def scan : Program → Scan
  | graph g => .graph g 0 (g.steps - 1) []
  | block b => .block b 0

/-- The call on the part that a path leads to. -/
def scanAt (p : Program) (path : List Nat) : Option Scan := descend Scan.calls path p.scan

/-- The place of the part that a path leads to. -/
def placeAt (p : Program) (path : List Nat) : Option Place := descend Place.inner path ⟨[], p, []⟩

theorem interference_eq_findings (p : Program) : p.interference = p.scan.findings := by
  cases p <;> rfl

theorem part_scan (p : Program) : p.scan.part = p := by
  cases p <;> rfl

end Program

/-! ## Calls and places side by side -/

/-- The call is on the part at this place and starts where it starts. -/
structure Place.ScannedBy (q : Place) (s : Scan) : Prop where
  part : s.part = q.part
  start : s.start = q.before.length

/-- The place is one of the program: its part is built, seen by the walk, and emitted there. -/
structure Place.Of (p : Program) (q : Place) : Prop where
  built : q.part.Built
  visits : ∀ v ∈ q.part.visits, v ∈ p.visits
  code : p.code = q.before ++ q.part.code ++ q.after

theorem Place.scannedBy_ofNodes {ns : List Node} (h : ∀ n ∈ ns, n.Built)
    (before after : List Instruction) :
    List.Forall₂ ScannedBy (ofNodes before after ns) (Scan.ofNodes before.length ns) := by
  induction ns generalizing before with
  | nil => exact .nil
  | cons n ns ih =>
    have hns : ∀ m ∈ ns, m.Built := fun m hm => h m (List.mem_cons_of_mem n hm)
    cases n with
    | tensor t => exact ih hns before
    | compute id op =>
      have hnext := ih hns (before ++ [op.instruction])
      rwa [List.length_append] at hnext
    | block id b =>
      have hnext := ih hns (before ++ b.code)
      have hlength : b.code.length = b.steps := (h (.block id b) (by simp)).length_code
      rw [List.length_append, hlength] at hnext
      exact .cons ⟨rfl, rfl⟩ hnext

/-- The position that is counted for the body is the one behind the opening. -/
theorem Block.bodyStart_eq (b : Block) (before : List Instruction) :
    before.length + b.loads.length + b.vars.length = (before ++ b.opening).length := by
  rw [List.length_append, b.length_opening, Nat.add_assoc]

/-- The places inside a place are scanned by the calls of its call. -/
theorem Place.ScannedBy.inner {q : Place} {s : Scan} (h : q.ScannedBy s) (hq : q.part.Built) :
    List.Forall₂ ScannedBy q.inner s.calls := by
  obtain ⟨before, part, after⟩ := q
  obtain ⟨hpart, hstart⟩ := h
  cases s with
  | block b start =>
    obtain rfl : .block b = part := hpart
    obtain rfl : start = before.length := hstart
    exact .cons ⟨rfl, b.bodyStart_eq before⟩ .nil
  | graph g start last stored =>
    obtain rfl : .graph g = part := hpart
    obtain rfl : start = before.length := hstart
    have hcalls : (Scan.graph g before.length last stored).calls =
        Scan.ofNodes before.length g.ordered := by
      rw [Scan.calls, hq.sequence_eq]
      rfl
    rw [hcalls]
    exact scannedBy_ofNodes (fun n hn => hq.node (hq.mem_ordered.1 hn)) before after

theorem Place.mem_ofNodes {ns : List Node} {before after : List Instruction} {q : Place}
    (h : q ∈ Place.ofNodes before after ns) :
    ∃ front id b back, ns = front ++ .block id b :: back ∧
      q = ⟨before ++ front.flatMap Node.code, .block b, back.flatMap Node.code ++ after⟩ := by
  induction ns generalizing before with
  | nil => cases h
  | cons n ns ih =>
    cases n with
    | tensor t =>
      obtain ⟨front, id, b, back, rfl, rfl⟩ := ih h
      exact ⟨.tensor t :: front, id, b, back, rfl, rfl⟩
    | compute id op =>
      obtain ⟨front, id', b, back, rfl, rfl⟩ := ih h
      exact ⟨.compute id op :: front, id', b, back, rfl, by simp [Node.code]⟩
    | block id c =>
      rcases List.mem_cons.1 h with rfl | h
      · exact ⟨[], id, c, ns, rfl, by simp⟩
      · obtain ⟨front, id', b, back, rfl, rfl⟩ := ih h
        exact ⟨.block id c :: front, id', b, back, rfl, by simp [Node.code]⟩

/-- What is inside a place of the program is a place of the program. -/
theorem Place.Of.inner {p : Program} {q : Place} (h : q.Of p) {r : Place} (hr : r ∈ q.inner) :
    r.Of p := by
  obtain ⟨before, part, after⟩ := q
  obtain ⟨hb, hv, hc⟩ := h
  cases part with
  | block b =>
    rw [List.mem_singleton.1 hr]
    refine ⟨hb.body_built, fun v hmem => hv v ?_, ?_⟩
    · show v ∈ b.visits
      rw [Block.visits_eq]
      exact List.mem_append_left _ (List.mem_append_right _ hmem)
    · have hcode : p.code = before ++ b.code ++ after := hc
      rw [hcode, Block.code_eq_around]
      simp [Program.code]
  | graph g =>
    obtain ⟨front, id, b, back, hns, rfl⟩ := Place.mem_ofNodes hr
    have hmem : .block id b ∈ g.nodes := hb.mem_ordered.1 (by rw [hns]; simp)
    refine ⟨hb.node hmem, fun v hin => hv v ?_, ?_⟩
    · show v ∈ g.visits
      rw [Graph.visits_eq]
      refine List.mem_cons_of_mem _ (List.mem_flatMap.2 ⟨_, hmem, List.mem_cons_of_mem _ ?_⟩)
      exact hin
    · have hcode : p.code = before ++ g.code ++ after := hc
      rw [hcode, Graph.code_eq, hns]
      simp [Program.code, Node.code]

/-- Descents that start at related points and step to related ones stay related. -/
theorem descend_rel {α β : Type} {R : α → β → Prop} {f : α → List α} {g : β → List β}
    (hstep : ∀ {x y}, R x y → List.Forall₂ R (f x) (g y)) (path : List Nat) {x : α} {y : β}
    (h : R x y) : Option.Rel R (descend f path x) (descend g path y) := by
  induction path generalizing x y with
  | nil => exact .some h
  | cons k path ih =>
    have hentry := (List.forall₂_iff_get.1 (hstep h))
    show Option.Rel R ((f x)[k]?.bind (descend f path)) ((g y)[k]?.bind (descend g path))
    by_cases hk : k < (f x).length
    · have hk' : k < (g y).length := hentry.1 ▸ hk
      rw [List.getElem?_eq_getElem hk, List.getElem?_eq_getElem hk']
      exact ih (hentry.2 k hk hk')
    · have hk' : ¬ k < (g y).length := hentry.1 ▸ hk
      rw [List.getElem?_eq_none (by omega), List.getElem?_eq_none (by omega)]
      exact .none

theorem descend_append {α : Type} (inner : α → List α) (path rest : List Nat) (x : α) :
    descend inner (path ++ rest) x = (descend inner path x).bind (descend inner rest) := by
  induction path generalizing x with
  | nil => rfl
  | cons k path ih =>
    show (inner x)[k]?.bind (descend inner (path ++ rest)) =
      ((inner x)[k]?.bind (descend inner path)).bind (descend inner rest)
    rw [Option.bind_assoc]
    exact congrArg _ (funext ih)

/-- What holds of a point and of the entries of points that it holds of, holds all along. -/
theorem descend_preserves {α : Type} {inner : α → List α} {P : α → Prop}
    (hstep : ∀ {x y}, P x → y ∈ inner x → P y) {path : List Nat} {x y : α} (hx : P x)
    (h : descend inner path x = some y) : P y := by
  induction path generalizing x with
  | nil => exact Option.some.inj h ▸ hx
  | cons k path ih =>
    obtain ⟨z, hz, hy⟩ := Option.bind_eq_some_iff.1 h
    exact ih (hstep hx (List.mem_of_getElem? hz)) hy

namespace Program

variable {p : Program}

/-- Along every path the call is on the part at the place that the path leads to. -/
theorem scannedBy_at (h : p.Built) (path : List Nat) :
    Option.Rel (fun q s => q.Of p ∧ q.ScannedBy s) (p.placeAt path) (p.scanAt path) := by
  refine descend_rel (fun {q s} hqs => ?_) path ⟨⟨h, fun v hv => hv, by simp⟩, p.part_scan, ?_⟩
  · refine (List.forall₂_and_left _ _).2 ⟨fun r hr => hqs.1.inner hr, hqs.2.inner hqs.1.built⟩
  · cases p <;> rfl

theorem mem_outputs_of_scanAt {path : List Nat} {s : Scan} (hs : p.scanAt path = some s)
    {output : String × Nat} (ho : output ∈ s.findings.outputs) :
    output ∈ p.interference.outputs := by
  have hstep : ∀ {s t : Scan}, (∀ o ∈ s.findings.outputs, o ∈ p.interference.outputs) →
      t ∈ s.calls → ∀ o ∈ t.findings.outputs, o ∈ p.interference.outputs :=
    fun h ht o ho => h o (Scan.mem_outputs_of_calls ht ho)
  refine descend_preserves hstep (fun o ho => ?_) hs output ho
  rwa [interference_eq_findings]

theorem exists_scanAt (h : p.Built) {path : List Nat} {q : Place} (hq : p.placeAt path = some q) :
    ∃ s, p.scanAt path = some s ∧ q.Of p ∧ q.ScannedBy s := by
  have hrel := scannedBy_at h path
  rw [hq] at hrel
  cases hs : p.scanAt path with
  | none =>
    rw [hs] at hrel
    cases hrel
  | some s =>
    rw [hs] at hrel
    cases hrel with
    | some hqs => exact ⟨s, rfl, hqs⟩

theorem scanAt_block (h : p.Built) {path : List Nat} {before after : List Instruction} {b : Block}
    (hq : p.placeAt path = some ⟨before, .block b, after⟩) :
    p.scanAt path = some (.block b before.length) := by
  obtain ⟨s, hs, -, hpart, hstart⟩ := exists_scanAt h hq
  cases s with
  | block c start =>
    cases hpart
    cases hstart
    exact hs
  | graph g start last stored => cases hpart

end Program

/-! ## Every block has a place -/

theorem Place.exists_mem_ofNodes {ns : List Node} {id : NodeId} {b : Block}
    (h : .block id b ∈ ns) (before after : List Instruction) :
    ∃ before' after', ⟨before', .block b, after'⟩ ∈ Place.ofNodes before after ns := by
  induction ns generalizing before with
  | nil => cases h
  | cons n ns ih =>
    rcases List.mem_cons.1 h with rfl | hmem
    · exact ⟨before, _, List.mem_cons_self⟩
    · cases n with
      | tensor t => exact ih hmem before
      | compute id' op => exact ih hmem _
      | block id' c =>
        obtain ⟨before', after', hm⟩ := ih hmem (before ++ c.code)
        exact ⟨before', after', List.mem_cons_of_mem _ hm⟩

/-- The block is found below the part, wherever the part is placed. -/
def Program.Leads (part : Program) (b : Block) : Prop :=
  ∀ before after, ∃ path before' after',
    descend Place.inner path ⟨before, part, after⟩ = some ⟨before', .block b, after'⟩

theorem Hierarchy.leads : Closed
    (fun n => n.Built → ∀ id b, n = .block id b →
      ∀ c, .block c ∈ b.visits → (Program.block b).Leads c)
    (fun b => b.Built → ∀ c, .block c ∈ b.visits → (Program.block b).Leads c)
    (fun g => g.Built → ∀ c, .block c ∈ g.visits → (Program.graph g).Leads c) where
  tensor t _ id b he := by cases he
  compute id op _ id' b he := by cases he
  block id b ih h id' c he := by
    cases he
    exact ih h
  nest b ih h c hc before after := by
    rcases Block.block_mem_visits.1 hc with rfl | hc
    · exact ⟨[], before, after, rfl⟩
    · obtain ⟨path, before', after', hpath⟩ :=
        ih h.body_built c hc (before ++ b.opening) (b.closing ++ after)
      exact ⟨0 :: path, before', after', hpath⟩
  graph g ih h c hc before after := by
    obtain ⟨n, hn, hc⟩ := Graph.block_mem_visits.1 hc
    cases n with
    | tensor t => cases hc
    | compute id op => cases hc
    | block id b =>
      obtain ⟨before₁, after₁, hm⟩ :=
        Place.exists_mem_ofNodes (h.mem_ordered.2 hn) before after
      obtain ⟨k, hk⟩ := List.getElem?_of_mem hm
      obtain ⟨path, before', after', hpath⟩ := ih _ hn (h.node hn) id b rfl c hc before₁ after₁
      refine ⟨k :: path, before', after', ?_⟩
      show (Place.ofNodes before after g.ordered)[k]?.bind _ = _
      rw [hk]
      exact hpath

theorem Program.exists_placeAt {p : Program} (h : p.Built) {b : Block} (hb : .block b ∈ p.visits) :
    ∃ path before after, p.placeAt path = some ⟨before, .block b, after⟩ := by
  cases p with
  | graph g => exact Hierarchy.leads.onGraph g h b hb [] []
  | block c => exact Hierarchy.leads.onBlock c h b hb [] []

/-! ## Outputs in the plan -/

namespace Interference

theorem exists_mem_raise (name : String) (last : Nat) (ends : List (String × Nat)) :
    ∃ n, (name, n) ∈ raise name last ends ∧ last ≤ n := by
  fun_induction raise name last ends with
  | case1 => exact ⟨last, List.mem_singleton_self _, Nat.le_refl last⟩
  | case2 n ends => exact ⟨max n last, List.mem_cons_self, Nat.le_max_right n last⟩
  | case3 other n ends hne ih =>
    obtain ⟨m, hm, hle⟩ := ih
    exact ⟨m, List.mem_cons_of_mem _ hm, hle⟩

theorem mem_raise_of_mem {x : String} {n : Nat} {ends : List (String × Nat)} (h : (x, n) ∈ ends)
    (name : String) (last : Nat) : ∃ m, (x, m) ∈ raise name last ends ∧ n ≤ m := by
  fun_induction raise name last ends with
  | case1 => cases h
  | case2 n' ends =>
    rcases List.mem_cons.1 h with he | h
    · cases he
      exact ⟨_, List.mem_cons_self, Nat.le_max_left n last⟩
    · exact ⟨n, List.mem_cons_of_mem _ h, Nat.le_refl n⟩
  | case3 other n' ends hne ih =>
    rcases List.mem_cons.1 h with he | h
    · cases he
      exact ⟨n, List.mem_cons_self, Nat.le_refl n⟩
    · obtain ⟨m, hm, hle⟩ := ih h
      exact ⟨m, List.mem_cons_of_mem _ hm, hle⟩

/-- No output ends before a position that was found for it. -/
theorem exists_mem_ends {i : Interference} {x : String} {last : Nat}
    (h : (x, last) ∈ i.outputs) : ∃ n, (x, n) ∈ i.ends ∧ last ≤ n := by
  have hrun : ∀ (outputs ends : List (String × Nat)),
      (x, last) ∈ outputs ∨ (∃ n, (x, n) ∈ ends ∧ last ≤ n) →
      ∃ n, (x, n) ∈ outputs.foldl (fun ends o => raise o.1 o.2 ends) ends ∧ last ≤ n := by
    intro outputs
    induction outputs with
    | nil => exact fun ends h => h.resolve_left List.not_mem_nil
    | cons o outputs ih =>
      intro ends h
      refine ih _ ?_
      rcases h with h | ⟨n, hn, hle⟩
      · rcases List.mem_cons.1 h with rfl | h
        · exact .inr (exists_mem_raise x last ends)
        · exact .inl h
      · obtain ⟨m, hm, hnm⟩ := mem_raise_of_mem hn o.1 o.2
        exact .inr ⟨m, hm, Nat.le_trans hle hnm⟩
  exact hrun i.outputs [] (.inl h)

end Interference

namespace Plan

/-- Tensors that the schedule does not refer to get no range. -/
theorem lookup_keepOutputs_none (interference : Interference) {ranges : LiveRanges} {x : String}
    (h : ranges.lookup x = none) : (keepOutputs interference ranges).lookup x = none := by
  unfold keepOutputs
  induction interference.ends generalizing ranges with
  | nil => exact h
  | cons output ends ih =>
    rw [List.foldl_cons]
    refine ih ?_
    rw [LiveRanges.lookup_widen, h, Option.map_none, ite_self]

/-- A tensor without a range is declared with that of the whole schedule, and with no other. -/
theorem declared_whole_iff {table : TensorTable} {ranges : LiveRanges} {whole : LiveRange}
    {t : Tensor} (hr : ranges.lookup t.name = none) {u : Tensor} {live : LiveRange}
    (hu : u.name = t.name) :
    (u, live) ∈ declared table ranges whole ↔ u ∈ table ∧ live = whole := by
  unfold declared
  rw [List.mem_append]
  constructor
  · rintro (h | h)
    · obtain ⟨⟨name, live'⟩, hm, hg⟩ := List.mem_filterMap.1 h
      rw [Option.map_eq_some_iff] at hg
      obtain ⟨v, hv, he⟩ := hg
      cases he
      have hname := TensorTable.name_of_get? hv
      rw [← hname, hu] at hm
      have hkey := List.lookup_eq_none_iff.1 hr _ hm
      simp at hkey
    · obtain ⟨v, hv, he⟩ := List.mem_map.1 h
      cases he
      exact ⟨List.mem_of_mem_filter hv, rfl⟩
  · rintro ⟨hm, rfl⟩
    refine .inr (List.mem_map.2 ⟨u, List.mem_filter.2 ⟨hm, ?_⟩, rfl⟩)
    rw [hu, hr]
    rfl

end Plan

namespace Program

variable {p : Program} {options : PlanOptions} {plan : Plan}

/-- An output lives in the plan to the last position that was found for it. -/
theorem last_le_of_mem_outputs (hp : p.plan options = .ok plan) {t : Tensor}
    (ht : t ∈ p.tensors) {last : Nat} (hout : (t.name, last) ∈ p.interference.outputs)
    (hlast : last ≤ p.code.length - 1) :
    ∃ a, plan.get? t.name = some a ∧ last ≤ a.live.last := by
  obtain ⟨table, ranges, htab, hana, rfl⟩ := plan_eq_ok hp
  obtain ⟨tree, htree⟩ := p.nested_code
  obtain ⟨ranges', hana', hnodup, -⟩ := Liveness.analyze_code table tree
  rw [htree, hana] at hana'
  cases hana'
  have hget := TensorTable.get?_of_mem htab ht
  rw [← Plan.names_keepOutputs p.interference] at hnodup
  cases hr : ranges.lookup t.name with
  | some r =>
    obtain ⟨n, hn, hle⟩ := Interference.exists_mem_ends hout
    obtain ⟨r', hr', hgrow⟩ := Plan.lookup_keepOutputs p.interference hr
    obtain ⟨a, ha, v, hv, hvn⟩ := Plan.get?_pack ((Plan.declared_iff hnodup hr' rfl).2 ⟨hget, rfl⟩)
    obtain ⟨-, hlive⟩ := (Plan.declared_iff hnodup hr' hvn).1 hv
    refine ⟨a, ha, ?_⟩
    rw [hlive]
    exact Nat.le_trans hle (hgrow n (.inr hn)).2
  | none =>
    have hr' := Plan.lookup_keepOutputs_none p.interference hr
    obtain ⟨a, ha, v, hv, hvn⟩ :=
      Plan.get?_pack ((Plan.declared_whole_iff hr' rfl).2 ⟨List.mem_of_find?_eq_some hget, rfl⟩)
    obtain ⟨-, hlive⟩ := (Plan.declared_whole_iff hr' hvn).1 hv
    refine ⟨a, ha, ?_⟩
    rw [hlive]
    exact hlast

theorem mem_tensors_of_visit {v : Visit} (hv : v ∈ p.visits) {t : Tensor} (ht : t ∈ v.tensors) :
    t ∈ p.tensors :=
  List.mem_flatMap.2 ⟨v, hv, ht⟩

end Program

/-- The tensor node stands in the graph and no edge leads on from it. -/
def Graph.Ends (g : Graph) (t : TensorNode) : Prop :=
  .tensor t ∈ g.nodes ∧ ∀ e ∈ g.edges, e.source ≠ t.id

theorem Graph.Ends.mem_outputs {g : Graph} (hg : g.Built) {t : TensorNode} (h : g.Ends t)
    {stored : List String} (hs : t.name ∉ stored) : t.name ∈ g.outputs stored := by
  obtain ⟨hmem, he⟩ := h
  obtain ⟨i, hi⟩ := List.getElem?_of_mem hmem
  have hnone : Reach.listed g.successors i = [] := by
    refine List.eq_nil_iff_forall_not_mem.2 fun j hj => ?_
    obtain ⟨e, hedge, hsource, -⟩ := (Graph.mem_successors hg.ids).1 hj
    rw [hi] at hsource
    exact he e hedge (Option.some.inj hsource).symm
  unfold outputs
  refine List.mem_filter.2 ⟨List.mem_filterMap.2 ⟨(.tensor t, i), ?_, ?_⟩, by simpa using hs⟩
  · exact List.mk_mem_zipIdx_iff_getElem?.2 hi
  · simp [hnone, Node.tensor?]

theorem Graph.Ends.mem_tensors {g : Graph} {t : TensorNode} (h : g.Ends t) {p : Program}
    (hp : ∀ v ∈ g.visits, v ∈ p.visits) : t.tensor ∈ p.tensors := by
  have hv : .node g.nodes (.tensor t) ∈ g.visits := by
    rw [Graph.visits_eq]
    exact List.mem_cons_of_mem _ (List.mem_flatMap.2 ⟨_, h.1, List.mem_cons_self⟩)
  exact Program.mem_tensors_of_visit (hp _ hv) (List.mem_singleton_self _)

/-! ## Main result -/

/-- The calls on a block and on its body have the bounds that both have in the schedule. -/
structure Block.ScannedAt (b : Block) (p : Program) (path : List Nat)
    (before after : List Instruction) : Prop where
  code : p.code = before ++ b.opening ++ b.body.code ++ b.closing ++ after
  block : p.scanAt path = some (.block b before.length)
  stop : before.length + b.steps = (before ++ b.code).length
  body : p.scanAt (path ++ [0]) = some (.graph b.body (before ++ b.opening).length
    ((before ++ b.code).length - 1) (b.stores.map (·.source.name)))

namespace Program

variable {p : Program} {path : List Nat} {before after : List Instruction} {b : Block}

theorem scannedAt (h : p.Built) (hq : p.placeAt path = some ⟨before, .block b, after⟩) :
    b.ScannedAt p path before after := by
  have hscan := scanAt_block h hq
  obtain ⟨s, -, hof, -⟩ := exists_scanAt h hq
  have hcode : p.code = before ++ b.code ++ after := hof.code
  have hlength : b.code.length = b.steps := length_code hof.built
  have hstop : before.length + b.steps = (before ++ b.code).length := by
    rw [List.length_append, hlength]
  refine ⟨?_, hscan, hstop, ?_⟩
  · rw [hcode, Block.code_eq_around]
    simp only [List.append_assoc]
  · rw [scanAt, descend_append]
    show (p.scanAt path).bind _ = _
    rw [hscan, ← b.bodyStart_eq, ← hstop]
    rfl

/-- Outputs of a body live in the plan to the last instruction of their block. -/
theorem last_le_of_block (h : p.Built) (hq : p.placeAt path = some ⟨before, .block b, after⟩)
    {options : PlanOptions} {plan : Plan} (hp : p.plan options = .ok plan) {t : TensorNode}
    (ht : b.body.Ends t) (hs : ∀ m ∈ b.stores, m.source ≠ t.tensor) :
    ∃ a, plan.get? t.name = some a ∧ (before ++ b.code).length - 1 ≤ a.live.last := by
  obtain ⟨s, -, hof, -⟩ := exists_scanAt h hq
  have hat := scannedAt h hq
  have hbuilt : b.Built := hof.built
  have hvisits : ∀ v ∈ b.visits, v ∈ p.visits := hof.visits
  have hbody : ∀ v ∈ b.body.visits ++ b.stores.map (.store b), v ∈ p.visits := by
    intro v hv
    refine hvisits v ?_
    rw [Block.visits_eq, List.append_assoc]
    exact List.mem_append_right _ hv
  have hmem : t.tensor ∈ p.tensors :=
    ht.mem_tensors fun v hv => hbody v (List.mem_append_left _ hv)
  -- A source of the same name would be the same tensor, since the plan was returned.
  have hstored : t.name ∉ b.stores.map (·.source.name) := by
    intro hname
    obtain ⟨m, hm, he⟩ := List.mem_map.1 hname
    have hsource : m.source ∈ p.tensors := by
      have hv := hbody (.store b m) (List.mem_append_right _ (List.mem_map_of_mem hm))
      exact mem_tensors_of_visit hv List.mem_cons_self
    obtain ⟨table, -, htab, -, -⟩ := plan_eq_ok hp
    exact hs m hm ((TensorTable.ofTensors_eq_ok htab).2 _ hsource _ hmem he)
  refine last_le_of_mem_outputs hp hmem (mem_outputs_of_scanAt hat.body ?_) ?_
  · rw [Scan.findings_eq]
    exact List.mem_append_left _ (List.mem_map_of_mem (ht.mem_outputs hbuilt.body_built hstored))
  · rw [hat.code, Block.code_eq_around]
    simp only [List.length_append]
    omega

/-- Outputs of the outermost graph live in the plan to the last instruction. -/
theorem last_le_of_graph {g : Graph} (h : g.Built) {options : PlanOptions} {plan : Plan}
    (hp : (Program.graph g).plan options = .ok plan) {t : TensorNode} (ht : g.Ends t) :
    ∃ a, plan.get? t.name = some a ∧ g.code.length - 1 ≤ a.live.last := by
  have hlength : g.code.length = g.steps := Program.length_code (p := .graph g) h
  refine last_le_of_mem_outputs hp (ht.mem_tensors fun v hv => hv) ?_ (Nat.le_refl _)
  rw [hlength, interference_eq_findings, Scan.findings_eq]
  exact List.mem_append_left _ (List.mem_map_of_mem (ht.mem_outputs h List.not_mem_nil))

/-- The analysis of conflicts, which counts instructions, is where the schedule is. The number of
    instructions that it counts is that of the schedule; every block of the hierarchy has a place
    in the schedule; and wherever a block is placed, the call on it starts at its first
    instruction, ends with its last, and goes on to the body behind all loads and begins of loops
    of the block. Hence, in every plan, a tensor node without an edge that leads on lives to the
    last instruction of the block around its graph, unless the block stores the tensor, and in the
    outermost graph to the last instruction of all. -/
theorem scanned_where_emitted (h : p.Built) :
    p.steps = p.code.length ∧
    p.interference = p.scan.findings ∧
    (∀ s : Scan, s.findings = s.own ++ .joined (s.calls.map Scan.findings)) ∧
    (∀ b, .block b ∈ p.visits →
      ∃ path before after, p.placeAt path = some ⟨before, .block b, after⟩) ∧
    (∀ path, Option.Rel Place.ScannedBy (p.placeAt path) (p.scanAt path)) ∧
    (∀ path before part after, p.placeAt path = some ⟨before, part, after⟩ →
      p.code = before ++ part.code ++ after ∧ part.steps = part.code.length) ∧
    (∀ path before b after, p.placeAt path = some ⟨before, .block b, after⟩ →
      b.ScannedAt p path before after ∧
      b.opening.Perm (b.loads.map (.load ·.transfer) ++ b.vars.map LoopVar.beginning)) ∧
    ∀ options plan, p.plan options = .ok plan →
      (∀ g, p = .graph g → ∀ t, g.Ends t →
        ∃ a, plan.get? t.name = some a ∧ p.code.length - 1 ≤ a.live.last) ∧
      ∀ path before b after, p.placeAt path = some ⟨before, .block b, after⟩ →
        ∀ t, b.body.Ends t → (∀ m ∈ b.stores, m.source ≠ t.tensor) →
          ∃ a, plan.get? t.name = some a ∧ (before ++ b.code).length - 1 ≤ a.live.last := by
  refine ⟨(length_code h).symm, p.interference_eq_findings, Scan.findings_eq,
    fun b => exists_placeAt h, fun path => ?_, fun path before part after hq => ?_,
    fun path before b after hq => ⟨scannedAt h hq, b.opening_perm⟩, fun options plan hp => ⟨?_, ?_⟩⟩
  · have hrel := scannedBy_at h path
    generalize p.placeAt path = place at hrel ⊢
    generalize p.scanAt path = scan at hrel ⊢
    cases hrel with
    | some hqs => exact .some hqs.2
    | none => exact .none
  · obtain ⟨s, -, hof, -⟩ := exists_scanAt h hq
    exact ⟨hof.code, (length_code hof.built).symm⟩
  · rintro g rfl t ht
    exact last_le_of_graph h hp ht
  · intro path before b after hq t ht hs
    exact last_le_of_block h hq hp ht hs

end Program

namespace Sample

/-- The inner block, which leaves its result in registers. -/
def keeper : Block := { inner with stores := [] }

def twiceDraft : Draft :=
  (Draft.empty.addNodes [.block ⟨5⟩ keeper, .block ⟨6⟩ keeper]).1.connect.1

/-- One tile in shared memory for two runs of the same block. -/
def twice : Block where
  loads := [fetch]
  body := { nodes := [.block ⟨5⟩ keeper, .block ⟨6⟩ keeper], edges := [], order := [0, 1] }
  stores := []
  vars := [loop]

theorem keeper_built : keeper.Built :=
  Block.built_of_make innerDraft_reachable rfl (fun _ => inner_built.body_built.node)
    (by decide) rfl

theorem twice_built : twice.Built := by
  refine Block.built_of_make (d := twiceDraft) (Draft.Reachable.empty.addNodes _).connect rfl
    (fun n hn => ?_) (by decide) rfl
  simp only [twice, List.mem_cons, List.not_mem_nil, or_false] at hn
  rcases hn with rfl | rfl
  · exact keeper_built
  · exact keeper_built

theorem twice_plan : ∃ plan, (Program.block twice).plan {} = .ok plan := by
  have htable : TensorTable.ofTensors (Program.block twice).tensors =
      .ok [input, staged, first, second, third] := by decide +kernel
  obtain ⟨tree, htree⟩ := (Program.block twice).nested_code
  obtain ⟨ranges, hranges, -⟩ := Liveness.analyze_code [input, staged, first, second, third] tree
  rw [htree] at hranges
  exact ⟨_, Program.plan_of_analyze htable hranges {}⟩

/-- The second run of the block. -/
theorem twice_placeAt : (Program.block twice).placeAt [0, 1] =
    some ⟨twice.code.take 7, .block keeper, twice.code.drop 12⟩ := rfl

end Sample

/-- The second run of the block starts at position 7, and its result lives to position 11. -/
theorem Program.scanned_where_emitted_twice :
    Sample.twice.Built ∧
      (Program.block Sample.twice).scanAt [0, 1] = some (.block Sample.keeper 7) ∧
      ∃ plan a, (Program.block Sample.twice).plan {} = .ok plan ∧ plan.get? "z" = some a ∧
        11 ≤ a.live.last := by
  obtain ⟨-, -, -, -, -, -, hscan, hlast⟩ :=
    scanned_where_emitted (p := .block Sample.twice) Sample.twice_built
  obtain ⟨plan, hplan⟩ := Sample.twice_plan
  have hends : Sample.keeper.body.Ends Sample.z :=
    ⟨by simp [Sample.keeper, Sample.inner], by decide⟩
  have hstop : (Sample.twice.code.take 7 ++ Sample.keeper.code).length - 1 = 11 := by decide
  obtain ⟨a, ha, hle⟩ :=
    (hlast {} plan hplan).2 _ _ _ _ Sample.twice_placeAt Sample.z hends (List.forall_mem_nil _)
  rw [hstop] at hle
  exact ⟨Sample.twice_built, (hscan _ _ _ _ Sample.twice_placeAt).1.block, plan, a, hplan, ha, hle⟩

end TileNest
