import TileNest.Proofs.DirectRun
import TileNest.Proofs.LiveRanges
import TileNest.Proofs.Placement

/-
  When planning fails. A connected target has a plan unless one name stands for two of its tensors
  or a tier needs more bytes than it may have, and each of the two is reported exactly when it
  applies (`Target.plan_outcome`).

  The table of tensors stops at the first tensor that differs from an earlier one of its name
  (`TensorTable.ofTensors_eq_error_iff`). Nothing else stops the planning: schedules nest, so that
  live ranges are found, and the capacities are compared with a plan that does not depend on them
  (`Program.plan_of_agree`).
-/

namespace TileNest

/-! ## The tensors of a hierarchy -/

mutual

/-- The tensor is the node's own, or belongs to the block that the node holds. -/
inductive Node.Mentions (t : Tensor) : Node → Prop
  | tensor (id : NodeId) : Node.Mentions t (.tensor ⟨id, t⟩)
  | block {id : NodeId} {b : Block} : Block.Mentions t b → Node.Mentions t (.block id b)

/-- The tensor is an end of one of the block's movements, or belongs to the body. -/
inductive Block.Mentions (t : Tensor) : Block → Prop
  | movement {b : Block} {m : Movement} : m ∈ b.loads ++ b.stores → t = m.source ∨ t = m.dest →
      Block.Mentions t b
  | body {b : Block} : Graph.Mentions t b.body → Block.Mentions t b

/-- The tensor belongs to one of the graph's nodes. -/
inductive Graph.Mentions (t : Tensor) : Graph → Prop
  | node {g : Graph} {n : Node} : n ∈ g.nodes → Node.Mentions t n → Graph.Mentions t g

end

section

variable {t : Tensor}

theorem Node.mentions_tensor_iff {n : TensorNode} :
    Node.Mentions t (.tensor n) ↔ t = n.tensor := by
  constructor
  · rintro ⟨⟩
    rfl
  · rintro rfl
    exact .tensor n.id

theorem Node.mentions_block_iff {id : NodeId} {b : Block} :
    Node.Mentions t (.block id b) ↔ b.Mentions t :=
  ⟨fun h => by cases h with | block h => exact h, .block⟩

theorem Block.mentions_iff {b : Block} : b.Mentions t ↔
    (∃ m ∈ b.loads ++ b.stores, t = m.source ∨ t = m.dest) ∨ b.body.Mentions t := by
  constructor
  · intro h
    cases h with
    | movement hm ht => exact .inl ⟨_, hm, ht⟩
    | body h => exact .inr h
  · rintro (⟨m, hm, ht⟩ | h)
    · exact .movement hm ht
    · exact .body h

theorem Graph.mentions_iff {g : Graph} : g.Mentions t ↔ ∃ n ∈ g.nodes, n.Mentions t :=
  ⟨fun h => by cases h with | node hn h => exact ⟨_, hn, h⟩, fun ⟨_, hn, h⟩ => .node hn h⟩

end

/-- The walk meets the tensors that the hierarchy mentions and no others. -/
theorem Hierarchy.mem_tensors_iff : Hierarchy.Closed
    (fun n => ∀ siblings t, t ∈ (Visit.node siblings n :: n.inside).flatMap Visit.tensors ↔
      n.Mentions t)
    (fun b => ∀ t, t ∈ b.visits.flatMap Visit.tensors ↔ b.Mentions t)
    (fun g => ∀ t, t ∈ g.visits.flatMap Visit.tensors ↔ g.Mentions t) where
  tensor n siblings t := by
    simp [Node.mentions_tensor_iff, Node.inside, Visit.tensors, Node.tensor?]
  compute id op siblings t := by
    have hnot : ¬ Node.Mentions t (.compute id op) := by
      rintro ⟨⟩
    simp [hnot, Node.inside, Visit.tensors, Node.tensor?]
  block id b h siblings t := by
    rw [Node.mentions_block_iff, ← h t]
    simp [Node.inside, Visit.tensors, Node.tensor?]
  nest b h t := by
    rw [Block.mentions_iff, ← h t, Block.visits_eq]
    simp only [List.flatMap_append, List.flatMap_cons, List.flatMap_map, Visit.tensors,
      List.nil_append, List.mem_append, List.mem_flatMap, List.mem_cons, List.not_mem_nil, or_false]
    grind
  graph g h t := by
    rw [Graph.mentions_iff, Graph.visits_eq, List.flatMap_cons, Visit.tensors, List.nil_append,
      List.flatMap_assoc, List.mem_flatMap]
    exact exists_congr fun n => and_congr_right fun hn => h n hn g.nodes t

/-! ## Names that stand for two tensors -/

/-- The tensor differs from the one recorded under its name, and is the first to do so: those
    before it agree, and one of them has its name. -/
def Tensor.FirstClash (tensors : List Tensor) (t : Tensor) : Prop :=
  ∃ before after, tensors = before ++ t :: after ∧ Tensor.Agree before ∧
    ∃ recorded ∈ before, recorded.name = t.name ∧ recorded ≠ t

theorem Tensor.FirstClash.not_agree {tensors : List Tensor} {t : Tensor}
    (h : Tensor.FirstClash tensors t) : ¬ Tensor.Agree tensors := by
  obtain ⟨before, after, rfl, -, recorded, hr, hname, hne⟩ := h
  intro hagree
  exact hne (hagree recorded (by simp [hr]) t (by simp) hname)

namespace TensorTable

variable {tensors : List Tensor} {t : Tensor}

theorem get?_append (before after : List Tensor) (x : String) :
    TensorTable.get? (before ++ after) x =
      (TensorTable.get? before x).or (TensorTable.get? after x) :=
  List.find?_append

/-- The tensor that the table stops at is the first that clashes with an earlier one. -/
theorem find?_eq_some_iff :
    tensors.find? (fun t => TensorTable.get? tensors t.name != some t) = some t ↔
      Tensor.FirstClash tensors t := by
  rw [List.find?_eq_some_iff_append]
  constructor
  · rintro ⟨hdiffers, before, after, rfl, hfound⟩
    have hget : ∀ a ∈ before, TensorTable.get? (before ++ t :: after) a.name = some a := by
      intro a ha
      simpa using hfound a ha
    refine ⟨before, after, rfl, agree_of_get? hget, ?_⟩
    have hself : TensorTable.get? (t :: after) t.name = some t := by
      simp [TensorTable.get?]
    rw [get?_append, hself] at hdiffers
    -- the name is recorded before, since the tensor would be found under it otherwise
    cases hr : TensorTable.get? before t.name with
    | none => simp [hr] at hdiffers
    | some recorded =>
      refine ⟨recorded, List.mem_of_find?_eq_some hr, name_of_get? hr, ?_⟩
      simpa [hr] using hdiffers
  · rintro ⟨before, after, rfl, hagree, recorded, hr, hname, hne⟩
    have hget : ∀ a ∈ before, TensorTable.get? (before ++ t :: after) a.name = some a := by
      intro a ha
      rw [get?_append, get?_of_agree hagree ha]
      rfl
    have hrecorded := hget recorded hr
    rw [hname] at hrecorded
    refine ⟨by simpa [hrecorded] using hne, before, after, rfl, fun a ha => ?_⟩
    simp [hget a ha]

theorem ofTensors_eq_error_iff {fault : Fault} : ofTensors tensors = .error fault ↔
    ∃ t, Tensor.FirstClash tensors t ∧ fault = .nameConflict t.name := by
  unfold ofTensors
  constructor
  · intro h
    split at h
    · next t ht =>
      cases h
      exact ⟨t, find?_eq_some_iff.1 ht, rfl⟩
    · cases h
  · rintro ⟨t, ht, rfl⟩
    rw [find?_eq_some_iff.2 ht]

/-- There is a table exactly where no name stands for two tensors. -/
theorem exists_ofTensors_iff : (∃ table, ofTensors tensors = .ok table) ↔ Tensor.Agree tensors := by
  constructor
  · rintro ⟨table, h⟩
    exact (ofTensors_eq_ok h).2
  · intro h
    cases ho : ofTensors tensors with
    | ok table => exact ⟨table, rfl⟩
    | error fault =>
      obtain ⟨t, ht, -⟩ := ofTensors_eq_error_iff.1 ho
      exact absurd h ht.not_agree

theorem exists_firstClash (h : ¬ Tensor.Agree tensors) : ∃ t, Tensor.FirstClash tensors t := by
  cases ho : ofTensors tensors with
  | ok table => exact absurd (exists_ofTensors_iff.1 ⟨table, ho⟩) h
  | error fault =>
    obtain ⟨t, ht, -⟩ := ofTensors_eq_error_iff.1 ho
    exact ⟨t, ht⟩

end TensorTable

/-! ## Capacities -/

/-- The options without a bound on any tier. -/
def PlanOptions.unbounded (o : PlanOptions) : PlanOptions :=
  { o with sharedCapacity := none, registerCapacity := none }

namespace Plan

/-- The tier needs more than its capacity. -/
def Exceeds (options : PlanOptions) (p : Plan) (tier : Tier) : Prop :=
  ∃ capacity, options.capacity tier = some capacity ∧ capacity < p.footprint tier

/-- The answer that the capacities give for a plan: the plan itself, or the first of the two
    bounded tiers that is exceeded, with the bytes that the plan needs there. -/
structure Verdict (options : PlanOptions) (p : Plan) (answer : Except Fault Plan) : Prop where
  exceeded : (∃ tier required capacity,
    answer = .error (.capacityExceeded tier required capacity)) ↔
      Exceeds options p .shared ∨ Exceeds options p .register
  shared : ∀ capacity, options.sharedCapacity = some capacity → capacity < p.footprint .shared →
    answer = .error (.capacityExceeded .shared (p.footprint .shared) capacity)
  register : ¬ Exceeds options p .shared →
    ∀ capacity, options.registerCapacity = some capacity → capacity < p.footprint .register →
      answer = .error (.capacityExceeded .register (p.footprint .register) capacity)
  fits : ¬ Exceeds options p .shared → ¬ Exceeds options p .register → answer = .ok p

variable {options : PlanOptions} {p : Plan} {tier : Tier}

/-- Where a plan that fits is the answer, a fault means that a tier is exceeded. -/
theorem exceeds_of_error {answer : Except Fault Plan} {fault : Fault}
    (hfits : ¬ Exceeds options p .shared → ¬ Exceeds options p .register → answer = .ok p)
    (h : answer = .error fault) : Exceeds options p .shared ∨ Exceeds options p .register := by
  by_contra hneither
  rw [not_or] at hneither
  rw [hfits hneither.1 hneither.2] at h
  cases h

theorem Verdict.of_error {answer : Except Fault Plan} {fault : Fault}
    (h : Verdict options p answer) (hf : answer = .error fault) :
    ∃ tier required capacity, fault = .capacityExceeded tier required capacity := by
  obtain ⟨tier, required, capacity, heq⟩ := h.exceeded.2 (exceeds_of_error h.fits hf)
  exact ⟨tier, required, capacity, Except.error.inj (hf.symm.trans heq)⟩

theorem checkTier_of_lt {capacity : Nat} (hc : options.capacity tier = some capacity)
    (hlt : capacity < p.footprint tier) :
    p.checkTier options tier = .error (.capacityExceeded tier (p.footprint tier) capacity) := by
  simp [checkTier, hc, hlt]

theorem checkTier_of_not_exceeds (h : ¬ Exceeds options p tier) :
    p.checkTier options tier = .ok () := by
  unfold checkTier
  cases hc : options.capacity tier with
  | none => rfl
  | some capacity =>
    have hle : ¬ capacity < p.footprint tier := fun hlt => h ⟨capacity, hc, hlt⟩
    simp [hle]

theorem checkCapacity_verdict (options : PlanOptions) (p : Plan) :
    Verdict options p (p.checkCapacity options) := by
  have hshared : ∀ capacity, options.sharedCapacity = some capacity →
      capacity < p.footprint .shared → p.checkCapacity options =
        .error (.capacityExceeded .shared (p.footprint .shared) capacity) := by
    intro capacity hc hlt
    have hbound : options.capacity .shared = some capacity := hc
    rw [checkCapacity, checkTier_of_lt hbound hlt]
    rfl
  have hregister : ¬ Exceeds options p .shared → ∀ capacity,
      options.registerCapacity = some capacity → capacity < p.footprint .register →
        p.checkCapacity options =
          .error (.capacityExceeded .register (p.footprint .register) capacity) := by
    intro hs capacity hc hlt
    have hbound : options.capacity .register = some capacity := hc
    rw [checkCapacity, checkTier_of_not_exceeds hs, checkTier_of_lt hbound hlt]
    rfl
  have hfits : ¬ Exceeds options p .shared → ¬ Exceeds options p .register →
      p.checkCapacity options = .ok p := by
    intro hs hr
    rw [checkCapacity, checkTier_of_not_exceeds hs, checkTier_of_not_exceeds hr]
    rfl
  refine ⟨⟨?_, ?_⟩, hshared, hregister, hfits⟩
  · rintro ⟨tier, required, capacity, h⟩
    exact exceeds_of_error hfits h
  · intro h
    by_cases hs : Exceeds options p .shared
    · obtain ⟨capacity, hc, hlt⟩ := hs
      exact ⟨_, _, _, hshared capacity hc hlt⟩
    · obtain ⟨capacity, hc, hlt⟩ := h.resolve_left hs
      exact ⟨_, _, _, hregister hs capacity hc hlt⟩

end Plan

/-! ## Programs -/

namespace Program

variable {p : Program}

/-- A clash is reported before anything else is looked at. -/
theorem plan_of_firstClash {t : Tensor} (h : Tensor.FirstClash p.tensors t)
    (options : PlanOptions) : p.plan options = .error (.nameConflict t.name) := by
  have htable := TensorTable.ofTensors_eq_error_iff.2 ⟨t, h, rfl⟩
  rw [Program.plan, htable]
  rfl

/-- Every schedule nests, so that its live ranges are found. The capacities are compared with a
    plan that does not depend on them. -/
theorem plan_of_agree (h : Tensor.Agree p.tensors) (options : PlanOptions) :
    ∃ plan, p.plan options.unbounded = .ok plan ∧
      Plan.Verdict options plan (p.plan options) := by
  obtain ⟨table, htable⟩ := TensorTable.exists_ofTensors_iff.2 h
  obtain ⟨tree, htree⟩ := p.nested_code
  obtain ⟨ranges, hranges, -⟩ := Liveness.analyze_code table tree
  rw [htree] at hranges
  have hplan := plan_of_analyze htable hranges
  -- packing reads the alignment and whether slots are reused, the same in both options
  refine ⟨_, hplan options.unbounded, ?_⟩
  rw [hplan options]
  exact Plan.checkCapacity_verdict options _

/-- The two faults of planning. -/
theorem plan_eq_error {options : PlanOptions} {fault : Fault}
    (h : p.plan options = .error fault) :
    (∃ t, Tensor.FirstClash p.tensors t ∧ fault = .nameConflict t.name) ∨
      ∃ tier required capacity, fault = .capacityExceeded tier required capacity := by
  by_cases hagree : Tensor.Agree p.tensors
  · obtain ⟨plan, -, hverdict⟩ := plan_of_agree hagree options
    exact .inr (hverdict.of_error h)
  · obtain ⟨t, ht⟩ := TensorTable.exists_firstClash hagree
    rw [plan_of_firstClash ht] at h
    exact .inl ⟨t, ht, (Except.error.inj h).symm⟩

theorem plan_eq_nameConflict_iff {options : PlanOptions} {name : String} :
    p.plan options = .error (.nameConflict name) ↔
      ∃ t, Tensor.FirstClash p.tensors t ∧ t.name = name := by
  constructor
  · intro h
    obtain ⟨t, ht, hname⟩ | ⟨tier, required, capacity, hfault⟩ := plan_eq_error h
    · exact ⟨t, ht, (Fault.nameConflict.inj hname).symm⟩
    · cases hfault
  · rintro ⟨t, ht, rfl⟩
    exact plan_of_firstClash ht options

/-- A name is reported exactly where one stands for two tensors. -/
theorem exists_nameConflict_iff {options : PlanOptions} :
    (∃ name, p.plan options = .error (.nameConflict name)) ↔ ¬ Tensor.Agree p.tensors := by
  constructor
  · rintro ⟨name, h⟩
    obtain ⟨t, ht, -⟩ := plan_eq_nameConflict_iff.1 h
    exact ht.not_agree
  · intro h
    obtain ⟨t, ht⟩ := TensorTable.exists_firstClash h
    exact ⟨t.name, plan_of_firstClash ht options⟩

end Program

/-! ## Drafts and blocks -/

namespace Target

/-- A draft has to be connected. A block is made of a body that is. -/
def Connected : Target → Prop
  | graph d => d.isConnected = true
  | block _ => True

/-- The tensor is one of the tensor nodes, or an end of one of the movements, at any depth. -/
def Mentions (a : Tensor) : Target → Prop
  | graph d => ∃ n ∈ d.nodes, n.Mentions a
  | block b => b.Mentions a

variable {t : Target}

theorem mem_tensors_iff {a : Tensor} : a ∈ t.tensors ↔ t.Mentions a := by
  cases t with
  | graph d =>
    have hwalk := Hierarchy.mem_tensors_iff.onGraph ⟨d.nodes, [], []⟩ a
    rw [Graph.mentions_iff] at hwalk
    exact hwalk
  | block b => exact Hierarchy.mem_tensors_iff.onBlock b a

theorem not_agree_iff : ¬ Tensor.Agree t.tensors ↔
    ∃ a b, t.Mentions a ∧ t.Mentions b ∧ a.name = b.name ∧ a ≠ b := by
  simp only [Tensor.Agree, mem_tensors_iff]
  grind

/-- Once connected, the target is the same program at every stage. -/
theorem program_of_connected (h : t.Connected) :
    ∃ p : Program, (∀ stage, t.program stage = .ok p) ∧ p.tensors = t.tensors := by
  cases t with
  | graph d =>
    obtain ⟨order, ho⟩ := Option.isSome_iff_exists.1 h
    refine ⟨.graph ⟨d.nodes, d.links.map Link.edge, order⟩, fun stage => ?_, rfl⟩
    simp [program, Draft.graph, ho, Except.map]
  | block b => exact ⟨.block b, fun _ => rfl, rfl⟩

/-- A connected target has a schedule, and a plan unless one of two things is wrong. One name
    stands for two of its tensors: then the name of the first tensor that differs from the one
    recorded before it is reported. Or the plan that is found without capacities needs more bytes
    than a tier has: then shared memory is reported before the registers, with those bytes. In all
    other cases the answer is that plan. -/
theorem plan_outcome (h : t.Connected) (options : PlanOptions) :
    (∃ code, t.schedule = .ok code) ∧
    ((∃ name, t.plan options = .error (.nameConflict name)) ↔
      ∃ a b, t.Mentions a ∧ t.Mentions b ∧ a.name = b.name ∧ a ≠ b) ∧
    (∀ name, t.plan options = .error (.nameConflict name) ↔
      ∃ a, Tensor.FirstClash t.tensors a ∧ a.name = name) ∧
    ((¬ ∃ name, t.plan options = .error (.nameConflict name)) →
      ∃ plan, t.plan options.unbounded = .ok plan ∧
        Plan.Verdict options plan (t.plan options)) ∧
    ∀ fault, t.plan options = .error fault →
      (∃ name, fault = .nameConflict name) ∨
        ∃ tier required capacity, fault = .capacityExceeded tier required capacity := by
  obtain ⟨p, hp, htensors⟩ := program_of_connected h
  have hplan : ∀ options, t.plan options = p.plan options := by
    intro options
    rw [plan, hp]
    rfl
  simp only [hplan, ← not_agree_iff, ← htensors]
  refine ⟨⟨p.code, ?_⟩, Program.exists_nameConflict_iff, fun _ => Program.plan_eq_nameConflict_iff,
    fun hnone => ?_, fun fault hfault => ?_⟩
  · rw [schedule, hp]
    rfl
  · rw [Program.exists_nameConflict_iff, not_not] at hnone
    exact Program.plan_of_agree hnone options
  · obtain ⟨a, -, ha⟩ | hexceeded := Program.plan_eq_error hfault
    · exact .inl ⟨a.name, ha⟩
    · exact .inr hexceeded

end Target

namespace Sample

/-- Another tensor with the name of `first`. -/
def namesake : Tensor := { first with tier := .shared }

/-- The inner block beside a node for the other tensor. -/
def clashing : Draft :=
  (Draft.empty.addNodes [.block ⟨5⟩ inner, .tensor ⟨⟨6⟩, namesake⟩]).1.connect.1

end Sample

/-- The walk meets the block first, so it is the node beside it that clashes. The outer block has
    no clash, and needs 24 bytes of shared memory. -/
theorem Target.plan_outcome_sample :
    (Target.graph Sample.clashing).Connected ∧
    (Target.graph Sample.clashing).plan {} = .error (.nameConflict "x") ∧
    (Target.block Sample.outer).plan { sharedCapacity := some 16, registerCapacity := some 0 } =
      .error (.capacityExceeded .shared 24 16) := by
  have hconnected : (Target.graph Sample.clashing).Connected := rfl
  obtain ⟨-, -, hname, -, -⟩ := plan_outcome hconnected {}
  have hclash : Tensor.FirstClash (Target.graph Sample.clashing).tensors Sample.namesake :=
    ⟨[Sample.staged, Sample.first, Sample.first, Sample.second, Sample.third, Sample.third,
      Sample.gathered], [], rfl, by unfold Tensor.Agree; decide, Sample.first, by decide⟩
  obtain ⟨-, hagree, -, hverdict, -⟩ := plan_outcome (t := .block Sample.outer) trivial
    { sharedCapacity := some 16, registerCapacity := some 0 }
  refine ⟨hconnected, (hname "x").2 ⟨Sample.namesake, hclash, rfl⟩, ?_⟩
  have hnone : Tensor.Agree (Target.block Sample.outer).tensors := by
    unfold Tensor.Agree
    decide
  rw [hagree, ← Target.not_agree_iff] at hverdict
  obtain ⟨plan, hplan, hv⟩ := hverdict (not_not_intro hnone)
  have hplaced : plan = Sample.placed :=
    Except.ok.inj (hplan.symm.trans Sample.kernel_plan)
  subst hplaced
  exact hv.shared 16 rfl (by decide)

end TileNest
