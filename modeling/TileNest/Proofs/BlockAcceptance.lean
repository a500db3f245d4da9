import TileNest.Proofs.Construction

/-
  Which blocks are accepted. The body of a block shows the tensors of its tensor nodes and the
  outward ends of its inner blocks, and an inner end of the block's movements is looked up among
  them by its name. A body identifies a tensor when some shown tensor has its name and every one
  that has is this tensor (`Draft.Identifies`). The look-up stops at the first (`Draft.Finds`), and
  a body with inner blocks may show two tensors of one name.

  Main result: `Block.accepted_exactly`. A block is accepted exactly when its body is connected, its
  loops have different names and bind the variables of its movements, and the body finds each inner
  end. The blocks whose inner ends the body identifies are the accepted ones where the names of
  inner ends are unambiguous in the body. `Block.second_namesake_missed` is one that is accepted and
  not of these: the schedule uses one name for two tensors, and only the storage plan notices it.
-/

namespace TileNest

/-! ## Shown tensors -/

namespace Draft

/-- The tensor can be referred to from around the draft: it is the tensor of a node, or an outward
    end of an inner block. -/
def Shows (d : Draft) (t : Tensor) : Prop :=
  (∃ n, .tensor n ∈ d.nodes ∧ n.tensor = t) ∨
    ∃ id b, .block id b ∈ d.nodes ∧ ((∃ m ∈ b.loads, m.source = t) ∨ ∃ m ∈ b.stores, m.dest = t)

/-- The shown tensors in the order of the nodes. -/
def visible (d : Draft) : List Tensor := d.nodes.flatMap Node.visible

/-- The draft shows a tensor of this one's name, and every one that it shows is this tensor. -/
def Identifies (d : Draft) (t : Tensor) : Prop :=
  (∃ s, d.Shows s ∧ s.name = t.name) ∧ ∀ s, d.Shows s → s.name = t.name → s = t

/-- The first tensor of this one's name that the draft shows is this tensor. -/
def Finds (d : Draft) (t : Tensor) : Prop :=
  ∃ before after, d.visible = before ++ t :: after ∧ ∀ s ∈ before, s.name ≠ t.name

/-- The draft does not show two tensors of this name. -/
def Unambiguous (d : Draft) (name : String) : Prop :=
  ∀ s u, d.Shows s → d.Shows u → s.name = name → u.name = name → s = u

variable {d : Draft} {t : Tensor}

theorem mem_visible_iff : t ∈ d.visible ↔ d.Shows t := by
  rw [visible, List.mem_flatMap]
  constructor
  · intro h
    obtain ⟨n, hn, ht⟩ := h
    cases n with
    | tensor n =>
      rw [Node.visible, List.mem_singleton] at ht
      exact .inl ⟨n, hn, ht.symm⟩
    | compute id op =>
      rw [Node.visible] at ht
      exact absurd ht List.not_mem_nil
    | block id b =>
      rw [Node.visible, List.mem_append, List.mem_map, List.mem_map] at ht
      exact .inr ⟨id, b, hn, ht⟩
  · intro h
    obtain ⟨n, hn, ht⟩ | ⟨id, b, hn, ht⟩ := h
    · refine ⟨_, hn, ?_⟩
      rw [Node.visible, ht]
      exact List.mem_singleton_self t
    · refine ⟨_, hn, ?_⟩
      rw [Node.visible, List.mem_append, List.mem_map, List.mem_map]
      exact ht

theorem find?_visible_iff : d.visible.find? (·.name == t.name) = some t ↔ d.Finds t := by
  rw [List.find?_eq_some_iff_append, Finds]
  simp

theorem Finds.shows (h : d.Finds t) : d.Shows t := by
  obtain ⟨before, after, hsplit, -⟩ := h
  rw [← mem_visible_iff, hsplit]
  simp

/-- What is found under a name is identified exactly when nothing else has the name. -/
theorem identifies_iff : d.Identifies t ↔ d.Finds t ∧ d.Unambiguous t.name := by
  constructor
  · intro h
    obtain ⟨⟨s, hs, hname⟩, hall⟩ := h
    refine ⟨?_, fun a b ha hb hna hnb => ?_⟩
    · cases hf : d.visible.find? (·.name == t.name) with
      | none =>
        have hnone := List.find?_eq_none.1 hf s (mem_visible_iff.2 hs)
        simp [hname] at hnone
      | some u =>
        have hu : u = t := hall u (mem_visible_iff.1 (List.mem_of_find?_eq_some hf))
          (by simpa using List.find?_some hf)
        exact find?_visible_iff.1 (hu ▸ hf)
    · rw [hall a ha hna, hall b hb hnb]
  · intro h
    exact ⟨⟨t, h.1.shows, rfl⟩, fun s hs hname => h.2 s t hs h.1.shows hname rfl⟩

theorem graph_visible {stage : Stage} {g : Graph} (h : d.graph stage = .ok g) :
    g.visible = d.visible := by
  rw [Graph.visible, visible, (graph_eq_ok h).1]

theorem exists_graph_iff {stage : Stage} : (∃ g, d.graph stage = .ok g) ↔ d.isConnected = true := by
  rw [graph, isConnected]
  cases d.order with
  | none => simp
  | some order => simp

end Draft

/-! ## The checks of a block -/

namespace Block

/-- What a block asks of its parts, when `known` is what it asks of the inner ends. -/
structure Accepts (known : Tensor → Prop) (loads : List Movement) (body : Draft)
    (stores : List Movement) (vars : List LoopVar) : Prop where
  connected : body.isConnected = true
  names : (vars.map LoopVar.name).Nodup
  dests : ∀ m ∈ loads, known m.dest
  sources : ∀ m ∈ stores, known m.source
  bound : ∀ m ∈ loads ++ stores, ∀ v ∈ m.access.vars,
    ∃ own ∈ vars, own.name = v.name ∧ own.low = v.low ∧ own.high = v.high

theorem checkInnerEnds_eq_ok_iff {visible : List Tensor} {ends : List (InnerEnd × Tensor)} :
    checkInnerEnds visible ends = .ok () ↔
      ∀ p ∈ ends, visible.find? (·.name == p.2.name) = some p.2 := by
  induction ends with
  | nil => simp [checkInnerEnds]
  | cons p ends ih =>
    obtain ⟨place, t⟩ := p
    rw [checkInnerEnds, List.forall_mem_cons, ← ih]
    cases hf : visible.find? (·.name == t.name) with
    | none => simp
    | some found =>
      by_cases h : found = t
      · simp [h]
      · simp [h]

theorem mem_iff_exists_own {vars : List LoopVar} {v : LoopVar} :
    v ∈ vars ↔ ∃ own ∈ vars, own.name = v.name ∧ own.low = v.low ∧ own.high = v.high := by
  constructor
  · intro h
    exact ⟨v, h, rfl, rfl, rfl⟩
  · intro h
    obtain ⟨⟨_, _, _⟩, hmem, rfl, rfl, rfl⟩ := h
    exact hmem

section

variable {loads : List Movement} {body : Draft} {stores : List Movement} {vars : List LoopVar}

/-- The checks pass together exactly on the parts whose inner ends the body finds. -/
theorem exists_make_iff :
    (∃ b, make loads body stores vars = .ok b) ↔ Accepts body.Finds loads body stores vars := by
  constructor
  · intro h
    obtain ⟨b, hb⟩ := h
    obtain ⟨g, hg, hnames, hends, hvars, -⟩ := make_eq_ok_iff.1 hb
    rw [Draft.graph_visible hg, checkInnerEnds_eq_ok_iff] at hends
    refine ⟨Draft.exists_graph_iff.1 ⟨g, hg⟩, checkNames_eq_ok_iff.1 hnames, fun m hm => ?_,
      fun m hm => ?_, fun m hm v hv => ?_⟩
    · apply Draft.find?_visible_iff.1
      exact hends (.loadDest, m.dest) (List.mem_append_left _ (List.mem_map_of_mem hm))
    · apply Draft.find?_visible_iff.1
      exact hends (.storeSource, m.source) (List.mem_append_right _ (List.mem_map_of_mem hm))
    · exact mem_iff_exists_own.1 (checkVars_eq_ok_iff.1 hvars m hm v hv)
  · intro h
    obtain ⟨g, hg⟩ := Draft.exists_graph_iff.2 h.connected
    refine ⟨_, make_eq_ok_iff.2 ⟨g, hg, checkNames_eq_ok_iff.2 h.names, ?_,
      checkVars_eq_ok_iff.2 fun m hm v hv => mem_iff_exists_own.2 (h.bound m hm v hv), rfl⟩⟩
    rw [Draft.graph_visible hg, checkInnerEnds_eq_ok_iff]
    intro p hp
    rcases List.mem_append.1 hp with hp | hp
    · obtain ⟨m, hm, rfl⟩ := List.mem_map.1 hp
      exact Draft.find?_visible_iff.2 (h.dests m hm)
    · obtain ⟨m, hm, rfl⟩ := List.mem_map.1 hp
      exact Draft.find?_visible_iff.2 (h.sources m hm)

/-- The names of the inner ends are unambiguous in the body. -/
def OneNamed (loads : List Movement) (body : Draft) (stores : List Movement) : Prop :=
  (∀ m ∈ loads, body.Unambiguous m.dest.name) ∧ ∀ m ∈ stores, body.Unambiguous m.source.name

theorem accepts_identifies_iff : Accepts body.Identifies loads body stores vars ↔
    Accepts body.Finds loads body stores vars ∧ OneNamed loads body stores := by
  constructor
  · intro h
    exact ⟨⟨h.connected, h.names, fun m hm => (Draft.identifies_iff.1 (h.dests m hm)).1,
      fun m hm => (Draft.identifies_iff.1 (h.sources m hm)).1, h.bound⟩,
      fun m hm => (Draft.identifies_iff.1 (h.dests m hm)).2,
      fun m hm => (Draft.identifies_iff.1 (h.sources m hm)).2⟩
  · intro ⟨h, hone⟩
    exact ⟨h.connected, h.names, fun m hm => Draft.identifies_iff.2 ⟨h.dests m hm, hone.1 m hm⟩,
      fun m hm => Draft.identifies_iff.2 ⟨h.sources m hm, hone.2 m hm⟩, h.bound⟩

end

/-- **Acceptance.** A block is made exactly of parts whose inner ends are the first of their names
    in the body, and it is made of these parts. It is made of all parts whose inner ends are
    identified by the body, and of these alone where the names of inner ends are unambiguous. -/
theorem accepted_exactly (loads : List Movement) (body : Draft) (stores : List Movement)
    (vars : List LoopVar) :
    ((∃ b, make loads body stores vars = .ok b) ↔ Accepts body.Finds loads body stores vars) ∧
    (Accepts body.Identifies loads body stores vars ↔
      (∃ b, make loads body stores vars = .ok b) ∧ OneNamed loads body stores) ∧
    ∀ b, make loads body stores vars = .ok b →
      b.loads = loads ∧ body.graph .nesting = .ok b.body ∧ b.stores = stores ∧ b.vars = vars := by
  refine ⟨exists_make_iff, ?_, fun b hb => ?_⟩
  · rw [exists_make_iff]
    exact accepts_identifies_iff
  · obtain ⟨g, hg, -, -, -, rfl⟩ := make_eq_ok_iff.1 hb
    exact ⟨rfl, hg, rfl, rfl⟩

end Block

namespace Sample

/-! A body with a tensor `a` of four elements and an inner block that reads another one of two. -/

def wideStaged : Tensor :=
  { input with name := "a", tier := .shared, name_ne := staged.name_ne }

def fetchWide : Movement := ⟨input, wideStaged, .bulk, .globalToShared, rfl⟩

def maskingDraft : Draft :=
  (Draft.empty.addNodes [.tensor ⟨⟨6⟩, wideStaged⟩, .block ⟨5⟩ inner]).1.connect.1

def masking : Block where
  loads := [fetchWide]
  body :=
    { nodes := [.tensor ⟨⟨6⟩, wideStaged⟩, .block ⟨5⟩ inner]
      edges := []
      order := [0, 1] }
  stores := []
  vars := []

theorem masking_made : Block.make [fetchWide] maskingDraft [] [] = .ok masking := rfl

theorem masking_built : masking.Built := by
  refine Block.built_of_make ((Draft.Reachable.empty.addNodes _).connect) rfl (fun n hn => ?_)
    (by decide) masking_made
  rcases List.mem_pair.1 hn with rfl | rfl
  · trivial
  · exact inner_built

end Sample

/-- The block is accepted although the body shows two tensors `a`, of which the inner end is the
    first. The storage plan, which looks at all tensors, refuses the name. -/
theorem Block.second_namesake_missed :
    Sample.masking.Built ∧
    Block.make [Sample.fetchWide] Sample.maskingDraft [] [] = .ok Sample.masking ∧
    (Sample.maskingDraft.Shows Sample.staged ∧ Sample.staged.name = Sample.fetchWide.dest.name ∧
      Sample.staged ≠ Sample.fetchWide.dest) ∧
    ¬ Accepts Sample.maskingDraft.Identifies [Sample.fetchWide] Sample.maskingDraft [] [] ∧
    (Program.block Sample.masking).plan {} = .error (.nameConflict "a") := by
  have hshows : Sample.maskingDraft.Shows Sample.staged := by
    apply Draft.mem_visible_iff.1
    decide
  have hne : Sample.staged ≠ Sample.fetchWide.dest := by decide
  refine ⟨Sample.masking_built, Sample.masking_made, ⟨hshows, rfl, hne⟩, fun h => ?_,
    by decide +kernel⟩
  exact hne ((h.dests _ List.mem_cons_self).2 _ hshows rfl)

end TileNest
