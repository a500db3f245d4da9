import TileNest.Proofs.Construction
import TileNest.Proofs.Coordinates
import TileNest.Proofs.ThreadedRun

/-
  Direct execution of a hierarchy, without a schedule. A graph carries out its nodes in their
  order; a block carries out its loops by recursion, and a movement resolves its tile at the
  current values of its own map's variables. Values are found by the position of the loop in the
  block, so loops of other blocks play no part, whatever their names.

  Main results: the schedule of a built program, executed, gives the events of direct execution
  one for one, and every copy among them lies inside the tiles of its movement. Neither execution
  can fail. Both follow from `Performs`, the relation between a part of a schedule and the actions
  that it carries out in an environment: `Program.performs` holds in every environment, because a
  block binds all variables that its movements refer to.
-/

namespace TileNest

/-! ## Actions -/

/-- One executed part of a hierarchy: a movement, at the values of its map's variables, or an
    operation. -/
inductive Action where
  | load (movement : Movement) (values : List Int64)
  | store (movement : Movement) (values : List Int64)
  | compute (operation : Operation)

/-- The copy of one tile that a movement makes. -/
def Movement.copyAt (m : Movement) (tile : List Int64) : TileCopy :=
  ⟨m.source.name, m.dest.name, m.route, tile⟩

/-- The event of an action. Of an operation's operands the last one receives the result. -/
def Action.event : Action → Except Fault Event
  | load m values => (m.resolve values).map fun tile => .load (m.copyAt tile)
  | store m values => (m.resolve values).map fun tile => .store (m.copyAt tile)
  | compute op =>
    let names := op.operands.map TensorNode.name
    .ok (.compute op.operator names.dropLast (names.getLastD ""))

namespace Block

/-- The innermost loop of the block that the map refers to is the one of this depth, counted from
    1; the depth is 0 where it refers to none. -/
def innermostIs (b : Block) (access : Access) : (depth : Nat) → Bool
  | 0 => b.vars.all fun v => !access.usesVar v.name
  | outer + 1 =>
    b.vars[outer]?.any (fun v => access.usesVar v.name)
      && (b.vars.drop (outer + 1)).all fun v => !access.usesVar v.name

/-- The current values of the map's variables, where `entered` holds the values of the loops that
    were entered, outermost first. -/
def current (b : Block) (entered : List Int64) (access : Access) : List Int64 :=
  access.vars.filterMap fun v => ((b.vars.map LoopVar.name).zip entered).lookup v.name

/-- The movements that are due inside the loops entered so far and in no deeper one. -/
def due (b : Block) (entered : List Int64) (action : Movement → List Int64 → Action)
    (movements : List Movement) : List Action :=
  (movements.filter fun m => b.innermostIs m.access entered.length).map fun m =>
    action m (b.current entered m.access)

/-- The actions inside the loops entered so far, where the given loops are still to be entered. -/
def actionsInside (b : Block) (body : List Action) (entered : List Int64) :
    List LoopVar → List Action
  | [] => b.due entered .load b.loads ++ body ++ b.due entered .store b.stores
  | v :: vars =>
    b.due entered .load b.loads
      ++ v.values.flatMap (fun x => b.actionsInside body (entered ++ [x]) vars)
      ++ b.due entered .store b.stores

end Block

mutual

/-- The actions of a node. A tensor needs none. -/
def Node.actions : Node → List Action
  | .tensor _ => []
  | .compute _ op => [.compute op]
  | .block _ b => b.actions

/-- The actions of a block. -/
def Block.actions : Block → List Action
  | ⟨loads, body, stores, vars⟩ =>
    Block.actionsInside ⟨loads, body, stores, vars⟩ body.actions [] vars

/-- The actions of a graph. -/
def Graph.actions : Graph → List Action
  | ⟨nodes, edges, order⟩ => (Graph.inOrder ⟨nodes, edges, order⟩ (Node.actionsOf nodes)).flatten

/-- The actions of the nodes, one by one. -/
def Node.actionsOf : List Node → List (List Action)
  | [] => []
  | n :: ns => n.actions :: Node.actionsOf ns

end

/-- The actions of a program. -/
def Program.actions : Program → List Action
  | .graph g => g.actions
  | .block b => b.actions

/-- Direct execution: the events of the actions, or the first fault. -/
def Program.execute (p : Program) : Except Fault (List Event) := p.actions.mapM Action.event

theorem Node.actionsOf_eq_map (ns : List Node) : Node.actionsOf ns = ns.map Node.actions := by
  induction ns with
  | nil => rfl
  | cons n ns ih => simp [Node.actionsOf, ih]

theorem Graph.actions_eq (g : Graph) : g.actions = g.ordered.flatMap Node.actions := by
  cases g with
  | mk nodes edges order =>
    simp only [Graph.actions, Graph.ordered, Graph.inOrder, Node.actionsOf_eq_map, List.flatMap,
      List.map_filterMap, List.getElem?_map]

theorem Block.actions_eq (b : Block) : b.actions = b.actionsInside b.body.actions [] b.vars := by
  cases b; rfl

/-! ## Placement -/

namespace Block

variable {b : Block} {access : Access}

theorem usesVar_iff {name : String} :
    access.usesVar name = true ↔ ∃ v ∈ access.vars, v.name = name := by
  simp [Access.usesVar]

theorem le_depthOf (hn : (b.vars.map LoopVar.name).Nodup) {i : Nat} {v : LoopVar}
    (hv : b.vars[i]? = some v) (hu : access.usesVar v.name = true) : i + 1 ≤ b.depthOf access := by
  obtain ⟨w, hw, e⟩ := usesVar_iff.1 hu
  have hf : b.vars.findIdx? (·.name == w.name) = some i := by
    rw [Lists.findIdx?_eq_some_of_nodup hn, hv, e]
    rfl
  refine (Lists.le_foldl_max _ 0).2 _ (List.mem_filterMap.2 ⟨w, hw, ?_⟩)
  rw [hf]
  rfl

theorem usesVar_of_depthOf (hn : (b.vars.map LoopVar.name).Nodup) {i : Nat}
    (h : b.depthOf access = i + 1) :
    ∃ v, b.vars[i]? = some v ∧ access.usesVar v.name = true := by
  unfold depthOf at h
  rcases Lists.foldl_max_mem (access.vars.filterMap fun v =>
    (b.vars.findIdx? (·.name == v.name)).map (· + 1)) 0 with h0 | hm
  · rw [h] at h0
    cases h0
  · rw [h] at hm
    obtain ⟨w, hw, e⟩ := List.mem_filterMap.1 hm
    obtain ⟨j, hj, e⟩ := Option.map_eq_some_iff.1 e
    have : j = i := by omega
    subst this
    obtain ⟨v, hv, e⟩ := Option.map_eq_some_iff.1
      ((Lists.findIdx?_eq_some_of_nodup hn).1 hj)
    exact ⟨v, hv, usesVar_iff.2 ⟨w, hw, e.symm⟩⟩

/-- The depth at which a movement is emitted is that of the innermost loop it refers to. -/
theorem innermostIs_eq (hn : (b.vars.map LoopVar.name).Nodup) (depth : Nat) :
    b.innermostIs access depth = (b.depthOf access == depth) := by
  rw [Bool.eq_iff_iff, beq_iff_eq]
  cases depth with
  | zero =>
    rw [innermostIs, List.all_eq_true]
    constructor
    · intro h
      cases hd : b.depthOf access with
      | zero => rfl
      | succ i =>
        obtain ⟨v, hv, hu⟩ := usesVar_of_depthOf hn hd
        have := h v (List.mem_of_getElem? hv)
        simp [hu] at this
    · intro h v hv
      obtain ⟨i, hi⟩ := List.getElem?_of_mem hv
      rw [Bool.not_eq_true', Bool.eq_false_iff]
      intro hu
      have := le_depthOf hn hi hu
      omega
  | succ d =>
    rw [innermostIs, Bool.and_eq_true, List.all_eq_true, Option.any_eq_true]
    constructor
    · rintro ⟨⟨v, hv, hu⟩, hd⟩
      have hle := le_depthOf hn hv hu
      rcases Nat.lt_or_ge (d + 1) (b.depthOf access) with hlt | hge
      · obtain ⟨i, hi⟩ : ∃ i, b.depthOf access = i + 1 := ⟨b.depthOf access - 1, by omega⟩
        obtain ⟨w, hw, hu'⟩ := usesVar_of_depthOf hn hi
        have hm : w ∈ b.vars.drop (d + 1) := by
          rw [List.mem_iff_getElem?]
          exact ⟨i - (d + 1), by rw [List.getElem?_drop, ← hw]; congr 1; omega⟩
        have := hd w hm
        simp [hu'] at this
      · omega
    · intro h
      refine ⟨usesVar_of_depthOf hn h, fun v hv => ?_⟩
      obtain ⟨i, hi⟩ := List.getElem?_of_mem hv
      rw [List.getElem?_drop] at hi
      rw [Bool.not_eq_true', Bool.eq_false_iff]
      intro hu
      have := le_depthOf hn hi hu
      omega

end Block

/-! ## Loops entered so far -/

/-- The loops `outer` of a block were entered: each has a current value in its range, to which the
    environment binds its name. -/
def Entered (env : Env) (outer : List LoopVar) (entered : List Int64) : Prop :=
  List.Forall₂ (fun v x => x ∈ v.values ∧ env v.name = some x) outer entered

namespace Entered

variable {env : Env} {outer : List LoopVar} {entered : List Int64}

/-- Entering one more loop of another name keeps the values of the others. -/
theorem enter (h : Entered env outer entered) {v : LoopVar} {x : Int64} (hx : x ∈ v.values)
    (hn : ∀ u ∈ outer, u.name ≠ v.name) :
    Entered (env.bind v.name x) (outer ++ [v]) (entered ++ [x]) := by
  refine List.rel_append ?_ (.cons ⟨hx, Env.bind_self env v.name x⟩ .nil)
  refine List.Forall₂.imp ?_ ((List.forall₂_and_left _ _).2 ⟨hn, h⟩)
  rintro u y ⟨hu, hy, he⟩
  exact ⟨hy, by rw [Env.bind_of_ne env x hu, he]⟩

/-- The value of an entered loop, looked up by name. -/
theorem lookup (h : Entered env outer entered) {v : LoopVar} (hv : v ∈ outer)
    (hn : (outer.map LoopVar.name).Nodup) :
    ∃ x, ((outer.map LoopVar.name).zip entered).lookup v.name = some x ∧
      x ∈ v.values ∧ env v.name = some x := by
  induction h with
  | nil => cases hv
  | @cons u y outer entered hy _ ih =>
    rw [List.map_cons, List.nodup_cons] at hn
    rw [List.map_cons, List.zip_cons_cons]
    rcases List.mem_cons.1 hv with rfl | hv
    · exact ⟨y, by simp, hy⟩
    · have hne : v.name ≠ u.name := by
        intro e
        exact hn.1 (e ▸ List.mem_map_of_mem hv)
      rw [Lists.lookup_cons_of_ne hne]
      exact ih hv hn.2

end Entered

namespace Block

/-- A movement that is due finds its variables among the loops entered so far: its values lie in
    their ranges, and the environment has the same ones. -/
theorem current_of_due {b : Block} (hb : b.Built) {m : Movement} (hm : m ∈ b.loads ++ b.stores)
    {env : Env} {outer inner : List LoopVar} {entered : List Int64} (hs : b.vars = outer ++ inner)
    (he : Entered env outer entered) (hd : b.innermostIs m.access entered.length = true) :
    List.Forall₂ (fun v x => x ∈ LoopVar.values v) m.access.vars (b.current entered m.access) ∧
      env.Gives m.access.vars (b.current entered m.access) := by
  have hlen : outer.length = entered.length := he.length_eq
  have hn := hb.names_nodup
  -- a variable bound further in would make the innermost loop a deeper one
  have houter : ∀ v ∈ m.access.vars, v ∈ outer := by
    intro v hv
    have hmem := hb.var_mem hm hv
    rw [hs, List.mem_append] at hmem
    refine hmem.resolve_right fun hi => ?_
    obtain ⟨i, hi⟩ := List.getElem?_of_mem hi
    have hat : b.vars[entered.length + i]? = some v := by
      rw [hs, List.getElem?_append_right (by omega), ← hi]
      congr 1
      omega
    have hle := le_depthOf hn hat (usesVar_iff.2 ⟨v, hv, rfl⟩)
    rw [innermostIs_eq hn, beq_iff_eq] at hd
    omega
  have hzip : (b.vars.map LoopVar.name).zip entered = (outer.map LoopVar.name).zip entered := by
    have h := @List.zip_append _ _ (outer.map LoopVar.name) (inner.map LoopVar.name) entered []
      (by simpa using hlen)
    rwa [List.append_nil, List.zip_nil_right, List.append_nil, ← List.map_append, ← hs] at h
  rw [hs, List.map_append] at hn
  have hlook : ∀ v ∈ m.access.vars, ∃ x, ((b.vars.map LoopVar.name).zip entered).lookup v.name =
      some x ∧ x ∈ v.values ∧ env v.name = some x := by
    intro v hv
    rw [hzip]
    exact he.lookup (houter v hv) (List.nodup_append.1 hn).1
  have hc : List.Forall₂ (fun v x => ((b.vars.map LoopVar.name).zip entered).lookup
      (LoopVar.name v) = some x) m.access.vars (b.current entered m.access) := by
    refine Lists.forall₂_filterMap fun v hv => ?_
    obtain ⟨x, hx, -⟩ := hlook v hv
    simp [hx]
  have hall : List.Forall₂ (fun v x => x ∈ LoopVar.values v ∧ env v.name = some x)
      m.access.vars (b.current entered m.access) := by
    refine List.Forall₂.imp ?_ ((List.forall₂_and_left _ _).2 ⟨hlook, hc⟩)
    rintro v x ⟨⟨y, hy, hr⟩, hx⟩
    rw [hy, Option.some.injEq] at hx
    exact hx ▸ hr
  exact ⟨hall.imp fun _ _ h => h.1, hall.imp fun _ _ h => h.2⟩

end Block

/-! ## What a schedule performs -/

/-- The action happens as this event, with a tile inside its movement. -/
def Action.Yields : Action → Event → Prop
  | load m values, e =>
    ∃ tile, m.resolve values = .ok tile ∧ m.Inside tile ∧ e = .load (m.copyAt tile)
  | store m values, e =>
    ∃ tile, m.resolve values = .ok tile ∧ m.Inside tile ∧ e = .store (m.copyAt tile)
  | compute op, e => e = .compute op.operator (op.inputs.map TensorNode.name) op.result.name

theorem Action.Yields.event_eq {a : Action} {e : Event} (h : a.Yields e) : a.event = .ok e := by
  cases a with
  | load m values =>
    obtain ⟨tile, hr, -, rfl⟩ := h
    simp [Action.event, hr, Except.map]
  | store m values =>
    obtain ⟨tile, hr, -, rfl⟩ := h
    simp [Action.event, hr, Except.map]
  | compute op =>
    rw [show e = _ from h]
    simp [Action.event, Operation.operands]

/-- In the environment the schedule carries out the actions, one event for each, without a
    fault. -/
def Performs (env : Env) (code : List Instruction) (actions : List Action) : Prop :=
  ∃ events, List.Forall₂ Action.Yields actions events ∧ Trace.run env code = ⟨events, none⟩

namespace Performs

variable {env : Env}

theorem nil : Performs env [] [] := ⟨[], .nil, Trace.run_nil env⟩

theorem append {xs ys : List Instruction} {as bs : List Action} (nx : Nested xs) (ny : Nested ys)
    (hx : Performs env xs as) (hy : Performs env ys bs) : Performs env (xs ++ ys) (as ++ bs) := by
  obtain ⟨es, ha, ex⟩ := hx
  obtain ⟨fs, hb, ey⟩ := hy
  refine ⟨es ++ fs, List.rel_append ha hb, ?_⟩
  rw [nx.run_append ny, ex, ey]
  rfl

/-- A plain instruction that gives one event and no fault. -/
theorem one {i : Instruction} (hp : i.isPlain = true) {a : Action} {e : Event} (hy : a.Yields e)
    (hr : Trace.act env i = ⟨[e], none⟩) : Performs env [i] [a] := by
  refine ⟨[e], .cons hy .nil, ?_⟩
  rw [Trace.run_plain env hp, Trace.run_nil, Run.andThen_idle, hr]

theorem each {xs : List Instruction} {name : String} {as : Int64 → List Action}
    {values : List Int64} (h : ∀ x ∈ values, Performs (env.bind name x) xs (as x)) :
    ∃ events, List.Forall₂ Action.Yields (values.flatMap as) events ∧
      Run.each (fun x => Trace.run (env.bind name x) xs) values = ⟨events, none⟩ := by
  induction values with
  | nil => exact ⟨[], .nil, rfl⟩
  | cons x values ih =>
    obtain ⟨es, ha, ex⟩ := h x (by simp)
    obtain ⟨fs, hb, ey⟩ := ih fun y hy => h y (List.mem_cons_of_mem x hy)
    refine ⟨es ++ fs, ?_, ?_⟩
    · rw [List.flatMap_cons]
      exact List.rel_append ha hb
    · rw [Run.each, ex, ey]
      rfl

theorem loop {xs : List Instruction} (nx : Nested xs) (v : LoopVar) {as : Int64 → List Action}
    (h : ∀ x ∈ v.values, Performs (env.bind v.name x) xs (as x)) :
    Performs env (.loopBegin v.name v.low v.high :: (xs ++ [.loopEnd v.name]))
      (v.values.flatMap as) := by
  obtain ⟨events, hy, he⟩ := each h
  exact ⟨events, hy, by rw [nx.run_loop]; exact he⟩

theorem flatMap {α : Type} {xs : List α} {f : α → List Instruction} {g : α → List Action}
    (hn : ∀ x ∈ xs, Nested (f x)) (h : ∀ x ∈ xs, Performs env (f x) (g x)) :
    Performs env (xs.flatMap f) (xs.flatMap g) := by
  induction xs with
  | nil => exact nil
  | cons x xs ih =>
    have hn' : ∀ y ∈ xs, Nested (f y) := fun y hy => hn y (List.mem_cons_of_mem x hy)
    rw [List.flatMap_cons, List.flatMap_cons]
    exact append (hn x (by simp)) (Nested.flatMap hn') (h x (by simp))
      (ih hn' fun y hy => h y (List.mem_cons_of_mem x hy))

end Performs

/-! ## Schedules of hierarchies nest -/

theorem Graph.mem_nodes_of_mem_ordered {g : Graph} {n : Node} (h : n ∈ g.ordered) :
    n ∈ g.nodes := by
  obtain ⟨i, -, hi⟩ := List.mem_filterMap.1 h
  exact List.mem_of_getElem? hi

namespace Block

theorem nested_loadsAt (b : Block) (depth : Nat) : Nested (b.loadsAt depth) := by
  refine Nested.plain fun i hi => ?_
  obtain ⟨m, -, rfl⟩ := List.mem_map.1 hi
  rfl

theorem nested_storesAt (b : Block) (depth : Nat) : Nested (b.storesAt depth) := by
  refine Nested.plain fun i hi => ?_
  obtain ⟨m, -, rfl⟩ := List.mem_map.1 hi
  rfl

theorem nest_cons (b : Block) (body : List Instruction) (depth : Nat) (v : LoopVar)
    (vars : List LoopVar) :
    b.nest body depth (v :: vars) =
      b.loadsAt depth ++ .loopBegin v.name v.low v.high ::
        (b.nest body (depth + 1) vars ++ [.loopEnd v.name]) ++ b.storesAt depth := by
  simp [nest]

theorem nested_nest (b : Block) {body : List Instruction} (hb : Nested body) (depth : Nat)
    (vars : List LoopVar) : Nested (b.nest body depth vars) := by
  induction vars generalizing depth with
  | nil => exact ((b.nested_loadsAt depth).append hb).append (b.nested_storesAt depth)
  | cons v vars ih =>
    rw [nest_cons]
    exact ((b.nested_loadsAt depth).append (Nested.loop _ _ _ (ih (depth + 1)))).append
      (b.nested_storesAt depth)

end Block

theorem Hierarchy.nested_code : Hierarchy.Closed (fun n => Nested n.code) (fun b => Nested b.code)
    (fun g => Nested g.code) where
  tensor _ := Nested.nil
  compute _ op := Nested.plain (by simp [Node.code, Operation.instruction, Instruction.isPlain])
  block _ _ h := h
  nest b h := by
    rw [Block.code_eq]
    exact b.nested_nest h 0 b.vars
  graph g h := by
    rw [Graph.code_eq]
    exact Nested.flatMap fun n hn => h n (Graph.mem_nodes_of_mem_ordered hn)

/-- The loops of every schedule nest. -/
theorem Program.nested_code (p : Program) : Nested p.code := by
  cases p with
  | graph g => exact Hierarchy.nested_code.onGraph g
  | block b => exact Hierarchy.nested_code.onBlock b

/-! ## Schedules perform the actions -/

namespace Block

variable {b : Block} {env : Env} {outer inner : List LoopVar} {entered : List Int64}

/-- The movements emitted at a depth are those that are due there, and each of them succeeds. -/
theorem performs_due (hb : b.Built) (hs : b.vars = outer ++ inner) (he : Entered env outer entered)
    {instruction : Transfer → Instruction} {action : Movement → List Int64 → Action}
    (hp : ∀ t, (instruction t).isPlain = true)
    (hy : ∀ (m : Movement) (values tile : List Int64), m.resolve values = .ok tile →
      m.Inside tile → m.index.evaluate env = .ok tile →
        ∃ e, (action m values).Yields e ∧ Trace.act env (instruction m.transfer) = ⟨[e], none⟩)
    {ms : List Movement} (hm : ∀ m ∈ ms, m ∈ b.loads ++ b.stores) :
    Performs env
      ((ms.filter fun m => b.depthOf m.access == outer.length).map fun m => instruction m.transfer)
      (b.due entered action ms) := by
  have hlen : outer.length = entered.length := he.length_eq
  have hf : (ms.filter fun m => b.depthOf m.access == outer.length) =
      ms.filter fun m => b.innermostIs m.access entered.length := by
    simp only [innermostIs_eq hb.names_nodup, hlen]
  rw [due, hf, List.map_eq_flatMap, List.map_eq_flatMap]
  refine Performs.flatMap (fun m _ => Nested.plain (by simp [hp])) fun m hmem => ?_
  obtain ⟨hmem, hd⟩ := List.mem_filter.1 hmem
  obtain ⟨hv, hg⟩ := current_of_due hb (hm m hmem) hs he hd
  obtain ⟨tile, hr, hi, hx⟩ := m.resolve_inside hv
  obtain ⟨e, hye, ha⟩ := hy m _ tile hr hi (hx env hg)
  exact Performs.one (hp _) hye ha

theorem performs_loads (hb : b.Built) (hs : b.vars = outer ++ inner)
    (he : Entered env outer entered) :
    Performs env (b.loadsAt outer.length) (b.due entered .load b.loads) := by
  refine performs_due hb hs he (fun _ => rfl) ?_ fun m hm => List.mem_append_left _ hm
  intro m values tile hr hi hx
  refine ⟨.load (m.copyAt tile), ⟨tile, hr, hi, rfl⟩, ?_⟩
  simp [Trace.act, Trace.copy, Movement.transfer, Movement.copyAt, hx]

theorem performs_stores (hb : b.Built) (hs : b.vars = outer ++ inner)
    (he : Entered env outer entered) :
    Performs env (b.storesAt outer.length) (b.due entered .store b.stores) := by
  refine performs_due hb hs he (fun _ => rfl) ?_ fun m hm => List.mem_append_right _ hm
  intro m values tile hr hi hx
  refine ⟨.store (m.copyAt tile), ⟨tile, hr, hi, rfl⟩, ?_⟩
  simp [Trace.act, Trace.copy, Movement.transfer, Movement.copyAt, hx]

/-- The loops from a depth inward perform their actions. The induction is on the loops still to be
    entered; the invariant says that those entered have their values in the environment. -/
theorem performs_nest (hb : b.Built) {body : List Instruction} {actions : List Action}
    (hn : Nested body) (hp : ∀ env, Performs env body actions) (hs : b.vars = outer ++ inner)
    (he : Entered env outer entered) :
    Performs env (b.nest body outer.length inner) (b.actionsInside actions entered inner) := by
  induction inner generalizing env outer entered with
  | nil =>
    rw [nest, actionsInside]
    exact ((performs_loads hb hs he).append (b.nested_loadsAt _) hn (hp env)).append
      ((b.nested_loadsAt _).append hn) (b.nested_storesAt _) (performs_stores hb hs he)
  | cons v inner ih =>
    have hl : Nested (b.nest body (outer.length + 1) inner) := b.nested_nest hn _ _
    have hne : ∀ u ∈ outer, u.name ≠ v.name := by
      intro u hu e
      have hnd := hb.names_nodup
      rw [hs, List.map_append, List.map_cons, List.nodup_append] at hnd
      exact hnd.2.2 _ (List.mem_map_of_mem hu) v.name (by simp) e
    have hloop : Performs env (.loopBegin v.name v.low v.high ::
        (b.nest body (outer.length + 1) inner ++ [.loopEnd v.name]))
        (v.values.flatMap fun x => b.actionsInside actions (entered ++ [x]) inner) := by
      refine Performs.loop hl v fun x hx => ?_
      have h := ih (by rw [hs]; simp) (he.enter hx hne)
      rwa [List.length_append] at h
    rw [nest_cons, actionsInside]
    exact ((performs_loads hb hs he).append (b.nested_loadsAt _) (hl.loop _ _ _) hloop).append
      ((b.nested_loadsAt _).append (hl.loop _ _ _)) (b.nested_storesAt _)
      (performs_stores hb hs he)

end Block

theorem Hierarchy.performs : Hierarchy.Closed
    (fun n => n.Built → ∀ env, Performs env n.code n.actions)
    (fun b => b.Built → ∀ env, Performs env b.code b.actions)
    (fun g => g.Built → ∀ env, Performs env g.code g.actions) where
  tensor _ _ _ := Performs.nil
  compute _ op _ env := Performs.one rfl rfl (by simp [Operation.instruction, Trace.act])
  block _ _ h hb := h hb
  nest b h hb env := by
    rw [Block.code_eq, Block.actions_eq]
    exact Block.performs_nest hb (Hierarchy.nested_code.onGraph b.body) (h hb.body_built) rfl .nil
  graph g h hg env := by
    rw [Graph.code_eq, Graph.actions_eq]
    refine Performs.flatMap (fun n _ => Hierarchy.nested_code.onNode n) fun n hn => ?_
    have hmem := Graph.mem_nodes_of_mem_ordered hn
    exact h n hmem (hg.node hmem) env

theorem Program.performs {p : Program} (h : p.Built) (env : Env) :
    Performs env p.code p.actions := by
  cases p with
  | graph g => exact Hierarchy.performs.onGraph g h env
  | block b => exact Hierarchy.performs.onBlock b h env

/-! ## Main results -/

theorem Program.expand_yields {p : Program} (h : p.Built) :
    ∃ events, Trace.expand p.code = .ok events ∧ List.Forall₂ Action.Yields p.actions events := by
  obtain ⟨events, hy, hr⟩ := p.performs h Env.empty
  refine ⟨events, ?_, hy⟩
  rw [Trace.expand, p.nested_code.record_eq, hr]
  rfl

/-- **The schedule is faithful.** Executing the schedule of a built program gives exactly the events
    of direct execution, and there is such an execution: neither side fails. -/
theorem Program.expand_eq_execute {p : Program} (h : p.Built) :
    ∃ events, p.execute = .ok events ∧ Trace.expand p.code = .ok events := by
  obtain ⟨events, he, hy⟩ := p.expand_yields h
  exact ⟨events, Lists.mapM_eq_ok_iff.2 (hy.imp fun _ _ h => h.event_eq), he⟩

/-- Two nested loops of one name, each movement at its own loop's value. -/
theorem Program.expand_eq_execute_kernel : Sample.kernel.Built ∧
    Sample.kernel.execute = .ok (Sample.outerEvents 0 ++ Sample.outerEvents 1) := by
  obtain ⟨events, hexecute, hexpand⟩ := Program.expand_eq_execute Sample.kernel_built
  rw [Sample.kernel_expand] at hexpand
  cases hexpand
  exact ⟨Sample.kernel_built, hexecute⟩

/-- The event is the action's own, and a copied tile lies inside its movement. -/
def Action.HappensInside : Action → Event → Prop
  | load m _, e => ∃ tile, e = .load (m.copyAt tile) ∧ m.Inside tile
  | store m _, e => ∃ tile, e = .store (m.copyAt tile) ∧ m.Inside tile
  | compute op, e => e = .compute op.operator (op.inputs.map TensorNode.name) op.result.name

/-- **Every schedule runs, inside its tiles.** Executing the schedule of a built program never ends
    in a fault, and every copied tile has one coordinate for each dimension of its source, from 0
    on and below the number of tiles there. -/
theorem Program.expand_inside {p : Program} (h : p.Built) :
    ∃ events, Trace.expand p.code = .ok events ∧
      List.Forall₂ Action.HappensInside p.actions events := by
  obtain ⟨events, he, hy⟩ := p.expand_yields h
  refine ⟨events, he, hy.imp fun a e h => ?_⟩
  cases a with
  | load m values =>
    obtain ⟨tile, -, hi, rfl⟩ := h
    exact ⟨tile, rfl, hi⟩
  | store m values =>
    obtain ⟨tile, -, hi, rfl⟩ := h
    exact ⟨tile, rfl, hi⟩
  | compute op => exact h

theorem Program.expand_inside_kernel : Sample.kernel.Built ∧
    ∃ events, Trace.expand Sample.kernel.code = .ok events ∧
      List.Forall₂ Action.HappensInside Sample.kernel.actions events :=
  ⟨Sample.kernel_built, Program.expand_inside Sample.kernel_built⟩

end TileNest
