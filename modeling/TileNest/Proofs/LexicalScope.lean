import TileNest.Proofs.IndexValues
import TileNest.Proofs.ThreadedRun

/-
  Loops as scopes. A schedule is run by the positions of its marks, in one state whose bindings
  every loop overwrites and restores, over any nesting of loops: names may be shadowed or unbound,
  loops may have no values, and indices may leave the range of 64 bits. Main result:
  `Trace.expand_interprets`. The run is that of an interpreter over the tree of loops
  (`LoopTree.interpret`), in which a loop's variable is bound for the body and for nothing else, and
  it ends with the fault of the first executed step that has one. That the state does what bindings
  for each body do is `Trace.record_code`.

  `LoopTree.steps` lists what a run executes, each step with the bindings around it. What a step
  gives is said in integers: its event where every variable of the index is bound and every partial
  sum has 64 bits (`Affine.Worth`), and its fault otherwise (`Affine.Fails`).
-/

namespace TileNest

/-- A sum whose steps stay in range has a value. -/
theorem Axis.exists_sum? {total : Int64} {terms : List (Int64 × Int64)} (h : Stays total terms) :
    ∃ c, sum? total terms = some c := by
  induction terms generalizing total with
  | nil => exact ⟨total, rfl⟩
  | cons t terms ih =>
    obtain ⟨hproduct, next, hnext, hrest⟩ := stays_cons.1 h
    obtain ⟨c, hc⟩ := ih hrest
    exact ⟨c, sum?_cons_eq_some_iff.2 ⟨hproduct, next, hnext, hc⟩⟩

theorem Axis.sum?_eq_none_iff {total : Int64} {terms : List (Int64 × Int64)} :
    sum? total terms = none ↔ ¬ Stays total terms := by
  constructor
  · intro h hstays
    obtain ⟨c, hc⟩ := exists_sum? hstays
    exact absurd (h.symm.trans hc) nofun
  · intro h
    exact Option.eq_none_iff_forall_ne_some.2 fun c hc => h (sum?_eq_some_iff.1 hc).1

/-! ## Expressions under bindings -/

namespace Affine

/-- The terms with the values of their variables in place of the names. -/
def Bound (env : Env) (terms : List (String × Int64)) (pairs : List (Int64 × Int64)) : Prop :=
  List.Forall₂ (fun term pair => env term.1 = some pair.1 ∧ term.2 = pair.2) terms pairs

/-- The expression has this value: its variables are bound and its sum stays in range. -/
def Worth (e : Affine) (env : Env) (c : Int64) : Prop :=
  ∃ pairs, Bound env e.terms pairs ∧ Axis.Stays e.constant pairs ∧
    c.toInt = Axis.exact e.constant.toInt pairs

/-- The expression has no value for this reason: a variable is unbound and the sum in front of it
    stays in range, or the sum leaves the range in front of any unbound variable. -/
inductive Fails (e : Affine) (env : Env) : Fault → Prop
  | unbound {before after : List (String × Int64)} {pairs : List (Int64 × Int64)} {name : String}
      {weight : Int64} : e.terms = before ++ (name, weight) :: after → Bound env before pairs →
      Axis.Stays e.constant pairs → env name = none → Fails e env (.unboundVar name (.index e.text))
  | overflow {before after : List (String × Int64)} {pairs : List (Int64 × Int64)} :
      e.terms = before ++ after → Bound env before pairs → ¬ Axis.Stays e.constant pairs →
      Fails e env (.malformedAccess (.indexOverflow e.text))

variable {e : Affine} {env : Env}

/-- All variables are bound, or there is a first one that is not. -/
theorem bound_or_unbound (env : Env) (terms : List (String × Int64)) :
    (∃ pairs, Bound env terms pairs) ∨ ∃ before pairs name weight after,
      terms = before ++ (name, weight) :: after ∧ Bound env before pairs ∧ env name = none := by
  induction terms with
  | nil => exact .inl ⟨[], .nil⟩
  | cons term terms ih =>
    obtain ⟨name, weight⟩ := term
    cases hname : env name with
    | none => exact .inr ⟨[], [], name, weight, terms, rfl, .nil, hname⟩
    | some value =>
      rcases ih with ⟨pairs, hpairs⟩ | ⟨before, pairs, x, w, after, rfl, hbefore, hx⟩
      · exact .inl ⟨(value, weight) :: pairs, .cons ⟨hname, rfl⟩ hpairs⟩
      · exact .inr ⟨(name, weight) :: before, (value, weight) :: pairs, x, w, after, rfl,
          .cons ⟨hname, rfl⟩ hbefore, hx⟩

/-- Terms whose variables are bound are summed as their values are. -/
theorem sum_append_of_bound (e : Affine) (total : Int64) {before : List (String × Int64)}
    {pairs : List (Int64 × Int64)} (h : Bound env before pairs) (after : List (String × Int64)) :
    e.sum env total (before ++ after) =
      (Axis.sum? total pairs).elim (.error (.malformedAccess (.indexOverflow e.text)))
        fun next => e.sum env next after := by
  induction h generalizing total with
  | nil => rfl
  | @cons term pair before pairs hterm _ ih =>
    obtain ⟨name, weight⟩ := term
    obtain ⟨value, _⟩ := pair
    obtain ⟨hname, rfl⟩ := hterm
    simp only [List.cons_append, sum, hname, Axis.sum?, Checked.mul?_comm weight value]
    cases (Checked.mul? value weight).bind (Checked.add? total) with
    | none => rfl
    | some next => exact ih next

theorem evaluate_of_bound {pairs : List (Int64 × Int64)} (h : Bound env e.terms pairs) :
    e.evaluate env = (Axis.sum? e.constant pairs).elim
      (.error (.malformedAccess (.indexOverflow e.text))) .ok := by
  have hsum := sum_append_of_bound e e.constant h []
  rwa [List.append_nil] at hsum

theorem evaluate_of_fails {fault : Fault} (h : e.Fails env fault) :
    e.evaluate env = .error fault := by
  unfold evaluate
  cases h with
  | unbound hterms hbound hstays hname =>
    obtain ⟨next, hnext⟩ := Axis.exists_sum? hstays
    rw [hterms, sum_append_of_bound e _ hbound, hnext, Option.elim_some]
    simp only [sum, hname]
  | overflow hterms hbound hstays =>
    rw [hterms, sum_append_of_bound e _ hbound, Axis.sum?_eq_none_iff.2 hstays, Option.elim_none]

theorem evaluate_of_worth {c : Int64} (h : e.Worth env c) : e.evaluate env = .ok c := by
  obtain ⟨pairs, hbound, hvalue⟩ := h
  rw [evaluate_of_bound hbound, Axis.sum?_eq_some_iff.2 hvalue, Option.elim_some]

/-- Every expression has a value or a reason not to have one. -/
theorem worth_or_fails (e : Affine) (env : Env) :
    (∃ c, e.Worth env c) ∨ ∃ fault, e.Fails env fault := by
  rcases bound_or_unbound env e.terms with
    ⟨pairs, hbound⟩ | ⟨before, pairs, name, weight, after, hterms, hbound, hname⟩
  · by_cases hstays : Axis.Stays e.constant pairs
    · obtain ⟨c, hc⟩ := Axis.exists_sum? hstays
      exact .inl ⟨c, pairs, hbound, Axis.sum?_eq_some_iff.1 hc⟩
    · exact .inr ⟨_, .overflow (List.append_nil e.terms).symm hbound hstays⟩
  · by_cases hstays : Axis.Stays e.constant pairs
    · exact .inr ⟨_, .unbound hterms hbound hstays hname⟩
    · -- the sum is out of range before the unbound variable is looked up
      exact .inr ⟨_, .overflow hterms hbound hstays⟩

theorem evaluate_eq_ok_iff {c : Int64} : e.evaluate env = .ok c ↔ e.Worth env c := by
  constructor
  · intro h
    rcases worth_or_fails e env with ⟨c', hc⟩ | ⟨fault, hfault⟩
    · exact Except.ok.inj ((evaluate_of_worth hc).symm.trans h) ▸ hc
    · exact absurd (h.symm.trans (evaluate_of_fails hfault)) nofun
  · exact evaluate_of_worth

theorem evaluate_eq_error_iff {fault : Fault} :
    e.evaluate env = .error fault ↔ e.Fails env fault := by
  constructor
  · intro h
    rcases worth_or_fails e env with ⟨c, hc⟩ | ⟨fault', hfault⟩
    · exact absurd (h.symm.trans (evaluate_of_worth hc)) nofun
    · exact Except.error.inj ((evaluate_of_fails hfault).symm.trans h) ▸ hfault
  · exact evaluate_of_fails

end Affine

/-! ## Steps under bindings -/

/-- Every expression of the index has the value that stands in its place. -/
def TileIndex.Worth (index : TileIndex) (env : Env) (tile : List Int64) : Prop :=
  List.Forall₂ (fun e c => e.Worth env c) index.axes tile

/-- The first expression of the index without a value fails like this. -/
def TileIndex.Fails (index : TileIndex) (env : Env) (fault : Fault) : Prop :=
  ∃ before e after, index.axes = before ++ e :: after ∧ (∀ d ∈ before, ∃ c, d.Worth env c) ∧
    e.Fails env fault

theorem TileIndex.evaluate_eq_ok_iff {index : TileIndex} {env : Env} {tile : List Int64} :
    index.evaluate env = .ok tile ↔ index.Worth env tile := by
  unfold evaluate Worth
  rw [Lists.mapM_eq_ok_iff]
  simp only [Affine.evaluate_eq_ok_iff]

theorem TileIndex.evaluate_eq_error_iff {index : TileIndex} {env : Env} {fault : Fault} :
    index.evaluate env = .error fault ↔ index.Fails env fault := by
  unfold evaluate Fails
  rw [Lists.mapM_eq_error_iff]
  simp only [Affine.evaluate_eq_ok_iff, Affine.evaluate_eq_error_iff]

/-- A step that is executed, with the bindings of the loops around it. -/
structure ScopedStep where
  env : Env
  instruction : Instruction
  plain : instruction.isPlain = true

namespace ScopedStep

/-- The event of the step, or its fault. -/
def perform : ScopedStep → Except Fault Event
  | ⟨_, .compute op operands result, _⟩ => .ok (.compute op operands result)
  | ⟨env, .load t, _⟩ =>
    (t.index.evaluate env).map fun tile => .load ⟨t.source, t.dest, t.route, tile⟩
  | ⟨env, .store t, _⟩ =>
    (t.index.evaluate env).map fun tile => .store ⟨t.source, t.dest, t.route, tile⟩

/-- The step happens as this event. A copy takes the tile that its index is worth. -/
def Yields : ScopedStep → Event → Prop
  | ⟨_, .compute op operands result, _⟩, event => event = .compute op operands result
  | ⟨env, .load t, _⟩, event =>
    ∃ tile, t.index.Worth env tile ∧ event = .load ⟨t.source, t.dest, t.route, tile⟩
  | ⟨env, .store t, _⟩, event =>
    ∃ tile, t.index.Worth env tile ∧ event = .store ⟨t.source, t.dest, t.route, tile⟩

/-- The step is a copy whose index has no value, with this fault. -/
def Fails : ScopedStep → Fault → Prop
  | ⟨_, .compute .., _⟩, _ => False
  | ⟨env, .load t, _⟩, fault => t.index.Fails env fault
  | ⟨env, .store t, _⟩, fault => t.index.Fails env fault

variable {s : ScopedStep}

theorem perform_eq_ok_iff {event : Event} : s.perform = .ok event ↔ s.Yields event := by
  obtain ⟨env, i, plain⟩ := s
  cases i with
  | compute op operands result => simp [perform, Yields, eq_comm]
  | load t =>
    simp only [perform, Yields, ← TileIndex.evaluate_eq_ok_iff]
    cases t.index.evaluate env <;> simp [Except.map, eq_comm]
  | store t =>
    simp only [perform, Yields, ← TileIndex.evaluate_eq_ok_iff]
    cases t.index.evaluate env <;> simp [Except.map, eq_comm]
  | loopBegin var low high => cases plain
  | loopEnd var => cases plain

theorem perform_eq_error_iff {fault : Fault} : s.perform = .error fault ↔ s.Fails fault := by
  obtain ⟨env, i, plain⟩ := s
  cases i with
  | compute op operands result => simp [perform, Fails]
  | load t =>
    simp only [perform, Fails, ← TileIndex.evaluate_eq_error_iff]
    cases t.index.evaluate env <;> simp [Except.map]
  | store t =>
    simp only [perform, Fails, ← TileIndex.evaluate_eq_error_iff]
    cases t.index.evaluate env <;> simp [Except.map]
  | loopBegin var low high => cases plain
  | loopEnd var => cases plain

end ScopedStep

/-! ## The interpreter -/

namespace LoopTree

/-- Execution by recursion over the tree. A loop runs its body once for each value of its range,
    one after the other, with its variable bound for the body only. -/
def interpret (env : Env) : LoopTree → Except Fault (List Event)
  | done => .ok []
  | step i plain rest => do
    let event ← ScopedStep.perform ⟨env, i, plain⟩
    let later ← rest.interpret env
    return event :: later
  | loop var low high body rest => do
    let rounds ← (LoopVar.valuesIn low high).mapM fun value => body.interpret (env.bind var value)
    let later ← rest.interpret env
    return rounds.flatten ++ later

/-- The steps that are executed as long as none fails. -/
def steps (env : Env) : LoopTree → List ScopedStep
  | done => []
  | step i plain rest => ⟨env, i, plain⟩ :: rest.steps env
  | loop var low high body rest =>
    (LoopVar.valuesIn low high).flatMap (fun value => body.steps (env.bind var value))
      ++ rest.steps env

theorem interpret_eq_mapM (t : LoopTree) (env : Env) :
    t.interpret env = (t.steps env).mapM ScopedStep.perform := by
  induction t generalizing env with
  | done => rfl
  | step i plain rest ih => rw [interpret, steps, List.mapM_cons, ih]
  | loop var low high body rest ihb ihr =>
    rw [interpret, steps, List.mapM_append, Lists.mapM_flatMap, ihr]
    simp only [ihb]
    cases (LoopVar.valuesIn low high).mapM fun value =>
      (body.steps (env.bind var value)).mapM ScopedStep.perform <;> rfl

end LoopTree

namespace Run

theorem outcome_andThen (r : Run) (next : Unit → Run) :
    (r.andThen next).outcome = do
      let first ← r.outcome
      let later ← (next ()).outcome
      return first ++ later := by
  obtain ⟨events, fault⟩ := r
  cases fault with
  | some fault => rfl
  | none =>
    unfold andThen
    generalize next () = rest
    obtain ⟨later, fault⟩ := rest
    cases fault <;> rfl

theorem outcome_each (body : Int64 → Run) (values : List Int64) :
    (each body values).outcome =
      (values.mapM fun value => (body value).outcome).map List.flatten := by
  induction values with
  | nil => rfl
  | cons value values ih =>
    rw [each, outcome_andThen, ih, List.mapM_cons]
    cases (body value).outcome with
    | error fault => rfl
    | ok events =>
      cases values.mapM fun value => (body value).outcome <;> rfl

end Run

theorem Trace.outcome_act (env : Env) {i : Instruction} (plain : i.isPlain = true) :
    (act env i).outcome = (ScopedStep.perform ⟨env, i, plain⟩).map fun event => [event] := by
  cases i with
  | compute op operands result => rfl
  | load t =>
    rw [act, copy, ScopedStep.perform]
    cases t.index.evaluate env <;> rfl
  | store t =>
    rw [act, copy, ScopedStep.perform]
    cases t.index.evaluate env <;> rfl
  | loopBegin var low high => cases plain
  | loopEnd var => cases plain

theorem LoopTree.outcome_run (t : LoopTree) (env : Env) :
    (t.run env).outcome = t.interpret env := by
  induction t generalizing env with
  | done => rfl
  | step i plain rest ih =>
    rw [run, Run.outcome_andThen, Trace.outcome_act env plain, interpret, ih]
    cases ScopedStep.perform ⟨env, i, plain⟩ <;> rfl
  | loop var low high body rest ihb ihr =>
    rw [run, Run.outcome_andThen, Run.outcome_each, interpret, ihr]
    simp only [ihb]
    cases (LoopVar.valuesIn low high).mapM fun value => body.interpret (env.bind var value) <;> rfl

theorem Trace.expand_code (t : LoopTree) : expand t.code = t.interpret Env.empty := by
  rw [expand, record_code, LoopTree.outcome_run]

/-- The values of a range are its numbers, ascending. -/
theorem LoopVar.pairwise_valuesIn (low high : Int64) : (valuesIn low high).Pairwise (· < ·) := by
  refine List.pairwise_map.2 (List.pairwise_lt_range.imp_of_mem fun {i j} hi hj hij => ?_)
  rw [List.mem_range] at hi hj
  have hl := Int64.le_toInt low
  have hh := Int64.toInt_lt high
  rw [Int64.lt_iff_toInt_lt, Int64.toInt_ofInt_of_le (by omega) (by omega),
    Int64.toInt_ofInt_of_le (by omega) (by omega)]
  omega

/-- **Execution is lexically scoped.** The events of a nested schedule are those of the interpreter
    over its tree, whatever the names and the ranges of its loops and the terms of its indices are.
    A run has events exactly when every step it comes to gives one, and then they are those, in that
    order. Otherwise it ends with the fault of the first step whose index has an unbound variable or
    leaves the range. A loop comes to its body for the numbers of its range, ascending. -/
theorem Trace.expand_interprets (t : LoopTree) :
    expand t.code = t.interpret Env.empty ∧
    (∀ events, expand t.code = .ok events ↔
      List.Forall₂ ScopedStep.Yields (t.steps Env.empty) events) ∧
    (∀ fault, expand t.code = .error fault ↔
      ∃ before s after, t.steps Env.empty = before ++ s :: after ∧
        (∀ r ∈ before, ∃ event, r.Yields event) ∧ s.Fails fault) ∧
    ∀ low high, (LoopVar.valuesIn low high).Pairwise (· < ·) ∧
      ∀ x, x ∈ LoopVar.valuesIn low high ↔ low ≤ x ∧ x < high := by
  -- over the unrolled steps, loops and scopes are gone
  have hsteps : expand t.code = (t.steps Env.empty).mapM ScopedStep.perform := by
    rw [expand_code, LoopTree.interpret_eq_mapM]
  refine ⟨expand_code t, fun events => ?_, fun fault => ?_, fun low high => ⟨?_, fun x => ?_⟩⟩
  · rw [hsteps, Lists.mapM_eq_ok_iff]
    simp only [ScopedStep.perform_eq_ok_iff]
  · rw [hsteps, Lists.mapM_eq_error_iff]
    simp only [ScopedStep.perform_eq_ok_iff, ScopedStep.perform_eq_error_iff]
  · exact LoopVar.pairwise_valuesIn low high
  · rw [LoopVar.mem_valuesIn, Int64.le_iff_toInt_le, Int64.lt_iff_toInt_lt]

/-- A shadowed variable has its own value again after the loop that shadows it, also where that
    loop has no values. -/
example : (LoopTree.loop "i" 0 2
    (.loop "i" 7 8 (.step (.load ⟨"a", "b", .globalToShared, ⟨[⟨[("i", 1)], 0⟩]⟩⟩) rfl .done)
      (.loop "i" 3 3 .done
        (.step (.store ⟨"b", "c", .sharedToGlobal, ⟨[⟨[("i", 1)], 0⟩]⟩⟩) rfl .done)))
    .done).interpret Env.empty =
      .ok [.load ⟨"a", "b", .globalToShared, [7]⟩, .store ⟨"b", "c", .sharedToGlobal, [0]⟩,
        .load ⟨"a", "b", .globalToShared, [7]⟩, .store ⟨"b", "c", .sharedToGlobal, [1]⟩] := by
  decide +kernel

end TileNest
