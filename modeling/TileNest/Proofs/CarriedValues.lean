import TileNest.Proofs.LiveHull

/-
  Values that a loop carries from one iteration to the next. A loop's iterations are the runs of its
  body that take place while the schedule runs (`Loop.Iterates`), each with its own values of the
  loops around. A value is carried where an iteration reads a tensor that it has not written
  (`Loop.Carries`).

  Main result: `Program.carried_spans_loop`. The analysis decides on the first reference that stands
  in the body, a run on the first one that is carried out. They differ only where the first
  reference stands in a loop without a value (`LoopTree.lookup_executed_or`), and it does harm where
  that reference is a definition (`Hides`). Everywhere else the range of a carried tensor spans the
  loop. `Program.hidden_value_overwritten` has such a schedule: the tile is overwritten between two
  iterations, although the second reads it.
-/

namespace TileNest

/-! ## Iterations -/

/-- The body's run for each value is a part of the whole. -/
theorem Run.each_infix {body : Int64 → Run} {values : List Int64} {value : Int64}
    {events : List Event} (hv : value ∈ values) (h : each body values = ⟨events, none⟩) :
    ∃ part, body value = ⟨part, none⟩ ∧ part <:+: events := by
  induction values generalizing events with
  | nil => cases hv
  | cons v values ih =>
    obtain ⟨now, later, hnow, hlater, rfl⟩ := andThen_eq h
    rcases List.mem_cons.1 hv with rfl | hv
    · exact ⟨now, hnow, (List.prefix_append now later).isInfix⟩
    · obtain ⟨part, hpart, hin⟩ := ih hv hlater
      exact ⟨part, hpart, hin.trans (List.suffix_append now later).isInfix⟩

/-- A schedule after a tree runs after it. -/
theorem Trace.run_code_append (t : LoopTree) (env : Env) (rest : List Instruction) :
    run env (t.code ++ rest) = (t.run env).andThen fun _ => run env rest := by
  induction t with
  | done => rfl
  | step i plain t ih =>
    rw [LoopTree.code, List.cons_append, run_plain env plain, ih, LoopTree.run, Run.andThen_assoc]
  | loop var low high body t _ ih =>
    simp only [LoopTree.code, List.cons_append, List.append_assoc]
    rw [run_loop, ih, LoopTree.run, Run.andThen_assoc]
    simp only [run_code]

namespace Loop

variable {code : List Instruction} {env inner : Env} {events : List Event} {x : String}

/-- A loop of the body of a loop. -/
def lift (m : Loop code) (l : Loop m.body) : Loop code where
  before := m.before ++ .loopBegin m.var m.low m.high :: l.before
  var := l.var
  low := l.low
  high := l.high
  body := l.body
  after := l.after ++ .loopEnd m.var :: m.after
  nested := l.nested
  code_eq := by
    conv_lhs => rw [m.code_eq, l.code_eq]
    simp

/-- A run of the schedule with the first values of the loop variables has an iteration of the loop
    with the second ones. -/
inductive Iterates : {code : List Instruction} → Env → Loop code → Env → Prop
  /-- The loop is in no other loop of the schedule. -/
  | outermost {code : List Instruction} {env : Env} {l : Loop code} {value : Int64}
      (before : Nested l.before) (mem : value ∈ LoopVar.valuesIn l.low l.high) :
      Iterates env l (env.bind l.var value)
  /-- The loop is in another, for whose value it runs. -/
  | inside {code : List Instruction} {env inner : Env} {m : Loop code} {l : Loop m.body}
      {value : Int64} (before : Nested m.before) (mem : value ∈ LoopVar.valuesIn m.low m.high)
      (iterates : Iterates (env.bind m.var value) l inner) : Iterates env (m.lift l) inner

/-- In some iteration an event reads the tensor, and no event of the iteration before it has
    written it. -/
def Carries (l : Loop code) (tensors : List Tensor) (x : String) : Prop :=
  ∃ inner before r after, l.Iterates Env.empty inner ∧
    (Trace.run inner l.body).events = before ++ r :: after ∧ r.Reads tensors x ∧
    ∀ e ∈ before, e.written ≠ x

theorem run_iteration {l : Loop code} {value : Int64} (before : Nested l.before)
    (mem : value ∈ LoopVar.valuesIn l.low l.high) (h : Trace.run env code = ⟨events, none⟩) :
    ∃ part, Trace.run (env.bind l.var value) l.body = ⟨part, none⟩ ∧ part <:+: events := by
  obtain ⟨s, hs⟩ := before
  obtain ⟨t, ht⟩ := l.nested
  rw [l.code_eq, ← hs, ← ht, Trace.run_code_append, Trace.run_loop] at h
  obtain ⟨early, rest, -, hrest, rfl⟩ := Run.andThen_eq h
  obtain ⟨looped, late, hlooped, -, rfl⟩ := Run.andThen_eq hrest
  obtain ⟨part, hpart, hin⟩ := Run.each_infix mem hlooped
  rw [ht] at hpart
  exact ⟨part, hpart, hin.trans ((List.prefix_append looped late).isInfix.trans
    (List.suffix_append early _).isInfix)⟩

/-- An iteration is a part of the run, and has no fault if the run has none. -/
theorem Iterates.run {l : Loop code} (h : l.Iterates env inner)
    (hrun : Trace.run env code = ⟨events, none⟩) :
    ∃ part, Trace.run inner l.body = ⟨part, none⟩ ∧ part <:+: events := by
  induction h generalizing events with
  | outermost before mem => exact run_iteration before mem hrun
  | inside before mem _ ih =>
    obtain ⟨outer, houter, hin⟩ := run_iteration before mem hrun
    obtain ⟨part, hpart, hpin⟩ := ih houter
    exact ⟨part, hpart, hpin.trans hin⟩

/-! ## First references -/

/-- The first reference of the schedule to the tensor is in the loop. -/
def HoldsFirst (l : Loop code) (x : String) : Prop :=
  (∀ i ∈ l.before, x ∉ i.names) ∧ ∃ i ∈ l.body, x ∈ i.names

end Loop

/-- The first reference to the tensor is a pure definition in a loop that never runs. -/
def Hides (table : TensorTable) (x : String) (code : List Instruction) : Prop :=
  ∃ l : Loop code, l.high ≤ l.low ∧ l.HoldsFirst x ∧ ¬ TakenUp table x l.body

section

variable {table : TensorTable} {x : String} {code : List Instruction}

theorem takenUp_append_right {pre : List Instruction} (h : ∀ i ∈ pre, x ∉ i.names) :
    TakenUp table x (pre ++ code) ↔ TakenUp table x code := by
  induction pre with
  | nil => rfl
  | cons i pre ih =>
    rw [List.cons_append, takenUp_cons_of_not_mem (h i List.mem_cons_self)]
    exact ih fun j hj => h j (List.mem_cons_of_mem i hj)

theorem takenUp_append_left (h : ∃ i ∈ code, x ∈ i.names) (post : List Instruction) :
    TakenUp table x (code ++ post) ↔ TakenUp table x code := by
  induction code with
  | nil =>
    obtain ⟨i, hi, -⟩ := h
    cases hi
  | cons i code ih =>
    rw [List.cons_append]
    by_cases hx : x ∈ i.names
    · rw [takenUp_cons_of_mem hx, takenUp_cons_of_mem hx]
    · rw [takenUp_cons_of_not_mem hx, takenUp_cons_of_not_mem hx]
      obtain ⟨j, hj, hxj⟩ := h
      rcases List.mem_cons.1 hj with rfl | hj
      · exact absurd hxj hx
      · exact ih ⟨j, hj, hxj⟩

/-- The loop that holds the first reference decides. -/
theorem Loop.HoldsFirst.takenUp_iff {l : Loop code} (h : l.HoldsFirst x) :
    TakenUp table x code ↔ TakenUp table x l.body := by
  have hmark : x ∉ (Instruction.loopBegin l.var l.low l.high).names := List.not_mem_nil
  conv_lhs => rw [l.code_eq]
  rw [takenUp_append_right h.1, takenUp_cons_of_not_mem hmark, takenUp_append_left h.2]

theorem not_takenUp_of_hides (h : Hides table x code) : ¬ TakenUp table x code := by
  obtain ⟨l, -, hfirst, hl⟩ := h
  rwa [hfirst.takenUp_iff]

/-- A loop without a value that holds the first reference of a part of a schedule holds that of the
    schedule, if nothing before the part refers to the tensor. -/
theorem exists_holdsFirst_within (pre post : List Instruction) {whole : List Instruction}
    (h : ∃ l : Loop code, l.high ≤ l.low ∧ l.HoldsFirst x) (hpre : ∀ i ∈ pre, x ∉ i.names)
    (hwhole : whole = pre ++ code ++ post) :
    ∃ l : Loop whole, l.high ≤ l.low ∧ l.HoldsFirst x := by
  subst hwhole
  obtain ⟨l, hempty, hbefore, hbody⟩ := h
  refine ⟨l.within pre post, hempty, fun i hi => ?_, hbody⟩
  rcases List.mem_append.1 hi with hi | hi
  · exact hpre i hi
  · exact hbefore i hi

/-- Instructions that do not name the tensor do not refer to it, however often they are carried
    out. -/
theorem lookup_executed_eq_none {run : List (Nat × Instruction)} (h : ∀ u ∈ run, x ∉ u.2.names) :
    (run.flatMap fun u => u.2.references table).lookup x = none := by
  have hflat : (run.flatMap fun u => u.2.references table) =
      (run.map Prod.snd).flatMap (Instruction.references table) := (List.flatMap_map ..).symm
  rw [hflat, ← Option.not_isSome_iff_eq_none, lookup_flatMap_isSome_iff]
  rintro ⟨i, hi, hx⟩
  obtain ⟨u, hu, rfl⟩ := List.mem_map.1 hi
  exact h u hu hx

/-- The first reference that a run carries out is the first of the schedule, unless that one is in a
    loop without a value. -/
theorem LoopTree.lookup_executed_or (t : LoopTree) (position : Nat) :
    ((t.executed position).flatMap fun u => u.2.references table).lookup x =
        (t.references table).lookup x ∨
      ∃ l : Loop t.code, l.high ≤ l.low ∧ l.HoldsFirst x := by
  induction t generalizing position with
  | done => exact .inl rfl
  | step i plain rest ih =>
    rw [executed, references, List.flatMap_cons, List.lookup_append, List.lookup_append]
    by_cases hi : x ∈ i.names
    · obtain ⟨mode, hmode⟩ := Option.isSome_iff_exists.1
        ((Instruction.lookup_references_isSome_iff table).2 hi)
      exact .inl (by rw [hmode, Option.some_or, Option.some_or])
    · rcases ih (position + 1) with h | h
      · exact .inl (by rw [h])
      · exact .inr (exists_holdsFirst_within [i] [] h (by simpa using hi) (by simp [code]))
  | loop var low high body rest ihb ihr =>
    rw [executed, references, List.flatMap_append, List.lookup_append, List.lookup_append]
    by_cases hbody : ∃ i ∈ body.code, x ∈ i.names
    · by_cases hruns : low < high
      · rcases ihb (position + 1) with h | h
        · obtain ⟨mode, hmode⟩ := Option.isSome_iff_exists.1
            ((lookup_flatMap_isSome_iff table).2 hbody)
          rw [← body.references_eq] at hmode
          refine .inl ?_
          rw [List.flatMap_assoc, lookup_repeated (valuesIn_ne_nil hruns), h, hmode,
            Option.some_or, Option.some_or]
        · exact .inr (exists_holdsFirst_within [.loopBegin var low high]
            (.loopEnd var :: rest.code) h (by simp [Instruction.names]) (by simp [code]))
      · exact .inr ⟨⟨[], var, low, high, body.code, rest.code, ⟨body, rfl⟩, rfl⟩,
          Int64.not_lt.1 hruns, fun _ hi => absurd hi List.not_mem_nil, hbody⟩
    · -- the loop does not refer to the tensor, whether it runs or not
      have hquiet : ∀ i ∈ body.code, x ∉ i.names := fun i hi hx => hbody ⟨i, hi, hx⟩
      have hnone : (body.references table).lookup x = none := by
        rw [body.references_eq, ← Option.not_isSome_iff_eq_none, lookup_flatMap_isSome_iff]
        exact hbody
      rw [hnone, lookup_executed_eq_none fun u hu => ?_, Option.none_or, Option.none_or]
      · refine (ihr _).imp_right fun h => ?_
        refine exists_holdsFirst_within
          (.loopBegin var low high :: (body.code ++ [.loopEnd var])) [] h (fun i hi => ?_)
          (by simp [code])
        simp only [List.mem_cons, List.mem_append, List.not_mem_nil, or_false] at hi
        rcases hi with rfl | hi | rfl
        · exact List.not_mem_nil
        · exact hquiet i hi
        · exact List.not_mem_nil
      · obtain ⟨-, -, hu⟩ := List.mem_flatMap.1 hu
        exact hquiet _ (mem_code_of_executed hu)

/-- A run that reads a tensor before it writes it takes it up, unless the first reference is
    hidden. -/
theorem takenUp_or_hides {tensors : List Tensor} (htab : TensorTable.ofTensors tensors = .ok table)
    (hn : Nested code) {env : Env} {before after : List Event} {r : Event}
    (hrun : Trace.run env code = ⟨before ++ r :: after, none⟩) (hr : r.Reads tensors x)
    (hquiet : ∀ e ∈ before, e.written ≠ x) : TakenUp table x code ∨ Hides table x code := by
  obtain ⟨t, rfl⟩ := hn
  rw [Trace.run_code] at hrun
  obtain ⟨front, u, rest, hexec, hfront, hu, -⟩ :=
    Lists.forall₂_append_cons (LoopTree.run_emits hrun 0)
  have hfresh : ∀ s ∈ front, ¬ s.2.Writes table x := by
    intro s hs hw
    obtain ⟨e, he, hse⟩ := Lists.forall₂_partner hfront.flip hs
    exact hquiet e he ((Instruction.writes_iff hse).1 hw)
  have hcarries := carries_of_takesUp (Instruction.takesUp_of_reads htab hu hr) hfresh rest
  rw [← hexec] at hcarries
  rcases t.lookup_executed_or 0 with heq | ⟨l, hempty, hfirst⟩
  · refine .inl ?_
    rw [← carries_flatMap_iff, ← t.references_eq, Liveness.carries, ← heq]
    exact hcarries
  · by_cases htaken : TakenUp table x t.code
    · exact .inl htaken
    · exact .inr ⟨l, hempty, hfirst, fun hl => htaken (hfirst.takenUp_iff.2 hl)⟩

end

/-! ## Ranges of carried tensors -/

namespace Program

/-- Where a loop takes up a tensor that an event reads, the range of the tensor spans the loop. -/
theorem spans_of_takenUp {p : Program} (h : p.Built) {options : PlanOptions} {plan : Plan}
    (hp : p.plan options = .ok plan) {table : TensorTable}
    (htab : TensorTable.ofTensors p.tensors = .ok table) {ranges : LiveRanges}
    (hranges : Liveness.analyze table p.code = .ok ranges) {events : List Event}
    (hexpand : Trace.expand p.code = .ok events) {r : Event} (hmem : r ∈ events) {x : String}
    (hr : r.Reads p.tensors x) {l : Loop p.code} (htaken : TakenUp table x l.body) :
    ∃ range a, ranges.lookup x = some range ∧ plan.get? x = some a ∧
      ∀ q ∈ [l.first, l.last], range.Contains q ∧ a.live.Contains q := by
  obtain ⟨t, ht⟩ := p.nested_code
  obtain ⟨_, hexpand', hemit⟩ := expand_emits h ht
  cases hexpand.symm.trans hexpand'
  have hstamps : ∀ q ∈ [l.first, l.last], q ∈ t.stamps table x 0 := by
    intro q hq
    rw [LoopTree.mem_stamps_iff, ht]
    exact ⟨q, (Nat.zero_add q).symm, .inr ⟨l, htaken, by simpa using hq⟩⟩
  obtain ⟨s, hs, hse⟩ := Lists.forall₂_partner hemit hmem
  have htouches := (Instruction.takesUp_of_reads htab hse hr).touches
  obtain ⟨a, ha, hlive⟩ := get?_plan h hp ht htab hs htouches
  obtain ⟨_, hranges', -, hlookup⟩ := Liveness.analyze_code table t
  rw [ht] at hranges'
  cases hranges.symm.trans hranges'
  obtain ⟨range, hrange⟩ := Option.isSome_iff_exists.1 (LiveRange.coverAll_isSome (r := none)
    (.inr (List.ne_nil_of_mem (hstamps l.first List.mem_cons_self))))
  exact ⟨range, a, (hlookup x).trans hrange, ha, fun q hq =>
    ⟨LiveRange.contains_coverAll hrange (.inr (hstamps q hq)), hlive q (hstamps q hq)⟩⟩

/-- **Carried values.** The iterations of a loop are parts of the run. If one of them reads a tensor
    that it has not written, the loop takes the tensor up exactly if no loop without a value hides
    its first reference; then its range, in the analysis and in the plan, spans the loop. -/
theorem carried_spans_loop {p : Program} (h : p.Built) {options : PlanOptions} {plan : Plan}
    (hp : p.plan options = .ok plan) :
    ∃ events table ranges, Trace.expand p.code = .ok events ∧
      TensorTable.ofTensors p.tensors = .ok table ∧
      Liveness.analyze table p.code = .ok ranges ∧
      ∀ l : Loop p.code,
        (∀ inner, l.Iterates Env.empty inner → (Trace.run inner l.body).events <:+: events) ∧
        ∀ x, l.Carries p.tensors x →
          (TakenUp table x l.body ↔ ¬ Hides table x l.body) ∧
          (¬ Hides table x l.body →
            ∃ range a, ranges.lookup x = some range ∧ plan.get? x = some a ∧
              ∀ q ∈ [l.first, l.last], range.Contains q ∧ a.live.Contains q) := by
  obtain ⟨table, ranges, htab, hranges, -⟩ := plan_eq_ok hp
  obtain ⟨events, hexpand, -⟩ := p.expand_yields h
  have hrun : Trace.run Env.empty p.code = ⟨events, none⟩ := by
    rw [← p.nested_code.record_eq]
    exact Run.eq_of_outcome hexpand
  refine ⟨events, table, ranges, hexpand, htab, hranges, fun l => ⟨fun inner hi => ?_, ?_⟩⟩
  · obtain ⟨part, hpart, hin⟩ := hi.run hrun
    rw [hpart]
    exact hin
  · rintro x ⟨inner, before, r, after, hi, hsplit, hr, hquiet⟩
    obtain ⟨part, hpart, hin⟩ := hi.run hrun
    obtain rfl : part = before ++ r :: after := by rw [← hsplit, hpart]
    have htaken : ¬ Hides table x l.body → TakenUp table x l.body :=
      (takenUp_or_hides htab l.nested hpart hr hquiet).resolve_right
    refine ⟨⟨fun ht hh => not_takenUp_of_hides hh ht, htaken⟩, fun hh => ?_⟩
    exact spans_of_takenUp h hp htab hranges hexpand (hin.subset (by simp)) hr (htaken hh)

end Program

namespace Sample

/-- The loop around the three inner blocks. -/
def rereadLoop : Loop rereading.code where
  before := [.load bring.transfer]
  var := "i"
  low := 0
  high := 2
  body := [.loopBegin "j" 0 0, .store putBack.transfer, .loopEnd "j", .load takeUp.transfer,
    .load bringOther.transfer]
  after := []
  nested := ⟨.loop "j" 0 0 (.step _ rfl .done) (.step _ rfl (.step _ rfl .done)), rfl⟩
  code_eq := by decide +kernel

theorem rereadLoop_iterates : rereadLoop.Iterates Env.empty (Env.empty.bind "i" 1) :=
  .outermost (Nested.plain (by decide)) (by decide)

/-- Each iteration takes the tile up and then brings the other one. -/
theorem rereadLoop_run : (Trace.run (Env.empty.bind "i" 1) rereadLoop.body).events =
    [.load ⟨"a", "r", .sharedToRegister, [0]⟩, .load ⟨"g", "b", .globalToShared, [0]⟩] := by
  decide +kernel

end Sample

namespace Program

/-- The loop carries `g`, of which the inner loop without a value has no reference. -/
theorem carried_spans_loop_reread :
    Sample.rereading.Built ∧ Sample.rereading.plan {} = .ok (Sample.rereadPlan 0) ∧
    Sample.rereadLoop.Carries Sample.rereading.tensors "g" ∧
    ∃ a, (Sample.rereadPlan 0).get? "g" = some a ∧
      ∀ q ∈ [Sample.rereadLoop.first, Sample.rereadLoop.last], a.live.Contains q := by
  have hcarries : Sample.rereadLoop.Carries Sample.rereading.tensors "g" :=
    ⟨_, [_], _, [], Sample.rereadLoop_iterates, Sample.rereadLoop_run, .inl rfl, by decide⟩
  obtain ⟨_, table, _, -, -, -, hloops⟩ :=
    carried_spans_loop Sample.rereading_built Sample.rereading_plan
  obtain ⟨hrule, hspans⟩ := (hloops Sample.rereadLoop).2 "g" hcarries
  have htaken : TakenUp table "g" Sample.rereadLoop.body :=
    ⟨Sample.rereadLoop.body.take 4, .load Sample.bringOther.transfer, [], rfl, by decide, by decide,
      fun hdef => hdef.2.1 rfl⟩
  obtain ⟨_, a, -, ha, hends⟩ := hspans (hrule.1 htaken)
  exact ⟨Sample.rereading_built, Sample.rereading_plan, hcarries, a, ha, fun q hq => (hends q hq).2⟩

/-- Each iteration reads `a`, which was filled before the loop. The inner loop, which never runs,
    counts as a definition of it, so its range ends before the loop does, and each iteration ends
    with a copy into its bytes. -/
theorem hidden_value_overwritten :
    Sample.rereading.Built ∧ Sample.rereading.plan {} = .ok (Sample.rereadPlan 0) ∧
    Sample.rereadLoop.Carries Sample.rereading.tensors "a" ∧
    (∃ table ranges, TensorTable.ofTensors Sample.rereading.tensors = .ok table ∧
      Liveness.analyze table Sample.rereading.code = .ok ranges ∧
      ranges.lookup "a" = some ⟨0, 5⟩) ∧
    ∃ a b, (Sample.rereadPlan 0).get? "a" = some a ∧ (Sample.rereadPlan 0).get? "b" = some b ∧
      ¬ a.live.Contains Sample.rereadLoop.last ∧ a.tier = b.tier ∧ a.Shares b := by
  have hcarries : Sample.rereadLoop.Carries Sample.rereading.tensors "a" :=
    ⟨_, [], _, [_], Sample.rereadLoop_iterates, Sample.rereadLoop_run, .inl rfl, nofun⟩
  have hranges : Liveness.analyze Sample.rereading.tensors.eraseDups Sample.rereading.code =
      .ok [("g", ⟨0, 7⟩), ("a", ⟨0, 5⟩), ("r", ⟨1, 7⟩), ("b", ⟨6, 6⟩)] := by decide +kernel
  have hends : ¬ (Sample.slot Sample.staged 0 0 5).live.Contains Sample.rereadLoop.last :=
    fun hc => absurd hc.2 (by decide)
  have hshares : (Sample.slot Sample.staged 0 0 5).Shares (Sample.slot Sample.gathered 0 6 6) :=
    ⟨0, ⟨by decide, by decide⟩, by decide, by decide⟩
  exact ⟨Sample.rereading_built, Sample.rereading_plan, hcarries,
    ⟨_, _, by decide +kernel, hranges, rfl⟩, _, _, rfl, rfl, hends, rfl, hshares⟩

end Program

end TileNest
