import TileNest.Proofs.LiveHull

/-
  Loops that nest, and the two passes that check it. Execution matches the begin and the end of
  every loop before it runs anything; the analysis of live ranges keeps a stack of open loops while
  it extends the ranges. Main result: `loop_checks_agree`. Both passes accept exactly the schedules
  of a grammar (`Balanced`), and where they refuse one they report the same variable, which is said
  without them as well (`Unbalanced`).

  What both do with the names of the open loops is one machine (`culprit?`). A step of it keeps the
  split of the schedule so far into nested parts and open begins (`Open`), so that at the end
  nothing is open or the culprit is at hand. The spans that are found are the loops of the schedule
  and lie in or beside each other (`Matched`).
-/

namespace TileNest

/-! ## The grammar of nested loops -/

/-- The schedules in which loops nest, as a grammar: nothing, such a schedule and a step, or such a
    schedule and a loop around another one. -/
inductive Balanced : List Instruction → Prop
  | empty : Balanced []
  | step {code : List Instruction} {i : Instruction} :
      Balanced code → i.isPlain = true → Balanced (code ++ [i])
  | loop {code body : List Instruction} (var : String) (low high : Int64) :
      Balanced code → Balanced body →
        Balanced (code ++ .loopBegin var low high :: (body ++ [.loopEnd var]))

theorem Nested.step {i : Instruction} (plain : i.isPlain = true) : Nested [i] :=
  Nested.plain fun _ hj => List.mem_singleton.1 hj ▸ plain

theorem Balanced.nested {code : List Instruction} (h : Balanced code) : Nested code := by
  induction h with
  | empty => exact Nested.nil
  | step _ plain ih => exact ih.append (Nested.step plain)
  | loop var low high _ _ ih ihb => exact ih.append (ihb.loop var low high)

/-- The grammar grows a schedule at its end, a tree at its front. -/
theorem LoopTree.balanced_append (t : LoopTree) {front : List Instruction} (h : Balanced front) :
    Balanced (front ++ t.code) := by
  induction t generalizing front with
  | done =>
    rw [code, List.append_nil]
    exact h
  | step i plain rest ih =>
    have hrest := ih (h.step plain)
    rwa [List.append_assoc, List.singleton_append] at hrest
  | loop var low high body rest ihb ihr =>
    have hbody := ihb Balanced.empty
    have hrest := ihr (h.loop var low high hbody)
    simpa [code] using hrest

theorem balanced_iff_nested {code : List Instruction} : Balanced code ↔ Nested code := by
  constructor
  · exact Balanced.nested
  · intro h
    obtain ⟨t, rfl⟩ := h
    exact t.balanced_append Balanced.empty

/-! ## Open loops -/

/-- The schedule nests but for these loops, which it leaves open, the innermost first. -/
inductive Open : List String → List Instruction → Prop
  | none {code : List Instruction} : Balanced code → Open [] code
  | more {vars : List String} {code body : List Instruction} (var : String) (low high : Int64) :
      Open vars code → Balanced body →
        Open (var :: vars) (code ++ .loopBegin var low high :: body)

/-- The loops do not nest, and the first place that shows it names the variable: an end that is not
    that of the innermost open loop, or else the end of the schedule, with that loop still open. -/
inductive Unbalanced (code : List Instruction) (var : String) : Prop
  | wrongEnd {vars : List String} {before after : List Instruction} :
      code = before ++ .loopEnd var :: after → Open vars before → vars.head? ≠ some var →
        Unbalanced code var
  | noEnd {vars : List String} : Open (var :: vars) code → Unbalanced code var

theorem Balanced.append {xs ys : List Instruction} (hx : Balanced xs) (hy : Balanced ys) :
    Balanced (xs ++ ys) :=
  balanced_iff_nested.2 (hx.nested.append hy.nested)

namespace Open

variable {vars : List String} {code : List Instruction}

theorem append (h : Open vars code) {ys : List Instruction} (hy : Balanced ys) :
    Open vars (code ++ ys) := by
  cases h with
  | none hx => exact none (hx.append hy)
  | more var low high hopen hbody =>
    rw [List.append_assoc, List.cons_append]
    exact more var low high hopen (hbody.append hy)

theorem step (h : Open vars code) {i : Instruction} (plain : i.isPlain = true) :
    Open vars (code ++ [i]) :=
  h.append (Balanced.empty.step plain)

theorem loopBegin (h : Open vars code) (var : String) (low high : Int64) :
    Open (var :: vars) (code ++ [.loopBegin var low high]) :=
  more var low high h Balanced.empty

theorem loopEnd {var : String} (h : Open (var :: vars) code) :
    Open vars (code ++ [.loopEnd var]) := by
  cases h with
  | more _ low high hopen hbody =>
    have hloop := hopen.append (Balanced.empty.loop var low high hbody)
    rwa [List.append_assoc, List.cons_append]

end Open

/-! ## The names of the open loops -/

/-- The variable at which the loops of a schedule fail to nest, with some loops open before it. -/
def culprit? (opened : List String) : List Instruction → Option String
  | [] => opened.head?
  | .loopBegin var _ _ :: code => culprit? (var :: opened) code
  | .loopEnd var :: code =>
    match opened with
    | [] => some var
    | name :: opened => if name = var then culprit? opened code else some var
  | _ :: code => culprit? opened code

theorem culprit?_plain (opened : List String) {i : Instruction} (plain : i.isPlain = true)
    (code : List Instruction) : culprit? opened (i :: code) = culprit? opened code := by
  cases i with
  | compute op operands result => rfl
  | load t => rfl
  | store t => rfl
  | loopBegin var low high => cases plain
  | loopEnd var => cases plain

/-- An end closes the innermost open loop, or is the culprit. -/
theorem culprit?_loopEnd (opened : List String) (var : String) (code : List Instruction) :
    (∃ rest, opened = var :: rest ∧ culprit? opened (.loopEnd var :: code) = culprit? rest code) ∨
      opened.head? ≠ some var ∧ culprit? opened (.loopEnd var :: code) = some var := by
  cases opened with
  | nil => exact .inr ⟨nofun, rfl⟩
  | cons name rest =>
    by_cases hname : name = var
    · subst hname
      exact .inl ⟨rest, rfl, by rw [culprit?, if_pos rfl]⟩
    · refine .inr ⟨fun h => hname (Option.some.inj h), ?_⟩
      rw [culprit?, if_neg hname]

/-- What is left open by the schedule so far is what the machine holds, so it ends with nested
    loops or at the variable that keeps them from nesting. -/
theorem culprit?_sound {opened : List String} {before rest : List Instruction}
    (h : Open opened before) :
    (culprit? opened rest = none → Balanced (before ++ rest)) ∧
      ∀ var, culprit? opened rest = some var → Unbalanced (before ++ rest) var := by
  induction rest generalizing opened before with
  | nil =>
    rw [List.append_nil]
    cases h with
    | none hbalanced => exact ⟨fun _ => hbalanced, nofun⟩
    | more name low high hopen hbody =>
      refine ⟨nofun, fun var hvar => ?_⟩
      obtain rfl := Option.some.inj hvar
      exact .noEnd (hopen.more name low high hbody)
  | cons i rest ih =>
    have hnext : ∀ {next : List String}, Open next (before ++ [i]) →
        culprit? opened (i :: rest) = culprit? next rest →
        (culprit? opened (i :: rest) = none → Balanced (before ++ i :: rest)) ∧
          ∀ var, culprit? opened (i :: rest) = some var → Unbalanced (before ++ i :: rest) var := by
      intro next hopen heq
      have hrest := ih hopen
      rwa [← heq, List.append_assoc, List.singleton_append] at hrest
    cases i with
    | compute op operands result => exact hnext (h.step rfl) rfl
    | load t => exact hnext (h.step rfl) rfl
    | store t => exact hnext (h.step rfl) rfl
    | loopBegin var low high => exact hnext (h.loopBegin var low high) rfl
    | loopEnd var =>
      obtain ⟨next, rfl, heq⟩ | ⟨hhead, heq⟩ := culprit?_loopEnd opened var rest
      · exact hnext h.loopEnd heq
      · rw [heq]
        refine ⟨nofun, fun culprit hculprit => ?_⟩
        obtain rfl := Option.some.inj hculprit
        exact .wrongEnd rfl h hhead

/-- A nested part leaves the open loops as they are. -/
theorem culprit?_code (t : LoopTree) (opened : List String) (rest : List Instruction) :
    culprit? opened (t.code ++ rest) = culprit? opened rest := by
  induction t generalizing opened rest with
  | done => rfl
  | step i plain t ih => rw [LoopTree.code, List.cons_append, culprit?_plain opened plain, ih]
  | loop var low high body t ihb iht =>
    simp only [LoopTree.code, List.cons_append, List.append_assoc]
    rw [culprit?, ihb, culprit?, if_pos rfl, iht]

theorem culprit?_balanced {code : List Instruction} (h : Balanced code) (opened : List String)
    (rest : List Instruction) : culprit? opened (code ++ rest) = culprit? opened rest := by
  obtain ⟨t, rfl⟩ := h.nested
  exact culprit?_code t opened rest

/-- A schedule that leaves loops open adds them to those that were open before. -/
theorem culprit?_open {vars : List String} {code : List Instruction} (h : Open vars code)
    (opened : List String) (rest : List Instruction) :
    culprit? opened (code ++ rest) = culprit? (vars ++ opened) rest := by
  induction h generalizing rest with
  | none hbalanced => exact culprit?_balanced hbalanced opened rest
  | more var low high _ hbody ih =>
    rw [List.append_assoc, List.cons_append, ih, culprit?, culprit?_balanced hbody]
    rfl

theorem culprit?_eq_none_iff {code : List Instruction} :
    culprit? [] code = none ↔ Balanced code := by
  constructor
  · intro h
    exact (culprit?_sound (Open.none Balanced.empty)).1 h
  · intro h
    have hcode := culprit?_balanced h [] []
    rwa [List.append_nil] at hcode

theorem culprit?_eq_some_iff {code : List Instruction} {var : String} :
    culprit? [] code = some var ↔ Unbalanced code var := by
  constructor
  · intro h
    exact (culprit?_sound (Open.none Balanced.empty)).2 var h
  · intro h
    cases h with
    | @wrongEnd vars before after hcode hopen hhead =>
      rw [hcode, culprit?_open hopen, List.append_nil]
      obtain ⟨next, rfl, -⟩ | ⟨-, heq⟩ := culprit?_loopEnd vars var after
      · exact absurd rfl hhead
      · exact heq
    | noEnd hopen =>
      have hcode := culprit?_open hopen [] []
      rwa [List.append_nil] at hcode

/-! ## The two passes -/

/-- The answer fails with the culprit, if there is one, and is given otherwise. -/
def Follows {α : Type} (culprit : Option String) (answer : Except Fault α) : Prop :=
  match culprit with
  | some var => answer = .error (.unbalancedLoop var)
  | none => ∃ a, answer = .ok a

namespace Follows

variable {α β : Type} {culprit : Option String} {answer : Except Fault α}

theorem map (h : Follows culprit answer) (f : α → β) : Follows culprit (answer.map f) := by
  cases culprit with
  | some var =>
    rw [show answer = _ from h]
    rfl
  | none =>
    obtain ⟨a, rfl⟩ := h
    exact ⟨f a, rfl⟩

theorem exists_ok_iff (h : Follows culprit answer) : (∃ a, answer = .ok a) ↔ culprit = none := by
  cases culprit with
  | some var =>
    rw [show answer = _ from h]
    exact iff_of_false nofun nofun
  | none => exact iff_of_true h rfl

theorem eq_error_iff (h : Follows culprit answer) {fault : Fault} :
    answer = .error fault ↔ ∃ var, culprit = some var ∧ fault = .unbalancedLoop var := by
  cases culprit with
  | some var =>
    rw [show answer = _ from h]
    constructor
    · intro he
      exact ⟨var, rfl, (Except.error.inj he).symm⟩
    · rintro ⟨name, hname, rfl⟩
      rw [Option.some.inj hname]
  | none =>
    obtain ⟨a, rfl⟩ := h
    exact iff_of_false nofun nofun

end Follows

/-- Matching the loops fails where the machine on their names does. -/
theorem Trace.spansFrom_follows (code : List Instruction) (position : Nat)
    (opened : List (Nat × String)) :
    Follows (culprit? (opened.map Prod.snd) code) (spansFrom position opened code) := by
  induction code generalizing position opened with
  | nil =>
    cases opened with
    | nil => exact ⟨[], rfl⟩
    | cons entry opened => rfl
  | cons i code ih =>
    cases i with
    | compute op operands result => exact ih (position + 1) opened
    | load t => exact ih (position + 1) opened
    | store t => exact ih (position + 1) opened
    | loopBegin var low high => exact ih (position + 1) ((position, var) :: opened)
    | loopEnd var =>
      cases opened with
      | nil => rfl
      | cons entry opened =>
        obtain ⟨start, name⟩ := entry
        rw [spansFrom, List.map_cons, culprit?]
        by_cases hname : name = var
        · rw [if_pos hname, if_pos hname]
          exact (ih (position + 1) opened).map _
        · rw [if_neg hname, if_neg hname]
          rfl

/-- References leave the names of the open loops as they are. -/
theorem Liveness.vars_refer (refs : List (String × Mode)) (position : Nat) (s : State) :
    (refs.foldl (refer position) s).frames.map Frame.var = s.frames.map Frame.var := by
  rw [refer_foldl, List.map_map]
  exact List.map_congr_left fun f _ => (f.noteAll_eq refs).1

/-- The analysis fails where the machine on the names of its frames does, whatever the ranges. -/
theorem Liveness.scan_follows (table : TensorTable) (code : List Instruction) (position : Nat)
    (s : State) :
    Follows (culprit? (s.frames.map Frame.var) code) (scan table position s code) := by
  induction code generalizing position s with
  | nil =>
    obtain ⟨ranges, frames⟩ := s
    cases frames with
    | nil => exact ⟨ranges, rfl⟩
    | cons f frames => rfl
  | cons i code ih =>
    have hplain : i.isPlain = true → Follows (culprit? (s.frames.map Frame.var) (i :: code))
        (scan table position s (i :: code)) := by
      intro plain
      rw [culprit?_plain _ plain, scan_plain table position s plain,
        ← vars_refer (i.references table) position s]
      exact ih _ _
    cases i with
    | compute op operands result => exact hplain rfl
    | load t => exact hplain rfl
    | store t => exact hplain rfl
    | loopBegin var low high => exact ih (position + 1) ⟨s.ranges, ⟨var, position, []⟩ :: s.frames⟩
    | loopEnd var =>
      obtain ⟨ranges, frames⟩ := s
      cases frames with
      | nil => rfl
      | cons f frames =>
        rw [scan, step, List.map_cons, culprit?]
        by_cases hname : f.var = var
        · simp only [if_pos hname]
          exact ih (position + 1) ⟨closeLoop f position ranges, frames⟩
        · simp only [if_neg hname]
          rfl

theorem Trace.loopSpans_follows (code : List Instruction) :
    Follows (culprit? [] code) (loopSpans code) := spansFrom_follows code 0 []

theorem Liveness.analyze_follows (table : TensorTable) (code : List Instruction) :
    Follows (culprit? [] code) (analyze table code) := scan_follows table code 0 .initial

/-! ## Spans -/

/-- A loop of the schedule begins and ends at these positions. -/
def LoopAt (code : List Instruction) (first last : Nat) : Prop :=
  ∃ l : Loop code, l.first = first ∧ l.last = last

section

variable {code body rest : List Instruction} {first last : Nat}

theorem LoopAt.within (h : LoopAt code first last) (pre post : List Instruction) :
    LoopAt (pre ++ code ++ post) (pre.length + first) (pre.length + last) := by
  obtain ⟨l, rfl, rfl⟩ := h
  refine ⟨l.within pre post, List.length_append, ?_⟩
  simp only [Loop.last, Loop.first, Loop.within, List.length_append]
  omega

theorem not_loopAt_nil : ¬ LoopAt [] first last := by
  rintro ⟨l, -⟩
  have := l.code_eq
  simp at this

theorem loopAt_step {i : Instruction} (plain : i.isPlain = true) :
    LoopAt (i :: code) first last ↔
      ∃ a b, first = a + 1 ∧ last = b + 1 ∧ LoopAt code a b := by
  constructor
  · rintro ⟨l, rfl, rfl⟩
    obtain ⟨m, hfirst, hbody⟩ := l.of_step plain
    refine ⟨m.first, m.last, hfirst, ?_, m, rfl, rfl⟩
    rw [Loop.last, Loop.last, hfirst, hbody]
    omega
  · rintro ⟨a, b, rfl, rfl, h⟩
    have hwithin := h.within [i] []
    rwa [List.append_nil, List.singleton_append, List.length_singleton, Nat.add_comm 1,
      Nat.add_comm 1] at hwithin

theorem loopAt_loop {v : String} {lo hi : Int64} (hb : Nested body) :
    LoopAt (.loopBegin v lo hi :: (body ++ .loopEnd v :: rest)) first last ↔
      (∃ a b, first = a + 1 ∧ last = b + 1 ∧ LoopAt body a b) ∨
        (first = 0 ∧ last = body.length + 1) ∨
        ∃ a b, first = a + (body.length + 2) ∧ last = b + (body.length + 2) ∧ LoopAt rest a b := by
  constructor
  · rintro ⟨l, rfl, rfl⟩
    rcases l.of_loop hb with ⟨hfirst, hbody⟩ | ⟨m, hfirst, hbody⟩ | ⟨m, hfirst, hbody⟩
    · refine .inr (.inl ⟨hfirst, ?_⟩)
      rw [Loop.last, hfirst, hbody]
      omega
    · refine .inl ⟨m.first, m.last, hfirst, ?_, m, rfl, rfl⟩
      rw [Loop.last, Loop.last, hfirst, hbody]
      omega
    · refine .inr (.inr ⟨m.first, m.last, hfirst, ?_, m, rfl, rfl⟩)
      rw [Loop.last, Loop.last, hfirst, hbody]
      omega
  · rintro (⟨a, b, rfl, rfl, h⟩ | ⟨rfl, rfl⟩ | ⟨a, b, rfl, rfl, h⟩)
    · have hwithin := h.within [.loopBegin v lo hi] (.loopEnd v :: rest)
      rwa [List.append_assoc, List.singleton_append, List.length_singleton, Nat.add_comm 1,
        Nat.add_comm 1] at hwithin
    · refine ⟨⟨[], v, lo, hi, body, rest, hb, rfl⟩, rfl, ?_⟩
      simp only [Loop.last, Loop.first, List.length_nil]
      omega
    · have hwithin := h.within (.loopBegin v lo hi :: (body ++ [.loopEnd v])) []
      have hlength : (Instruction.loopBegin v lo hi :: (body ++ [.loopEnd v])).length =
          body.length + 2 := by
        simp only [List.length_cons, List.length_append, List.length_nil]
      rw [hlength, Nat.add_comm _ a, Nat.add_comm _ b] at hwithin
      simpa using hwithin

end

/-- The spans map the begin of every loop of the schedule, and nothing else, to its end. -/
structure Matched (code : List Instruction) (spans : List (Nat × Nat)) : Prop where
  exact : ∀ first last, (first, last) ∈ spans ↔ LoopAt code first last
  total : ∀ first var low high, code[first]? = some (.loopBegin var low high) →
    ∃ last, (first, last) ∈ spans
  single : (spans.map Prod.fst).Nodup
  apart : ∀ s ∈ spans, ∀ t ∈ spans, s ≠ t → Apart s t

namespace LoopTree

/-- The spans of a tree are those of the loops of its schedule. -/
theorem mem_spans_iff (t : LoopTree) {position first last : Nat} :
    (first, last) ∈ t.spans position ↔
      ∃ a b, first = position + a ∧ last = position + b ∧ LoopAt t.code a b := by
  induction t generalizing position with
  | done => simp [spans, code, not_loopAt_nil]
  | step i plain rest ih =>
    rw [spans, ih]
    simp only [code, loopAt_step plain]
    constructor
    · rintro ⟨a, b, rfl, rfl, h⟩
      exact ⟨a + 1, b + 1, by omega, by omega, a, b, rfl, rfl, h⟩
    · rintro ⟨_, _, rfl, rfl, a, b, rfl, rfl, h⟩
      exact ⟨a, b, by omega, by omega, h⟩
  | loop var low high body rest ihb ihr =>
    rw [spans, List.mem_append, List.mem_cons, ihb, ihr, Prod.mk.injEq]
    simp only [code, loopAt_loop ⟨body, rfl⟩]
    constructor
    · rintro (⟨a, b, rfl, rfl, h⟩ | ⟨rfl, rfl⟩ | ⟨a, b, rfl, rfl, h⟩)
      · exact ⟨a + 1, b + 1, by omega, by omega, .inl ⟨a, b, rfl, rfl, h⟩⟩
      · exact ⟨0, body.code.length + 1, rfl, by omega, .inr (.inl ⟨rfl, rfl⟩)⟩
      · exact ⟨_, _, by omega, by omega, .inr (.inr ⟨a, b, rfl, rfl, h⟩)⟩
    · rintro ⟨_, _, rfl, rfl, ⟨a, b, rfl, rfl, h⟩ | ⟨rfl, rfl⟩ | ⟨a, b, rfl, rfl, h⟩⟩
      · exact .inl ⟨a, b, by omega, by omega, h⟩
      · exact .inr (.inl ⟨rfl, by omega⟩)
      · exact .inr (.inr ⟨a, b, by omega, by omega, h⟩)

theorem mem_spans_zero_iff (t : LoopTree) {first last : Nat} :
    (first, last) ∈ t.spans 0 ↔ LoopAt t.code first last := by
  simp [t.mem_spans_iff]

end LoopTree

/-- Every begin of a nested schedule is that of a loop. -/
theorem Nested.exists_loopAt {code : List Instruction} (h : Nested code) {first : Nat}
    {var : String} {low high : Int64} (hbegin : code[first]? = some (.loopBegin var low high)) :
    ∃ last, LoopAt code first last := by
  obtain ⟨hlt, hget⟩ := List.getElem?_eq_some_iff.1 hbegin
  have hsplit : code = code.take first ++ .loopBegin var low high :: code.drop (first + 1) := by
    rw [← hget, ← List.drop_eq_getElem_cons hlt, List.take_append_drop]
  obtain ⟨body, after, hbody, hrest⟩ := h.exists_body hsplit
  rw [hrest] at hsplit
  exact ⟨_, ⟨_, var, low, high, body, after, hbody, hsplit⟩,
    List.length_take_of_le (Nat.le_of_lt hlt), rfl⟩

/-- The spans that are found are the loops of the schedule. -/
theorem Trace.loopSpans_matched {code : List Instruction} {spans : List (Nat × Nat)}
    (h : loopSpans code = .ok spans) : Matched code spans := by
  have hbalanced : Balanced code :=
    culprit?_eq_none_iff.1 ((loopSpans_follows code).exists_ok_iff.1 ⟨spans, h⟩)
  obtain ⟨t, rfl⟩ := hbalanced.nested
  obtain rfl := Except.ok.inj (h.symm.trans (loopSpans_code t))
  refine ⟨fun first last => t.mem_spans_zero_iff, fun first var low high hbegin => ?_,
    t.nodup_begins 0, fun s hs u hu => (t.pairwise_spans 0).forall hs hu⟩
  obtain ⟨last, hlast⟩ := hbalanced.nested.exists_loopAt hbegin
  exact ⟨last, t.mem_spans_zero_iff.2 hlast⟩

/-- **The two checks of loops agree.** Matching begins with ends, and the analysis of live ranges,
    both accept exactly the schedules of the grammar. They refuse any other with the same fault, and
    its variable is that of the first end that closes nothing, or of the innermost loop that is
    left open. Where matching succeeds, it gives every begin its own end. -/
theorem loop_checks_agree (table : TensorTable) (code : List Instruction) :
    ((∃ spans, Trace.loopSpans code = .ok spans) ↔ Balanced code) ∧
    ((∃ ranges, Liveness.analyze table code = .ok ranges) ↔ Balanced code) ∧
    (∀ fault, Trace.loopSpans code = .error fault ↔ Liveness.analyze table code = .error fault) ∧
    (∀ fault, Trace.loopSpans code = .error fault ↔
      ∃ var, Unbalanced code var ∧ fault = .unbalancedLoop var) ∧
    ∀ spans, Trace.loopSpans code = .ok spans → Matched code spans := by
  have hspans := Trace.loopSpans_follows code
  have hranges := Liveness.analyze_follows table code
  refine ⟨?_, ?_, fun fault => ?_, fun fault => ?_, fun spans => Trace.loopSpans_matched⟩
  · rw [hspans.exists_ok_iff, culprit?_eq_none_iff]
  · rw [hranges.exists_ok_iff, culprit?_eq_none_iff]
  · rw [hspans.eq_error_iff, hranges.eq_error_iff]
  · rw [hspans.eq_error_iff]
    simp only [culprit?_eq_some_iff]

end TileNest
