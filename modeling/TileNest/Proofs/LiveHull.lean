import TileNest.Proofs.Survival

/-
  Live ranges in words. Which positions the range of a tensor has to contain is said here without
  the pass that finds it: every position that refers to the tensor, and the begin and the end of
  each loop in which the first reference is not a pure definition (`Demands`). A loop of a schedule
  is a begin and an end around a nested body (`Loop`), wherever it stands; no order of visits is
  involved.

  Main result: `Liveness.analyze_exact`. On every nested schedule the analysis lists the tensors in
  the order of their first references, each with the least range that contains what is demanded.
  The link to the pass is `LoopTree.mem_stamps_iff`: the stamps of a tree are the demands of its
  schedule. It rests on the begins and ends of a nested schedule matching in one way only
  (`Nested.cut_unique`, `Nested.exists_body`).
-/

namespace TileNest

/-! ## References -/

/-- The tensors that an instruction refers to, in the order in which they count. -/
def Instruction.names : Instruction → List String
  | compute _ operands result => operands ++ [result]
  | load t => [t.source, t.dest]
  | store t => [t.source, t.dest]
  | loopBegin .. => []
  | loopEnd _ => []

/-- The destination is not larger than the source along any dimension that both have, where both
    tensors are known. -/
def Transfer.FillsWhole (table : TensorTable) (t : Transfer) : Prop :=
  ∀ source dest, table.get? t.source = some source → table.get? t.dest = some dest →
    ∀ axis s d : Nat, source.shape[axis]? = some s → dest.shape[axis]? = some d → d ≤ s

/-- The instruction gives the tensor a value and does not read it. -/
def Instruction.Defines (table : TensorTable) (x : String) : Instruction → Prop
  | compute op operands result => op = .convert ∧ x = result ∧ x ∉ operands
  | load t => x = t.dest ∧ x ≠ t.source ∧ t.FillsWhole table
  | store t => x = t.dest ∧ x ≠ t.source ∧ t.FillsWhole table
  | loopBegin .. => False
  | loopEnd _ => False

/-- The first instruction of the schedule that refers to the tensor does not purely define it. -/
def TakenUp (table : TensorTable) (x : String) (code : List Instruction) : Prop :=
  ∃ before i after, code = before ++ i :: after ∧ (∀ j ∈ before, x ∉ j.names) ∧ x ∈ i.names ∧
    ¬ i.Defines table x

section

variable {table : TensorTable} {x : String}

theorem Instruction.map_fst_references (table : TensorTable) (i : Instruction) :
    (i.references table).map Prod.fst = i.names := by
  cases i with
  | compute op operands result => simp [references, names, Function.comp_def]
  | load t => rfl
  | store t => rfl
  | loopBegin var low high => rfl
  | loopEnd var => rfl

theorem Transfer.fillsPart_eq_false_iff {t : Transfer} :
    t.fillsPart table = false ↔ t.FillsWhole table := by
  unfold fillsPart FillsWhole
  cases hs : table.get? t.source with
  | none => simp
  | some source =>
    cases hd : table.get? t.dest with
    | none => simp
    | some dest =>
      simp only [Option.some.injEq, List.any_eq_false, decide_eq_true_eq, Nat.not_lt]
      constructor
      · rintro h _ _ rfl rfl axis s d hs hd
        exact h (d, s) (List.mem_of_getElem? (List.getElem?_zip_eq_some.2 ⟨hd, hs⟩))
      · rintro h ⟨d, s⟩ hm
        obtain ⟨axis, ha⟩ := List.getElem?_of_mem hm
        obtain ⟨hd, hs⟩ := List.getElem?_zip_eq_some.1 ha
        exact h source dest rfl rfl axis s d hs hd

theorem Transfer.carries_references_iff {t : Transfer} :
    Liveness.carries (t.references table) x = true ↔
      x ∈ [t.source, t.dest] ∧ ¬ (x = t.dest ∧ x ≠ t.source ∧ t.FillsWhole table) := by
  rw [← fillsPart_eq_false_iff]
  unfold Liveness.carries references
  by_cases hs : x = t.source
  · simp [hs]
  · rw [Lists.lookup_cons_of_ne hs]
    by_cases hd : x = t.dest
    · subst hd
      cases hf : t.fillsPart table with
      | true => simp
      | false => simp [hs]
    · rw [Lists.lookup_cons_of_ne hd]
      simp [hs, hd]

/-- An instruction takes a tensor up that it refers to and does not purely define. -/
theorem Instruction.carries_references_iff {i : Instruction} :
    Liveness.carries (i.references table) x = true ↔ x ∈ i.names ∧ ¬ i.Defines table x := by
  cases i with
  | compute op operands result =>
    unfold Liveness.carries references names Defines
    rw [List.lookup_append, lookup_uses]
    by_cases hx : x ∈ operands
    · simp [hx]
    · by_cases hr : x = result
      · subst hr
        cases op <;> simp [hx, Operator.resultMode]
      · simp [hx, hr, Lists.lookup_cons_of_ne hr]
  | load t => exact Transfer.carries_references_iff
  | store t => exact Transfer.carries_references_iff
  | loopBegin var low high => simp [references, names, Liveness.carries]
  | loopEnd var => simp [references, names, Liveness.carries]

theorem Instruction.lookup_references_isSome_iff (table : TensorTable) {i : Instruction} :
    ((i.references table).lookup x).isSome = true ↔ x ∈ i.names := by
  rw [List.lookup_isSome_iff, ← Instruction.map_fst_references table, List.mem_map]
  constructor
  · rintro ⟨ref, hm, he⟩
    exact ⟨ref, hm, (beq_iff_eq.1 he).symm⟩
  · rintro ⟨ref, hm, rfl⟩
    exact ⟨ref, hm, beq_self_eq_true ref.1⟩

/-- A schedule has a first reference to each tensor that it names. -/
theorem lookup_flatMap_isSome_iff (table : TensorTable) {code : List Instruction} :
    ((code.flatMap (Instruction.references table)).lookup x).isSome = true ↔
      ∃ i ∈ code, x ∈ i.names := by
  simp only [← Instruction.lookup_references_isSome_iff table, List.lookup_isSome_iff,
    List.mem_flatMap]
  constructor
  · rintro ⟨ref, ⟨i, hi, href⟩, hx⟩
    exact ⟨i, hi, ref, href, hx⟩
  · rintro ⟨i, hi, ref, href, hx⟩
    exact ⟨ref, ⟨i, hi, href⟩, hx⟩

theorem takenUp_cons_of_mem {i : Instruction} (h : x ∈ i.names) (code : List Instruction) :
    TakenUp table x (i :: code) ↔ ¬ i.Defines table x := by
  constructor
  · rintro ⟨before, j, after, hsplit, hbefore, -, hj⟩
    cases before with
    | nil =>
      obtain ⟨rfl, -⟩ := List.cons.inj hsplit
      exact hj
    | cons k before =>
      obtain ⟨rfl, -⟩ := List.cons.inj hsplit
      exact absurd h (hbefore i List.mem_cons_self)
  · exact fun hi => ⟨[], i, code, rfl, nofun, h, hi⟩

theorem takenUp_cons_of_not_mem {i : Instruction} (h : x ∉ i.names) (code : List Instruction) :
    TakenUp table x (i :: code) ↔ TakenUp table x code := by
  constructor
  · rintro ⟨before, j, after, hsplit, hbefore, hm, hj⟩
    cases before with
    | nil =>
      obtain ⟨rfl, -⟩ := List.cons.inj hsplit
      exact absurd hm h
    | cons k before =>
      obtain ⟨rfl, htail⟩ := List.cons.inj hsplit
      exact ⟨before, j, after, htail, fun u hu => hbefore u (List.mem_cons_of_mem _ hu), hm, hj⟩
  · rintro ⟨before, j, after, rfl, hbefore, hm, hj⟩
    refine ⟨i :: before, j, after, rfl, fun u hu => ?_, hm, hj⟩
    rcases List.mem_cons.1 hu with rfl | hu
    · exact h
    · exact hbefore u hu

/-- What the references of a schedule carry is what it takes up. -/
theorem carries_flatMap_iff (code : List Instruction) :
    Liveness.carries (code.flatMap (Instruction.references table)) x = true ↔
      TakenUp table x code := by
  induction code with
  | nil =>
    constructor
    · nofun
    · rintro ⟨before, i, after, hsplit, -⟩
      simp at hsplit
  | cons i code ih =>
    rw [List.flatMap_cons]
    by_cases h : x ∈ i.names
    · rw [takenUp_cons_of_mem h]
      have hown : Liveness.carries (i.references table) x = true ↔ ¬ i.Defines table x := by
        rw [Instruction.carries_references_iff, and_iff_right h]
      obtain ⟨mode, hmode⟩ := Option.isSome_iff_exists.1
        ((Instruction.lookup_references_isSome_iff table).2 h)
      unfold Liveness.carries at hown ⊢
      rw [List.lookup_append, hmode, Option.some_or, ← hmode, hown]
    · rw [takenUp_cons_of_not_mem h, ← ih]
      have hnone : (i.references table).lookup x = none := by
        rw [← Option.not_isSome_iff_eq_none, Instruction.lookup_references_isSome_iff]
        exact h
      unfold Liveness.carries
      rw [List.lookup_append, hnone, Option.none_or]

/-- A tree refers to what its schedule refers to: the marks of the loops refer to nothing. -/
theorem LoopTree.references_eq (t : LoopTree) :
    t.references table = t.code.flatMap (Instruction.references table) := by
  induction t with
  | done => rfl
  | step i plain rest ih => rw [references, code, List.flatMap_cons, ih]
  | loop var low high body rest ihb ihr =>
    rw [references, code, List.flatMap_cons, List.flatMap_append, List.flatMap_cons, ihb, ihr]
    rfl

end

/-! ## Loops of a schedule -/

/-- A loop of a schedule: what stands before it, its marks, its body and what follows it. -/
structure Loop (code : List Instruction) where
  before : List Instruction
  var : String
  low : Int64
  high : Int64
  body : List Instruction
  after : List Instruction
  nested : Nested body
  code_eq : code = before ++ .loopBegin var low high :: (body ++ .loopEnd var :: after)

namespace Loop

variable {code : List Instruction}

/-- The position of the begin. -/
def first (l : Loop code) : Nat := l.before.length

/-- The position of the end. -/
def last (l : Loop code) : Nat := l.first + l.body.length + 1

/-- A loop of a part of a schedule is a loop of the schedule. -/
def within (pre post : List Instruction) (l : Loop code) : Loop (pre ++ code ++ post) where
  before := pre ++ l.before
  var := l.var
  low := l.low
  high := l.high
  body := l.body
  after := l.after ++ post
  nested := l.nested
  code_eq := by
    conv_lhs => rw [l.code_eq]
    simp

end Loop

/-- The first end that closes nothing in front of it is where it is, whatever stands in front. -/
theorem Nested.cut_unique {xs ys as bs : List Instruction} {v w : String} (hx : Nested xs)
    (hy : Nested ys) (h : xs ++ .loopEnd v :: as = ys ++ .loopEnd w :: bs) :
    xs = ys ∧ as = bs := by
  obtain ⟨s, rfl⟩ := hx
  obtain ⟨t, rfl⟩ := hy
  have hs := Trace.splitLoop_code s 0 (.loopEnd v :: as)
  have ht := Trace.splitLoop_code t 0 (.loopEnd w :: bs)
  rw [Trace.splitLoop, List.append_nil] at hs ht
  rw [h, ht] at hs
  obtain ⟨hcode, hrest⟩ := Prod.mk.inj hs
  exact ⟨hcode.symm, hrest.symm⟩

/-- Every begin of a nested schedule has a nested body and an end of its own after it. -/
theorem Nested.exists_body {code before rest : List Instruction} {v : String} {lo hi : Int64}
    (h : Nested code) (hcode : code = before ++ .loopBegin v lo hi :: rest) :
    ∃ body after, Nested body ∧ rest = body ++ .loopEnd v :: after := by
  obtain ⟨t, rfl⟩ := h
  induction t generalizing before rest with
  | done => simp [LoopTree.code] at hcode
  | step i plain t ih =>
    cases before with
    | nil =>
      obtain ⟨rfl, -⟩ := List.cons.inj hcode
      cases plain
    | cons j before => exact ih (List.cons.inj hcode).2
  | loop var low high body t ihb iht =>
    cases before with
    | nil =>
      obtain ⟨hmark, rfl⟩ := List.cons.inj hcode
      injection hmark with hv
      exact ⟨body.code, t.code, ⟨body, rfl⟩, hv ▸ rfl⟩
    | cons j before =>
      rcases Lists.append_eq_append_cons (List.cons.inj hcode).2 with ⟨ds, hb, hr⟩ | ⟨cs, -, hr⟩
      · obtain ⟨inner, after, hn, hds⟩ := ihb hb
        exact ⟨inner, after ++ .loopEnd var :: t.code, hn, by simp [hr, hds]⟩
      · cases cs with
        | nil => cases (List.cons.inj hr).1
        | cons k cs => exact iht (List.cons.inj hr).2

section

variable {code body rest : List Instruction}

/-- A step in front of a schedule only moves its loops. -/
theorem Loop.of_step {i : Instruction} (plain : i.isPlain = true) (l : Loop (i :: code)) :
    ∃ m : Loop code, l.first = m.first + 1 ∧ l.body = m.body := by
  obtain ⟨before, var, low, high, inner, after, nested, hcode⟩ := l
  cases before with
  | nil =>
    obtain ⟨rfl, -⟩ := List.cons.inj hcode
    cases plain
  | cons j before =>
    exact ⟨⟨before, var, low, high, inner, after, nested, (List.cons.inj hcode).2⟩, rfl, rfl⟩

/-- A loop of a schedule that starts with one is that one, a loop of its body, or one of the
    rest. -/
theorem Loop.of_loop {v : String} {lo hi : Int64} (hb : Nested body)
    (l : Loop (.loopBegin v lo hi :: (body ++ .loopEnd v :: rest))) :
    (l.first = 0 ∧ l.body = body) ∨
      (∃ m : Loop body, l.first = m.first + 1 ∧ l.body = m.body) ∨
      ∃ m : Loop rest, l.first = m.first + body.length + 2 ∧ l.body = m.body := by
  obtain ⟨before, var, low, high, inner, after, nested, hcode⟩ := l
  cases before with
  | nil => exact .inl ⟨rfl, (Nested.cut_unique hb nested (List.cons.inj hcode).2).1.symm⟩
  | cons j before =>
    rcases Lists.append_eq_append_cons (List.cons.inj hcode).2 with ⟨ds, hbody, hr⟩ | ⟨cs, rfl, hr⟩
    · -- the end is the one that the body has for this begin
      obtain ⟨inner', after', hn, rfl⟩ := hb.exists_body hbody
      rw [List.append_assoc, List.cons_append] at hr
      obtain ⟨rfl, -⟩ := Nested.cut_unique nested hn hr
      exact .inr (.inl ⟨⟨before, var, low, high, inner, after', nested, hbody⟩, rfl, rfl⟩)
    · cases cs with
      | nil => cases (List.cons.inj hr).1
      | cons k cs =>
        refine .inr (.inr ⟨⟨cs, var, low, high, inner, after, nested, (List.cons.inj hr).2⟩, ?_,
          rfl⟩)
        simp only [Loop.first, List.length_cons, List.length_append]
        omega

end

/-! ## Demands -/

/-- The range of the tensor has to contain the position: the position refers to it, or is the begin
    or the end of a loop that takes it up. -/
def Demands (table : TensorTable) (x : String) (code : List Instruction) (position : Nat) : Prop :=
  (∃ i, code[position]? = some i ∧ x ∈ i.names) ∨
    ∃ l : Loop code, TakenUp table x l.body ∧ (position = l.first ∨ position = l.last)

section

variable {table : TensorTable} {x : String} {code body rest : List Instruction}

theorem Demands.within {position : Nat} (h : Demands table x code position)
    (pre post : List Instruction) :
    Demands table x (pre ++ code ++ post) (pre.length + position) := by
  rcases h with ⟨i, hi, hx⟩ | ⟨l, htaken, hends⟩
  · obtain ⟨hlt, -⟩ := List.getElem?_eq_some_iff.1 hi
    refine .inl ⟨i, ?_, hx⟩
    rw [List.append_assoc, List.getElem?_append_right (Nat.le_add_right ..),
      Nat.add_sub_cancel_left, List.getElem?_append_left hlt, hi]
  · refine .inr ⟨l.within pre post, htaken, ?_⟩
    simp only [Loop.within, Loop.first, Loop.last, List.length_append] at hends ⊢
    omega

theorem demands_nil {position : Nat} : ¬ Demands table x [] position := by
  rintro (⟨i, hi, -⟩ | ⟨l, -⟩)
  · simp at hi
  · have := l.code_eq
    simp at this

theorem demands_step {i : Instruction} (plain : i.isPlain = true) {position : Nat} :
    Demands table x (i :: code) position ↔
      (position = 0 ∧ x ∈ i.names) ∨ ∃ q, position = q + 1 ∧ Demands table x code q := by
  constructor
  · rintro (⟨j, hj, hx⟩ | ⟨l, htaken, hends⟩)
    · cases position with
      | zero =>
        obtain rfl : i = j := by simpa using hj
        exact .inl ⟨rfl, hx⟩
      | succ q => exact .inr ⟨q, rfl, .inl ⟨j, by simpa using hj, hx⟩⟩
    · obtain ⟨m, hf, hb⟩ := l.of_step plain
      rw [Loop.last, hf, hb] at hends
      rw [hb] at htaken
      refine .inr ⟨position - 1, by omega, .inr ⟨m, htaken, ?_⟩⟩
      unfold Loop.last
      omega
  · rintro (⟨rfl, hx⟩ | ⟨q, rfl, hq⟩)
    · exact .inl ⟨i, rfl, hx⟩
    · have h := hq.within [i] []
      rwa [List.append_nil, List.singleton_append, List.length_singleton, Nat.add_comm] at h

theorem demands_loop {v : String} {lo hi : Int64} (hb : Nested body) {position : Nat} :
    Demands table x (.loopBegin v lo hi :: (body ++ .loopEnd v :: rest)) position ↔
      (∃ q, position = q + 1 ∧ Demands table x body q) ∨
        (TakenUp table x body ∧ (position = 0 ∨ position = body.length + 1)) ∨
        ∃ q, position = q + body.length + 2 ∧ Demands table x rest q := by
  constructor
  · rintro (⟨i, hi, hx⟩ | ⟨l, htaken, hends⟩)
    · cases position with
      | zero =>
        obtain rfl : Instruction.loopBegin v lo _ = i := by simpa using hi
        cases hx
      | succ p =>
        rw [List.getElem?_cons_succ] at hi
        by_cases hp : p < body.length
        · rw [List.getElem?_append_left hp] at hi
          exact .inl ⟨p, rfl, .inl ⟨i, hi, hx⟩⟩
        · rw [List.getElem?_append_right (by omega)] at hi
          cases hq : p - body.length with
          | zero =>
            obtain rfl : Instruction.loopEnd v = i := by simpa [hq] using hi
            cases hx
          | succ q =>
            rw [hq, List.getElem?_cons_succ] at hi
            exact .inr (.inr ⟨q, by omega, .inl ⟨i, hi, hx⟩⟩)
    · rcases l.of_loop hb with ⟨hf, hbody⟩ | ⟨m, hf, hbody⟩ | ⟨m, hf, hbody⟩ <;>
        rw [Loop.last, hf, hbody] at hends <;> rw [hbody] at htaken
      · exact .inr (.inl ⟨htaken, by omega⟩)
      · refine .inl ⟨position - 1, by omega, .inr ⟨m, htaken, ?_⟩⟩
        unfold Loop.last
        omega
      · refine .inr (.inr ⟨position - (body.length + 2), by omega, .inr ⟨m, htaken, ?_⟩⟩)
        unfold Loop.last
        omega
  · rintro (⟨q, rfl, hq⟩ | ⟨htaken, hends⟩ | ⟨q, rfl, hq⟩)
    · have h := hq.within [.loopBegin v lo hi] (.loopEnd v :: rest)
      rwa [List.append_assoc, List.singleton_append, List.length_singleton, Nat.add_comm] at h
    · exact .inr ⟨⟨[], v, lo, hi, body, rest, hb, rfl⟩, htaken,
        by simpa [Loop.first, Loop.last] using hends⟩
    · have h := hq.within (.loopBegin v lo hi :: (body ++ [.loopEnd v])) []
      have hl : (Instruction.loopBegin v lo hi :: (body ++ [.loopEnd v])).length + q =
          q + body.length + 2 := by
        simp only [List.length_cons, List.length_append, List.length_nil]
        omega
      rw [hl] at h
      simpa using h

/-- The stamps of a tree are the demands of its schedule. -/
theorem LoopTree.mem_stamps_iff (t : LoopTree) {start p : Nat} :
    p ∈ t.stamps table x start ↔ ∃ q, p = start + q ∧ Demands table x t.code q := by
  induction t generalizing start with
  | done => simp [stamps, code, demands_nil]
  | step i plain rest ih =>
    have hi : p ∈ i.stamps table x start ↔ p = start ∧ x ∈ i.names := by
      rw [← Instruction.map_fst_references table]
      simp only [Instruction.stamps, List.mem_filterMap, Option.ite_none_right_eq_some,
        Option.some.injEq, List.mem_map]
      grind
    rw [stamps, List.mem_append, hi, ih]
    simp only [code, demands_step plain]
    constructor
    · rintro (⟨rfl, hx⟩ | ⟨q, rfl, hq⟩)
      · exact ⟨0, rfl, .inl ⟨rfl, hx⟩⟩
      · exact ⟨q + 1, by omega, .inr ⟨q, rfl, hq⟩⟩
    · rintro ⟨_, rfl, ⟨rfl, hx⟩ | ⟨q, rfl, hq⟩⟩
      · exact .inl ⟨rfl, hx⟩
      · exact .inr ⟨q, by omega, hq⟩
  | loop var low high body rest ihb ihr =>
    have hc : Liveness.carries (body.references table) x = true ↔ TakenUp table x body.code := by
      rw [body.references_eq, carries_flatMap_iff]
    rw [stamps, List.mem_append, List.mem_append, ihb, ihr]
    simp only [code, demands_loop ⟨body, rfl⟩, ← hc, List.mem_ite_nil_right, List.mem_cons,
      List.not_mem_nil, or_false]
    constructor
    · rintro ((⟨q, rfl, hq⟩ | ⟨hcarries, rfl | rfl⟩) | ⟨q, rfl, hq⟩)
      · exact ⟨q + 1, by omega, .inl ⟨q, rfl, hq⟩⟩
      · exact ⟨0, rfl, .inr (.inl ⟨hcarries, .inl rfl⟩)⟩
      · exact ⟨body.code.length + 1, by omega, .inr (.inl ⟨hcarries, .inr rfl⟩)⟩
      · exact ⟨q + body.code.length + 2, by omega, .inr (.inr ⟨q, rfl, hq⟩)⟩
    · rintro ⟨_, rfl, ⟨q, rfl, hq⟩ | ⟨hcarries, rfl | rfl⟩ | ⟨q, rfl, hq⟩⟩
      · exact .inl (.inl ⟨q, by omega, hq⟩)
      · exact .inl (.inr ⟨hcarries, .inl rfl⟩)
      · exact .inl (.inr ⟨hcarries, .inr (by omega)⟩)
      · exact .inr ⟨q, by omega, hq⟩

end

/-! ## Hulls -/

/-- The range contains the given positions, and every range that does contains it. -/
structure LiveRange.IsHull (r : LiveRange) (P : Nat → Prop) : Prop where
  contains : ∀ position, P position → r.Contains position
  least : ∀ s : LiveRange, (∀ position, P position → s.Contains position) →
    s.first ≤ r.first ∧ r.last ≤ s.last

namespace LiveRange

/-- The ends of an extended range are its old ones or positions that it was extended to. -/
theorem ends_coverAll {q r : LiveRange} {xs : List Nat} (h : coverAll (some q) xs = some r) :
    (r.first = q.first ∨ r.first ∈ xs) ∧ (r.last = q.last ∨ r.last ∈ xs) := by
  induction xs generalizing q with
  | nil =>
    obtain rfl := Option.some.inj h
    exact ⟨.inl rfl, .inl rfl⟩
  | cons x xs ih =>
    obtain ⟨hfirst, hlast⟩ := ih (q := q.cover x) h
    rw [List.mem_cons, List.mem_cons]
    constructor
    · rcases hfirst with hfirst | hmem
      · have : r.first = q.first ∨ r.first = x := by
          simp only [cover] at hfirst
          omega
        exact this.imp_right .inl
      · exact .inr (.inr hmem)
    · rcases hlast with hlast | hmem
      · have : r.last = q.last ∨ r.last = x := by
          simp only [cover] at hlast
          omega
        exact this.imp_right .inl
      · exact .inr (.inr hmem)

theorem isHull_coverAll {r : LiveRange} {xs : List Nat} {P : Nat → Prop}
    (h : coverAll none xs = some r) (hP : ∀ position, P position ↔ position ∈ xs) :
    r.IsHull P := by
  have hends : r.first ∈ xs ∧ r.last ∈ xs := by
    cases xs with
    | nil => cases h
    | cons x xs => simpa using ends_coverAll (q := ⟨x, x⟩) h
  exact
    { contains := fun p hp => contains_coverAll h (.inr ((hP p).1 hp))
      least := fun s hs => ⟨(hs _ ((hP _).2 hends.1)).1, (hs _ ((hP _).2 hends.2)).2⟩ }

end LiveRange

/-! ## Order of the tensors -/

/-- A tensor that has no range yet is put behind those that have one. -/
theorem LiveRanges.names_touch (name : String) (position : Nat) (ranges : LiveRanges) :
    (touch name position ranges).map Prod.fst =
      if name ∈ ranges.map Prod.fst then ranges.map Prod.fst
      else ranges.map Prod.fst ++ [name] := by
  induction ranges with
  | nil => rfl
  | cons e ranges ih =>
    obtain ⟨other, r⟩ := e
    by_cases ho : other = name
    · simp [touch, ho]
    · rw [touch, if_neg ho, List.map_cons, List.map_cons, ih]
      by_cases hm : name ∈ ranges.map Prod.fst
      · rw [if_pos hm, if_pos (List.mem_cons_of_mem _ hm)]
      · rw [if_neg hm, if_neg (List.not_mem_cons_of_ne_of_not_mem (Ne.symm ho) hm),
          List.cons_append]

/-- References put their names behind those met before, each name once. -/
theorem LiveRanges.names_foldl_touch (refs : List (String × Mode)) (position : Nat)
    {ranges : LiveRanges} {met : List String} (h : ranges.map Prod.fst = met.eraseDups) :
    (refs.foldl (fun ranges ref => touch ref.1 position ranges) ranges).map Prod.fst =
      (met ++ refs.map Prod.fst).eraseDups := by
  induction refs generalizing ranges met with
  | nil => rw [List.map_nil, List.append_nil, List.foldl_nil, h]
  | cons ref refs ih =>
    have htouch : (touch ref.1 position ranges).map Prod.fst = (met ++ [ref.1]).eraseDups := by
      rw [names_touch, h, List.eraseDups_append]
      by_cases hm : ref.1 ∈ met
      · rw [if_pos (List.mem_eraseDups.2 hm)]
        simp [List.removeAll, hm]
      · rw [if_neg (fun he => hm (List.mem_eraseDups.1 he))]
        simp [List.removeAll, hm, List.eraseDups_cons]
    rw [List.foldl_cons, ih htouch, List.map_cons, List.append_assoc, List.singleton_append]

theorem LoopTree.names_after {table : TensorTable} (t : LoopTree) {position : Nat}
    {s : Liveness.State} {met : List String} (h : s.ranges.map Prod.fst = met.eraseDups) :
    (t.after table position s).ranges.map Prod.fst =
      (met ++ t.code.flatMap Instruction.names).eraseDups := by
  induction t generalizing position s met with
  | done => rw [after, code, List.flatMap_nil, List.append_nil, h]
  | step i plain rest ih =>
    have hstep : ((i.references table).foldl (Liveness.refer position) s).ranges.map Prod.fst =
        (met ++ i.names).eraseDups := by
      rw [Liveness.refer_foldl, ← Instruction.map_fst_references table]
      exact LiveRanges.names_foldl_touch (i.references table) position h
    rw [after, ih hstep, code, List.flatMap_cons, List.append_assoc]
  | loop var low high body rest ihb ihr =>
    have hclosed : ((Liveness.close (position + 1 + body.code.length)
        (body.after table (position + 1) ⟨s.ranges, ⟨var, position, []⟩ :: s.frames⟩)).ranges).map
          Prod.fst = (met ++ body.code.flatMap Instruction.names).eraseDups := by
      rw [close_after, Liveness.names_closeLoop]
      exact ihb h
    rw [after, ihr hclosed, code, List.flatMap_cons, List.flatMap_append, List.flatMap_cons,
      List.append_assoc]
    rfl

/-! ## The analysis -/

namespace Liveness

theorem analyze_names {table : TensorTable} {t : LoopTree} {ranges : LiveRanges}
    (h : analyze table t.code = .ok ranges) :
    ranges.map Prod.fst = (t.code.flatMap Instruction.names).eraseDups := by
  have hscan := scan_code table t 0 .initial []
  rw [List.append_nil, scan, t.frames_after table 0 .initial] at hscan
  obtain rfl := Except.ok.inj (h.symm.trans hscan)
  have hinit : State.initial.ranges.map Prod.fst = ([] : List String).eraseDups := rfl
  exact t.names_after hinit

/-- **Exact live ranges.** The analysis of a nested schedule has the tensors that the schedule
    refers to, in the order of their first references, and the range of each is the hull of what is
    demanded for it. -/
theorem analyze_exact (table : TensorTable) {code : List Instruction} (h : Nested code) :
    ∃ ranges, analyze table code = .ok ranges ∧
      ranges.map Prod.fst = (code.flatMap Instruction.names).eraseDups ∧
      ∀ x r, (x, r) ∈ ranges → r.IsHull (Demands table x code) := by
  obtain ⟨t, rfl⟩ := h
  obtain ⟨ranges, hranges, hnodup, hlookup⟩ := analyze_code table t
  refine ⟨ranges, hranges, analyze_names hranges, fun x r hr => ?_⟩
  have hcover := (hlookup x).symm.trans (Lists.lookup_of_mem hnodup hr)
  refine LiveRange.isHull_coverAll hcover fun p => ?_
  rw [LoopTree.mem_stamps_iff]
  simp

/-- The tile `a` is filled anew in each iteration of the outer loop, so its range ends with the
    inner one. The tile `b` is filled in parts and is demanded everywhere. -/
theorem analyze_exact_kernel :
    Nested Sample.kernel.code ∧
    (Sample.kernel.code.flatMap Instruction.names).eraseDups =
      ["in", "a", "x", "y", "z", "b", "out"] ∧
    (⟨1, 7⟩ : LiveRange).IsHull (Demands Sample.kernel.tensors "a" Sample.kernel.code) ∧
    (⟨0, 9⟩ : LiveRange).IsHull (Demands Sample.kernel.tensors "b" Sample.kernel.code) := by
  have hnested := Sample.kernel.nested_code
  obtain ⟨ranges, hranges, hnames, hhull⟩ := analyze_exact Sample.kernel.tensors hnested
  have hvalue : analyze Sample.kernel.tensors Sample.kernel.code =
      .ok [("in", ⟨0, 9⟩), ("a", ⟨1, 7⟩), ("x", ⟨3, 4⟩), ("y", ⟨4, 5⟩), ("z", ⟨5, 6⟩),
        ("b", ⟨0, 9⟩), ("out", ⟨0, 9⟩)] := by decide +kernel
  obtain rfl := Except.ok.inj (hranges.symm.trans hvalue)
  exact ⟨hnested, hnames.symm, hhull "a" _ (by simp), hhull "b" _ (by simp)⟩

end Liveness

end TileNest
