import TileNest.Schedule.Trace

/-
  Schedules as trees of loops. A schedule is a flat list in which the begin and the end of a loop
  are marks; `LoopTree` is the same schedule with every loop around its body, and `Nested` says
  that a list comes from such a tree.

  `Trace.run` is execution without a state: it splits a schedule at the marks and gives every body
  bindings of its own. On nested schedules it is recursion over the tree (`Trace.run_code`). Nesting
  is accepted by `Trace.loopSpans` with the spans read off the tree (`Trace.loopSpans_code`), which
  are all apart (`LoopTree.pairwise_spans`).
-/

namespace TileNest

/-- The instruction is a step of its own, not a mark of a loop. -/
def Instruction.isPlain : Instruction → Bool
  | compute .. => true
  | load _ => true
  | store _ => true
  | loopBegin .. => false
  | loopEnd _ => false

/-- A schedule with every loop around its body: nothing more, a step and what follows it, or a
    loop and what follows it. -/
inductive LoopTree where
  | done
  | step (i : Instruction) (plain : i.isPlain = true) (rest : LoopTree)
  | loop (var : String) (low high : Int64) (body rest : LoopTree)

namespace LoopTree

/-- The flat schedule. -/
def code : LoopTree → List Instruction
  | done => []
  | step i _ rest => i :: rest.code
  | loop var low high body rest =>
    .loopBegin var low high :: (body.code ++ .loopEnd var :: rest.code)

/-- One schedule after the other. -/
def append : LoopTree → LoopTree → LoopTree
  | done, t => t
  | step i plain rest, t => step i plain (rest.append t)
  | loop var low high body rest, t => loop var low high body (rest.append t)

theorem code_append (s t : LoopTree) : (s.append t).code = s.code ++ t.code := by
  induction s with
  | done => rfl
  | step i plain rest ih => simp [append, code, ih]
  | loop var low high body rest _ ih => simp [append, code, ih]

end LoopTree

/-- The marks of the loops nest: the schedule is that of a tree. -/
def Nested (code : List Instruction) : Prop := ∃ t : LoopTree, t.code = code

namespace Nested

theorem nil : Nested [] := ⟨.done, rfl⟩

theorem append {xs ys : List Instruction} (hx : Nested xs) (hy : Nested ys) :
    Nested (xs ++ ys) := by
  obtain ⟨s, rfl⟩ := hx
  obtain ⟨t, rfl⟩ := hy
  exact ⟨s.append t, s.code_append t⟩

theorem plain {code : List Instruction} (h : ∀ i ∈ code, i.isPlain = true) : Nested code := by
  induction code with
  | nil => exact nil
  | cons i code ih =>
    obtain ⟨t, ht⟩ := ih fun j hj => h j (List.mem_cons_of_mem i hj)
    exact ⟨.step i (h i (by simp)) t, by rw [LoopTree.code, ht]⟩

theorem loop (var : String) (low high : Int64) {body : List Instruction} (hb : Nested body) :
    Nested (.loopBegin var low high :: (body ++ [.loopEnd var])) := by
  obtain ⟨t, rfl⟩ := hb
  exact ⟨.loop var low high t .done, rfl⟩

theorem flatMap {α : Type} {xs : List α} {f : α → List Instruction} (h : ∀ x ∈ xs, Nested (f x)) :
    Nested (xs.flatMap f) := by
  induction xs with
  | nil => exact nil
  | cons x xs ih =>
    rw [List.flatMap_cons]
    exact (h x (by simp)).append (ih fun y hy => h y (List.mem_cons_of_mem x hy))

end Nested

/-! ## Runs -/

namespace Run

/-- Nothing happened. -/
def idle : Run := ⟨[], none⟩

/-- One run after the other, unless the first ends in a fault. -/
def andThen (r : Run) (next : Unit → Run) : Run :=
  match r.fault with
  | some _ => r
  | none => let s := next (); ⟨r.events ++ s.events, s.fault⟩

/-- The body's runs for the values, one after the other. -/
def each (body : Int64 → Run) : List Int64 → Run
  | [] => idle
  | value :: values => (body value).andThen fun _ => each body values

theorem andThen_idle (r : Run) : (r.andThen fun _ => idle) = r := by
  obtain ⟨events, fault⟩ := r
  cases fault <;> simp [andThen, idle]

theorem andThen_assoc (r s t : Run) :
    (r.andThen fun _ => s).andThen (fun _ => t) = r.andThen fun _ => s.andThen fun _ => t := by
  obtain ⟨e, f⟩ := r
  obtain ⟨e', f'⟩ := s
  cases f <;> cases f' <;> simp [andThen]

end Run

namespace Trace

/-- The body of a loop, from just after its begin up to its end, and what follows the loop.
    `depth` counts the loops that are open inside the body. -/
def splitLoop (depth : Nat) : List Instruction → List Instruction × List Instruction
  | [] => ([], [])
  | .loopEnd var :: code =>
    match depth with
    | 0 => ([], code)
    | depth + 1 => let rest := splitLoop depth code; (.loopEnd var :: rest.1, rest.2)
  | .loopBegin var low high :: code =>
    let rest := splitLoop (depth + 1) code
    (.loopBegin var low high :: rest.1, rest.2)
  | i :: code => let rest := splitLoop depth code; (i :: rest.1, rest.2)

theorem length_splitLoop (depth : Nat) (code : List Instruction) :
    (splitLoop depth code).1.length ≤ code.length ∧
      (splitLoop depth code).2.length ≤ code.length := by
  induction code generalizing depth with
  | nil => simp [splitLoop]
  | cons i code ih =>
    cases i with
    | loopEnd var =>
      cases depth with
      | zero => simp [splitLoop]
      | succ depth =>
        have := ih depth
        simp only [splitLoop, List.length_cons]
        omega
    | loopBegin var low high =>
      have := ih (depth + 1)
      simp only [splitLoop, List.length_cons]
      omega
    | compute op operands result =>
      have := ih depth
      simp only [splitLoop, List.length_cons]
      omega
    | load transfer =>
      have := ih depth
      simp only [splitLoop, List.length_cons]
      omega
    | store transfer =>
      have := ih depth
      simp only [splitLoop, List.length_cons]
      omega

/-- Carries out a transfer and records it by `event`. -/
def copy (env : Env) (t : Transfer) (event : TileCopy → Event) : Run :=
  match t.index.evaluate env with
  | .ok tile => ⟨[event ⟨t.source, t.dest, t.route, tile⟩], none⟩
  | .error fault => ⟨[], some fault⟩

/-- Runs a schedule whose loops nest, under the bindings of the loops around it. -/
def run (env : Env) : List Instruction → Run
  | [] => .idle
  | .compute op operands result :: code =>
    Run.andThen ⟨[.compute op operands result], none⟩ fun _ => run env code
  | .load t :: code => (copy env t .load).andThen fun _ => run env code
  | .store t :: code => (copy env t .store).andThen fun _ => run env code
  | .loopEnd _ :: code => run env code
  | .loopBegin var low high :: code =>
    let parts := splitLoop 0 code
    (Run.each (fun value => run (env.bind var value) parts.1) (LoopVar.valuesIn low high)).andThen
      fun _ => run env parts.2
termination_by code => code.length
decreasing_by
  · simp
  · simp
  · simp
  · simp
  · have := length_splitLoop 0 code
    simp only [List.length_cons]
    omega
  · have := length_splitLoop 0 code
    simp only [List.length_cons]
    omega

/-- What a plain instruction does by itself. -/
def act (env : Env) : Instruction → Run
  | .compute op operands result => ⟨[.compute op operands result], none⟩
  | .load t => copy env t .load
  | .store t => copy env t .store
  | .loopBegin .. => .idle
  | .loopEnd _ => .idle

theorem run_nil (env : Env) : run env [] = .idle := by
  rw [run]

theorem run_plain (env : Env) {i : Instruction} (h : i.isPlain = true) (code : List Instruction) :
    run env (i :: code) = (act env i).andThen fun _ => run env code := by
  cases i with
  | compute op operands result => rw [run]; rfl
  | load t => rw [run]; rfl
  | store t => rw [run]; rfl
  | loopBegin var low high => cases h
  | loopEnd var => cases h

theorem splitLoop_plain (depth : Nat) {i : Instruction} (h : i.isPlain = true)
    (code : List Instruction) :
    splitLoop depth (i :: code) =
      (i :: (splitLoop depth code).1, (splitLoop depth code).2) := by
  cases i with
  | compute op operands result => rfl
  | load t => rfl
  | store t => rfl
  | loopBegin var low high => cases h
  | loopEnd var => cases h

/-- The loops of a tree are all closed before what follows it, whatever is open around it. -/
theorem splitLoop_code (t : LoopTree) (depth : Nat) (rest : List Instruction) :
    splitLoop depth (t.code ++ rest) =
      (t.code ++ (splitLoop depth rest).1, (splitLoop depth rest).2) := by
  induction t generalizing depth rest with
  | done => rfl
  | step i plain t ih =>
    rw [LoopTree.code, List.cons_append, splitLoop_plain depth plain, ih, List.cons_append]
  | loop var low high body t ihb iht =>
    simp only [LoopTree.code, List.cons_append, List.append_assoc]
    rw [splitLoop, ihb, splitLoop]
    simp only [iht]

theorem run_loop (env : Env) (var : String) (low high : Int64) (body : LoopTree)
    (rest : List Instruction) :
    run env (.loopBegin var low high :: (body.code ++ .loopEnd var :: rest)) =
      (Run.each (fun x => run (env.bind var x) body.code) (LoopVar.valuesIn low high)).andThen
        fun _ => run env rest := by
  have hs : splitLoop 0 (body.code ++ .loopEnd var :: rest) = (body.code, rest) := by
    rw [splitLoop_code, splitLoop, List.append_nil]
  rw [run]
  simp only [hs]

end Trace

/-- Execution by recursion over the tree. -/
def LoopTree.run (env : Env) : LoopTree → Run
  | done => .idle
  | step i _ rest => (Trace.act env i).andThen fun _ => rest.run env
  | loop var low high body rest =>
    (Run.each (fun x => body.run (env.bind var x)) (LoopVar.valuesIn low high)).andThen
      fun _ => rest.run env

theorem LoopTree.run_append (s t : LoopTree) (env : Env) :
    (s.append t).run env = (s.run env).andThen fun _ => t.run env := by
  induction s with
  | done => rfl
  | step i plain rest ih => simp only [append, run, ih, Run.andThen_assoc]
  | loop var low high body rest _ ih => simp only [append, run, ih, Run.andThen_assoc]

namespace Trace

/-- Running the flat schedule is recursion over its tree. -/
theorem run_code (t : LoopTree) (env : Env) : run env t.code = t.run env := by
  induction t generalizing env with
  | done => exact run_nil env
  | step i plain rest ih => rw [LoopTree.code, run_plain env plain, ih, LoopTree.run]
  | loop var low high body rest ihb ihr =>
    rw [LoopTree.code, run_loop, LoopTree.run, ihr]
    simp only [ihb]

end Trace

/-! ## Spans of the loops -/

/-- The positions of the begin and the end of each loop of a tree that starts at a position. -/
def LoopTree.spans (position : Nat) : LoopTree → List (Nat × Nat)
  | done => []
  | step _ _ rest => rest.spans (position + 1)
  | loop _ _ _ body rest =>
    body.spans (position + 1) ++
      (position, position + 1 + body.code.length) ::
        rest.spans (position + body.code.length + 2)

namespace Trace

theorem spansFrom_plain (position : Nat) (opened : List (Nat × String)) {i : Instruction}
    (h : i.isPlain = true) (code : List Instruction) :
    spansFrom position opened (i :: code) = spansFrom (position + 1) opened code := by
  cases i with
  | compute op operands result => rfl
  | load t => rfl
  | store t => rfl
  | loopBegin var low high => cases h
  | loopEnd var => cases h

theorem spansFrom_code (t : LoopTree) (position : Nat) (opened : List (Nat × String))
    (rest : List Instruction) :
    spansFrom position opened (t.code ++ rest) =
      (spansFrom (position + t.code.length) opened rest).map (t.spans position ++ ·) := by
  induction t generalizing position opened rest with
  | done =>
    simp only [LoopTree.code, LoopTree.spans, List.nil_append, List.length_nil, Nat.add_zero]
    cases spansFrom position opened rest <;> rfl
  | step i plain t ih =>
    have hl : position + (i :: t.code).length = position + 1 + t.code.length := by
      rw [List.length_cons]
      omega
    rw [LoopTree.code, hl, LoopTree.spans, ← ih, List.cons_append, spansFrom_plain _ _ plain]
  | loop var low high body t ihb iht =>
    have hl : position + 1 + body.code.length + 1 + t.code.length =
        position + (LoopTree.loop var low high body t).code.length := by
      simp only [LoopTree.code, List.length_cons, List.length_append]
      omega
    have hp : position + 1 + body.code.length + 1 = position + body.code.length + 2 := by omega
    rw [LoopTree.spans, ← hp, ← hl]
    simp only [LoopTree.code, List.cons_append, List.append_assoc]
    rw [spansFrom, ihb, spansFrom, if_pos rfl, iht]
    cases spansFrom (position + 1 + body.code.length + 1 + t.code.length) opened rest with
    | error fault => rfl
    | ok spans => simp [Except.map]

/-- A schedule that comes from a tree has its loops matched as in the tree. -/
theorem loopSpans_code (t : LoopTree) : loopSpans t.code = .ok (t.spans 0) := by
  have h := spansFrom_code t 0 [] []
  rw [List.append_nil] at h
  rw [loopSpans, h]
  simp [spansFrom, Except.map]

end Trace

/-- Of two spans, one lies behind the other or inside it. -/
def Apart (s t : Nat × Nat) : Prop :=
  s.2 < t.1 ∨ t.2 < s.1 ∨ (s.1 < t.1 ∧ t.2 < s.2) ∨ (t.1 < s.1 ∧ s.2 < t.2)

instance : Std.Symm Apart := ⟨fun s t h => by
  unfold Apart at *
  omega⟩

namespace LoopTree

theorem bounds_of_mem_spans (t : LoopTree) {position : Nat} {s : Nat × Nat}
    (h : s ∈ t.spans position) :
    position ≤ s.1 ∧ s.1 < s.2 ∧ s.2 < position + t.code.length := by
  induction t generalizing position with
  | done => cases h
  | step i plain rest ih =>
    have := ih h
    rw [code, List.length_cons]
    omega
  | loop var low high body rest ihb ihr =>
    simp only [code, List.length_cons, List.length_append]
    rcases List.mem_append.1 h with h | h
    · have := ihb h
      omega
    · rcases List.mem_cons.1 h with rfl | h
      · simp only
        omega
      · have := ihr h
        omega

theorem pairwise_spans (t : LoopTree) (position : Nat) : (t.spans position).Pairwise Apart := by
  induction t generalizing position with
  | done => exact List.Pairwise.nil
  | step i plain rest ih => exact ih (position + 1)
  | loop var low high body rest ihb ihr =>
    rw [spans, List.pairwise_append, List.pairwise_cons]
    refine ⟨ihb _, ⟨fun s hs => ?_, ihr _⟩, fun s hs u hu => ?_⟩
    · have := rest.bounds_of_mem_spans hs
      unfold Apart
      omega
    · have := body.bounds_of_mem_spans hs
      unfold Apart
      rcases List.mem_cons.1 hu with rfl | hu
      · simp only
        omega
      · have := rest.bounds_of_mem_spans hu
        omega

/-- No two loops begin at one place. -/
theorem nodup_begins (t : LoopTree) (position : Nat) :
    ((t.spans position).map Prod.fst).Nodup := by
  refine List.pairwise_map.2 ((t.pairwise_spans position).imp_of_mem fun {s u} hs hu hapart => ?_)
  have := t.bounds_of_mem_spans hs
  have := t.bounds_of_mem_spans hu
  unfold Apart at hapart
  omega

end LoopTree

namespace Nested

variable {xs ys : List Instruction}

theorem run_append (hx : Nested xs) (hy : Nested ys) (env : Env) :
    Trace.run env (xs ++ ys) = (Trace.run env xs).andThen fun _ => Trace.run env ys := by
  obtain ⟨s, rfl⟩ := hx
  obtain ⟨t, rfl⟩ := hy
  rw [← LoopTree.code_append, Trace.run_code, LoopTree.run_append, Trace.run_code, Trace.run_code]

theorem run_loop (hx : Nested xs) (env : Env) (var : String) (low high : Int64) :
    Trace.run env (.loopBegin var low high :: (xs ++ [.loopEnd var])) =
      Run.each (fun x => Trace.run (env.bind var x) xs) (LoopVar.valuesIn low high) := by
  obtain ⟨t, rfl⟩ := hx
  rw [Trace.run_loop, Trace.run_nil, Run.andThen_idle]

end Nested

end TileNest
