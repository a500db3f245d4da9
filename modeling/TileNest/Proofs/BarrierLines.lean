import Mathlib.Data.List.DropRight
import Mathlib.Data.List.Nodup
import TileNest.Proofs.Barriers
import TileNest.Proofs.LoopBalance

/-
  Where barriers are printed and how far lines are indented. The printer holds the barriers of a run
  of loads or stores back until an instruction of another kind comes or the schedule ends. Main
  result: `Listing.barriers_close_runs`. Every schedule has the lines that it has without barriers,
  and behind the last line of each longest run those of the run, at its depth, and nothing else.

  What is printed behind an instruction depends on the instructions up to it only through the runs
  that end there (`Cursor.close_after`), and such a run is a `Stretch`. The depth of a line is the
  number of loops around its instruction (`LoopTree.depth_eq`).
-/

namespace TileNest

/-- The route of a copy. -/
def Instruction.route? : Instruction → Option Route
  | load t => some t.route
  | store t => some t.route
  | compute .. => none
  | loopBegin .. => none
  | loopEnd _ => none

theorem Instruction.eq_load {i : Instruction} (h : i.isLoad = true) : ∃ t, i = load t := by
  cases i with
  | load t => exact ⟨t, rfl⟩
  | _ => cases h

theorem Instruction.eq_store {i : Instruction} (h : i.isStore = true) : ∃ t, i = store t := by
  cases i with
  | store t => exact ⟨t, rfl⟩
  | _ => cases h

/-! ## Longest runs -/

/-- A run of instructions of one kind in a schedule, as long as it gets. -/
structure Stretch (kind : Instruction → Bool) (code : List Instruction) where
  before : List Instruction
  run : List Instruction
  after : List Instruction
  split : code = before ++ run ++ after
  nonempty : run ≠ []
  alike : ∀ i ∈ run, kind i = true
  starts : ∀ i, before.getLast? = some i → kind i = false
  ends : ∀ i, after.head? = some i → kind i = false

/-- The run of a kind that ends between two parts of a schedule. It is empty if none does. -/
def ending (kind : Instruction → Bool) (front rest : List Instruction) : List Instruction :=
  if rest.head?.any kind then [] else front.rtakeWhile kind

namespace Stretch

variable {kind other : Instruction → Bool} {code : List Instruction}

/-- The routes of the copies in the run. -/
def routes (s : Stretch kind code) : List Route := s.run.filterMap Instruction.route?

def first (s : Stretch kind code) : Nat := s.before.length

def last (s : Stretch kind code) : Nat := (s.before ++ s.run).length - 1

/-- The lines of the run all have this depth. -/
def HasDepth (s : Stretch kind code) (lines : List Line) (depth : Nat) : Prop :=
  ∀ k, s.first ≤ k → k ≤ s.last → lines[k]?.map Line.depth = some depth

theorem ending_eq (s : Stretch kind code) : ending kind (s.before ++ s.run) s.after = s.run := by
  have hafter : s.after.head?.any kind = false := by
    cases h : s.after.head? with
    | none => rfl
    | some i => exact s.ends i h
  have hbefore : s.before.rtakeWhile kind = [] := by
    rw [List.rtakeWhile_eq_nil_iff]
    intro hne
    simp [s.starts _ (List.getLast?_eq_some_getLast hne)]
  have hrun : ∀ i ∈ s.run.reverse, kind i = true := fun i hi => s.alike i (List.mem_reverse.1 hi)
  unfold ending
  rw [hafter, if_neg (by simp), List.rtakeWhile, List.reverse_append,
    List.takeWhile_append_of_pos hrun, List.reverse_append, List.reverse_reverse]
  exact (congrArg (· ++ s.run) hbefore)

/-- Where a run ends, none of another kind does. -/
theorem ending_other (s : Stretch kind code) (h : ∀ i, kind i = true → other i = false) :
    ending other (s.before ++ s.run) s.after = [] := by
  have hfront : (s.before ++ s.run).rtakeWhile other = [] := by
    rw [List.rtakeWhile_eq_nil_iff]
    intro hne
    have hlast := s.alike _ (List.getLast_mem s.nonempty)
    rw [List.getLast_append_of_ne_nil _ s.nonempty, h _ hlast]
    simp
  unfold ending
  rw [hfront, ite_self]

/-- A run that ends somewhere is as long as it gets. -/
theorem exists_of_ending {front rest : List Instruction} (h : ending kind front rest ≠ []) :
    ∃ s : Stretch kind (front ++ rest), s.before ++ s.run = front := by
  unfold ending at h
  split at h
  · exact absurd rfl h
  · next hrest =>
    have hfront : front.rdropWhile kind ++ front.rtakeWhile kind = front :=
      List.rdropWhile_append_rtakeWhile
    refine ⟨⟨front.rdropWhile kind, front.rtakeWhile kind, rest, by rw [hfront], h,
      fun i hi => List.mem_rtakeWhile_imp hi, fun i hi => ?_, fun i hi => ?_⟩, hfront⟩
    · obtain ⟨hne, rfl⟩ := List.mem_getLast?_eq_getLast hi
      simpa using List.rdropWhile_last_not kind front hne
    · rw [hi] at hrest
      simpa using hrest

theorem routes_ne_nil (s : Stretch Instruction.isLoad code) : s.routes ≠ [] := by
  obtain ⟨i, run, hrun⟩ := List.exists_cons_of_ne_nil s.nonempty
  obtain ⟨t, rfl⟩ := Instruction.eq_load (s.alike i (by rw [hrun]; exact List.mem_cons_self))
  rw [routes, hrun]
  simp [Instruction.route?]

end Stretch

/-! ## Depths -/

namespace Listing

/-- The depth after some instructions. -/
def depthAfter (depth : Nat) (code : List Instruction) : Nat := code.foldl nextDepth depth

theorem plainLines_append (depth : Nat) (xs ys : List Instruction) :
    plainLines depth (xs ++ ys) = plainLines depth xs ++ plainLines (depthAfter depth xs) ys := by
  induction xs generalizing depth with
  | nil => rfl
  | cons i xs ih =>
    rw [List.cons_append, plainLines, plainLines, ih, List.cons_append]
    rfl

theorem map_text_plainLines (depth : Nat) (code : List Instruction) :
    (plainLines depth code).map Line.text = code.map statement := by
  induction code generalizing depth with
  | nil => rfl
  | cons i code ih => rw [plainLines, List.map_cons, List.map_cons, ih]

theorem length_plainLines (depth : Nat) (code : List Instruction) :
    (plainLines depth code).length = code.length := by
  have h := congrArg List.length (map_text_plainLines depth code)
  simpa using h

theorem nextDepth_plain (depth : Nat) {i : Instruction} (h : i.isPlain = true) :
    nextDepth depth i = depth := by
  cases i with
  | loopBegin var low high => cases h
  | loopEnd var => cases h
  | _ => rfl

theorem lineDepth_plain (depth : Nat) {i : Instruction} (h : i.isPlain = true) :
    lineDepth depth i = depth := by
  cases i with
  | loopEnd var => cases h
  | _ => rfl

/-- Steps do not change the depth. -/
theorem depthAfter_plain (depth : Nat) {code : List Instruction}
    (h : ∀ i ∈ code, i.isPlain = true) : depthAfter depth code = depth := by
  induction code with
  | nil => rfl
  | cons i code ih =>
    obtain ⟨hi, hcode⟩ := List.forall_mem_cons.1 h
    rw [depthAfter, List.foldl_cons, nextDepth_plain depth hi]
    exact ih hcode

theorem plainLines_plain (depth : Nat) {code : List Instruction}
    (h : ∀ i ∈ code, i.isPlain = true) :
    plainLines depth code = code.map fun i => ⟨depth, statement i⟩ := by
  induction code with
  | nil => rfl
  | cons i code ih =>
    obtain ⟨hi, hcode⟩ := List.forall_mem_cons.1 h
    rw [plainLines, nextDepth_plain depth hi, lineDepth_plain depth hi, ih hcode, List.map_cons]

end Listing

/-- A run of steps is printed at one depth. -/
theorem Stretch.hasDepth {kind : Instruction → Bool} {code : List Instruction}
    (s : Stretch kind code) (plain : ∀ i, kind i = true → i.isPlain = true) :
    s.HasDepth (Listing.plainLines 0 code) (Listing.depthAfter 0 (s.before ++ s.run)) := by
  have hrun : ∀ i ∈ s.run, i.isPlain = true := fun i hi => plain i (s.alike i hi)
  have hdepth : Listing.depthAfter 0 (s.before ++ s.run) = Listing.depthAfter 0 s.before := by
    rw [Listing.depthAfter, List.foldl_append]
    exact Listing.depthAfter_plain _ hrun
  intro k hfirst hlast
  have hpos := List.length_pos_iff.2 s.nonempty
  rw [last, List.length_append] at hlast
  rw [first] at hfirst
  have hlines : Listing.plainLines 0 code = Listing.plainLines 0 s.before ++
      (Listing.plainLines (Listing.depthAfter 0 s.before) s.run ++
        Listing.plainLines (Listing.depthAfter 0 (s.before ++ s.run)) s.after) := by
    rw [← List.append_assoc, ← Listing.plainLines_append, ← Listing.plainLines_append, ← s.split]
  rw [hlines, List.getElem?_append_right (by rwa [Listing.length_plainLines]),
    List.getElem?_append_left (by rw [Listing.length_plainLines, Listing.length_plainLines]; omega),
    Listing.plainLines_plain _ hrun, List.getElem?_map, Listing.length_plainLines,
    List.getElem?_eq_getElem (by omega), hdepth]
  rfl

/-! ## Barriers behind an instruction -/

namespace Listing

namespace Cursor

/-- The barriers in front of the next instruction, if there is one. -/
def close (c : Cursor) (next : Option Instruction) : List Line :=
  (if next.any Instruction.isLoad then [] else loadBarrier c.depth c.loads)
    ++ if next.any Instruction.isStore then [] else storeBarrier c.depth c.stores

/-- The barriers behind each instruction. -/
def inserted (c : Cursor) : List Instruction → List (List Line)
  | [] => []
  | i :: code => (c.next i).close code.head? :: (c.next i).inserted code

theorem length_inserted (c : Cursor) (code : List Instruction) :
    (c.inserted code).length = code.length := by
  induction code generalizing c with
  | nil => rfl
  | cons i code ih => rw [inserted, List.length_cons, List.length_cons, ih]

/-- Barriers in front of an instruction are barriers behind the one before it. -/
theorem lines_eq_zipWith (c : Cursor) (code : List Instruction) :
    c.lines code = c.close code.head? ++
      (List.zipWith List.cons (plainLines c.depth code) (c.inserted code)).flatten := by
  induction code generalizing c with
  | nil =>
    rw [plainLines, List.zipWith_nil_left, List.flatten_nil, List.append_nil]
    rfl
  | cons i code ih =>
    rw [lines_cons, ih, plainLines, inserted, List.zipWith_cons_cons, List.flatten_cons]
    rfl

theorem getElem?_inserted (c : Cursor) {front : List Instruction} (h : front ≠ [])
    (rest : List Instruction) :
    (c.inserted (front ++ rest))[front.length - 1]? = some ((c.after front).close rest.head?) := by
  induction front generalizing c with
  | nil => exact absurd rfl h
  | cons i front ih =>
    cases front with
    | nil => rfl
    | cons j front => exact ih (c.next i) (List.cons_ne_nil j front)

/-- The routes that are pending are those of the runs at the end of what is printed. -/
theorem after_start (front : List Instruction) :
    start.after front = ⟨depthAfter 0 front,
      (front.rtakeWhile Instruction.isLoad).filterMap Instruction.route?,
      (front.rtakeWhile Instruction.isStore).filterMap Instruction.route?⟩ := by
  induction front using List.reverseRecOn with
  | nil => rfl
  | append_singleton front i ih =>
    have hcursor : start.after (front ++ [i]) = (start.after front).next i := List.foldl_concat ..
    have hdepth : depthAfter 0 (front ++ [i]) = nextDepth (depthAfter 0 front) i :=
      List.foldl_concat ..
    rw [hcursor, ih, hdepth, List.rtakeWhile_concat, List.rtakeWhile_concat, next]
    cases i with
    | load t => simp [loadsAfter, storesAfter, Instruction.isLoad, Instruction.isStore,
        Instruction.route?]
    | store t => simp [loadsAfter, storesAfter, Instruction.isLoad, Instruction.isStore,
        Instruction.route?]
    | _ => rfl

/-- What is printed behind some instructions are the barriers of the runs that end there. -/
theorem close_after (front rest : List Instruction) :
    (start.after front).close rest.head? =
      loadBarrier (depthAfter 0 front)
          ((ending Instruction.isLoad front rest).filterMap Instruction.route?)
        ++ storeBarrier (depthAfter 0 front)
          ((ending Instruction.isStore front rest).filterMap Instruction.route?) := by
  rw [after_start, close, ending, ending]
  congr 1
  · split <;> rfl
  · split <;> rfl

end Cursor

theorem loadBarrier_of_ne_nil (depth : Nat) {loads : List Route} (h : loads ≠ []) :
    loadBarrier depth loads =
      (if .globalToShared ∈ loads then [⟨depth, "__copy_async_wait();"⟩] else [])
        ++ [⟨depth, "__syncthreads();"⟩] := by
  rw [loadBarrier, if_neg (by simpa using h)]
  simp only [List.contains_iff_mem]

theorem storeBarrier_eq (depth : Nat) (stores : List Route) :
    storeBarrier depth stores =
      if .registerToShared ∈ stores then [⟨depth, "__syncthreads();"⟩] else [] := by
  simp only [storeBarrier, List.contains_iff_mem]

/-- The lines behind each instruction are the barriers of the longest run that ends there: for
    loads a wait, if the run copies from global memory, and a synchronisation; for stores a
    synchronisation, if the run copies from registers. They have the depth of the run. -/
structure Placed (code : List Instruction) (plain : List Line) (inserted : List (List Line)) :
    Prop where
  each : inserted.length = code.length
  afterLoads : ∀ s : Stretch Instruction.isLoad code, ∃ depth, s.HasDepth plain depth ∧
    inserted[s.last]? = some
      ((if .globalToShared ∈ s.routes then [⟨depth, "__copy_async_wait();"⟩] else [])
        ++ [⟨depth, "__syncthreads();"⟩])
  afterStores : ∀ s : Stretch Instruction.isStore code, ∃ depth, s.HasDepth plain depth ∧
    inserted[s.last]? = some
      (if .registerToShared ∈ s.routes then [⟨depth, "__syncthreads();"⟩] else [])
  elsewhere : ∀ k < code.length, (∀ s : Stretch Instruction.isLoad code, s.last ≠ k) →
    (∀ s : Stretch Instruction.isStore code, s.last ≠ k) → inserted[k]? = some []

namespace Cursor

variable {code : List Instruction}

/-- The barriers behind a longest run. -/
theorem inserted_last {kind : Instruction → Bool} (s : Stretch kind code) :
    (start.inserted code)[s.last]? = some
      (loadBarrier (depthAfter 0 (s.before ++ s.run))
          ((ending Instruction.isLoad (s.before ++ s.run) s.after).filterMap Instruction.route?)
        ++ storeBarrier (depthAfter 0 (s.before ++ s.run))
          ((ending Instruction.isStore (s.before ++ s.run) s.after).filterMap
            Instruction.route?)) := by
  have hne : s.before ++ s.run ≠ [] := List.append_ne_nil_of_right_ne_nil _ s.nonempty
  have hlast := start.getElem?_inserted hne s.after
  rwa [← s.split, close_after] at hlast

/-- Where no longest run ends, nothing is printed. -/
theorem inserted_elsewhere {k : Nat} (hk : k < code.length)
    (hloads : ∀ s : Stretch Instruction.isLoad code, s.last ≠ k)
    (hstores : ∀ s : Stretch Instruction.isStore code, s.last ≠ k) :
    (start.inserted code)[k]? = some [] := by
  obtain ⟨front, rest, rfl, hfront⟩ : ∃ front rest, code = front ++ rest ∧ front.length = k + 1 :=
    ⟨code.take (k + 1), code.drop (k + 1), (List.take_append_drop _ _).symm,
      List.length_take_of_le hk⟩
  -- a run that ended here would be one that goes on as long as it gets
  have hnone : ∀ kind, (∀ s : Stretch kind (front ++ rest), s.last ≠ k) →
      ending kind front rest = [] := by
    intro kind h
    by_contra hne
    obtain ⟨s, hs⟩ := Stretch.exists_of_ending hne
    refine h s ?_
    rw [Stretch.last, hs]
    omega
  have hne : front ≠ [] := List.ne_nil_of_length_pos (by omega)
  have hlast := start.getElem?_inserted hne rest
  rw [close_after, hnone _ hloads, hnone _ hstores] at hlast
  rwa [hfront, Nat.add_sub_cancel] at hlast

theorem placed (code : List Instruction) :
    Placed code (plainLines 0 code) (start.inserted code) := by
  refine ⟨start.length_inserted code, fun s => ⟨_, s.hasDepth ?_, ?_⟩,
    fun s => ⟨_, s.hasDepth ?_, ?_⟩, fun k hk hl hs => inserted_elsewhere hk hl hs⟩
  · intro i hi
    obtain ⟨t, rfl⟩ := Instruction.eq_load hi
    rfl
  · have hstores : ending Instruction.isStore (s.before ++ s.run) s.after = [] := by
      refine s.ending_other fun i hi => ?_
      obtain ⟨t, rfl⟩ := Instruction.eq_load hi
      rfl
    rw [inserted_last, s.ending_eq, hstores]
    exact congrArg some ((List.append_nil _).trans (loadBarrier_of_ne_nil _ s.routes_ne_nil))
  · intro i hi
    obtain ⟨t, rfl⟩ := Instruction.eq_store hi
    rfl
  · have hloads : ending Instruction.isLoad (s.before ++ s.run) s.after = [] := by
      refine s.ending_other fun i hi => ?_
      obtain ⟨t, rfl⟩ := Instruction.eq_store hi
      rfl
    rw [inserted_last, s.ending_eq, hloads]
    exact congrArg some (storeBarrier_eq _ _)

end Cursor

end Listing

/-! ## Depth and loops -/

/-- The loop with this span is around the position. -/
def around (position : Nat) (span : Nat × Nat) : Bool := span.1 < position && position < span.2

theorem around_iff {position : Nat} {span : Nat × Nat} :
    around position span = true ↔ span.1 < position ∧ position < span.2 := by
  simp [around]

/-- This many loops of the schedule are around the instruction at the position. -/
def EnclosedBy (code : List Instruction) (position count : Nat) : Prop :=
  ∃ loops : List (Nat × Nat), loops.Nodup ∧ loops.length = count ∧
    ∀ first last, (first, last) ∈ loops ↔
      LoopAt code first last ∧ first < position ∧ position < last

/-- Every line has the depth of the loops around its instruction, and the two marks of a loop are
    in line. -/
structure Listing.Indented (code : List Instruction) (lines : List Line) : Prop where
  enclosed : ∀ k l, lines[k]? = some l → EnclosedBy code k l.depth
  aligned : ∀ first last, LoopAt code first last →
    ∃ depth, lines[first]?.map Line.depth = some depth ∧ lines[last]?.map Line.depth = some depth

namespace LoopTree

theorem depthAfter_code (t : LoopTree) (depth : Nat) :
    Listing.depthAfter depth t.code = depth := by
  induction t generalizing depth with
  | done => rfl
  | step i plain rest ih =>
    rw [Listing.depthAfter, code, List.foldl_cons, Listing.nextDepth_plain depth plain]
    exact ih depth
  | loop var low high body rest ihb ihr =>
    rw [Listing.depthAfter, code, List.foldl_cons, List.foldl_append, List.foldl_cons]
    have hbody : body.code.foldl Listing.nextDepth (depth + 1) = depth + 1 := ihb (depth + 1)
    rw [Listing.nextDepth, hbody]
    exact ihr depth

/-- No loop of a tree is around a position outside of it. -/
theorem countP_around_eq_zero (t : LoopTree) {start position : Nat}
    (h : position ≤ start ∨ start + t.code.length ≤ position) :
    (t.spans start).countP (around position) = 0 := by
  refine List.countP_eq_zero.2 fun s hs => ?_
  have := t.bounds_of_mem_spans hs
  rw [around_iff]
  omega

/-- A line is as deep as there are loops around its instruction. -/
theorem depth_eq (t : LoopTree) {depth k : Nat} (start : Nat) {l : Line}
    (h : (Listing.plainLines depth t.code)[k]? = some l) :
    l.depth = depth + (t.spans start).countP (around (start + k)) := by
  induction t generalizing depth k start with
  | done => simp [code, Listing.plainLines] at h
  | step i plain rest ih =>
    rw [code, Listing.plainLines] at h
    rw [spans]
    cases k with
    | zero =>
      obtain rfl := Option.some.inj h
      rw [rest.countP_around_eq_zero (by omega)]
      exact Listing.lineDepth_plain depth plain
    | succ k =>
      rw [List.getElem?_cons_succ, Listing.nextDepth_plain depth plain] at h
      rw [ih (start + 1) h, show start + (k + 1) = start + 1 + k by omega]
  | loop var low high body rest ihb ihr =>
    have hlines : Listing.plainLines depth (loop var low high body rest).code =
        ⟨depth, Listing.statement (.loopBegin var low high)⟩ ::
          (Listing.plainLines (depth + 1) body.code ++
            ⟨depth, Listing.statement (.loopEnd var)⟩ :: Listing.plainLines depth rest.code) := by
      rw [code, Listing.plainLines, Listing.plainLines_append, Listing.nextDepth,
        body.depthAfter_code, Listing.plainLines]
      rfl
    have hlength := Listing.length_plainLines (depth + 1) body.code
    rw [hlines] at h
    rw [spans, List.countP_append, List.countP_cons]
    cases k with
    | zero =>
      obtain rfl := Option.some.inj h
      rw [body.countP_around_eq_zero (by omega), rest.countP_around_eq_zero (by omega)]
      simp [around]
    | succ k =>
      rw [List.getElem?_cons_succ] at h
      rcases Nat.lt_trichotomy k body.code.length with hk | hk | hk
      · -- inside the body
        rw [List.getElem?_append_left (by omega)] at h
        rw [ihb (start + 1) h, rest.countP_around_eq_zero (by omega),
          if_pos (around_iff.2 (by simp only; omega)),
          show start + (k + 1) = start + 1 + k by omega]
        omega
      · -- the end of the loop
        rw [List.getElem?_append_right (by omega), hlength, hk, Nat.sub_self] at h
        obtain rfl := Option.some.inj h
        rw [body.countP_around_eq_zero (by omega), rest.countP_around_eq_zero (by omega)]
        simp [around]
        omega
      · -- behind the loop
        obtain ⟨j, rfl⟩ : ∃ j, k = body.code.length + (j + 1) :=
          ⟨k - body.code.length - 1, by omega⟩
        rw [List.getElem?_append_right (by omega), hlength, Nat.add_sub_cancel_left,
          List.getElem?_cons_succ] at h
        rw [ihr (start + body.code.length + 2) h, body.countP_around_eq_zero (by omega),
          if_neg (by rw [around_iff]; simp only; omega),
          show start + (body.code.length + (j + 1) + 1) = start + body.code.length + 2 + j by omega]
        omega

/-- The begin and the end of a loop are inside of the same loops. -/
theorem countP_around_ends (t : LoopTree) {first last : Nat} (h : (first, last) ∈ t.spans 0) :
    (t.spans 0).countP (around first) = (t.spans 0).countP (around last) := by
  refine List.countP_congr fun s hs => ?_
  rw [around_iff, around_iff]
  by_cases hsame : s = (first, last)
  · subst hsame
    simp
  · have := t.bounds_of_mem_spans h
    have hapart := (t.pairwise_spans 0).forall hs h hsame
    unfold Apart at hapart
    omega

theorem indented (t : LoopTree) : Listing.Indented t.code (Listing.plainLines 0 t.code) := by
  have hdepth : ∀ k l, (Listing.plainLines 0 t.code)[k]? = some l →
      l.depth = (t.spans 0).countP (around k) := by
    intro k l hl
    simpa using t.depth_eq 0 hl
  have hmap : ∀ k < t.code.length, (Listing.plainLines 0 t.code)[k]?.map Line.depth =
      some ((t.spans 0).countP (around k)) := by
    intro k hk
    have hlt : k < (Listing.plainLines 0 t.code).length := by rwa [Listing.length_plainLines]
    rw [List.getElem?_eq_getElem hlt, Option.map_some,
      hdepth k _ (List.getElem?_eq_getElem hlt)]
  refine ⟨fun k l hl => ⟨(t.spans 0).filter (around k), ?_, ?_, fun first last => ?_⟩,
    fun first last hloop => ?_⟩
  · exact (List.Nodup.of_map Prod.fst (t.nodup_begins 0)).filter (around k)
  · rw [← List.countP_eq_length_filter, hdepth k l hl]
  · rw [List.mem_filter, t.mem_spans_zero_iff, around_iff]
  · have hspan := t.mem_spans_zero_iff.2 hloop
    have := t.bounds_of_mem_spans hspan
    exact ⟨_, hmap first (by omega), t.countP_around_ends hspan ▸ hmap last (by omega)⟩

end LoopTree

/-- **Barriers close the longest runs and change nothing else.** Without barriers a schedule has one
    line for each instruction, in their order. With barriers it has the same lines, and behind each
    of them what `Placed` says: the barriers of the run that ends there. Where loops nest, a line is
    as deep as there are loops around its instruction, and each depth is `width` spaces. -/
theorem Listing.barriers_close_runs (width : Nat) (code : List Instruction) :
    (lines ⟨width, false⟩ code).map Line.text = code.map statement ∧
    (∃ inserted, Placed code (lines ⟨width, false⟩ code) inserted ∧
      lines ⟨width, true⟩ code =
        (List.zipWith List.cons (lines ⟨width, false⟩ code) inserted).flatten) ∧
    (Balanced code → Indented code (lines ⟨width, false⟩ code)) ∧
    ∀ barriers, render ⟨width, barriers⟩ code =
      String.join ((lines ⟨width, barriers⟩ code).map fun l =>
        String.ofList (List.replicate (width * l.depth) ' ') ++ l.text ++ "\n") := by
  refine ⟨map_text_plainLines 0 code, ⟨_, Cursor.placed code, ?_⟩, fun h => ?_, fun barriers => ?_⟩
  · have hlines := Cursor.start.lines_eq_zipWith code
    -- nothing is pending at the start
    have hclose : Cursor.start.close code.head? = [] := by
      simp [Cursor.close, Cursor.start, loadBarrier, storeBarrier]
    rwa [hclose, List.nil_append] at hlines
  · obtain ⟨t, rfl⟩ := h.nested
    exact t.indented
  · simp only [Nat.mul_comm width]
    rfl

end TileNest
