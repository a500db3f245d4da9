import TileNest.Proofs.Lists
import TileNest.Proofs.LoopTree
import TileNest.Schedule.Liveness

/-
  Live ranges in closed form. The analysis is one pass with a stack of frames; over a tree of loops
  its effect splits into two parts that do not depend on each other.

  Frames: every open frame notes the references of the tree in order (`LoopTree.frames_after`), so
  what counts for a loop is the first reference of its own body. Ranges: the range of a tensor is
  extended to each position of `LoopTree.stamps`, and to no other (`LoopTree.lookup_after`). The
  stamps are the positions that refer to the tensor and, for each loop whose body takes up the
  tensor's previous value, the begin and the end of that loop. `Liveness.analyze_code` puts them
  together: on a nested schedule the analysis succeeds and gives the hull of the stamps.
-/

namespace TileNest

/-! ## Extending ranges -/

namespace LiveRange

/-- The position lies in the range. -/
def Contains (r : LiveRange) (position : Nat) : Prop := r.first ≤ position ∧ position ≤ r.last

/-- The range extended to a position, or started there. -/
def coverFrom (r : Option LiveRange) (position : Nat) : Option LiveRange :=
  some (r.elim ⟨position, position⟩ (·.cover position))

/-- The range extended to all positions of a list. -/
def coverAll (r : Option LiveRange) (positions : List Nat) : Option LiveRange :=
  positions.foldl coverFrom r

theorem coverAll_append (r : Option LiveRange) (xs ys : List Nat) :
    coverAll r (xs ++ ys) = coverAll (coverAll r xs) ys := List.foldl_append

theorem contains_cover {r : LiveRange} {p q : Nat} (h : r.Contains p ∨ p = q) :
    (r.cover q).Contains p := by
  unfold Contains cover at *
  dsimp only
  omega

/-- A range only grows while it is extended, and reaches every position. -/
theorem contains_coverAll {r : Option LiveRange} {xs : List Nat} {s : LiveRange}
    (h : coverAll r xs = some s) {p : Nat} (hp : (∃ q ∈ r, q.Contains p) ∨ p ∈ xs) :
    s.Contains p := by
  induction xs generalizing r with
  | nil =>
    rcases hp with ⟨q, hq, hc⟩ | hp
    · rw [show r = some s from h] at hq
      exact Option.mem_some_iff.1 hq ▸ hc
    · cases hp
  | cons x xs ih =>
    refine ih h ?_
    by_cases hx : p ∈ xs
    · exact .inr hx
    · refine .inl ⟨_, rfl, ?_⟩
      cases r with
      | none =>
        rcases hp with ⟨q, hq, -⟩ | hp
        · cases hq
        · have : p = x := (List.mem_cons.1 hp).resolve_right hx
          exact ⟨by simp [this], by simp [this]⟩
      | some q =>
        refine contains_cover ?_
        rcases hp with ⟨q', hq, hc⟩ | hp
        · exact .inl (Option.mem_some_iff.1 hq ▸ hc)
        · exact .inr ((List.mem_cons.1 hp).resolve_right hx)

theorem coverAll_isSome {r : Option LiveRange} {xs : List Nat} (h : r.isSome ∨ xs ≠ []) :
    (coverAll r xs).isSome := by
  induction xs generalizing r with
  | nil => exact h.resolve_right (by simp)
  | cons x xs ih => exact ih (.inl rfl)

end LiveRange

namespace LiveRanges

theorem lookup_touch (name : String) (position : Nat) (ranges : LiveRanges) (x : String) :
    (touch name position ranges).lookup x =
      if x = name then LiveRange.coverFrom (ranges.lookup x) position else ranges.lookup x := by
  induction ranges with
  | nil =>
    by_cases h : x = name
    · simp [touch, h, LiveRange.coverFrom]
    · rw [touch, Lists.lookup_cons_of_ne h, if_neg h]
  | cons e ranges ih =>
    obtain ⟨other, r⟩ := e
    by_cases ho : other = name
    · subst ho
      by_cases h : x = other
      · simp [touch, h, LiveRange.coverFrom]
      · rw [touch, if_pos rfl, Lists.lookup_cons_of_ne h, Lists.lookup_cons_of_ne h, if_neg h]
    · rw [touch, if_neg ho]
      by_cases h : x = other
      · subst h
        simp [ho]
      · rw [Lists.lookup_cons_of_ne h, Lists.lookup_cons_of_ne h, ih]

theorem lookup_widen (name : String) (position : Nat) (ranges : LiveRanges) (x : String) :
    (widen name position ranges).lookup x =
      if x = name then (ranges.lookup x).map (·.cover position) else ranges.lookup x := by
  induction ranges with
  | nil => simp [widen]
  | cons e ranges ih =>
    obtain ⟨other, r⟩ := e
    rw [widen, List.map_cons]
    by_cases h : x = other
    · subst h
      by_cases hn : x = name <;> simp [hn]
    · rw [widen] at ih
      rw [Lists.lookup_cons_of_ne h, Lists.lookup_cons_of_ne h, ih]

theorem names_widen (name : String) (position : Nat) (ranges : LiveRanges) :
    (widen name position ranges).map Prod.fst = ranges.map Prod.fst := by
  unfold widen
  rw [List.map_map]
  rfl

theorem mem_names_touch {name : String} {position : Nat} {ranges : LiveRanges} {x : String}
    (h : x ∈ (touch name position ranges).map Prod.fst) :
    x = name ∨ x ∈ ranges.map Prod.fst := by
  induction ranges with
  | nil => exact .inl (List.mem_singleton.1 h)
  | cons e ranges ih =>
    obtain ⟨other, r⟩ := e
    rw [touch] at h
    split at h
    · exact .inr h
    · rcases List.mem_cons.1 h with rfl | h
      · exact .inr (List.mem_cons_self ..)
      · exact (ih h).imp_right (List.mem_cons_of_mem other)

/-- A tensor keeps one range. -/
theorem nodup_touch {ranges : LiveRanges} (h : (ranges.map Prod.fst).Nodup) (name : String)
    (position : Nat) : ((touch name position ranges).map Prod.fst).Nodup := by
  induction ranges with
  | nil => simp [touch]
  | cons e ranges ih =>
    obtain ⟨other, r⟩ := e
    rw [List.map_cons, List.nodup_cons] at h
    rw [touch]
    split
    · exact List.nodup_cons.2 h
    · next hne =>
      refine List.nodup_cons.2 ⟨fun hm => ?_, ih h.2⟩
      rcases mem_names_touch hm with e | hm
      · exact hne e
      · exact h.1 hm

end LiveRanges

/-! ## References of a frame -/

namespace Liveness

/-- The frame after some references. -/
def Frame.noteAll (f : Frame) (refs : List (String × Mode)) : Frame :=
  refs.foldl (fun f ref => f.note ref.1 ref.2) f

theorem Frame.noteAll_append (f : Frame) (xs ys : List (String × Mode)) :
    f.noteAll (xs ++ ys) = (f.noteAll xs).noteAll ys := List.foldl_append

theorem Frame.note_eq (f : Frame) (name : String) (mode : Mode) :
    (f.note name mode).var = f.var ∧ (f.note name mode).start = f.start := by
  unfold note
  split <;> exact ⟨rfl, rfl⟩

theorem Frame.noteAll_eq (f : Frame) (refs : List (String × Mode)) :
    (f.noteAll refs).var = f.var ∧ (f.noteAll refs).start = f.start := by
  induction refs generalizing f with
  | nil => exact ⟨rfl, rfl⟩
  | cons r refs ih =>
    have h := ih (f.note r.1 r.2)
    have hn := f.note_eq r.1 r.2
    exact ⟨h.1.trans hn.1, h.2.trans hn.2⟩

/-- The references of an instruction reach the ranges and the frames one after the other. -/
theorem refer_foldl (position : Nat) (refs : List (String × Mode)) (s : State) :
    refs.foldl (refer position) s =
      ⟨refs.foldl (fun ranges ref => LiveRanges.touch ref.1 position ranges) s.ranges,
        s.frames.map (·.noteAll refs)⟩ := by
  induction refs generalizing s with
  | nil => simp [Frame.noteAll]
  | cons r refs ih =>
    rw [List.foldl_cons, ih]
    simp [refer, Frame.noteAll]

/-- The first mode noted for a tensor stays; a tensor without one gets its first reference's. -/
theorem Frame.lookup_noteAll (f : Frame) (refs : List (String × Mode)) (x : String) :
    (f.noteAll refs).firsts.lookup x = (f.firsts.lookup x).or (refs.lookup x) := by
  induction refs generalizing f with
  | nil => simp [noteAll]
  | cons r refs ih =>
    obtain ⟨name, mode⟩ := r
    rw [show f.noteAll ((name, mode) :: refs) = (f.note name mode).noteAll refs from rfl, ih]
    unfold note
    by_cases h : x = name
    · subst h
      split
      · next hk =>
        obtain ⟨e, he, hx⟩ := List.any_eq_true.1 hk
        have hs : (f.firsts.lookup x).isSome :=
          List.lookup_isSome_iff.2 ⟨e, he, beq_iff_eq.2 (beq_iff_eq.1 hx).symm⟩
        obtain ⟨m, hm⟩ := Option.isSome_iff_exists.1 hs
        simp [hm]
      · simp [List.lookup_append]
    · rw [Lists.lookup_cons_of_ne h]
      split
      · rfl
      · rw [List.lookup_append, Lists.lookup_cons_of_ne h, List.lookup_nil, Option.or_none]

theorem Frame.nodup_note (f : Frame) (h : (f.firsts.map Prod.fst).Nodup) (name : String)
    (mode : Mode) : ((f.note name mode).firsts.map Prod.fst).Nodup := by
  unfold note
  split
  · exact h
  · next hk =>
    simp only [List.map_append, List.map_cons, List.map_nil]
    rw [List.nodup_append]
    refine ⟨h, by simp, ?_⟩
    rintro a ha b hb rfl
    rw [List.mem_singleton] at hb
    obtain ⟨e, he, rfl⟩ := List.mem_map.1 ha
    exact hk (List.any_eq_true.2 ⟨e, he, by simpa using hb⟩)

theorem Frame.nodup_noteAll (f : Frame) (h : (f.firsts.map Prod.fst).Nodup)
    (refs : List (String × Mode)) : ((f.noteAll refs).firsts.map Prod.fst).Nodup := by
  induction refs generalizing f with
  | nil => exact h
  | cons r refs ih => exact ih (f.note r.1 r.2) (f.nodup_note h r.1 r.2)

/-- The tensor's first reference takes up its previous value. -/
def carries (refs : List (String × Mode)) (x : String) : Bool :=
  (refs.lookup x).any (· != .define)

/-- A frame that was opened before the references carries what they carry. -/
theorem Frame.mem_carried_noteAll (var : String) (start : Nat) (refs : List (String × Mode))
    (x : String) :
    x ∈ ((⟨var, start, []⟩ : Frame).noteAll refs).carried ↔ carries refs x = true := by
  have hn := Frame.nodup_noteAll ⟨var, start, []⟩ (by simp) refs
  have hl := Frame.lookup_noteAll ⟨var, start, []⟩ refs x
  simp only [List.lookup_nil, Option.none_or] at hl
  unfold carries carried
  rw [← hl, List.mem_map, Option.any_eq_true]
  constructor
  · rintro ⟨⟨name, mode⟩, he, rfl⟩
    obtain ⟨he, hm⟩ := List.mem_filter.1 he
    exact ⟨mode, Lists.lookup_of_mem hn he, hm⟩
  · rintro ⟨mode, he, hm⟩
    exact ⟨(x, mode), List.mem_filter.2 ⟨Lists.mem_of_lookup he, hm⟩, rfl⟩

/-- Closing a loop extends the ranges of the tensors it carries to its two ends. -/
theorem lookup_closeLoop (f : Frame) (hn : (f.firsts.map Prod.fst).Nodup) (position : Nat)
    (ranges : LiveRanges) (x : String) :
    (closeLoop f position ranges).lookup x =
      if x ∈ f.carried then (ranges.lookup x).map fun r => (r.cover f.start).cover position
      else ranges.lookup x := by
  have hc : f.carried.Nodup := hn.sublist (List.filter_sublist.map Prod.fst)
  unfold closeLoop
  generalize f.carried = names at hc
  induction names generalizing ranges with
  | nil => simp
  | cons name names ih =>
    rw [List.nodup_cons] at hc
    rw [List.foldl_cons, ih _ hc.2, LiveRanges.lookup_widen, LiveRanges.lookup_widen]
    by_cases h : x = name
    · subst h
      rw [if_neg hc.1]
      simp [Option.map_map, Function.comp_def]
    · simp [h]

theorem names_closeLoop (f : Frame) (position : Nat) (ranges : LiveRanges) :
    (closeLoop f position ranges).map Prod.fst = ranges.map Prod.fst := by
  unfold closeLoop
  induction f.carried generalizing ranges with
  | nil => rfl
  | cons name names ih =>
    rw [List.foldl_cons, ih, LiveRanges.names_widen, LiveRanges.names_widen]

end Liveness

/-! ## The analysis over a tree -/

/-- The state after the end of the innermost open loop. -/
def Liveness.close (position : Nat) (s : State) : State :=
  match s.frames with
  | [] => s
  | f :: frames => ⟨closeLoop f position s.ranges, frames⟩

/-- The positions of one instruction's references to a tensor: its own, once for each of them. -/
def Instruction.stamps (table : TensorTable) (x : String) (position : Nat) (i : Instruction) :
    List Nat :=
  (i.references table).filterMap fun ref => if ref.1 = x then some position else none

namespace LoopTree

variable (table : TensorTable)

/-- The references of all steps, in their order. -/
def references : LoopTree → List (String × Mode)
  | done => []
  | step i _ rest => i.references table ++ rest.references
  | loop _ _ _ body rest => body.references ++ rest.references

/-- The state of the analysis after the tree. -/
def after : LoopTree → (position : Nat) → Liveness.State → Liveness.State
  | done, _, s => s
  | step i _ rest, position, s =>
    rest.after (position + 1) ((i.references table).foldl (Liveness.refer position) s)
  | loop var _ _ body rest, position, s =>
    rest.after (position + body.code.length + 2)
      (Liveness.close (position + 1 + body.code.length)
        (body.after (position + 1) ⟨s.ranges, ⟨var, position, []⟩ :: s.frames⟩))

/-- The positions that the range of a tensor has to cover: every reference, and both ends of each
    loop whose body takes up the tensor's previous value. -/
def stamps (x : String) : LoopTree → (position : Nat) → List Nat
  | done, _ => []
  | step i _ rest, position => i.stamps table x position ++ rest.stamps x (position + 1)
  | loop _ _ _ body rest, position =>
    body.stamps x (position + 1)
      ++ (if Liveness.carries (body.references table) x then
          [position, position + 1 + body.code.length] else [])
      ++ rest.stamps x (position + body.code.length + 2)

theorem frames_after (t : LoopTree) (position : Nat) (s : Liveness.State) :
    (t.after table position s).frames = s.frames.map (·.noteAll (t.references table)) := by
  induction t generalizing position s with
  | done => simp [after, references, Liveness.Frame.noteAll]
  | step i plain rest ih =>
    rw [after, ih, Liveness.refer_foldl]
    simp [references, Liveness.Frame.noteAll_append]
  | loop var low high body rest ihb ihr =>
    rw [after, ihr, Liveness.close, ihb]
    simp [references, Liveness.Frame.noteAll_append]

/-- A loop is closed with the frame that noted its body. -/
theorem close_after (body : LoopTree) (var : String) (start position close : Nat)
    (s : Liveness.State) :
    Liveness.close close (body.after table position ⟨s.ranges, ⟨var, start, []⟩ :: s.frames⟩) =
      ⟨Liveness.closeLoop
          ((⟨var, start, []⟩ : Liveness.Frame).noteAll (body.references table)) close
          (body.after table position ⟨s.ranges, ⟨var, start, []⟩ :: s.frames⟩).ranges,
        s.frames.map (·.noteAll (body.references table))⟩ := by
  unfold Liveness.close
  rw [frames_after]
  rfl

theorem lookup_foldl_touch (refs : List (String × Mode)) (position : Nat) (ranges : LiveRanges)
    (x : String) :
    (refs.foldl (fun ranges ref => LiveRanges.touch ref.1 position ranges) ranges).lookup x =
      LiveRange.coverAll (ranges.lookup x)
        (refs.filterMap fun ref => if ref.1 = x then some position else none) := by
  induction refs generalizing ranges with
  | nil => rfl
  | cons r refs ih =>
    rw [List.foldl_cons, ih, LiveRanges.lookup_touch]
    by_cases h : r.1 = x
    · simp [h, LiveRange.coverAll]
    · simp [h, Ne.symm h]

/-- A body that carries a tensor refers to it. -/
theorem stamps_ne_nil_of_carries {t : LoopTree} {x : String}
    (h : ((t.references table).lookup x).isSome) (position : Nat) :
    t.stamps table x position ≠ [] := by
  induction t generalizing position with
  | done => simp [references] at h
  | step i plain rest ih =>
    rw [references, List.lookup_append, Option.isSome_or, Bool.or_eq_true] at h
    rw [stamps]
    rcases h with h | h
    · obtain ⟨mode, hm⟩ := Option.isSome_iff_exists.1 h
      have hmem : position ∈ i.stamps table x position :=
        List.mem_filterMap.2 ⟨_, Lists.mem_of_lookup hm, by simp⟩
      exact fun e => List.not_mem_nil (e ▸ List.mem_append_left _ hmem)
    · simp [ih h]
  | loop var low high body rest ihb ihr =>
    rw [references, List.lookup_append, Option.isSome_or, Bool.or_eq_true] at h
    rw [stamps]
    rcases h with h | h
    · simp [ihb h]
    · simp [ihr h]

/-- The range of each tensor after the tree covers what it covered before and the stamps, and is
    the hull of these. -/
theorem lookup_after (t : LoopTree) (position : Nat) (s : Liveness.State) (x : String) :
    (t.after table position s).ranges.lookup x =
      LiveRange.coverAll (s.ranges.lookup x) (t.stamps table x position) := by
  induction t generalizing position s with
  | done => rfl
  | step i plain rest ih =>
    rw [after, ih, Liveness.refer_foldl, lookup_foldl_touch, stamps, LiveRange.coverAll_append]
    rfl
  | loop var low high body rest ihb ihr =>
    have hn := Liveness.Frame.nodup_noteAll ⟨var, position, []⟩ (by simp) (body.references table)
    rw [after, ihr, close_after, Liveness.lookup_closeLoop _ hn, ihb, stamps,
      LiveRange.coverAll_append, LiveRange.coverAll_append]
    congr 1
    have hmem := Liveness.Frame.mem_carried_noteAll var position (body.references table) x
    by_cases hc : Liveness.carries (body.references table) x = true
    · have hs : ((body.references table).lookup x).isSome := by
        obtain ⟨mode, hm, -⟩ := (Option.any_eq_true _ _).1 hc
        simp [hm]
      obtain ⟨r, hr⟩ := Option.isSome_iff_exists.1 (LiveRange.coverAll_isSome
        (.inr (stamps_ne_nil_of_carries table hs (position + 1))))
      rw [if_pos (hmem.2 hc), if_pos hc, (Liveness.Frame.noteAll_eq _ _).2, hr]
      rfl
    · rw [if_neg fun h => hc (hmem.1 h), if_neg hc]
      rfl

theorem nodup_after (t : LoopTree) (position : Nat) {s : Liveness.State}
    (h : (s.ranges.map Prod.fst).Nodup) :
    ((t.after table position s).ranges.map Prod.fst).Nodup := by
  induction t generalizing position s with
  | done => exact h
  | step i plain rest ih =>
    refine ih (position + 1) ?_
    rw [Liveness.refer_foldl]
    dsimp only
    generalize s.ranges = ranges at h
    induction i.references table generalizing ranges with
    | nil => exact h
    | cons ref refs ihr => exact ihr _ (LiveRanges.nodup_touch h ref.1 position)
  | loop var low high body rest ihb ihr =>
    rw [after, close_after]
    refine ihr _ ?_
    rw [Liveness.names_closeLoop]
    exact ihb _ h

end LoopTree

namespace Liveness

variable (table : TensorTable)

theorem scan_plain (position : Nat) (s : State) {i : Instruction} (h : i.isPlain = true)
    (code : List Instruction) :
    scan table position s (i :: code) =
      scan table (position + 1) ((i.references table).foldl (refer position) s) code := by
  cases i with
  | compute op operands result => rfl
  | load t => rfl
  | store t => rfl
  | loopBegin var low high => cases h
  | loopEnd var => cases h

theorem scan_code (t : LoopTree) (position : Nat) (s : State) (rest : List Instruction) :
    scan table position s (t.code ++ rest) =
      scan table (position + t.code.length) (t.after table position s) rest := by
  induction t generalizing position s rest with
  | done => rfl
  | step i plain t ih =>
    have hl : position + 1 + t.code.length = position + (i :: t.code).length := by
      rw [List.length_cons]
      omega
    rw [LoopTree.code, ← hl, List.cons_append, scan_plain table _ _ plain, ih, LoopTree.after]
  | loop var low high body t ihb iht =>
    have hl : position + 1 + body.code.length + 1 + t.code.length =
        position + (LoopTree.loop var low high body t).code.length := by
      simp only [LoopTree.code, List.length_cons, List.length_append]
      omega
    have hp : position + 1 + body.code.length + 1 = position + body.code.length + 2 := by omega
    have hv := (Frame.noteAll_eq ⟨var, position, []⟩ (body.references table)).1
    rw [LoopTree.after, ← hl, ← hp, ← iht, LoopTree.close_after]
    simp only [LoopTree.code, List.cons_append, List.append_assoc]
    rw [scan, step]
    dsimp only
    rw [ihb, scan, step, LoopTree.frames_after]
    simp only [List.map_cons, hv, if_true]

/-- On a nested schedule the analysis succeeds, with one range for each tensor, the hull of its
    stamps. -/
theorem analyze_code (t : LoopTree) : ∃ ranges, analyze table t.code = .ok ranges ∧
    (ranges.map Prod.fst).Nodup ∧
    ∀ x, ranges.lookup x = LiveRange.coverAll none (t.stamps table x 0) := by
  have h := scan_code table t 0 .initial []
  rw [List.append_nil] at h
  have hf := t.frames_after table 0 .initial
  refine ⟨(t.after table 0 .initial).ranges, ?_, t.nodup_after table 0 List.nodup_nil,
    fun x => t.lookup_after table 0 .initial x⟩
  rw [analyze, h, scan, hf]
  rfl

end Liveness

end TileNest
