import TileNest.Proofs.Coordinates
import TileNest.Proofs.LiveRanges

/-
  Where values flow while a schedule runs. `LoopTree.executed` lists the instructions that a run
  carries out, in order and with their positions, so a loop's body occurs once for each value of
  the loop; the events of a run are those of the list (`LoopTree.run_emits`).

  Main result: `LoopTree.kept`. If a range contains the stamps of a tensor, then from a write of
  the tensor up to a read that takes the written value up, the run stays inside of the range. The
  induction over the tree carries two more facts (`Kept`): after the last write the run does not
  fall below the range, and before a read with no write in front of it does not pass above.

  Loops have to run at least once. Where one does not, its body's references still count as first
  references for the loop around it, and a value that is carried there goes unnoticed.
-/

namespace TileNest

/-! ## Instructions as they are carried out -/

/-- The event comes from the instruction. -/
def Instruction.Emits : Instruction → Event → Prop
  | compute op operands result, e => e = .compute op operands result
  | load t, e => ∃ tile, e = .load ⟨t.source, t.dest, t.route, tile⟩
  | store t, e => ∃ tile, e = .store ⟨t.source, t.dest, t.route, tile⟩
  | loopBegin .., _ => False
  | loopEnd _, _ => False

/-- A run without a fault is one of its first part and one of the rest. -/
theorem Run.andThen_eq {r : Run} {next : Unit → Run} {events : List Event}
    (h : r.andThen next = ⟨events, none⟩) :
    ∃ first rest, r = ⟨first, none⟩ ∧ next () = ⟨rest, none⟩ ∧ events = first ++ rest := by
  obtain ⟨first, fault⟩ := r
  cases fault with
  | some fault => cases h
  | none =>
    unfold andThen at h
    generalize next () = s at h ⊢
    obtain ⟨rest, fault⟩ := s
    cases h
    exact ⟨first, rest, rfl, rfl, rfl⟩

theorem Run.eq_of_outcome {r : Run} {events : List Event} (h : r.outcome = .ok events) :
    r = ⟨events, none⟩ := by
  obtain ⟨events', fault⟩ := r
  cases fault with
  | some fault => cases h
  | none =>
    cases h
    rfl

theorem Trace.copy_eq {env : Env} {t : Transfer} {event : TileCopy → Event} {events : List Event}
    (h : copy env t event = ⟨events, none⟩) :
    ∃ tile, events = [event ⟨t.source, t.dest, t.route, tile⟩] := by
  unfold copy at h
  split at h
  · next tile _ =>
    cases h
    exact ⟨tile, rfl⟩
  · cases h

theorem Trace.act_emits {env : Env} {i : Instruction} {events : List Event}
    (hi : i.isPlain = true) (h : act env i = ⟨events, none⟩) : ∃ e, events = [e] ∧ i.Emits e := by
  cases i with
  | compute op operands result =>
    cases h
    exact ⟨_, rfl, rfl⟩
  | load t =>
    obtain ⟨tile, rfl⟩ := copy_eq h
    exact ⟨_, rfl, tile, rfl⟩
  | store t =>
    obtain ⟨tile, rfl⟩ := copy_eq h
    exact ⟨_, rfl, tile, rfl⟩
  | loopBegin var low high => cases hi
  | loopEnd var => cases hi

/-- Iterations that each emit the events of the same instructions. -/
theorem Run.each_emits {body : Int64 → Run} {run : List (Nat × Instruction)}
    (hb : ∀ {value events}, body value = ⟨events, none⟩ →
      List.Forall₂ (fun s e => s.2.Emits e) run events)
    {values : List Int64} {events : List Event} (h : each body values = ⟨events, none⟩) :
    List.Forall₂ (fun s e => s.2.Emits e) (values.flatMap fun _ => run) events := by
  induction values generalizing events with
  | nil =>
    cases h
    exact .nil
  | cons value values ih =>
    obtain ⟨now, others, hn, ho, rfl⟩ := andThen_eq h
    exact List.rel_append (hb hn) (ih ho)

namespace LoopTree

/-- The instructions that a run carries out, with their positions in the schedule. -/
def executed : LoopTree → (position : Nat) → List (Nat × Instruction)
  | done, _ => []
  | step i _ rest, position => (position, i) :: rest.executed (position + 1)
  | loop _ low high body rest, position =>
    (LoopVar.valuesIn low high).flatMap (fun _ => body.executed (position + 1))
      ++ rest.executed (position + body.code.length + 2)

/-- Every loop has a value to run for. -/
def LoopsRun : LoopTree → Prop
  | done => True
  | step _ _ rest => rest.LoopsRun
  | loop _ low high body rest => low < high ∧ body.LoopsRun ∧ rest.LoopsRun

theorem loopsRun_of_code {t : LoopTree}
    (h : ∀ var low high, .loopBegin var low high ∈ t.code → low < high) : t.LoopsRun := by
  induction t with
  | done => trivial
  | step i plain rest ih =>
    exact ih fun var low high hm => h var low high (List.mem_cons_of_mem i hm)
  | loop var low high body rest ihb ihr =>
    simp only [code, List.mem_cons, List.mem_append] at h
    refine ⟨h var low high (.inl rfl), ihb fun v l k hm => ?_, ihr fun v l k hm => ?_⟩
    · exact h v l k (.inr (.inl hm))
    · exact h v l k (.inr (.inr (.inr hm)))

/-- The events of a run are those of the instructions carried out, one by one. -/
theorem run_emits {t : LoopTree} {env : Env} {events : List Event}
    (h : t.run env = ⟨events, none⟩) (position : Nat) :
    List.Forall₂ (fun s e => s.2.Emits e) (t.executed position) events := by
  induction t generalizing env events position with
  | done =>
    cases h
    exact .nil
  | step i plain rest ih =>
    obtain ⟨first, later, ha, hr, rfl⟩ := Run.andThen_eq h
    obtain ⟨e, rfl, he⟩ := Trace.act_emits plain ha
    exact .cons he (ih hr (position + 1))
  | loop var low high body rest ihb ihr =>
    obtain ⟨first, later, hl, hr, rfl⟩ := Run.andThen_eq h
    exact List.rel_append (Run.each_emits (fun hb => ihb hb (position + 1)) hl) (ihr hr _)

theorem executed_bounds {t : LoopTree} {position : Nat} {s : Nat × Instruction}
    (h : s ∈ t.executed position) : position ≤ s.1 ∧ s.1 < position + t.code.length := by
  induction t generalizing position with
  | done => cases h
  | step i plain rest ih =>
    rw [code, List.length_cons]
    rcases List.mem_cons.1 h with rfl | h
    · dsimp only
      omega
    · have := ih h
      omega
  | loop var low high body rest ihb ihr =>
    rw [code, List.length_cons, List.length_append, List.length_cons]
    rcases List.mem_append.1 h with h | h
    · obtain ⟨-, -, h⟩ := List.mem_flatMap.1 h
      have := ihb h
      omega
    · have := ihr h
      omega

theorem mem_code_of_executed {t : LoopTree} {position : Nat} {s : Nat × Instruction}
    (h : s ∈ t.executed position) : s.2 ∈ t.code := by
  induction t generalizing position with
  | done => cases h
  | step i plain rest ih =>
    rcases List.mem_cons.1 h with rfl | h
    · exact List.mem_cons_self ..
    · exact List.mem_cons_of_mem i (ih h)
  | loop var low high body rest ihb ihr =>
    rw [code, List.mem_cons, List.mem_append, List.mem_cons]
    rcases List.mem_append.1 h with h | h
    · obtain ⟨-, -, h⟩ := List.mem_flatMap.1 h
      exact .inr (.inl (ihb h))
    · exact .inr (.inr (.inr (ihr h)))

end LoopTree

/-! ## Reads and writes -/

section

variable (table : TensorTable) (x : String)

/-- The instruction refers to the tensor. -/
def Instruction.Touches (i : Instruction) : Prop := ∃ mode, (x, mode) ∈ i.references table

/-- The instruction gives the tensor a value. -/
def Instruction.Writes (i : Instruction) : Prop :=
  ∃ mode, (x, mode) ∈ i.references table ∧ mode ≠ .use

/-- The instruction takes up the tensor's value: its first reference to the tensor is not a
    definition. -/
def Instruction.TakesUp (i : Instruction) : Prop :=
  Liveness.carries (i.references table) x = true

end

section

variable {table : TensorTable} {x : String} {i : Instruction}

theorem Instruction.Writes.touches (h : i.Writes table x) : i.Touches table x := by
  obtain ⟨mode, hm, -⟩ := h
  exact ⟨mode, hm⟩

theorem Instruction.TakesUp.touches (h : i.TakesUp table x) : i.Touches table x := by
  obtain ⟨mode, hm, -⟩ := (Option.any_eq_true _ _).1 h
  exact ⟨mode, Lists.mem_of_lookup hm⟩

theorem Instruction.mem_stamps (h : i.Touches table x) (position : Nat) :
    position ∈ i.stamps table x position := by
  obtain ⟨mode, hm⟩ := h
  exact List.mem_filterMap.2 ⟨_, hm, if_pos rfl⟩

/-- The stamps have the position of every reference that is carried out. -/
theorem LoopTree.mem_stamps {t : LoopTree} {position : Nat} {s : Nat × Instruction}
    (h : s ∈ t.executed position) (hs : s.2.Touches table x) :
    s.1 ∈ t.stamps table x position := by
  induction t generalizing position with
  | done => cases h
  | step i plain rest ih =>
    rw [stamps, List.mem_append]
    rcases List.mem_cons.1 h with rfl | h
    · exact .inl (Instruction.mem_stamps hs position)
    · exact .inr (ih h)
  | loop var low high body rest ihb ihr =>
    rw [stamps, List.mem_append, List.mem_append]
    rcases List.mem_append.1 h with h | h
    · obtain ⟨-, -, h⟩ := List.mem_flatMap.1 h
      exact .inl (.inl (ihb h))
    · exact .inr (ihr h)

/-- A value is taken up before it is written: then the first reference of all takes it up. -/
theorem carries_of_takesUp {before : List (Nat × Instruction)} {s : Nat × Instruction}
    (hs : s.2.TakesUp table x) (hb : ∀ u ∈ before, ¬ u.2.Writes table x)
    (after : List (Nat × Instruction)) :
    Liveness.carries ((before ++ s :: after).flatMap fun u => u.2.references table) x = true := by
  unfold Liveness.carries
  rw [List.flatMap_append, List.lookup_append]
  cases hl : (before.flatMap fun u => u.2.references table).lookup x with
  | some mode =>
    obtain ⟨u, hu, hm⟩ := List.mem_flatMap.1 (Lists.mem_of_lookup hl)
    have huse : mode = .use := by
      by_contra hne
      exact hb u hu ⟨mode, hm, hne⟩
    rw [huse]
    rfl
  | none =>
    obtain ⟨mode, hm, hd⟩ := (Option.any_eq_true _ _).1 hs
    rw [List.flatMap_cons, List.lookup_append, hm]
    exact hd

theorem lookup_repeated {α : Type} {values : List Int64} (h : values ≠ [])
    (refs : List (String × α)) : (values.flatMap fun _ => refs).lookup x = refs.lookup x := by
  induction values with
  | nil => exact absurd rfl h
  | cons value values ih =>
    rw [List.flatMap_cons, List.lookup_append]
    by_cases hv : values = []
    · simp [hv]
    · rw [ih hv, Option.or_self]

theorem valuesIn_ne_nil {low high : Int64} (h : low < high) : LoopVar.valuesIn low high ≠ [] := by
  have hlow : low ∈ LoopVar.valuesIn low high := by
    rw [LoopVar.mem_valuesIn]
    exact ⟨Int.le_refl _, Int64.lt_iff_toInt_lt.1 h⟩
  exact List.ne_nil_of_mem hlow

/-- The first references of a run are those of the schedule. -/
theorem LoopTree.lookup_executed {t : LoopTree} (h : t.LoopsRun) (position : Nat) :
    ((t.executed position).flatMap fun u => u.2.references table).lookup x =
      (t.references table).lookup x := by
  induction t generalizing position with
  | done => rfl
  | step i plain rest ih =>
    rw [executed, references, List.flatMap_cons, List.lookup_append, List.lookup_append,
      ih h (position + 1)]
  | loop var low high body rest ihb ihr =>
    rw [executed, references, List.flatMap_append, List.lookup_append, List.lookup_append,
      ihr h.2.2, List.flatMap_assoc, lookup_repeated (valuesIn_ne_nil h.1), ihb h.2.1]

end

/-! ## From a write to the read that takes it up -/

/-- What a list of executed instructions owes to a live range of the tensor. -/
structure Kept (table : TensorTable) (x : String) (r : LiveRange)
    (run : List (Nat × Instruction)) : Prop where
  /-- The range contains every reference. -/
  covers : ∀ s ∈ run, s.2.Touches table x → r.Contains s.1
  /-- From a write to the read that takes it up, the run stays in the range. -/
  between : ∀ before w inner v after, run = (before ++ w :: inner) ++ v :: after →
    w.2.Writes table x → v.2.TakesUp table x → (∀ u ∈ inner, ¬ u.2.Writes table x) →
    ∀ u ∈ inner, r.Contains u.1
  /-- After the last write, the run does not fall below the range. -/
  leaves : ∀ before w after, run = before ++ w :: after → w.2.Writes table x →
    (∀ u ∈ after, ¬ u.2.Writes table x) → ∀ u ∈ after, r.first ≤ u.1
  /-- Before a read of a value from outside, the run does not pass above the range. -/
  enters : ∀ before v after, run = before ++ v :: after → v.2.TakesUp table x →
    (∀ u ∈ before, ¬ u.2.Writes table x) → ∀ u ∈ before, u.1 ≤ r.last

namespace Kept

variable {table : TensorTable} {x : String} {r : LiveRange}

/-- A run inside of the range. -/
theorem of_contains {run : List (Nat × Instruction)} (h : ∀ s ∈ run, r.Contains s.1) :
    Kept table x r run where
  covers s hs _ := h s hs
  between before w inner v after e _ _ _ u hu := h u (by rw [e]; simp [hu])
  leaves before w after e _ _ u hu := (h u (by rw [e]; simp [hu])).1
  enters before v after e _ _ u hu := (h u (by rw [e]; simp [hu])).2

/-- One instruction, at a position that the range contains if the tensor is referred to. -/
theorem one {position : Nat} {i : Instruction}
    (h : ∀ p ∈ i.stamps table x position, r.Contains p) : Kept table x r [(position, i)] where
  covers s hs ht := by
    rw [List.mem_singleton] at hs
    subst hs
    exact h position (Instruction.mem_stamps ht position)
  between before w inner v after e _ _ _ u hu := by
    have hl := congrArg List.length e
    simp only [List.length_append, List.length_cons, List.length_nil] at hl
    omega
  leaves before w after e _ _ u hu := by
    have hl := congrArg List.length e
    have := List.length_pos_of_mem hu
    simp only [List.length_append, List.length_cons, List.length_nil] at hl
    omega
  enters before v after e _ _ u hu := by
    have hl := congrArg List.length e
    have := List.length_pos_of_mem hu
    simp only [List.length_append, List.length_cons, List.length_nil] at hl
    omega

/-- One run after another whose positions are all higher. -/
theorem append {first second : List (Nat × Instruction)} (hf : Kept table x r first)
    (hs : Kept table x r second) (hlt : ∀ a ∈ first, ∀ b ∈ second, a.1 < b.1) :
    Kept table x r (first ++ second) where
  covers s h ht := (List.mem_append.1 h).elim (hf.covers s · ht) (hs.covers s · ht)
  between before w inner v after e hw hv hn u hu := by
    rcases Lists.append_eq_append_cons e with ⟨after', e1, -⟩ | ⟨start, e1, e2⟩
    · exact hf.between before w inner v after' e1 hw hv hn u hu
    rcases Lists.append_eq_append_cons e1.symm with ⟨inner', e3, rfl⟩ | ⟨before', -, rfl⟩
    · -- The write is in the first run and the read in the second.
      have hwr := hf.covers w (by simp [e3]) hw.touches
      have hvr := hs.covers v (by simp [e2]) hv.touches
      rcases List.mem_append.1 hu with hu | hu
      · have hlow := hf.leaves before w inner' e3 hw (fun u hu => hn u (by simp [hu])) u hu
        have := hlt u (by simp [e3, hu]) v (by simp [e2])
        exact ⟨hlow, by have := hvr.2; omega⟩
      · have hhigh := hs.enters start v after e2 hv (fun u hu => hn u (by simp [hu])) u hu
        have := hlt w (by simp [e3]) u (by simp [e2, hu])
        exact ⟨by have := hwr.1; omega, hhigh⟩
    · exact hs.between before' w inner v after e2 hw hv hn u hu
  leaves before w after e hw hn u hu := by
    rcases Lists.append_eq_append_cons e with ⟨after', e1, rfl⟩ | ⟨before', -, e2⟩
    · rcases List.mem_append.1 hu with hu | hu
      · exact hf.leaves before w after' e1 hw (fun u hu => hn u (by simp [hu])) u hu
      · have hwr := hf.covers w (by simp [e1]) hw.touches
        have := hlt w (by simp [e1]) u hu
        have := hwr.1
        omega
    · exact hs.leaves before' w after e2 hw hn u hu
  enters before v after e hv hn u hu := by
    rcases Lists.append_eq_append_cons e with ⟨after', e1, -⟩ | ⟨before', rfl, e2⟩
    · exact hf.enters before v after' e1 hv hn u hu
    · rcases List.mem_append.1 hu with hu | hu
      · have hvr := hs.covers v (by simp [e2]) hv.touches
        have := hlt u hu v (by simp [e2])
        have := hvr.2
        omega
      · exact hs.enters before' v after e2 hv (fun u hu => hn u (by simp [hu])) u hu

/-- A body that takes up no value from outside, run again and again: a read takes up a value of the
    same iteration, and the last write is one of the last iteration. -/
theorem repeated {body : List (Nat × Instruction)} (hb : Kept table x r body)
    (hc : Liveness.carries (body.flatMap fun u => u.2.references table) x = false)
    (values : List Int64) : Kept table x r (values.flatMap fun _ => body) := by
  -- In any number of iterations, a write precedes each read.
  have hfed : ∀ (values : List Int64) before v after,
      (values.flatMap fun _ => body) = before ++ v :: after → v.2.TakesUp table x →
      ∃ u ∈ before, u.2.Writes table x := by
    intro values before v after e hv
    by_contra hno
    have hcarry := carries_of_takesUp hv (fun u hu hw => hno ⟨u, hu, hw⟩) after
    have hne : values ≠ [] := by
      rintro rfl
      simp at e
    unfold Liveness.carries at hcarry hc
    rw [← e, List.flatMap_assoc, lookup_repeated hne, hc] at hcarry
    cases hcarry
  induction values with
  | nil => exact of_contains fun s hs => absurd hs List.not_mem_nil
  | cons value values ih =>
    rw [List.flatMap_cons]
    constructor
    · intro s h ht
      exact (List.mem_append.1 h).elim (hb.covers s · ht) (ih.covers s · ht)
    · intro before w inner v after e hw hv hn u hu
      rcases Lists.append_eq_append_cons e with ⟨after', e1, -⟩ | ⟨start, e1, e2⟩
      · exact hb.between before w inner v after' e1 hw hv hn u hu
      obtain ⟨u', hu', hw'⟩ := hfed values start v after e2 hv
      rcases Lists.append_eq_append_cons e1.symm with ⟨inner', -, rfl⟩ | ⟨before', -, rfl⟩
      · exact absurd hw' (hn u' (by simp [hu']))
      · exact ih.between before' w inner v after e2 hw hv hn u hu
    · intro before w after e hw hn u hu
      rcases Lists.append_eq_append_cons e with ⟨after', e1, rfl⟩ | ⟨before', -, e2⟩
      · rcases List.mem_append.1 hu with hu | hu
        · exact hb.leaves before w after' e1 hw (fun u hu => hn u (by simp [hu])) u hu
        · -- A later iteration writes the tensor again.
          obtain ⟨other, ho, -⟩ := List.mem_flatMap.1 hu
          have hagain : w ∈ values.flatMap fun _ => body :=
            List.mem_flatMap.2 ⟨other, ho, by simp [e1]⟩
          exact absurd hw (hn w (List.mem_append_right _ hagain))
      · exact ih.leaves before' w after e2 hw hn u hu
    · intro before v after e hv hn u hu
      obtain ⟨u', hu', hw'⟩ := hfed (value :: values) before v after e hv
      exact absurd hw' (hn u' hu')

end Kept

/-- A run keeps to every range that contains the stamps. -/
theorem LoopTree.kept {table : TensorTable} {x : String} {r : LiveRange} {t : LoopTree}
    (hl : t.LoopsRun) {position : Nat} (h : ∀ p ∈ t.stamps table x position, r.Contains p) :
    Kept table x r (t.executed position) := by
  induction t generalizing position with
  | done => exact Kept.of_contains fun s hs => absurd hs List.not_mem_nil
  | step i plain rest ih =>
    simp only [stamps, List.mem_append] at h
    have hfirst : Kept table x r [(position, i)] := .one fun p hp => h p (.inl hp)
    refine hfirst.append (ih hl fun p hp => h p (.inr hp)) fun a ha b hb => ?_
    rw [List.mem_singleton] at ha
    have := executed_bounds hb
    rw [ha]
    omega
  | loop var low high body rest ihb ihr =>
    simp only [stamps, List.mem_append] at h
    have hbody := ihb hl.2.1 fun p hp => h p (.inl (.inl hp))
    refine Kept.append ?_ (ihr hl.2.2 fun p hp => h p (.inr hp)) fun a ha b hb => ?_
    · cases hc : Liveness.carries (body.references table) x with
      | false =>
        refine hbody.repeated ?_ _
        unfold Liveness.carries at hc ⊢
        rw [lookup_executed hl.2.1, hc]
      | true =>
        -- The whole loop is in the range.
        have hstart := h position (.inl (.inr (by simp [hc])))
        have hstop := h (position + 1 + body.code.length) (.inl (.inr (by simp [hc])))
        refine Kept.of_contains fun s hs => ?_
        obtain ⟨-, -, hs⟩ := List.mem_flatMap.1 hs
        have := executed_bounds hs
        exact ⟨by have := hstart.1; omega, by have := hstop.2; omega⟩
    · obtain ⟨-, -, ha⟩ := List.mem_flatMap.1 ha
      have := executed_bounds ha
      have := executed_bounds hb
      omega

end TileNest
