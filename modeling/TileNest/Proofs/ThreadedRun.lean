import TileNest.Proofs.Lists
import TileNest.Proofs.LoopTree

/-
  One state for the whole run. `Trace.execute` works on positions: it jumps from a loop's begin to
  the end that the table gives for it, and it has one map of bindings, in which a loop overwrites
  the value of its variable and restores it when it is done. Main result: `Trace.record_code`. On a
  nested schedule this is the run over the tree of loops, where every body has bindings of its own.

  `Mirrors` relates a step of the state to a run: the same events, added to those that the state
  had, and the same fault. The bindings are the same again after every part of the tree
  (`execute_mirrors`); inside a loop they differ from those before it in the loop's variable at most
  (`Shadowed`), which is what restoring undoes (`Shadowed.restore`). A fault ends everything, so
  bindings that are not restored are not seen.
-/

namespace TileNest

namespace Trace

/-- The bindings that a map holds. -/
def envOf (m : KeyMap String Int64) : Env := fun var => m.get? var

theorem envOf_insert (m : KeyMap String Int64) (var : String) (value : Int64) :
    envOf (m.insert var value) = (envOf m).bind var value := by
  funext other
  by_cases h : other = var
  · subst h
    rw [Env.bind_self]
    exact KeyMap.get?_insert_self m other value
  · rw [Env.bind_of_ne _ _ h]
    exact KeyMap.get?_insert_of_ne m h value

/-! ## Steps of the state and runs -/

/-- The step from `s` does what the run does. If it ends without a fault, its bindings are as
    `keeps` says. -/
structure Mirrors (keeps : KeyMap String Int64 → Prop) (s : State) (r : Run)
    (step : State × Option Fault) : Prop where
  fault : step.2 = r.fault
  events : step.1.events = r.events.reverse ++ s.events
  bindings : step.2 = none → keeps step.1.bindings

theorem mirrors_idle {keeps : KeyMap String Int64 → Prop} {s : State} (h : keeps s.bindings) :
    Mirrors keeps s .idle (s, none) :=
  ⟨rfl, rfl, fun _ => h⟩

/-- One step after the other. What the second one is asked for, it is asked for of every state
    that the first one may leave. -/
theorem Mirrors.andThen {first last : KeyMap String Int64 → Prop} {s : State} {r : Run}
    {step : State × Option Fault} (h : Mirrors first s r step) {rest : Unit → Run}
    {next : State → State × Option Fault}
    (hnext : ∀ s', first s'.bindings → Mirrors last s' (rest ()) (next s')) :
    Mirrors last s (r.andThen rest) (Trace.andThen step next) := by
  obtain ⟨s', fault⟩ := step
  obtain ⟨events, fault'⟩ := r
  obtain rfl : fault = fault' := h.fault
  have hevents : s'.events = events.reverse ++ s.events := h.events
  cases fault with
  | some fault => exact ⟨rfl, hevents, fun h => (by cases h)⟩
  | none =>
    obtain ⟨hfault, hlater, hkeeps⟩ := hnext s' (h.bindings rfl)
    refine ⟨hfault, ?_, hkeeps⟩
    show (next s').1.events = (events ++ (rest ()).events).reverse ++ s.events
    rw [hlater, hevents, List.reverse_append, List.append_assoc]

/-- A step that mirrors a run does so from every state with the same events. -/
theorem Mirrors.of_events {keeps weaker : KeyMap String Int64 → Prop} {s s' : State} {r : Run}
    {step : State × Option Fault} (h : Mirrors keeps s' r step) (he : s'.events = s.events)
    (hkeeps : ∀ m, keeps m → weaker m) : Mirrors weaker s r step :=
  ⟨h.fault, he ▸ h.events, fun hnone => hkeeps _ (h.bindings hnone)⟩

theorem copy_mirrors (s : State) (t : Transfer) (event : TileCopy → Event) :
    Mirrors (· = s.bindings) s (copy (envOf s.bindings) t event) (s.copy t event) := by
  unfold copy State.copy envOf
  cases t.index.evaluate fun var => s.bindings.get? var with
  | ok tile => exact ⟨rfl, rfl, fun _ => rfl⟩
  | error fault => exact ⟨rfl, rfl, nofun⟩

/-! ## Bindings inside a loop -/

/-- The bindings are those before a loop over the variable, or differ from them in its value. -/
def Shadowed (before : KeyMap String Int64) (var : String) (m : KeyMap String Int64) : Prop :=
  m = before ∨ ∃ value, m = before.insert var value

theorem Shadowed.insert {before m : KeyMap String Int64} {var : String}
    (h : Shadowed before var m) (value : Int64) : m.insert var value = before.insert var value := by
  obtain rfl | ⟨old, rfl⟩ := h
  · rfl
  · exact KeyMap.insert_insert before var old value

/-- Restoring the value that the variable had gives the bindings before the loop. -/
theorem Shadowed.restore {before : KeyMap String Int64} {var : String} {s : State}
    (h : Shadowed before var s.bindings) : (s.restore var (before.get? var)).bindings = before := by
  cases hvar : before.get? var with
  | some value =>
    show s.bindings.insert var value = before
    rw [h.insert, KeyMap.insert_of_get? hvar]
  | none =>
    show s.bindings.erase var = before
    obtain hs | ⟨value, hs⟩ := h
    · rw [hs, KeyMap.erase_of_get? hvar]
    · rw [hs, KeyMap.erase_insert hvar]

theorem State.events_restore (s : State) (var : String) (value : Option Int64) :
    (s.restore var value).events = s.events := by
  cases value with
  | none => rfl
  | some value => rfl

theorem ofInt_succ_add (value : Int64) (i : Nat) :
    Int64.ofInt ((value + 1).toInt + (i : Int)) =
      Int64.ofInt (value.toInt + ((i + 1 : Nat) : Int)) := by
  rw [Int64.ofInt_add, Int64.ofInt_toInt, Int64.ofInt_add, Int64.ofInt_toInt, Int.natCast_add,
    Int64.ofInt_add, Int64.add_assoc, Int64.add_comm 1]
  rfl

/-- Counting from a value on is running through the list of values. The bindings between two
    iterations are those before the loop up to the loop's variable. -/
theorem iterate_mirrors {before : KeyMap String Int64} {var : String}
    {body : Int64 → State → State × Option Fault} {runs : Int64 → Run}
    (hbody : ∀ value s, Shadowed before var s.bindings →
      Mirrors (Shadowed before var) s (runs value) (body value s))
    (value : Int64) (count : Nat) {s : State} (hs : Shadowed before var s.bindings) :
    Mirrors (Shadowed before var) s
      (Run.each runs ((List.range count).map fun (i : Nat) => Int64.ofInt (value.toInt + i)))
      (iterate body value count s) := by
  induction count generalizing value s with
  | zero => exact mirrors_idle hs
  | succ count ih =>
    have hhead : Int64.ofInt (value.toInt + ((0 : Nat) : Int)) = value := by simp
    have htail : (fun (i : Nat) => Int64.ofInt (value.toInt + i)) ∘ Nat.succ =
        fun (i : Nat) => Int64.ofInt ((value + 1).toInt + i) := by
      funext i
      exact (ofInt_succ_add value i).symm
    rw [List.range_succ_eq_map, List.map_cons, List.map_map, htail, hhead]
    exact (hbody value s hs).andThen fun s' hs' => ih (value + 1) hs'

/-! ## Parts of a schedule -/

/-- The part of a schedule after a part that starts at a position. -/
theorem drop_of_append {code xs ys : List Instruction} {position : Nat}
    (h : code.drop position = xs ++ ys) : code.drop (position + xs.length) = ys := by
  rw [← List.drop_drop, h, List.drop_left]

theorem drop_of_cons {code ys : List Instruction} {position : Nat} {i : Instruction}
    (h : code.drop position = i :: ys) : code.drop (position + 1) = ys := by
  rw [← List.drop_drop, h, List.drop_one, List.tail_cons]

theorem getElem?_of_drop {code ys : List Instruction} {position : Nat} {i : Instruction}
    (h : code.drop position = i :: ys) : code.toArray[position]? = some i := by
  rw [List.getElem?_toArray, ← Nat.add_zero position, ← List.getElem?_drop, h]
  rfl

section

variable {code : List Instruction} {ends : KeyMap Nat Nat} {stop position : Nat}

theorem mirrors_stop {bindings : KeyMap String Int64} (s : State) (h : s.bindings = bindings) :
    Mirrors (· = bindings) s .idle (execute code.toArray ends stop stop s) := by
  rw [execute, if_neg (Nat.lt_irrefl stop)]
  exact mirrors_idle h

theorem execute_plain (hlt : position < stop) {i : Instruction} (plain : i.isPlain = true)
    {rest : List Instruction} (hi : code.drop position = i :: rest) (s : State) :
    ∃ step, Mirrors (· = s.bindings) s (act (envOf s.bindings) i) step ∧
      execute code.toArray ends stop position s =
        andThen step (execute code.toArray ends stop (position + 1)) := by
  rw [execute, if_pos hlt, getElem?_of_drop hi]
  cases i with
  | compute op operands result =>
    exact ⟨(s.note (.compute op operands result), none), ⟨rfl, rfl, fun _ => rfl⟩, rfl⟩
  | load t => exact ⟨_, copy_mirrors s t .load, rfl⟩
  | store t => exact ⟨_, copy_mirrors s t .store, rfl⟩
  | loopBegin var low high => cases plain
  | loopEnd var => cases plain

/-- A loop runs up to its end in the table, and the run goes on behind it. -/
theorem execute_loop {var : String} {low high : Int64} {rest : List Instruction}
    (hi : code.drop position = .loopBegin var low high :: rest) {close : Nat}
    (hclose : ends.get? position = some close) (hlt : position < close) (hstop : close < stop)
    (s : State) :
    execute code.toArray ends stop position s =
      andThen (iterate (fun value s => execute code.toArray ends close (position + 1)
          (s.bind var value)) low (high.toInt - low.toInt).toNat s)
        fun s' => execute code.toArray ends stop (close + 1)
          (s'.restore var (s.bindings.get? var)) := by
  rw [execute, if_pos (Nat.lt_trans hlt hstop), getElem?_of_drop hi]
  dsimp only
  rw [hclose]
  dsimp only
  rw [if_pos ⟨hlt, hstop⟩]

end

/-! ## The run over the tree -/

/-- The part of a schedule that comes from a tree is executed as the tree is run, whatever comes
    after it, and leaves the bindings as they were. -/
theorem execute_mirrors {code : List Instruction} {ends : KeyMap Nat Nat} (t : LoopTree)
    {position stop : Nat} {later : List Instruction} (hcode : code.drop position = t.code ++ later)
    (hends : ∀ span ∈ t.spans position, ends.get? span.1 = some span.2)
    (hstop : position + t.code.length ≤ stop) {bindings : KeyMap String Int64} {after : Run}
    (hafter : ∀ s, s.bindings = bindings → Mirrors (· = bindings) s after
      (execute code.toArray ends stop (position + t.code.length) s))
    {s : State} (hs : s.bindings = bindings) :
    Mirrors (· = bindings) s ((t.run (envOf bindings)).andThen fun _ => after)
      (execute code.toArray ends stop position s) := by
  induction t generalizing position stop later bindings after s with
  | done => exact hafter s hs
  | step i plain rest ih =>
    have hlength : position + (LoopTree.step i plain rest).code.length =
        position + 1 + rest.code.length := by
      rw [LoopTree.code, List.length_cons]
      omega
    rw [hlength] at hstop hafter
    have hlt : position < stop := by omega
    obtain ⟨step, hstep, hexecute⟩ := execute_plain hlt plain hcode s
    rw [hs] at hstep
    rw [hexecute, LoopTree.run, Run.andThen_assoc]
    exact hstep.andThen fun s' hs' => ih (drop_of_cons hcode) hends hstop hafter hs'
  | loop var low high body rest ihb ihr =>
    have hlength : position + (LoopTree.loop var low high body rest).code.length =
        position + body.code.length + 2 + rest.code.length := by
      simp only [LoopTree.code, List.length_cons, List.length_append]
      omega
    rw [LoopTree.code, List.cons_append, List.append_assoc, List.cons_append] at hcode
    rw [hlength] at hstop hafter
    rw [LoopTree.spans] at hends
    have hinner := drop_of_cons hcode
    have houter := drop_of_cons (drop_of_append hinner)
    have hnext : position + 1 + body.code.length + 1 = position + body.code.length + 2 := by omega
    rw [hnext] at houter
    have hclose : ends.get? position = some (position + 1 + body.code.length) :=
      hends _ (List.mem_append_right _ List.mem_cons_self)
    have hbody : ∀ value s, Shadowed bindings var s.bindings →
        Mirrors (Shadowed bindings var) s (body.run ((envOf bindings).bind var value))
          (execute code.toArray ends (position + 1 + body.code.length) (position + 1)
            (s.bind var value)) := by
      intro value s hshadowed
      have hbound : (s.bind var value).bindings = bindings.insert var value :=
        hshadowed.insert value
      have hrun := ihb hinner (fun span hspan => hends span (List.mem_append_left _ hspan))
        (Nat.le_refl _) mirrors_stop hbound
      rw [Run.andThen_idle, envOf_insert] at hrun
      exact hrun.of_events rfl fun m hm => .inr ⟨value, hm⟩
    rw [execute_loop hcode hclose (by omega) (by omega), LoopTree.run, Run.andThen_assoc, hs, hnext]
    refine (iterate_mirrors hbody low _ (.inl hs)).andThen fun s' hs' => ?_
    refine (ihr houter ?_ hstop hafter hs'.restore).of_events (s'.events_restore _ _) fun _ => id
    exact fun span hspan => hends span (List.mem_append_right _ (List.mem_cons_of_mem _ hspan))

theorem get?_spans {t : LoopTree} {span : Nat × Nat} (h : span ∈ t.spans 0) :
    KeyMap.get? (t.spans 0) span.1 = some span.2 := by
  rw [KeyMap.get?, Lists.find?_eq_some_of_nodup (t.nodup_begins 0) h]
  rfl

/-- The run of a schedule that comes from a tree is the run over the tree. -/
theorem record_code (t : LoopTree) : record t.code = t.run Env.empty := by
  have hcode : t.code.drop 0 = t.code ++ [] := (List.append_nil t.code).symm
  have hstop : 0 + t.code.length ≤ t.code.length := Nat.le_of_eq (Nat.zero_add _)
  have hstart : (⟨[], []⟩ : State).bindings = [] := rfl
  have hmirrors := execute_mirrors t hcode (fun _ => get?_spans) hstop
    (fun s hs => by rw [Nat.zero_add]; exact mirrors_stop s hs) hstart
  rw [Run.andThen_idle] at hmirrors
  rw [record, loopSpans_code]
  dsimp only
  rw [hmirrors.fault, hmirrors.events, List.append_nil, List.reverse_reverse]
  rfl

end Trace

theorem Nested.record_eq {xs : List Instruction} (h : Nested xs) :
    Trace.record xs = Trace.run Env.empty xs := by
  obtain ⟨t, rfl⟩ := h
  rw [Trace.record_code, Trace.run_code]

end TileNest
