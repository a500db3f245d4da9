import TileNest.Kernel.Listing
import TileNest.Proofs.Construction

/-
  Barriers and what they order. A write to a tensor in shared memory and a later read of it are
  fenced when a synchronisation is printed between their lines, behind a wait for the copies if
  the write is a copy from global memory.

  Barriers are printed where a run of loads or of stores ends, whatever the run writes and whatever
  comes next reads. So a load, or a store from registers, is fenced from a later read exactly when
  that read is outside of its run (`Listing.fenced_iff_not_inOneRun`). Inside a run nothing is
  fenced, and hoisting does bring writes and reads of one tensor together in one run: `Sample.relay`
  has one pair of them in a run of loads and one in a run of stores. A store from global memory has
  no barrier of its own (`Sample.handover`).

  What is between two lines is said without the printer: lines that are not barriers are those of
  the instructions, one for one (`Listing.Shows`), so the lines split where the schedule does.
-/

namespace TileNest

/-! ## Lines -/

namespace Line

def Syncs (l : Line) : Prop := l.text = "__syncthreads();"

def Waits (l : Line) : Prop := l.text = "__copy_async_wait();"

/-- The line belongs to no instruction. -/
def isBarrier (l : Line) : Bool := l.text == "__syncthreads();" || l.text == "__copy_async_wait();"

theorem Syncs.isBarrier {l : Line} (h : l.Syncs) : l.isBarrier = true := by
  unfold Line.isBarrier
  rw [show l.text = _ from h]
  decide

theorem Waits.isBarrier {l : Line} (h : l.Waits) : l.isBarrier = true := by
  unfold Line.isBarrier
  rw [show l.text = _ from h]
  decide

end Line

namespace Listing

/-- Without the barriers, the lines are those of the instructions, one for one. -/
def Shows (lines : List Line) (code : List Instruction) : Prop :=
  (lines.filter (!·.isBarrier)).map Line.text = code.map statement

theorem head_append {s : String} {c : Char} (h : s.toList.head? = some c) (t : String) :
    (s ++ t).toList.head? = some c := by
  rw [String.toList_append, List.head?_append, h]
  rfl

theorem head_call (t : Transfer) : ∃ c, c ≠ '_' ∧ (call t).toList.head? = some c := by
  have hroute : ∃ c, c ≠ '_' ∧ t.route.text.toList.head? = some c := by
    cases t.route with
    | globalToShared => exact ⟨'g', by decide, rfl⟩
    | sharedToRegister => exact ⟨'s', by decide, rfl⟩
    | registerToShared => exact ⟨'r', by decide, rfl⟩
    | sharedToGlobal => exact ⟨'s', by decide, rfl⟩
  obtain ⟨c, hc, h⟩ := hroute
  refine ⟨c, hc, ?_⟩
  unfold call Copier.instanceOf
  simp only [String.append_assoc]
  exact head_append h _

/-- Barriers open with an underscore and instructions do not. -/
theorem head_statement (i : Instruction) : ∃ c, c ≠ '_' ∧ (statement i).toList.head? = some c := by
  cases i with
  | compute op operands result =>
    refine ⟨'c', by decide, ?_⟩
    unfold statement
    simp only [String.append_assoc]
    exact head_append rfl _
  | load t => exact head_call t
  | store t => exact head_call t
  | loopBegin var low high =>
    refine ⟨'f', by decide, ?_⟩
    unfold statement
    simp only [String.append_assoc]
    exact head_append rfl _
  | loopEnd var =>
    refine ⟨'\x7d', by decide, ?_⟩
    unfold statement
    dsimp only
    decide

theorem isBarrier_statement (depth : Nat) (i : Instruction) :
    Line.isBarrier ⟨depth, statement i⟩ = false := by
  obtain ⟨c, hc, h⟩ := head_statement i
  unfold Line.isBarrier
  rw [Bool.or_eq_false_iff, beq_eq_false_iff_ne, beq_eq_false_iff_ne]
  constructor
  · intro e
    rw [show statement i = _ from e, show "__syncthreads();".toList.head? = some '_' by decide] at h
    exact hc (Option.some.inj h).symm
  · intro e
    rw [show statement i = _ from e,
      show "__copy_async_wait();".toList.head? = some '_' by decide] at h
    exact hc (Option.some.inj h).symm

namespace Shows

variable {xs ys : List Line} {c d : List Instruction}

theorem append (hx : Shows xs c) (hy : Shows ys d) : Shows (xs ++ ys) (c ++ d) := by
  unfold Shows at *
  rw [List.filter_append, List.map_append, List.map_append, hx, hy]

theorem barriers (h : ∀ l ∈ xs, l.isBarrier = true) : Shows xs [] := by
  unfold Shows
  rw [List.filter_eq_nil_iff.2 fun l hl => by simp [h l hl]]
  rfl

theorem line (depth : Nat) (i : Instruction) : Shows [⟨depth, statement i⟩] [i] := by
  unfold Shows
  rw [List.filter_cons_of_pos (by simp [isBarrier_statement])]
  rfl

/-- The line of an instruction is not a barrier. -/
theorem not_isBarrier {l : Line} {i : Instruction} (h : Shows [l] [i]) : l.isBarrier = false := by
  by_contra hb
  unfold Shows at h
  rw [List.filter_cons_of_neg (by simpa using hb)] at h
  cases h

/-- Lines that are cut twice in front of the line of the same instruction are cut at one place. -/
theorem cut_unique {l m : Line} {zs : List Line} (hx : Shows xs c) (hy : Shows ys c)
    {ws : List Line} (hl : l.isBarrier = false) (hm : m.isBarrier = false)
    (h : xs ++ l :: zs = ys ++ m :: ws) : xs = ys ∧ l = m ∧ zs = ws := by
  -- one more line in front would be one more instruction
  have hcount : ∀ {us vs : List Line} {k : Line}, k.isBarrier = false →
      Shows (us ++ k :: vs) c → ¬ Shows us c := by
    intro us vs k hk hlong hshort
    have hlength := congrArg List.length (hlong.trans hshort.symm)
    simp [List.filter_append, hk] at hlength
  rcases List.append_eq_append_iff.1 h with ⟨ks, rfl, hks⟩ | ⟨ks, rfl, hks⟩
  · cases ks with
    | nil => simpa using hks
    | cons k ks =>
      obtain ⟨rfl, -⟩ := List.cons.inj hks
      exact absurd hx (hcount hl hy)
  · cases ks with
    | nil => simpa [eq_comm] using hks
    | cons k ks =>
      obtain ⟨rfl, -⟩ := List.cons.inj hks
      exact absurd hy (hcount hm hx)

end Shows

/-! ## The printer between two instructions -/

/-- Where the printer stands: the open loops, and the routes of the loads and of the stores that
    came last. -/
structure Cursor where
  depth : Nat
  loads : List Route
  stores : List Route

namespace Cursor

def start : Cursor := ⟨0, [], []⟩

def next (c : Cursor) (i : Instruction) : Cursor :=
  ⟨nextDepth c.depth i, loadsAfter c.loads i, storesAfter c.stores i⟩

/-- The barriers in front of an instruction. -/
def gap (c : Cursor) (i : Instruction) : List Line :=
  (if i.isLoad then [] else loadBarrier c.depth c.loads)
    ++ if i.isStore then [] else storeBarrier c.depth c.stores

/-- The line of an instruction. -/
def line (c : Cursor) (i : Instruction) : Line := ⟨lineDepth c.depth i, statement i⟩

/-- The lines of a schedule's rest. -/
def lines (c : Cursor) (code : List Instruction) : List Line :=
  linesFrom c.depth c.loads c.stores code

/-- Where the printer stands after some instructions. -/
def after (c : Cursor) (code : List Instruction) : Cursor := code.foldl next c

/-- The lines of some instructions, as long as more are to come. -/
def printed (c : Cursor) : List Instruction → List Line
  | [] => []
  | i :: code => c.gap i ++ c.line i :: (c.next i).printed code

/-- The lines of some instructions and the barriers in front of the one that follows them. -/
def upTo (c : Cursor) (code : List Instruction) (i : Instruction) : List Line :=
  c.printed code ++ (c.after code).gap i

theorem lines_cons (c : Cursor) (i : Instruction) (code : List Instruction) :
    c.lines (i :: code) = c.gap i ++ c.line i :: (c.next i).lines code := by
  simp [lines, linesFrom, gap, line, next]

theorem lines_append (c : Cursor) (xs ys : List Instruction) :
    c.lines (xs ++ ys) = c.printed xs ++ (c.after xs).lines ys := by
  induction xs generalizing c with
  | nil => rfl
  | cons i xs ih =>
    rw [List.cons_append, lines_cons, ih, printed, List.append_assoc, List.cons_append]
    rfl

theorem lines_split (c : Cursor) (xs : List Instruction) (i : Instruction) (ys : List Instruction) :
    c.lines (xs ++ i :: ys) =
      c.upTo xs i ++ (c.after xs).line i :: ((c.after xs).next i).lines ys := by
  rw [lines_append, lines_cons, upTo, List.append_assoc]

theorem upTo_cons (c : Cursor) (z : Instruction) (xs : List Instruction) (i : Instruction) :
    c.upTo (z :: xs) i = c.gap z ++ c.line z :: (c.next z).upTo xs i := by
  simp only [upTo, printed, List.append_assoc, List.cons_append]
  rfl

theorem isBarrier_of_mem_loadBarrier {depth : Nat} {loads : List Route} {l : Line}
    (h : l ∈ loadBarrier depth loads) : l.isBarrier = true := by
  unfold loadBarrier at h
  split at h
  · cases h
  · rcases List.mem_append.1 h with h | h
    · split at h
      · rw [List.mem_singleton.1 h]
        exact Line.Waits.isBarrier rfl
      · cases h
    · rw [List.mem_singleton.1 h]
      exact Line.Syncs.isBarrier rfl

theorem isBarrier_of_mem_storeBarrier {depth : Nat} {stores : List Route} {l : Line}
    (h : l ∈ storeBarrier depth stores) : l.isBarrier = true := by
  unfold storeBarrier at h
  split at h
  · rw [List.mem_singleton.1 h]
    exact Line.Syncs.isBarrier rfl
  · cases h

theorem shows_gap (c : Cursor) (i : Instruction) : Shows (c.gap i) [] := by
  refine Shows.barriers fun l hl => ?_
  unfold gap at hl
  rcases List.mem_append.1 hl with hl | hl
  · split at hl
    · cases hl
    · exact isBarrier_of_mem_loadBarrier hl
  · split at hl
    · cases hl
    · exact isBarrier_of_mem_storeBarrier hl

theorem shows_line (c : Cursor) (i : Instruction) : Shows [c.line i] [i] := Shows.line _ i

theorem shows_upTo (c : Cursor) (xs : List Instruction) (i : Instruction) :
    Shows (c.upTo xs i) xs := by
  induction xs generalizing c with
  | nil => exact c.shows_gap i
  | cons z xs ih =>
    rw [upTo_cons]
    exact (c.shows_gap z).append ((c.shows_line z).append (ih (c.next z)))

theorem shows_lines (c : Cursor) (code : List Instruction) : Shows (c.lines code) code := by
  induction code generalizing c with
  | nil =>
    refine Shows.barriers fun l hl => ?_
    rcases List.mem_append.1 hl with hl | hl
    · exact isBarrier_of_mem_loadBarrier hl
    · exact isBarrier_of_mem_storeBarrier hl
  | cons i code ih =>
    rw [lines_cons]
    exact (c.shows_gap i).append ((c.shows_line i).append (ih (c.next i)))

end Cursor

/-! ## Fences -/

/-- The lines synchronise, and after a copy from global memory they wait before they do. -/
def Fence (route : Route) (lines : List Line) : Prop :=
  ∃ above sync below, lines = above ++ sync :: below ∧ sync.Syncs ∧
    (route = .globalToShared → ∃ wait ∈ above, wait.Waits)

namespace Fence

variable {route : Route} {xs : List Line}

theorem prepend (h : Fence route xs) (ys : List Line) : Fence route (ys ++ xs) := by
  obtain ⟨above, sync, below, rfl, hs, hw⟩ := h
  refine ⟨ys ++ above, sync, below, by rw [List.append_assoc], hs, fun hr => ?_⟩
  obtain ⟨wait, hm, hwait⟩ := hw hr
  exact ⟨wait, List.mem_append_right ys hm, hwait⟩

theorem append (h : Fence route xs) (ys : List Line) : Fence route (xs ++ ys) := by
  obtain ⟨above, sync, below, rfl, hs, hw⟩ := h
  exact ⟨above, sync, below ++ ys, by simp, hs, hw⟩

theorem loadBarrier {loads : List Route} (h : route ∈ loads) (depth : Nat) :
    Fence route (Listing.loadBarrier depth loads) := by
  unfold Listing.loadBarrier
  rw [if_neg (by simpa using List.ne_nil_of_mem h)]
  refine ⟨_, _, [], rfl, rfl, fun hr => ?_⟩
  rw [if_pos (List.contains_iff_mem.2 (hr ▸ h))]
  exact ⟨_, List.mem_singleton_self _, rfl⟩

theorem storeBarrier {stores : List Route} (h : .registerToShared ∈ stores) (depth : Nat) :
    Fence .registerToShared (Listing.storeBarrier depth stores) := by
  unfold Listing.storeBarrier
  rw [if_pos (List.contains_iff_mem.2 h)]
  exact ⟨[], _, [], rfl, rfl, fun hr => by cases hr⟩

theorem exists_syncs (h : Fence route xs) : ∃ l ∈ xs, l.Syncs := by
  obtain ⟨above, sync, below, rfl, hs, -⟩ := h
  exact ⟨sync, by simp, hs⟩

end Fence

/-! ## Runs -/

namespace Cursor

variable {c : Cursor} {route : Route} {same : Instruction → Bool} {P : Cursor → Prop}

/-- Something stays pending while instructions of one kind follow, and is fenced in front of any
    other. Then it is fenced before the first instruction of another kind has come. -/
theorem fence_upTo (hkeep : ∀ c i, P c → same i = true → P (c.next i))
    (hstop : ∀ c i, P c → same i = false → Fence route (c.gap i)) (hc : P c)
    {xs : List Instruction} {y : Instruction} (h : ∃ i ∈ xs ++ [y], same i = false) :
    Fence route (c.upTo xs y) := by
  induction xs generalizing c with
  | nil =>
    obtain ⟨i, hi, hs⟩ := h
    rw [List.mem_singleton.1 hi] at hs
    exact hstop c y hc hs
  | cons z xs ih =>
    rw [upTo_cons]
    cases hz : same z with
    | false => exact (hstop c z hc hz).append _
    | true =>
      have hlater : ∃ i ∈ xs ++ [y], same i = false := by
        obtain ⟨i, hi, hs⟩ := h
        rcases List.mem_cons.1 hi with rfl | hi
        · rw [hz] at hs
          cases hs
        · exact ⟨i, hi, hs⟩
      exact ((ih (hkeep c z hc hz) hlater).prepend [c.line z]).prepend _

/-- A load is fenced before the first instruction that is not a load has come. -/
theorem fence_after_load (hr : route ∈ c.loads) {xs : List Instruction} {y : Instruction}
    (h : ∃ i ∈ xs ++ [y], i.isLoad = false) : Fence route (c.upTo xs y) := by
  refine fence_upTo (P := fun c => route ∈ c.loads) ?_ ?_ hr h
  · intro c i hc hi
    cases i with
    | load t => exact List.mem_append_left _ hc
    | _ => cases hi
  · intro c i hc hi
    rw [gap, hi]
    exact (Fence.loadBarrier hc c.depth).append _

/-- A store from registers is fenced before the first instruction that is not a store has come. -/
theorem fence_after_store (hr : .registerToShared ∈ c.stores) {xs : List Instruction}
    {y : Instruction} (h : ∃ i ∈ xs ++ [y], i.isStore = false) :
    Fence .registerToShared (c.upTo xs y) := by
  refine fence_upTo (P := fun c => .registerToShared ∈ c.stores) ?_ ?_ hr h
  · intro c i hc hi
    cases i with
    | store t => exact List.mem_append_left _ hc
    | _ => cases hi
  · intro c i hc hi
    rw [gap, hi]
    exact (Fence.storeBarrier hc c.depth).prepend _

/-- Inside a run of one kind no barrier is printed. -/
theorem not_syncs_upTo (hkeep : ∀ c i, P c → same i = true → P (c.next i))
    (hquiet : ∀ c i, P c → same i = true → c.gap i = []) (hc : P c)
    {xs : List Instruction} {y : Instruction} (h : ∀ i ∈ xs ++ [y], same i = true) :
    ∀ l ∈ c.upTo xs y, ¬ l.Syncs := by
  induction xs generalizing c with
  | nil =>
    intro l hl
    rw [show c.upTo [] y = c.gap y from rfl, hquiet c y hc (h y (by simp))] at hl
    cases hl
  | cons z xs ih =>
    have hz := h z (by simp)
    intro l hl
    rw [upTo_cons, hquiet c z hc hz, List.nil_append] at hl
    rcases List.mem_cons.1 hl with rfl | hl
    · intro hs
      have hbarrier := hs.isBarrier
      rw [line, isBarrier_statement] at hbarrier
      cases hbarrier
    · exact ih (hkeep c z hc hz) (fun i hi => h i (List.mem_cons_of_mem z hi)) l hl

/-- No barrier stands between the loads of a run: stores before it are done with when it begins. -/
theorem not_syncs_among_loads (hs : c.stores = []) {xs : List Instruction} {y : Instruction}
    (h : ∀ i ∈ xs ++ [y], i.isLoad = true) : ∀ l ∈ c.upTo xs y, ¬ l.Syncs := by
  refine not_syncs_upTo (P := fun c => c.stores = []) ?_ ?_ hs h
  · intro c i _ hi
    cases i with
    | load t => rfl
    | _ => cases hi
  · intro c i hc hi
    cases i with
    | load t => simp [gap, Instruction.isLoad, Instruction.isStore, storeBarrier, hc]
    | _ => cases hi

theorem not_syncs_among_stores (hl : c.loads = []) {xs : List Instruction} {y : Instruction}
    (h : ∀ i ∈ xs ++ [y], i.isStore = true) : ∀ l ∈ c.upTo xs y, ¬ l.Syncs := by
  refine not_syncs_upTo (P := fun c => c.loads = []) ?_ ?_ hl h
  · intro c i _ hi
    cases i with
    | store t => rfl
    | _ => cases hi
  · intro c i hc hi
    cases i with
    | store t => simp [gap, Instruction.isLoad, Instruction.isStore, loadBarrier, hc]
    | _ => cases hi

end Cursor

/-! ## Writes and later reads -/

/-- A copy to a tensor in shared memory and a later copy from it, in a schedule. -/
structure Dependence (code : List Instruction) where
  before : List Instruction
  write : Instruction
  between : List Instruction
  read : Instruction
  after : List Instruction
  written : Transfer
  taken : Transfer
  split : code = before ++ write :: (between ++ read :: after)
  writes : write = .load written ∨ write = .store written
  reads : read = .load taken ∨ read = .store taken
  intoShared : written.route.dest = .shared
  fromShared : taken.route.source = .shared
  sameTensor : taken.source = written.dest

namespace Dependence

variable {code : List Instruction} (d : Dependence code) (options : ListingOptions)

/-- Between the lines of the two instructions there is a fence. -/
def Fenced : Prop :=
  ∃ above first middle second below,
    lines options code = above ++ first :: (middle ++ second :: below) ∧
    Shows above d.before ∧ Shows [first] [d.write] ∧ Shows middle d.between ∧
    Shows [second] [d.read] ∧ Shows below d.after ∧ Fence d.written.route middle

/-- From the write to the read there are only loads, or only stores. -/
def InOneRun : Prop :=
  (∀ i ∈ d.write :: (d.between ++ [d.read]), i.isLoad = true) ∨
    ∀ i ∈ d.write :: (d.between ++ [d.read]), i.isStore = true

/-- Where the printer stands after the write. -/
def cursor : Cursor := (Cursor.start.after d.before).next d.write

variable {d options}

/-- The lines between the two instructions are those that the printer puts there. -/
theorem fenced_iff (hb : options.barriers = true) :
    d.Fenced options ↔ Fence d.written.route (d.cursor.upTo d.between d.read) := by
  have hlines : lines options code = Cursor.start.upTo d.before d.write ++
      (Cursor.start.after d.before).line d.write :: (d.cursor.upTo d.between d.read ++
        (d.cursor.after d.between).line d.read ::
          ((d.cursor.after d.between).next d.read).lines d.after) := by
    have hsplit : lines options code =
        Cursor.start.lines (d.before ++ d.write :: (d.between ++ d.read :: d.after)) := by
      rw [← d.split, lines, if_pos hb]
      rfl
    rw [hsplit, Cursor.lines_split, Cursor.lines_split]
    rfl
  constructor
  · rintro ⟨above, first, middle, second, below, hl, ha, hf, hm, hs, -, hfence⟩
    rw [hlines] at hl
    obtain ⟨-, -, hrest⟩ := Shows.cut_unique (Cursor.shows_upTo _ _ _) ha
      (Cursor.shows_line _ _).not_isBarrier hf.not_isBarrier hl
    obtain ⟨heq, -, -⟩ := Shows.cut_unique (Cursor.shows_upTo _ _ _) hm
      (Cursor.shows_line _ _).not_isBarrier hs.not_isBarrier hrest
    rw [heq]
    exact hfence
  · intro hfence
    exact ⟨_, _, _, _, _, hlines, Cursor.shows_upTo _ _ _, Cursor.shows_line _ _,
      Cursor.shows_upTo _ _ _, Cursor.shows_line _ _, Cursor.shows_lines _ _, hfence⟩

/-- Inside a run nothing is fenced. -/
theorem not_fenced_of_inOneRun (hb : options.barriers = true) (h : d.InOneRun) :
    ¬ d.Fenced options := by
  intro hf
  obtain ⟨l, hl, hs⟩ := ((fenced_iff hb).1 hf).exists_syncs
  refine absurd hs ?_
  rcases h with h | h
  · have hstores : d.cursor.stores = [] := by
      have hw := h d.write (by simp)
      unfold cursor
      cases hd : d.write with
      | load t => rfl
      | _ => rw [hd] at hw; cases hw
    exact Cursor.not_syncs_among_loads hstores (fun i hi => h i (List.mem_cons_of_mem _ hi)) l hl
  · have hloads : d.cursor.loads = [] := by
      have hw := h d.write (by simp)
      unfold cursor
      cases hd : d.write with
      | store t => rfl
      | _ => rw [hd] at hw; cases hw
    exact Cursor.not_syncs_among_stores hloads (fun i hi => h i (List.mem_cons_of_mem _ hi)) l hl

theorem fenced_of_load (hb : options.barriers = true) (hw : d.write = .load d.written)
    (h : ¬ d.InOneRun) : d.Fenced options := by
  have hkept : d.written.route ∈ d.cursor.loads := by
    rw [cursor, hw]
    exact List.mem_append_right _ (List.mem_singleton_self _)
  have hbreak : ∃ i ∈ d.between ++ [d.read], i.isLoad = false := by
    by_contra hnone
    refine h (.inl fun i hi => ?_)
    rcases List.mem_cons.1 hi with rfl | hi
    · rw [hw]
      rfl
    · by_contra hl
      exact hnone ⟨i, hi, Bool.eq_false_iff.2 hl⟩
  exact (fenced_iff hb).2 (Cursor.fence_after_load hkept hbreak)

theorem fenced_of_store (hb : options.barriers = true) (hw : d.write = .store d.written)
    (hr : d.written.route = .registerToShared) (h : ¬ d.InOneRun) : d.Fenced options := by
  have hkept : .registerToShared ∈ d.cursor.stores := by
    rw [cursor, hw, ← hr]
    exact List.mem_append_right _ (List.mem_singleton_self _)
  have hbreak : ∃ i ∈ d.between ++ [d.read], i.isStore = false := by
    by_contra hnone
    refine h (.inr fun i hi => ?_)
    rcases List.mem_cons.1 hi with rfl | hi
    · rw [hw]
      rfl
    · by_contra hl
      exact hnone ⟨i, hi, Bool.eq_false_iff.2 hl⟩
  rw [fenced_iff hb, hr]
  exact Cursor.fence_after_store hkept hbreak

end Dependence

/-- A copy to shared memory that is a load, or a store from registers, is fenced from a later copy
    out of the same tensor exactly when the two do not stand in one run of loads or of stores. -/
theorem fenced_iff_not_inOneRun {options : ListingOptions} (hb : options.barriers = true)
    {code : List Instruction} (d : Dependence code)
    (hw : d.write = .load d.written ∨ d.written.route = .registerToShared) :
    d.Fenced options ↔ ¬ d.InOneRun := by
  refine ⟨fun hf hrun => d.not_fenced_of_inOneRun hb hrun hf, fun hrun => ?_⟩
  rcases d.writes with hload | hstore
  · exact d.fenced_of_load hb hload hrun
  · rcases hw with hload | hroute
    · exact d.fenced_of_load hb hload hrun
    · exact d.fenced_of_store hb hstore hroute hrun

end Listing

/-! ## Pairs that are fenced and pairs that are not -/

namespace Sample

/-- The tile that the outer loop fetches, and its first use in the inner loop. -/
def fetchedThenPicked : Listing.Dependence kernel.code where
  before := [.loopBegin "i" 0 2]
  write := .load fetch.transfer
  between := [.loopBegin "i" 0 2]
  read := .load pick.transfer
  after := [(Operation.convert x y).instruction, (Operation.convert y z).instruction,
    .store gather.transfer, .loopEnd "i", .store flush.transfer, .loopEnd "i"]
  written := fetch.transfer
  taken := pick.transfer
  split := rfl
  writes := .inl rfl
  reads := .inl rfl
  intoShared := rfl
  fromShared := rfl
  sameTensor := rfl

/-- A tile of `a` in registers, as a whole. -/
def held : Tensor := { gathered with tier := .register }

def take : Movement := ⟨staged, held, .bulk, .sharedToRegister, rfl⟩
def giveBack : Movement := ⟨held, staged, .bulk, .registerToShared, rfl⟩
def drain : Movement := ⟨staged, output, along, .sharedToGlobal, rfl⟩

/-- Takes the tile and gives it back, in no loop of its own. -/
def holder : Block where
  loads := [take]
  body := alone ⟨⟨0⟩, held⟩
  stores := [giveBack]
  vars := []

def relayDraft : Draft := (Draft.empty.addNodes [.block ⟨1⟩ holder]).1.connect.1

/-- Each tile of `in` goes to the registers and on to `out`. Both loads open the one loop, and both
    stores close it. -/
def relay : Block where
  loads := [fetch]
  body := { nodes := [.block ⟨1⟩ holder], edges := [], order := [0] }
  stores := [drain]
  vars := [loop]

theorem relay_built : (Program.block relay).Built := by
  show relay.Built
  refine Block.built_of_make (d := relayDraft) (Draft.Reachable.empty.addNodes _).connect rfl
    (fun n hn => ?_) (by decide) rfl
  rw [List.mem_singleton.1 hn]
  exact built_of_alone (b := holder) rfl rfl

/-- The fetched tile and the load that takes it. -/
def fetchedThenTaken : Listing.Dependence (Program.block relay).code where
  before := [.loopBegin "i" 0 2]
  write := .load fetch.transfer
  between := []
  read := .load take.transfer
  after := [.store giveBack.transfer, .store drain.transfer, .loopEnd "i"]
  written := fetch.transfer
  taken := take.transfer
  split := rfl
  writes := .inl rfl
  reads := .inl rfl
  intoShared := rfl
  fromShared := rfl
  sameTensor := rfl

/-- The tile that was given back and the store that drains it. -/
def givenBackThenDrained : Listing.Dependence (Program.block relay).code where
  before := [.loopBegin "i" 0 2, .load fetch.transfer, .load take.transfer]
  write := .store giveBack.transfer
  between := []
  read := .store drain.transfer
  after := [.loopEnd "i"]
  written := giveBack.transfer
  taken := drain.transfer
  split := rfl
  writes := .inr rfl
  reads := .inr rfl
  intoShared := rfl
  fromShared := rfl
  sameTensor := rfl

def handoverDraft : Draft :=
  ((Draft.empty.addNodes [.block ⟨2⟩ source, .block ⟨3⟩ sink]).1.addEdges
    [⟨.block ⟨2⟩ source, .block ⟨3⟩ sink⟩]).1.connect.1

def handover : Graph where
  nodes := [.block ⟨2⟩ source, .block ⟨3⟩ sink]
  edges := [⟨⟨2⟩, ⟨3⟩⟩]
  order := [0, 1]

theorem handover_built : (Program.graph handover).Built := by
  show handover.Built
  rw [Graph.built_iff]
  refine ⟨⟨handoverDraft, ((Draft.Reachable.empty.addNodes _).addEdges _).connect, rfl⟩, ?_,
    by decide⟩
  intro n hn
  rcases List.mem_cons.1 hn with rfl | hn
  · exact source_built
  · rw [List.mem_singleton.1 hn]
    exact sink_built

/-- The tile that the first block stores and the second one loads. -/
def handedOver : Listing.Dependence (Program.graph handover).code where
  before := [.loopBegin "i" 0 2]
  write := .store fetch.transfer
  between := [.loopEnd "i", .loopBegin "i" 0 2]
  read := .load pick.transfer
  after := [.loopEnd "i"]
  written := fetch.transfer
  taken := pick.transfer
  split := rfl
  writes := .inr rfl
  reads := .inl rfl
  intoShared := rfl
  fromShared := rfl
  sameTensor := rfl

end Sample

namespace Listing

theorem fenced_iff_not_inOneRun_kernel :
    Sample.kernel.Built ∧ ¬ Sample.fetchedThenPicked.InOneRun ∧
      Sample.fetchedThenPicked.Fenced {} := by
  have hapart : ¬ Sample.fetchedThenPicked.InOneRun := by
    unfold Dependence.InOneRun
    decide
  exact ⟨Sample.kernel_built, hapart,
    (fenced_iff_not_inOneRun rfl Sample.fetchedThenPicked (.inl rfl)).2 hapart⟩

/-- Not every write is fenced from a later read: neither in a run of loads, nor in a run of stores,
    nor after a store from global memory. -/
theorem unfenced_writes :
    (Program.block Sample.relay).Built ∧ ¬ Sample.fetchedThenTaken.Fenced {} ∧
      ¬ Sample.givenBackThenDrained.Fenced {} ∧
      (Program.graph Sample.handover).Built ∧ ¬ Sample.handedOver.Fenced {} := by
  have hloads : Sample.fetchedThenTaken.InOneRun := by
    unfold Dependence.InOneRun
    decide
  have hstores : Sample.givenBackThenDrained.InOneRun := by
    unfold Dependence.InOneRun
    decide
  have hquiet : ∀ l ∈ Sample.handedOver.cursor.upTo Sample.handedOver.between
      Sample.handedOver.read, ¬ l.Syncs := by
    unfold Line.Syncs
    decide +kernel
  refine ⟨Sample.relay_built, Dependence.not_fenced_of_inOneRun rfl hloads,
    Dependence.not_fenced_of_inOneRun rfl hstores, Sample.handover_built, fun hf => ?_⟩
  obtain ⟨l, hl, hs⟩ := ((Dependence.fenced_iff rfl).1 hf).exists_syncs
  exact hquiet l hl hs

end Listing

end TileNest
