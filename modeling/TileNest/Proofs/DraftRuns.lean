import TileNest.Proofs.Connection

/-
  Runs of changes to drafts. A run starts from the empty draft; each step changes one of the drafts
  so far, with whatever success, or copies one of them. `run_sound` says what holds of every draft
  at every point of every run, and what exactly a change leaves behind. A change that succeeds
  appends its nodes or links and drops the order, or stores one; one that fails changes nothing at
  all if it is a single addition, makes the additions before the one that failed if it is a batch,
  and keeps nodes and links without an order if it is a connection.
-/

namespace TileNest.Draft

/-! ## Runs -/

/-- A step of a run: a change to the draft of a number, or a copy of it. -/
inductive Step where
  | change (number : Nat) (change : Change)
  | clone (number : Nat)

/-- The drafts after a step, with the fault if it failed. A copy gets the next number. -/
def Step.apply (drafts : List Draft) : Step → List Draft × Option Fault
  | .change number c =>
    match drafts[number]? with
    | some d => (drafts.set number (d.change c).1, (d.change c).2)
    | none => (drafts, none)
  | .clone number => (drafts ++ drafts[number]?.toList, none)

/-- The drafts after a run that starts from the empty one. -/
def run (steps : List Step) : List Draft :=
  steps.foldl (fun drafts step => (step.apply drafts).1) [empty]

/-! ## What a change leaves -/

/-- What a change to `d` leaves when it succeeds. -/
def LeavesOnSuccess (d left : Draft) : Change → Prop
  | .addNode n => left.nodes = d.nodes ++ [n] ∧ left.links = d.links ∧ left.order = none
  | .addNodes ns => left.nodes = d.nodes ++ ns ∧ left.links = d.links ∧
      left.order = if ns.isEmpty then d.order else none
  | .addEdge l => left.links = d.links ++ [l] ∧ left.nodes = d.nodes ∧ left.order = none
  | .addEdges ls => left.links = d.links ++ ls ∧ left.nodes = d.nodes ∧
      left.order = if ls.isEmpty then d.order else none
  | .connect => left.nodes = d.nodes ∧ left.links = d.links ∧ left.isConnected = true

/-- What a change to `d` leaves when it fails. -/
def LeavesOnFailure (d left : Draft) (fault : Fault) : Change → Prop
  | .addNode _ => left = d
  | .addNodes ns => ∃ before n after, ns = before ++ n :: after ∧
      d.addNodes before = (left, none) ∧ left.addNode n = (left, some fault)
  | .addEdge _ => left = d
  | .addEdges ls => ∃ before l after, ls = before ++ l :: after ∧
      d.addEdges before = (left, none) ∧ left.addEdge l = (left, some fault)
  | .connect => left = { d with order := none } ∧
      ∀ source target missing, fault ≠ .danglingEdge source target missing

/-- What a change to `d` leaves, with the fault if it failed. -/
def Leaves (d left : Draft) (c : Change) : Option Fault → Prop
  | none => LeavesOnSuccess d left c
  | some fault => LeavesOnFailure d left fault c

theorem addNode_failed {d left : Draft} {n : Node} {fault : Fault}
    (h : d.addNode n = (left, some fault)) : left = d := by
  obtain hd | ⟨-, -, hd⟩ := d.addNode_cases n
  · rw [hd] at h
    cases h
    rfl
  · rw [hd] at h
    cases h

theorem addEdge_failed {d left : Draft} {l : Link} {fault : Fault}
    (h : d.addEdge l = (left, some fault)) : left = d := by
  obtain ⟨_, hd⟩ | ⟨-, -, hd⟩ := d.addEdge_cases l
  · rw [hd] at h
    cases h
    rfl
  · rw [hd] at h
    cases h

theorem addNode_succeeded {d left : Draft} {n : Node} (h : d.addNode n = (left, none)) :
    LeavesOnSuccess d left (.addNode n) := by
  obtain hd | ⟨-, -, hd⟩ := d.addNode_cases n
  · rw [hd] at h
    cases h
  · rw [hd] at h
    cases h
    exact ⟨rfl, rfl, rfl⟩

theorem addEdge_succeeded {d left : Draft} {l : Link} (h : d.addEdge l = (left, none)) :
    LeavesOnSuccess d left (.addEdge l) := by
  obtain ⟨_, hd⟩ | ⟨-, -, hd⟩ := d.addEdge_cases l
  · rw [hd] at h
    cases h
  · rw [hd] at h
    cases h
    exact ⟨rfl, rfl, rfl⟩

section Batch

variable {α : Type} {add : Draft → α → Draft × Option Fault}
  {addAll : Draft → List α → Draft × Option Fault} (hb : Batch add addAll)

include hb

/-- A batch that fails has added the entries before the one that failed, and that one fails. -/
theorem Batch.failed (hadd : ∀ {d left x fault}, add d x = (left, some fault) → left = d)
    {d left : Draft} {xs : List α} {fault : Fault} (h : addAll d xs = (left, some fault)) :
    ∃ before x after, xs = before ++ x :: after ∧ addAll d before = (left, none) ∧
      add left x = (left, some fault) := by
  induction xs generalizing d with
  | nil =>
    rw [hb.nil] at h
    cases h
  | cons x xs ih =>
    rw [hb.cons] at h
    split at h
    · next d' ha =>
      obtain ⟨before, y, after, rfl, hbefore, hy⟩ := ih h
      refine ⟨x :: before, y, after, rfl, ?_, hy⟩
      rw [hb.cons, ha]
      exact hbefore
    · next d' fault' ha =>
      cases h
      have hsame := hadd ha
      rw [hsame] at ha ⊢
      exact ⟨[], x, xs, rfl, hb.nil d, ha⟩

/-- A batch that succeeds appends all entries, where each addition appends its own. -/
theorem Batch.succeeded {β γ : Type} {grown : Draft → List α} {kept : Draft → β}
    {stored : Draft → Option γ}
    (hadd : ∀ {d left x}, add d x = (left, none) →
      grown left = grown d ++ [x] ∧ kept left = kept d ∧ stored left = none)
    {d left : Draft} {xs : List α} (h : addAll d xs = (left, none)) :
    grown left = grown d ++ xs ∧ kept left = kept d ∧
      stored left = if xs.isEmpty then stored d else none := by
  induction xs generalizing d with
  | nil =>
    rw [hb.nil] at h
    cases h
    exact ⟨(List.append_nil _).symm, rfl, rfl⟩
  | cons x xs ih =>
    rw [hb.cons] at h
    split at h
    · next d' ha =>
      obtain ⟨hgrown, hkept, hstored⟩ := hadd ha
      obtain ⟨hall, hsame, hlast⟩ := ih h
      refine ⟨?_, hsame.trans hkept, ?_⟩
      · rw [hall, hgrown, List.append_assoc, List.singleton_append]
      · rw [hlast, hstored, ite_self]
        rfl
    · cases h

end Batch

/-- The faults of a connection: tiers, operands and cycles, never the end of a link. -/
theorem WellFormed.findOrder_ne_dangling {d : Draft} (h : d.WellFormed) {fault : Fault}
    (hf : d.findOrder = .error fault) (source target missing : String) :
    fault ≠ .danglingEdge source target missing := by
  rintro rfl
  cases hc : d.links.findSome? Link.tierClash? with
  | some clash => simp [findOrder, hc] at hf
  | none =>
    cases hu : d.unlinked? with
    | some unlinked => simp [findOrder, hc, hu] at hf
    | none =>
      rw [h.findOrder_of_checked hc hu] at hf
      split at hf
      · cases hf
      · cases hf

theorem WellFormed.leaves_of_connect {d left : Draft} (hd : d.WellFormed) {outcome : Option Fault}
    (h : d.connect = (left, outcome)) : Leaves d left .connect outcome := by
  obtain ⟨order, -, hc⟩ | ⟨fault, hf, hc⟩ := d.connect_cases
  · rw [hc] at h
    cases h
    exact ⟨rfl, rfl, rfl⟩
  · rw [hc] at h
    cases h
    exact ⟨rfl, hd.findOrder_ne_dangling hf⟩

theorem WellFormed.leaves_of_change {d left : Draft} (hd : d.WellFormed) {c : Change}
    {outcome : Option Fault} (h : d.change c = (left, outcome)) : Leaves d left c outcome := by
  cases c with
  | connect => exact hd.leaves_of_connect h
  | addNode n =>
    cases outcome with
    | none => exact addNode_succeeded h
    | some fault => exact addNode_failed h
  | addEdge l =>
    cases outcome with
    | none => exact addEdge_succeeded h
    | some fault => exact addEdge_failed h
  | addNodes ns =>
    cases outcome with
    | none => exact addNodes_batch.succeeded addNode_succeeded h
    | some fault => exact addNodes_batch.failed addNode_failed h
  | addEdges ls =>
    cases outcome with
    | none => exact addEdges_batch.succeeded addEdge_succeeded h
    | some fault => exact addEdges_batch.failed addEdge_failed h

/-! ## What holds throughout a run -/

theorem Reachable.change {d : Draft} (h : d.Reachable) (c : Change) : (d.change c).1.Reachable := by
  cases c with
  | addNode n => exact h.addNode n
  | addNodes ns => exact h.addNodes ns
  | addEdge l => exact h.addEdge l
  | addEdges ls => exact h.addEdges ls
  | connect => exact h.connect

theorem Step.reachable {drafts : List Draft} (h : ∀ d ∈ drafts, d.Reachable) (step : Step) :
    ∀ d ∈ (step.apply drafts).1, d.Reachable := by
  intro d hd
  cases step with
  | change number c =>
    rw [Step.apply] at hd
    split at hd
    · next old ho =>
      rcases List.mem_or_eq_of_mem_set hd with hd | rfl
      · exact h d hd
      · exact (h old (List.mem_of_getElem? ho)).change c
    · exact h d hd
  | clone number =>
    rw [Step.apply] at hd
    rcases List.mem_append.1 hd with hd | hd
    · exact h d hd
    · exact h d (List.mem_of_getElem? (Option.mem_toList.1 hd))

/-- What a run leads to is reachable, from any drafts that are. -/
theorem reachable_foldl (steps : List Step) {drafts : List Draft} (h : ∀ d ∈ drafts, d.Reachable) :
    ∀ d ∈ steps.foldl (fun drafts step => (step.apply drafts).1) drafts, d.Reachable := by
  induction steps generalizing drafts with
  | nil => exact h
  | cons step steps ih => exact ih (step.reachable h)

theorem run_reachable (steps : List Step) : ∀ d ∈ run steps, d.Reachable := by
  have hempty : ∀ d ∈ [empty], d.Reachable := by
    intro d hd
    rw [List.mem_singleton] at hd
    exact hd ▸ .empty
  exact reachable_foldl steps hempty

/-- What holds of a draft, whatever led to it. -/
structure Sound (d : Draft) : Prop extends WellFormed d where
  distinct : (d.nodes.map Node.id).Nodup
  found : ∀ l ∈ d.links, ∃ i j, d.position l.source = .ok i ∧ d.position l.target = .ok j
  connected : ∀ order, d.order = some order →
    Order.Topological d.Joins d.nodes.length order ∧ d.OperandsLinked ∧ d.OneTier

theorem Reachable.sound {d : Draft} (r : d.Reachable) : d.Sound := by
  have hd := r.wellFormed
  refine ⟨hd, hd.ids, fun l hl => ?_, fun order ho => ?_⟩
  · obtain ⟨hs, ht⟩ := hd.ends l hl
    obtain ⟨i, hi⟩ := hd.index.mem_iff.1 hs
    obtain ⟨j, hj⟩ := hd.index.mem_iff.1 ht
    exact ⟨i, j, position_eq_ok_iff.2 hi, position_eq_ok_iff.2 hj⟩
  · have hf := r.findOrder_eq ho
    obtain ⟨hc, hu, -⟩ := (findOrder_eq_ok_iff r).1 hf
    exact ⟨(findOrder_least r hf).1, hu, hc⟩

/-- Every draft of every run is sound, and a step changes its own draft alone, to what the change
    leaves. -/
theorem run_sound (steps : List Step) :
    (∀ d ∈ run steps, d.Sound) ∧
    ∀ number c d, (run steps)[number]? = some d → ∃ left outcome,
      (Step.change number c).apply (run steps) = ((run steps).set number left, outcome) ∧
        Leaves d left c outcome := by
  refine ⟨fun d hd => (run_reachable steps d hd).sound, fun number c d hd => ?_⟩
  have hw := (run_reachable steps d (List.mem_of_getElem? hd)).wellFormed
  refine ⟨(d.change c).1, (d.change c).2, ?_, hw.leaves_of_change rfl⟩
  rw [Step.apply, hd]

end TileNest.Draft
