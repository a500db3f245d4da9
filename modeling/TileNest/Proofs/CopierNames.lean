import Mathlib.Data.List.Nodup
import TileNest.Kernel.Listing
import TileNest.Proofs.WalkedCode

/-
  Names of copiers. A copier is named by its route and its two ends with underscores between them,
  and an end may have underscores of its own. So two copiers of one route share a name exactly where
  their ends give one text with the underscore between them read at another place (`Copier.Blurs`).

  Main result: `Program.copiers_told_apart_iff`. The instances of a program have different names,
  their types have different names, and each call names one declaration, which is the one of its own
  copier: each of the three holds exactly where no two copiers of the program blur. That can fail:
  `Program.copiers_blurred` is a block with two copiers of one name. Where no source has an
  underscore it cannot (`Program.toldApart_of_sources`).
-/

namespace TileNest

/-! ## Two ends and an underscore -/

namespace Copier

/-- A list is cut at an entry in two ways, the second time no earlier than the first: the cuts are
    one, or both entries stand in the list, with `ws` between them. -/
theorem eq_or_exists_of_shift {α : Type} {e : α} {xs ys zs us vs : List α} (hu : us = xs ++ zs)
    (hz : e :: ys = zs ++ e :: vs) :
    (xs = us ∧ ys = vs) ∨ ∃ ws, us = xs ++ e :: ws ∧ ys = ws ++ e :: vs := by
  cases zs with
  | nil =>
    obtain ⟨-, hv⟩ := List.cons.inj hz
    exact .inl ⟨by rw [hu, List.append_nil], hv⟩
  | cons z ws =>
    obtain ⟨rfl, hy⟩ := List.cons.inj hz
    exact .inr ⟨ws, hu, hy⟩

theorem toList_joined (s d : String) : (s ++ "_" ++ d).toList = s.toList ++ '_' :: d.toList := by
  rw [String.toList_append, String.toList_append, List.append_assoc]
  rfl

/-- The text of the first pair of ends is the text of the second, whose source goes on with what
    the first destination begins with. -/
def Shifts (s d u v : String) : Prop := ∃ w, u = s ++ "_" ++ w ∧ d = w ++ "_" ++ v

theorem Shifts.of_toList {s d u v : String}
    (h : ∃ ws, u.toList = s.toList ++ '_' :: ws ∧ d.toList = ws ++ '_' :: v.toList) :
    Shifts s d u v := by
  obtain ⟨ws, hu, hd⟩ := h
  refine ⟨String.ofList ws, String.toList_inj.1 ?_, String.toList_inj.1 ?_⟩
  · rw [toList_joined, String.toList_ofList, hu]
  · rw [toList_joined, String.toList_ofList, hd]

theorem Shifts.joined_eq {s d u v : String} (h : Shifts s d u v) :
    s ++ "_" ++ d = u ++ "_" ++ v := by
  obtain ⟨w, rfl, rfl⟩ := h
  simp only [String.append_assoc]

/-- One text from two pairs of ends: the underscore is read at one place or at two. -/
theorem joined_eq_iff {s d u v : String} :
    s ++ "_" ++ d = u ++ "_" ++ v ↔ (s = u ∧ d = v) ∨ Shifts s d u v ∨ Shifts u v s d := by
  constructor
  · intro h
    rw [← String.toList_inj, toList_joined, toList_joined, List.append_eq_append_iff] at h
    rcases h with ⟨zs, hu, hz⟩ | ⟨zs, hs, hz⟩
    · rcases eq_or_exists_of_shift hu hz with ⟨hs, hd⟩ | h
      · exact .inl ⟨String.toList_inj.1 hs, String.toList_inj.1 hd⟩
      · exact .inr (.inl (.of_toList h))
    · rcases eq_or_exists_of_shift hs hz with ⟨hu, hv⟩ | h
      · exact .inl ⟨String.toList_inj.1 hu.symm, String.toList_inj.1 hv.symm⟩
      · exact .inr (.inr (.of_toList h))
  · rintro (⟨rfl, rfl⟩ | h | h)
    · rfl
    · exact h.joined_eq
    · exact h.joined_eq.symm

/-! ## Names -/

/-- The tag that a text opens with can be read off it. -/
def Marks (tag : Route → String) : Prop :=
  ∀ r q s u, tag r ++ s = tag q ++ u → r = q ∧ s = u

/-- Tags of one length can be read off. -/
theorem marks_of_length {tag : Route → String} {n : Nat} (hn : ∀ r, (tag r).toList.length = n)
    (hinj : ∀ r q, tag r = tag q → r = q) : Marks tag := by
  intro r q s u h
  rw [← String.toList_inj, String.toList_append, String.toList_append] at h
  obtain ⟨htag, hrest⟩ := List.append_inj h ((hn r).trans (hn q).symm)
  exact ⟨hinj r q (String.toList_inj.1 htag), String.toList_inj.1 hrest⟩

/-- What a copier's type is named by in front of the ends. -/
def typeTag (r : Route) : String := r.capitals ++ if r.inward then "Loader" else "Storer"

theorem marks_text : Marks Route.text :=
  marks_of_length (n := 3) (fun r => by cases r <;> decide +kernel)
    (fun r q => by cases r <;> cases q <;> decide +kernel)

theorem marks_typeTag : Marks typeTag :=
  marks_of_length (n := 9) (fun r => by cases r <;> decide +kernel)
    (fun r q => by cases r <;> cases q <;> decide +kernel)

/-- The tag of the route and the two ends, with underscores between them. -/
def spelled (tag : Route → String) (c : Copier) : String :=
  tag c.route ++ "_" ++ c.source ++ "_" ++ c.dest

theorem instanceName_eq_spelled : instanceName = spelled Route.text := rfl

theorem typeName_eq_spelled : typeName = spelled typeTag := rfl

/-- The copiers have one route, and one text of their ends. -/
def Blurs (c k : Copier) : Prop := c.route = k.route ∧ Shifts c.source c.dest k.source k.dest

theorem spelled_eq_iff {tag : Route → String} (ht : Marks tag) {c k : Copier} :
    c.spelled tag = k.spelled tag ↔ c = k ∨ c.Blurs k ∨ k.Blurs c := by
  have hsplit : ∀ c : Copier, c.spelled tag = tag c.route ++ ("_" ++ (c.source ++ "_" ++ c.dest)) :=
    fun c => by simp only [spelled, String.append_assoc]
  rw [hsplit, hsplit]
  constructor
  · intro h
    obtain ⟨hr, hends⟩ := ht _ _ _ _ h
    rcases joined_eq_iff.1 ((String.append_right_inj _).1 hends) with ⟨hs, hd⟩ | hb | hb
    · cases c
      cases k
      cases hr
      cases hs
      cases hd
      exact .inl rfl
    · exact .inr (.inl ⟨hr, hb⟩)
    · exact .inr (.inr ⟨hr.symm, hb⟩)
  · rintro (rfl | ⟨hr, hb⟩ | ⟨hr, hb⟩)
    · rfl
    · rw [hr, hb.joined_eq]
    · rw [hr, hb.joined_eq]

/-- Copiers that blur are two: the second one's source is longer. -/
theorem Blurs.ne {c k : Copier} (h : c.Blurs k) : c ≠ k := by
  rintro rfl
  obtain ⟨-, w, hs, -⟩ := h
  have hlen := congrArg String.length hs
  rw [String.length_append, String.length_append, show "_".length = 1 from rfl] at hlen
  omega

theorem Blurs.mem_source {c k : Copier} (h : c.Blurs k) : '_' ∈ k.source.toList := by
  obtain ⟨-, w, hs, -⟩ := h
  rw [hs, toList_joined]
  simp

end Copier

/-! ## Calls and declarations -/

/-- What follows the name in the call of a transfer. -/
def Listing.arguments (t : Transfer) : String :=
  "(" ++ t.source ++ ", " ++ t.dest ++ ", \x7b" ++ Text.commas (t.index.axes.map Affine.text)
    ++ "\x7d);"

theorem Listing.call_eq_append_iff {t : Transfer} {name : String} :
    call t = name ++ arguments t ↔ name = (Copier.ofTransfer t).instanceName := by
  have hcall : call t = (Copier.ofTransfer t).instanceName ++ arguments t := by
    simp only [call, arguments, Copier.instanceName, Copier.ofTransfer, String.append_assoc]
  rw [hcall, String.append_left_inj, eq_comm]

/-- The copiers that are declared under a name. -/
def Declaration.declaring (copiers : List Copier) (name : String) : List Copier :=
  copiers.filter (·.instanceName == name)

theorem Declaration.declaring_eq_singleton_iff {copiers : List Copier} (hn : copiers.Nodup)
    {c : Copier} (hc : c ∈ copiers) : declaring copiers c.instanceName = [c] ↔
      ∀ k ∈ copiers, k.instanceName = c.instanceName → k = c := by
  have hmem : ∀ k, k ∈ declaring copiers c.instanceName ↔
      k ∈ copiers ∧ k.instanceName = c.instanceName :=
    fun k => by rw [declaring, List.mem_filter, beq_iff_eq]
  constructor
  · intro h k hk he
    have := (hmem k).2 ⟨hk, he⟩
    rwa [h, List.mem_singleton] at this
  · intro h
    refine List.perm_singleton.1 ((List.perm_ext_iff_of_nodup (hn.filter _)
      (List.nodup_singleton c)).2 fun k => ?_)
    rw [List.mem_singleton]
    constructor
    · intro hk
      obtain ⟨hk, he⟩ := (hmem k).1 hk
      exact h k hk he
    · rintro rfl
      exact (hmem k).2 ⟨hc, rfl⟩

namespace Program

variable {p : Program}

/-- No two copiers of the program blur. -/
def ToldApart (p : Program) : Prop := ∀ c ∈ p.copiers, ∀ k ∈ p.copiers, ¬ c.Blurs k

/-- The call of the transfer names one declaration, the one of its own copier. -/
def Declares (p : Program) (t : Transfer) : Prop :=
  ∃ name, Listing.call t = name ++ Listing.arguments t ∧
    Declaration.declaring p.copiers name = [.ofTransfer t]

theorem nodup_copiers (p : Program) : p.copiers.Nodup := Lists.nodup_eraseDups _

theorem toldApart_iff {tag : Route → String} (ht : Copier.Marks tag) : p.ToldApart ↔
    ∀ c ∈ p.copiers, ∀ k ∈ p.copiers, c.spelled tag = k.spelled tag → c = k := by
  constructor
  · intro h c hc k hk he
    rcases (Copier.spelled_eq_iff ht).1 he with he | hb | hb
    · exact he
    · exact absurd hb (h c hc k hk)
    · exact absurd hb (h k hk c hc)
  · intro h c hc k hk hb
    exact hb.ne (h c hc k hk ((Copier.spelled_eq_iff ht).2 (.inr (.inl hb))))

theorem nodup_spelled_iff {tag : Route → String} (ht : Copier.Marks tag) :
    (p.copiers.map (Copier.spelled tag)).Nodup ↔ p.ToldApart := by
  rw [List.nodup_map_iff_inj_on p.nodup_copiers, toldApart_iff ht]

theorem declares_iff (h : p.Built) {t : Transfer} (ht : .load t ∈ p.code ∨ .store t ∈ p.code) :
    p.Declares t ↔ ∀ k ∈ p.copiers,
      k.instanceName = (Copier.ofTransfer t).instanceName → k = .ofTransfer t := by
  have hc : Copier.ofTransfer t ∈ p.copiers := (mem_copiers_iff h).2 ⟨t, ht, rfl⟩
  rw [← Declaration.declaring_eq_singleton_iff p.nodup_copiers hc]
  simp only [Declares, Listing.call_eq_append_iff, exists_eq_left]

theorem toldApart_of_sources (h : ∀ c ∈ p.copiers, '_' ∉ c.source.toList) : p.ToldApart :=
  fun _ _ k hk hb => h k hk hb.mem_source

/-- Names of instances, names of types and calls are unambiguous where no two copiers blur, and
    only there. -/
theorem copiers_told_apart_iff (h : p.Built) :
    ((p.copiers.map Copier.instanceName).Nodup ↔ p.ToldApart) ∧
    ((p.copiers.map Copier.typeName).Nodup ↔ p.ToldApart) ∧
    ((∀ t, (.load t ∈ p.code ∨ .store t ∈ p.code) → p.Declares t) ↔ p.ToldApart) := by
  rw [Copier.instanceName_eq_spelled, Copier.typeName_eq_spelled]
  refine ⟨nodup_spelled_iff Copier.marks_text, nodup_spelled_iff Copier.marks_typeTag, ?_⟩
  rw [toldApart_iff Copier.marks_text, ← Copier.instanceName_eq_spelled]
  constructor
  · intro hall c hc k hk he
    obtain ⟨t, ht, rfl⟩ := (mem_copiers_iff h).1 hk
    exact (declares_iff h ht).1 (hall t ht) c hc he
  · intro hinj t ht
    have hc : Copier.ofTransfer t ∈ p.copiers := (mem_copiers_iff h).2 ⟨t, ht, rfl⟩
    exact (declares_iff h ht).2 fun k hk he => hinj k hk _ hc he

end Program

namespace Sample

theorem kernel_toldApart : kernel.ToldApart :=
  Program.toldApart_of_sources (by decide +kernel)

end Sample

/-- In the kernel no source has an underscore, so each call names its own copier. -/
theorem Program.copiers_told_apart_iff_kernel :
    Sample.kernel.Built ∧ (Sample.kernel.copiers.map Copier.instanceName).Nodup ∧
    (Sample.kernel.copiers.map Copier.typeName).Nodup ∧
    Sample.kernel.Declares Sample.fetch.transfer := by
  obtain ⟨hinst, htype, hcall⟩ := copiers_told_apart_iff Sample.kernel_built
  refine ⟨Sample.kernel_built, hinst.2 Sample.kernel_toldApart, htype.2 Sample.kernel_toldApart,
    hcall.2 Sample.kernel_toldApart _ (.inl ?_)⟩
  decide +kernel

namespace Sample

/-! Two transfers whose ends are `a_b`, `c` and `a`, `b_c`. -/

def longSource : Tensor := { staged with name := "a_b", tier := .global, name_ne := by decide }
def shortDest : Tensor := { staged with name := "c", name_ne := by decide }
def shortSource : Tensor := { staged with tier := .global }
def longDest : Tensor := { staged with name := "b_c", name_ne := by decide }

def blurredDraft : Draft :=
  (Draft.empty.addNodes [.tensor ⟨⟨0⟩, shortDest⟩, .tensor ⟨⟨1⟩, longDest⟩]).1.connect.1

def blurredBlock : Block where
  loads := [⟨longSource, shortDest, .bulk, .globalToShared, rfl⟩,
    ⟨shortSource, longDest, .bulk, .globalToShared, rfl⟩]
  body :=
    { nodes := [.tensor ⟨⟨0⟩, shortDest⟩, .tensor ⟨⟨1⟩, longDest⟩]
      edges := []
      order := [0, 1] }
  stores := []
  vars := []

def blurred : Program := .block blurredBlock

theorem blurred_built : blurred.Built := by
  refine Block.built_of_make (b := blurredBlock) (d := blurredDraft)
    (Draft.Reachable.empty.addNodes _).connect rfl (fun n hn => ?_) (by decide) rfl
  simp only [blurredBlock, List.mem_cons, List.not_mem_nil, or_false] at hn
  rcases hn with rfl | rfl
  · trivial
  · trivial

end Sample

/-- Two copiers with one name for their instances and one for their types. Both are declared under
    the name that either of the calls has. -/
theorem Program.copiers_blurred :
    Sample.blurred.Built ∧
    Sample.blurred.copiers = [⟨.globalToShared, "a_b", "c"⟩, ⟨.globalToShared, "a", "b_c"⟩] ∧
    Sample.blurred.copiers.map Copier.instanceName = ["g2s_a_b_c", "g2s_a_b_c"] ∧
    Sample.blurred.copiers.map Copier.typeName = ["G2SLoader_a_b_c", "G2SLoader_a_b_c"] ∧
    Declaration.declaring Sample.blurred.copiers "g2s_a_b_c" = Sample.blurred.copiers :=
  ⟨Sample.blurred_built, by decide +kernel, by decide +kernel, by decide +kernel, by decide +kernel⟩

end TileNest
