import TileNest.Codec.Schedule
import TileNest.Proofs.Lists
import TileNest.Proofs.PrintedValues

/-
  Schedules that come back from their printed text. Main result: `Instruction.listText_reads_back`,
  for all names, bounds, weights and indices.

  Two facts meet there. What an instruction is written as is `Legible`, six lists and objects deep
  at most, so the text gives the data value back. And every decoder undoes its encoder: a record is
  looked up by the names of its fields, which are all different, the tag included
  (`Json.record?_tagged`).
-/

namespace TileNest

/-! ## Records and lists -/

namespace Json

theorem string?_str (s : String) : (str s).string? = some s := rfl

theorem int64?_ofInt64 (n : Int64) : (ofInt64 n).int64? = some n := Checked.ofInt?_toInt n

theorem list?_map {α : Type} {encode : α → Json} {decode : Json → Option α}
    (h : ∀ x, decode (encode x) = some x) (xs : List α) :
    (arr (xs.map encode)).list? decode = some xs := by
  rw [list?]
  induction xs with
  | nil => rfl
  | cons x xs ih =>
    rw [List.map_cons, List.mapM_cons, h, ih]
    rfl

/-- Fields are found by their names, where these are all different. -/
theorem record?_obj {fields pairs : List (String × Json)} (hn : (fields.map Prod.fst).Nodup)
    (h : pairs ⊆ fields) :
    (obj fields).record? (pairs.map Prod.fst) = some (pairs.map Prod.snd) := by
  rw [record?, partialRecord?, Option.bind_some]
  induction pairs with
  | nil => rfl
  | cons pair pairs ih =>
    obtain ⟨hpair, hpairs⟩ := List.cons_subset.1 h
    have hfound : fields.lookup pair.1 = some pair.2 := Lists.lookup_of_mem hn hpair
    rw [List.map_cons, List.map_cons, List.mapM_cons, hfound, ih hpairs]
    rfl

theorem tagged?_tagged (tag : String) (fields : List (String × Json)) :
    (tagged tag fields).tagged? = some (tag, tagged tag fields) := by
  simp only [tagged, tagged?, List.lookup_cons_self]

section

variable {fields : List (String × Json)} (hn : ("type" :: fields.map Prod.fst).Nodup) (tag : String)

include hn

/-- The tag does not stand in the way of the other fields. -/
theorem record?_tagged :
    (tagged tag fields).record? (fields.map Prod.fst) = some (fields.map Prod.snd) :=
  record?_obj hn (List.subset_cons_self _ _)

theorem legible_tagged {levels : Nat} (h : ∀ field ∈ fields, Legible levels field.2) :
    Legible (levels + 1) (tagged tag fields) :=
  .obj hn (List.forall_mem_cons.2 ⟨.str tag, h⟩)

end

theorem legible_ofInt64 {levels : Nat} (n : Int64) : Legible levels (ofInt64 n) := by
  obtain ⟨hlow, hhigh⟩ := Checked.toInt_mem_range n
  rw [Int64.toInt_minValue] at hlow
  rw [Int64.toInt_maxValue] at hhigh
  refine .int ?_
  rw [Checked.sizeLimit]
  omega

theorem legible_map {α : Type} {encode : α → Json} {levels : Nat}
    (h : ∀ x, Legible levels (encode x)) (xs : List α) :
    Legible (levels + 1) (arr (xs.map encode)) :=
  .arr (List.forall_mem_map.2 fun x _ => h x)

end Json

open Json (Legible)

/-! ## Indices -/

namespace Affine

theorem termOfJson?_termToJson (term : String × Int64) :
    termOfJson? (termToJson term) = some term := by
  simp [termToJson, termOfJson?, Json.string?_str, Json.int64?_ofInt64]

theorem legible_termToJson {levels : Nat} (term : String × Int64) :
    Legible (levels + 1) (termToJson term) := by
  refine .arr ?_
  simp only [List.forall_mem_cons]
  exact ⟨.str _, Json.legible_ofInt64 _, List.forall_mem_nil _⟩

theorem ofJson?_toJson (e : Affine) : ofJson? e.toJson = some e := by
  have hrecord : e.toJson.record? ["terms", "constant"] =
      some [.arr (e.terms.map termToJson), .ofInt64 e.constant] :=
    Json.record?_obj (by simp) (List.Subset.refl _)
  rw [ofJson?, hrecord]
  simp [Json.list?_map termOfJson?_termToJson, Json.int64?_ofInt64]

theorem legible_toJson {levels : Nat} (e : Affine) : Legible (levels + 3) e.toJson := by
  refine .obj (by simp) ?_
  simp only [List.forall_mem_cons]
  exact ⟨Json.legible_map legible_termToJson e.terms, Json.legible_ofInt64 _, List.forall_mem_nil _⟩

end Affine

namespace TileIndex

theorem ofJson?_toJson (index : TileIndex) : ofJson? index.toJson = some index := by
  rw [ofJson?, toJson, Json.list?_map Affine.ofJson?_toJson]
  rfl

theorem legible_toJson {levels : Nat} (index : TileIndex) : Legible (levels + 4) index.toJson :=
  Json.legible_map Affine.legible_toJson index.axes

end TileIndex

/-! ## Instructions -/

theorem Route.ofInnerJson?_toJson (r : Route) : ofInnerJson? r.toJson = some r := by
  cases r <;> rfl

theorem Operator.ofInnerJson?_toJson (op : Operator) : ofInnerJson? op.toJson = some op := by
  cases op <;> rfl

namespace Transfer

theorem nodup_names (t : Transfer) : ("type" :: t.toFields.map Prod.fst).Nodup := by
  simp [toFields]

theorem ofJson?_tagged (tag : String) (t : Transfer) :
    ofJson? (tagged tag t.toFields) = some t := by
  have hrecord : (tagged tag t.toFields).record? ["source", "dest", "kind", "index"] =
      some [.str t.source, .str t.dest, t.route.toJson, t.index.toJson] :=
    Json.record?_tagged t.nodup_names tag
  rw [ofJson?, hrecord]
  simp [Json.string?_str, Route.ofInnerJson?_toJson, TileIndex.ofJson?_toJson]

theorem legible_tagged {levels : Nat} (tag : String) (t : Transfer) :
    Legible (levels + 5) (tagged tag t.toFields) := by
  apply Json.legible_tagged t.nodup_names
  simp only [toFields, List.forall_mem_cons]
  exact ⟨.str _, .str _, .str _, t.index.legible_toJson, List.forall_mem_nil _⟩

end Transfer

section

variable (op : Operator) (operands : List String) (result : String)

theorem nodup_computeFields :
    ("type" :: (computeFields op operands result).map Prod.fst).Nodup := by
  simp [computeFields]

theorem computeOfJson?_tagged (tag : String) :
    computeOfJson? (tagged tag (computeFields op operands result)) =
      some (op, operands, result) := by
  have hrecord : (tagged tag (computeFields op operands result)).record?
      ["op", "operands", "result"] = some [op.toJson, .ofStrings operands, .str result] :=
    Json.record?_tagged (nodup_computeFields op operands result) tag
  have hoperands : (Json.ofStrings operands).list? Json.string? = some operands :=
    Json.list?_map Json.string?_str operands
  rw [computeOfJson?, hrecord]
  simp [Json.string?_str, Operator.ofInnerJson?_toJson, hoperands]

theorem legible_computeFields {levels : Nat} (tag : String) :
    Legible (levels + 2) (tagged tag (computeFields op operands result)) := by
  apply Json.legible_tagged (nodup_computeFields op operands result)
  simp only [computeFields, List.forall_mem_cons]
  exact ⟨.str _, Json.legible_map .str operands, .str _, List.forall_mem_nil _⟩

end

namespace Instruction

theorem ofJson?_tagged (tag : String) (fields : List (String × Json)) :
    ofJson? (tagged tag fields) = ofTagged? (tag, tagged tag fields) := by
  rw [ofJson?, Json.tagged?_tagged, Option.bind_some]

theorem ofJson?_toJson (i : Instruction) : ofJson? i.toJson = some i := by
  cases i with
  | compute op operands result =>
    rw [toJson, ofJson?_tagged, ofTagged?, computeOfJson?_tagged]
    rfl
  | load t =>
    rw [toJson, ofJson?_tagged, ofTagged?, Transfer.ofJson?_tagged]
    rfl
  | store t =>
    rw [toJson, ofJson?_tagged, ofTagged?, Transfer.ofJson?_tagged]
    rfl
  | loopBegin var low high =>
    have hrecord : (toJson (.loopBegin var low high)).record? ["var", "low", "high"] =
        some [.str var, .ofInt64 low, .ofInt64 high] :=
      Json.record?_tagged (by simp) "loop_begin"
    rw [toJson] at hrecord ⊢
    rw [ofJson?_tagged, ofTagged?, loopBeginOfJson?, hrecord]
    simp [Json.string?_str, Json.int64?_ofInt64]
  | loopEnd var =>
    have hrecord : (toJson (.loopEnd var)).record? ["var"] = some [.str var] :=
      Json.record?_tagged (by simp) "loop_end"
    rw [toJson] at hrecord ⊢
    rw [ofJson?_tagged, ofTagged?, loopEndOfJson?, hrecord]
    rfl

theorem legible_toJson {levels : Nat} (i : Instruction) : Legible (levels + 5) i.toJson := by
  cases i with
  | compute op operands result => exact legible_computeFields op operands result "compute"
  | load t => exact t.legible_tagged "load"
  | store t => exact t.legible_tagged "store"
  | loopBegin var low high =>
    apply Json.legible_tagged (by simp)
    simp only [List.forall_mem_cons]
    exact ⟨.str _, Json.legible_ofInt64 _, Json.legible_ofInt64 _, List.forall_mem_nil _⟩
  | loopEnd var =>
    apply Json.legible_tagged (by simp)
    simp only [List.forall_mem_cons]
    exact ⟨.str _, List.forall_mem_nil _⟩

/-- Every schedule comes back from its text. -/
theorem listText_reads_back (code : List Instruction) :
    (Json.parse? (listText code)).bind listOfJson? = some code := by
  have hlegible : Legible Json.maxNesting (listToJson code) := Json.legible_map legible_toJson code
  rw [listText, Json.parse?_pretty hlegible, Option.bind_some]
  exact Json.list?_map ofJson?_toJson code

example : listText [.loopEnd "i\"\n\x01"] =
    "[\n  \x7b\n    \"type\": \"loop_end\",\n    \"var\": \"i\\\"\\n\\u0001\"\n  \x7d\n]" := by
  decide +kernel

end Instruction

end TileNest
