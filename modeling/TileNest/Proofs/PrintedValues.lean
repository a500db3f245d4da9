import TileNest.Json.Printer
import TileNest.Json.Reader
import TileNest.Proofs.IndexReader

/-
  Values that come back from their printed text. The reader takes a text apart character by
  character, so each part of the printer has its lemma with an arbitrary rest of the text behind
  it: `text?_quote` for texts with their escapes, `number?_toDigits` for whole numbers of 64 bits,
  and `value?_prettyAt` for lists and objects at any level of indentation. A number is the only
  value that what follows it could prolong, hence the condition `EndsNumber` on the rest.

  Main result: `parse?_pretty`. Every `Legible` value is read back from its text: its numbers are
  whole and have 64 bits, the fields of each object have different names, and it nests no deeper
  than the reader allows.
-/

namespace TileNest.Json

/-! ## Quoted texts -/

/-- The piece stands for the character, whatever pieces follow it. -/
def Piece.Spells (p : Piece) (c : Char) : Prop := ∀ ps, spell? (p :: ps) = (spell? ps).map (c :: ·)

theorem Piece.spells_char (c : Char) : (Piece.char c).Spells c := fun _ => rfl

/-- Below the surrogates a unit stands for itself, also before another unit. -/
theorem Piece.spells_unit {n : Nat} (h : n < 0xD800) : (Piece.unit n).Spells (Char.ofNat n) := by
  intro ps
  have hlow : ¬ 0xD800 ≤ n := by omega
  have hlower : ¬ 0xDC00 ≤ n := by omega
  rcases ps with _ | ⟨c | lo, ps⟩
  · simp [spell?, hlow]
  · simp [spell?, hlow]
  · simp [spell?, hlow, hlower]

theorem pieces?_letter {e c : Char} (h : simpleEscape? e = some c) (cs : List Char) :
    pieces? ('\\' :: e :: cs) = (pieces? cs).map fun r => (.char c :: r.1, r.2) := by
  have hu : e ≠ 'u' := by
    rintro rfl
    cases h
  rw [pieces?]
  · rw [h]
    cases pieces? cs <;> rfl
  · intro a b c d cs he
    exact absurd he hu

theorem hexValue?_hexDigit : ∀ n < 16, hexValue? (hexDigit n) = some n := by decide

theorem pieces?_unit {n : Nat} (h : n < 256) (cs : List Char) :
    pieces? ('\\' :: 'u' :: '0' :: '0' :: hexDigit (n / 16) :: hexDigit (n % 16) :: cs) =
      (pieces? cs).map fun r => (.unit n :: r.1, r.2) := by
  have hhigh := hexValue?_hexDigit (n / 16) (by omega)
  have hlow := hexValue?_hexDigit (n % 16) (by omega)
  have hzero : hexValue? '0' = some 0 := rfl
  have hunit : hexUnit? '0' '0' (hexDigit (n / 16)) (hexDigit (n % 16)) = some n := by
    simp only [hexUnit?, hzero, hhigh, hlow, Option.bind_eq_bind, Option.bind_some, pure]
    congr 1
    omega
  rw [pieces?, hunit]
  cases pieces? cs <;> rfl

theorem pieces?_plain {c : Char} (hquote : c ≠ '"') (hslash : c ≠ '\\') (h : ¬ c.toNat < 32)
    (cs : List Char) : pieces? (c :: cs) = (pieces? cs).map fun r => (.char c :: r.1, r.2) := by
  rw [pieces?]
  · rw [if_neg h]
    cases pieces? cs <;> rfl
  · exact hquote
  · intro a b c d cs he
    exact absurd he hslash
  · intro a cs he
    exact absurd he hslash

/-- How a character is printed: as a backslash and a letter, as a unit, or as it is. -/
inductive Escaped (c : Char) : List Char → Prop
  | letter {e : Char} : simpleEscape? e = some c → Escaped c ['\\', e]
  | unit : c.toNat < 32 →
      Escaped c ['\\', 'u', '0', '0', hexDigit (c.toNat / 16), hexDigit (c.toNat % 16)]
  | plain : c ≠ '"' → c ≠ '\\' → ¬ c.toNat < 32 → Escaped c [c]

theorem escaped_escape (c : Char) : Escaped c (escape c) := by
  have hback : Char.ofNat c.toNat = c := c.ofNat_toNat
  rw [escape]
  repeat' split
  · next h => exact .letter (by rw [h]; rfl)
  · next h => exact .letter (by rw [h]; rfl)
  · next h => exact .letter (congrArg some (h ▸ hback))
  · next h => exact .letter (congrArg some (h ▸ hback))
  · next h => exact .letter (by rw [h]; rfl)
  · next h => exact .letter (by rw [h]; rfl)
  · next h => exact .letter (by rw [h]; rfl)
  · next h => exact .unit h
  · next hquote hslash _ _ _ _ _ h => exact .plain hquote hslash h

/-- However a character is printed, it is read as one piece that stands for it. -/
theorem Escaped.pieces? {c : Char} {out : List Char} (h : Escaped c out) :
    ∃ p : Piece, p.Spells c ∧
      ∀ cs, Json.pieces? (out ++ cs) = (Json.pieces? cs).map fun r => (p :: r.1, r.2) := by
  cases h with
  | letter he => exact ⟨.char c, Piece.spells_char c, pieces?_letter he⟩
  | unit h =>
    have hspells := Piece.spells_unit (show c.toNat < 0xD800 by omega)
    rw [c.ofNat_toNat] at hspells
    exact ⟨.unit c.toNat, hspells, pieces?_unit (by omega)⟩
  | plain hquote hslash h =>
    exact ⟨.char c, Piece.spells_char c, pieces?_plain hquote hslash h⟩

/-- The pieces of a printed text stand for its characters. -/
theorem exists_pieces? (s rest : List Char) :
    ∃ ps, pieces? (s.flatMap escape ++ '"' :: rest) = some (ps, rest) ∧ spell? ps = some s := by
  induction s with
  | nil => exact ⟨[], rfl, rfl⟩
  | cons c s ih =>
    obtain ⟨p, hp, hread⟩ := (escaped_escape c).pieces?
    obtain ⟨ps, hps, hs⟩ := ih
    refine ⟨p :: ps, ?_, ?_⟩
    · rw [List.flatMap_cons, List.append_assoc, hread, hps]
      rfl
    · rw [hp, hs]
      rfl

theorem text?_quote (s : String) (rest : List Char) :
    text? (s.toList.flatMap escape ++ '"' :: rest) = some (s, rest) := by
  obtain ⟨ps, hps, hs⟩ := exists_pieces? s.toList rest
  simp only [text?, hps, hs, Option.bind_eq_bind, Option.bind_some, String.ofList_toList, pure]

/-! ## Whole numbers -/

/-- What follows a number does not prolong it. -/
def EndsNumber (rest : List Char) : Prop :=
  ∀ c cs, rest = c :: cs → c.isDigit = false ∧ c ≠ '.' ∧ c ≠ 'e' ∧ c ≠ 'E'

theorem endsNumber_nil : EndsNumber [] := fun _ _ h => nomatch h

theorem digits?_append {ds rest : List Char} (hne : ds ≠ []) (hd : ∀ c ∈ ds, c.isDigit = true)
    (hr : EndsNumber rest) : digits? (ds ++ rest) = some (ds, rest) := by
  have htake : rest.takeWhile Char.isDigit = [] ∧ rest.dropWhile Char.isDigit = rest := by
    cases rest with
    | nil => exact ⟨rfl, rfl⟩
    | cons c cs => simp [(hr c cs rfl).1]
  rw [digits?, List.takeWhile_append_of_pos hd, List.dropWhile_append_of_pos hd, htake.1, htake.2,
    List.append_nil]
  simp [hne]

/-- A printed number begins with zero only when it is zero. -/
theorem eq_zero_of_head?_toDigits (n : Nat) (h : (Nat.toDigits 10 n).head? = some '0') : n = 0 := by
  induction n using Nat.strongRecOn with
  | ind n ih =>
    rw [Nat.toDigits_eq_if (by decide)] at h
    split at h
    · exact Nat.digitChar_eq_zero.1 (Option.some.inj h)
    · next hge =>
      obtain ⟨c, cs, hd, -⟩ := exists_toDigits_eq (n / 10)
      have hhead : (Nat.toDigits 10 (n / 10)).head? = some '0' := by
        rw [hd] at h ⊢
        exact h
      have := ih (n / 10) (by omega) hhead
      omega

theorem whole?_toDigits (n : Nat) {rest : List Char} (hr : EndsNumber rest) :
    whole? (Nat.toDigits 10 n ++ rest) = some (Nat.toDigits 10 n, rest) := by
  have hdigits : ∀ c ∈ Nat.toDigits 10 n, c.isDigit = true := fun _ hc =>
    Nat.isDigit_of_mem_toDigits (by decide) (by decide) hc
  rw [whole?, digits?_append Nat.toDigits_ne_nil hdigits hr]
  by_cases hzero : (Nat.toDigits 10 n).head? = some '0'
  · rw [eq_zero_of_head?_toDigits n hzero]
    rfl
  · simp [hzero]

theorem fraction?_of_endsNumber {rest : List Char} (hr : EndsNumber rest) :
    fraction? rest = some ([], rest) := by
  rw [fraction?]
  rintro cs rfl
  exact (hr '.' cs rfl).2.1 rfl

theorem exponent?_of_endsNumber {rest : List Char} (hr : EndsNumber rest) :
    exponent? rest = some ([], rest) := by
  cases rest with
  | nil => rfl
  | cons c cs =>
    obtain ⟨-, -, he, hE⟩ := hr c cs rfl
    simp [exponent?, he, hE]

theorem digitsValue_toDigits (n : Nat) : digitsValue (Nat.toDigits 10 n) = n := by
  have h : digitsValue (Nat.toDigits 10 n) = Nat.ofDigitChars 10 (Nat.toDigits 10 n) 0 := by
    simp only [digitsValue, digitValue, Nat.ofDigitChars_eq_foldl, Nat.mul_comm]
  rw [h, Nat.ofDigitChars_ten_toDigits]

namespace Numeral

/-- Digits only raise a significand. -/
theorem le_foldl_digits (ds : List Char) (n : Nat) :
    n ≤ ds.foldl (fun n d => n * 10 + digitValue d) n := by
  induction ds generalizing n with
  | nil => exact Nat.le_refl n
  | cons d ds ih =>
    have := ih (n * 10 + digitValue d)
    rw [List.foldl_cons]
    omega

/-- No digit of a number of 64 bits is left out. -/
theorem absorb_eq {significand : Nat} {ds : List Char}
    (h : ds.foldl (fun n d => n * 10 + digitValue d) significand < Checked.sizeLimit) :
    absorb significand ds = (ds.foldl (fun n d => n * 10 + digitValue d) significand, 0) := by
  induction ds generalizing significand with
  | nil => rfl
  | cons d ds ih =>
    rw [List.foldl_cons] at h ⊢
    have hle := le_foldl_digits ds (significand * 10 + digitValue d)
    rw [absorb, if_pos (by omega), ih h]

theorem ofDigits_eq {ds : List Char} (h : digitsValue ds < Checked.sizeLimit) :
    ofDigits ds [] 0 = ⟨digitsValue ds, 0⟩ := by
  have habsorb : absorb 0 ds = (digitsValue ds, 0) := absorb_eq h
  simp [ofDigits, habsorb, absorb]

/-- Rounding at most doubles a number. -/
theorem round53_le {n : Nat} (h : n ≠ 0) : round53 n ≤ 2 * n := by
  have hunit : Nat.pow 2 (n.log2 - 52) ≤ n := by
    calc 2 ^ (n.log2 - 52) ≤ 2 ^ n.log2 := Nat.pow_le_pow_right (by decide) (Nat.sub_le _ _)
      _ ≤ n := Nat.log2_self_le h
  have hdown := Nat.div_mul_le_self n (Nat.pow 2 (n.log2 - 52))
  rw [round53]
  split
  · omega
  · rw [Nat.succ_mul]
    omega

/-- Numbers of 64 bits are in the range of doubles. -/
theorem fits_of_lt {n : Nat} (h : n < Checked.sizeLimit) : fits ⟨n, 0⟩ = true := by
  by_cases hn : n = 0
  · simp [fits, hn]
  · have hround : round53 n * round53 1 < doubleLimit := by
      have hone : round53 1 = 1 := by decide
      calc round53 n * round53 1 ≤ 2 * n := by rw [hone, Nat.mul_one]; exact round53_le hn
        _ < 2 * Checked.sizeLimit := by omega
        _ < doubleLimit := by decide +kernel
    simp [fits, hround]

end Numeral

/-- Digits that nothing prolongs are read as the number that they were printed from. -/
theorem number?_toDigits {n : Nat} (hn : n < Checked.sizeLimit) (negative : Bool)
    (hz : negative = true → n ≠ 0) {rest : List Char} (hr : EndsNumber rest) :
    number? negative (Nat.toDigits 10 n ++ rest) =
      some (.int (if negative then -(n : Int) else n), rest) := by
  have hvalue := digitsValue_toDigits n
  have hfits : (Numeral.ofDigits (Nat.toDigits 10 n) [] 0).fits = true := by
    rw [Numeral.ofDigits_eq (by rwa [hvalue]), hvalue]
    exact Numeral.fits_of_lt hn
  have hsign : (negative && n == 0) = false := by
    cases negative with
    | false => rfl
    | true => simpa using hz rfl
  simp only [number?, whole?_toDigits n hr, fraction?_of_endsNumber hr, exponent?_of_endsNumber hr,
    Option.bind_eq_bind, Option.bind_some, List.tail_nil, exponentValue, hfits, hvalue, hsign,
    List.isEmpty_nil, Bool.not_true, Bool.not_false, Bool.and_self, pure]
  rfl

/-! ## Blanks -/

theorem skipBlanks_newline (level : Nat) (cs : List Char) :
    skipBlanks (newline level ++ cs) = skipBlanks cs := by
  unfold skipBlanks
  apply List.dropWhile_append_of_pos
  intro c hc
  rcases List.mem_cons.1 hc with rfl | hc
  · rfl
  · rw [List.eq_of_mem_replicate hc]
    rfl

theorem skipBlanks_cons {c : Char} (h : (c = ' ' || c = '\t' || c = '\n' || c = '\r') = false)
    (cs : List Char) : skipBlanks (c :: cs) = c :: cs :=
  List.dropWhile_cons_of_neg (by simp [h])

theorem endsNumber_newline (level : Nat) (cs : List Char) : EndsNumber (newline level ++ cs) := by
  intro c rest h
  obtain ⟨rfl, -⟩ := List.cons.inj h
  decide

theorem endsNumber_comma (cs : List Char) : EndsNumber (',' :: cs) := by
  intro c rest h
  obtain ⟨rfl, -⟩ := List.cons.inj h
  decide

/-- Blanks before a value do not matter. -/
theorem value?_congr {cs ds : List Char} (h : skipBlanks cs = skipBlanks ds) (fuel levels : Nat) :
    value? fuel levels cs = value? fuel levels ds := by
  cases fuel with
  | zero => rfl
  | succ fuel =>
    unfold value?
    rw [h]

theorem value?_blank (fuel levels : Nat) (cs : List Char) :
    value? fuel levels (' ' :: cs) = value? fuel levels cs :=
  value?_congr (show skipBlanks (' ' :: cs) = skipBlanks cs from rfl) fuel levels

theorem skipBlanks_colon (cs : List Char) : skipBlanks (':' :: cs) = ':' :: cs := rfl

theorem quote_append (s : String) (cs : List Char) :
    quote s ++ cs = '"' :: (s.toList.flatMap escape ++ '"' :: cs) := by
  simp [quote]

/-! ## Values by their first characters -/

theorem value?_quote (s : String) (fuel levels : Nat) (rest : List Char) :
    value? (fuel + 1) levels (quote s ++ rest) = some (.str s, rest) := by
  unfold value?
  rw [quote_append, skipBlanks_cons rfl]
  cases levels <;> simp [text?_quote]

theorem value?_minus (fuel levels : Nat) (cs : List Char) :
    value? (fuel + 1) levels ('-' :: cs) = number? true cs := by
  unfold value?
  rw [skipBlanks_cons rfl]
  cases levels <;> rfl

theorem ne_of_isDigit {c : Char} (hc : c.isDigit = true) (d : Char) (hd : d.isDigit = false) :
    c ≠ d := by
  rintro rfl
  rw [hc] at hd
  cases hd

theorem value?_digit {c : Char} (hc : c.isDigit = true) (fuel levels : Nat) (cs : List Char) :
    value? (fuel + 1) levels (c :: cs) = number? false (c :: cs) := by
  have hne := ne_of_isDigit hc
  have hblank : skipBlanks (c :: cs) = c :: cs := by
    apply skipBlanks_cons
    simp [hne]
  unfold value?
  rw [hblank]
  split
  case h_1 heq => cases heq
  case h_8 heq _ _ _ _ =>
    obtain ⟨rfl, rfl⟩ := List.cons.inj heq
    exact if_pos hc
  -- Every other case begins with a fixed character that is no digit.
  all_goals
    next heq => exact absurd (List.cons.inj heq).1 (hne _ rfl)

theorem value?_int {n : Int} (hn : n.natAbs < Checked.sizeLimit) (fuel levels : Nat)
    {rest : List Char} (hr : EndsNumber rest) :
    value? (fuel + 1) levels ((toString n).toList ++ rest) = some (.int n, rest) := by
  rw [toList_toString_int]
  by_cases hneg : n < 0
  · have hz : n.natAbs ≠ 0 := by omega
    rw [if_pos hneg, List.append_assoc, List.singleton_append, value?_minus,
      number?_toDigits hn true (fun _ => hz) hr, if_pos rfl]
    congr 3
    omega
  · obtain ⟨c, cs, hd, hc⟩ := exists_toDigits_eq n.natAbs
    have hread : number? false (Nat.toDigits 10 n.natAbs ++ rest) = some (.int n.natAbs, rest) :=
      number?_toDigits hn false (fun h => absurd h Bool.false_ne_true) hr
    rw [hd] at hread
    rw [if_neg hneg, List.nil_append, hd, List.cons_append, value?_digit hc, ← List.cons_append,
      hread]
    congr 3
    omega

/-- A list that does not close at once has items. -/
theorem value?_bracket {cs : List Char} (h : ∀ ds, skipBlanks cs ≠ ']' :: ds) (fuel levels : Nat) :
    value? (fuel + 1) (levels + 1) ('[' :: cs) =
      (items? fuel levels cs).map fun r => (.arr r.1, r.2) := by
  rw [value?.eq_5 _ _ cs _ (skipBlanks_cons rfl cs)]
  split
  · next heq => exact absurd heq (h _)
  · rfl

theorem value?_brace {cs : List Char} (h : ∀ ds, skipBlanks cs ≠ '\x7d' :: ds) (fuel levels : Nat) :
    value? (fuel + 1) (levels + 1) ('\x7b' :: cs) =
      (fields? fuel levels cs).map fun r => (ofFields r.1, r.2) := by
  rw [value?.eq_7 _ _ cs _ (skipBlanks_cons rfl cs)]
  split
  · next heq => exact absurd heq (h _)
  · rfl

/-! ## Fields with different names -/

theorem setField_of_not_mem {name : String} {fields : List (String × Json)}
    (h : name ∉ fields.map Prod.fst) (value : Json) :
    setField name value fields = fields ++ [(name, value)] := by
  induction fields with
  | nil => rfl
  | cons field fields ih =>
    obtain ⟨other, v⟩ := field
    rw [List.map_cons, List.mem_cons, not_or] at h
    rw [setField, if_neg (Ne.symm h.1), ih h.2, List.cons_append]

theorem foldl_setField {before fields : List (String × Json)}
    (h : ((before ++ fields).map Prod.fst).Nodup) :
    fields.foldl (fun object field => setField field.1 field.2 object) before =
      before ++ fields := by
  induction fields generalizing before with
  | nil => exact (List.append_nil before).symm
  | cons field fields ih =>
    have hnew : field.1 ∉ before.map Prod.fst := by
      rw [List.map_append, List.nodup_append] at h
      intro hm
      exact h.2.2 _ hm _ (by simp) rfl
    rw [List.append_cons] at h ⊢
    rw [List.foldl_cons, setField_of_not_mem hnew]
    exact ih h

theorem ofFields_of_nodup {fields : List (String × Json)} (h : (fields.map Prod.fst).Nodup) :
    ofFields fields = .obj fields := by
  rw [ofFields, foldl_setField (show (([] ++ fields).map Prod.fst).Nodup from h), List.nil_append]

/-! ## Legible values -/

/-- A value that can be read back from its text, with at most `levels` lists and objects open at
    once: its numbers are whole and have 64 bits, and the fields of an object have different
    names. -/
inductive Legible : (levels : Nat) → Json → Prop
  | null {levels : Nat} : Legible levels null
  | bool {levels : Nat} (b : Bool) : Legible levels (bool b)
  | int {levels : Nat} {n : Int} : n.natAbs < Checked.sizeLimit → Legible levels (int n)
  | str {levels : Nat} (s : String) : Legible levels (str s)
  | arr {levels : Nat} {items : List Json} :
      (∀ item ∈ items, Legible levels item) → Legible (levels + 1) (arr items)
  | obj {levels : Nat} {fields : List (String × Json)} :
      (fields.map Prod.fst).Nodup → (∀ field ∈ fields, Legible levels field.2) →
        Legible (levels + 1) (obj fields)

/-- The text of the value, at every level of indentation and with every text behind it that does
    not prolong a number, is read as the value. The text is fuel enough for itself. -/
def ReadBack (levels : Nat) (v : Json) : Prop :=
  ∀ level fuel rest, (prettyAt level v).length ≤ fuel → EndsNumber rest →
    value? fuel levels (prettyAt level v ++ rest) = some (v, rest)

/-- A character that begins a value: no blank, and none that closes a list. -/
structure Opens (c : Char) : Prop where
  ne_bracket : c ≠ ']'
  blank : (c = ' ' || c = '\t' || c = '\n' || c = '\r') = false

theorem opens_of_isDigit {c : Char} (h : c.isDigit = true) : Opens c := by
  have hne := ne_of_isDigit h
  exact ⟨hne _ rfl, by simp [hne]⟩

theorem opens_toString (n : Int) : ∃ c cs, (toString n).toList = c :: cs ∧ Opens c := by
  rw [toList_toString_int]
  by_cases hneg : n < 0
  · exact ⟨'-', _, by rw [if_pos hneg]; rfl, ⟨by decide, rfl⟩⟩
  · obtain ⟨c, cs, hd, hc⟩ := exists_toDigits_eq n.natAbs
    exact ⟨c, cs, by rw [if_neg hneg, hd]; rfl, opens_of_isDigit hc⟩

theorem Legible.opens {levels : Nat} {v : Json} (h : Legible levels v) (level : Nat) :
    ∃ c cs, prettyAt level v = c :: cs ∧ Opens c := by
  cases h with
  | null => exact ⟨'n', _, rfl, by decide, rfl⟩
  | bool b =>
    cases b with
    | false => exact ⟨'f', _, rfl, by decide, rfl⟩
    | true => exact ⟨'t', _, rfl, by decide, rfl⟩
  | int _ => exact opens_toString _
  | str s => exact ⟨'"', _, rfl, by decide, rfl⟩
  | @arr _ items _ =>
    cases items with
    | nil => exact ⟨'[', _, rfl, by decide, rfl⟩
    | cons item items => exact ⟨'[', _, rfl, by decide, rfl⟩
  | @obj _ fields _ _ =>
    cases fields with
    | nil => exact ⟨'\x7b', _, rfl, by decide, rfl⟩
    | cons field fields => exact ⟨'\x7b', _, rfl, by decide, rfl⟩

theorem prettyItems_cons_append (level : Nat) (item : Json) (items : List Json) (cs : List Char) :
    prettyItems level (item :: items) ++ cs =
      ',' :: (newline level ++ (prettyAt level item ++ (prettyItems level items ++ cs))) := by
  simp only [prettyItems, List.cons_append, List.append_assoc]

theorem prettyFields_cons_append (level : Nat) (name : String) (value : Json)
    (fields : List (String × Json)) (cs : List Char) :
    prettyFields level ((name, value) :: fields) ++ cs =
      ',' :: (newline level ++ (quote name ++
        ':' :: ' ' :: (prettyAt level value ++ (prettyFields level fields ++ cs)))) := by
  simp only [prettyFields, List.cons_append, List.append_assoc]

theorem prettyAt_arr_append (level : Nat) (item : Json) (items : List Json) (cs : List Char) :
    prettyAt level (arr (item :: items)) ++ cs =
      '[' :: (newline (level + 1) ++ (prettyAt (level + 1) item ++
        (prettyItems (level + 1) items ++ (newline level ++ ']' :: cs)))) := by
  simp only [prettyAt, List.cons_append, List.append_assoc, List.nil_append]

theorem prettyAt_obj_append (level : Nat) (name : String) (value : Json)
    (fields : List (String × Json)) (cs : List Char) :
    prettyAt level (obj ((name, value) :: fields)) ++ cs =
      '\x7b' :: (newline (level + 1) ++ (quote name ++
        ':' :: ' ' :: (prettyAt (level + 1) value ++
          (prettyFields (level + 1) fields ++ (newline level ++ '\x7d' :: cs))))) := by
  simp only [prettyAt, List.cons_append, List.append_assoc, List.nil_append]

theorem endsNumber_prettyItems (level : Nat) (items : List Json) (outer : Nat) (cs : List Char) :
    EndsNumber (prettyItems level items ++ (newline outer ++ cs)) := by
  cases items with
  | nil => exact endsNumber_newline outer cs
  | cons item items => exact endsNumber_comma _

theorem endsNumber_prettyFields (level : Nat) (fields : List (String × Json)) (outer : Nat)
    (cs : List Char) : EndsNumber (prettyFields level fields ++ (newline outer ++ cs)) := by
  cases fields with
  | nil => exact endsNumber_newline outer cs
  | cons field fields => exact endsNumber_comma _

section

variable {levels level fuel : Nat} {item : Json} (h : ReadBack levels item)
  (hf : (prettyAt level item).length ≤ fuel) {cs rest : List Char} (hcs : EndsNumber cs)

include h hf hcs

theorem items?_last (hlast : skipBlanks cs = ']' :: rest) :
    items? (fuel + 1) levels (newline level ++ (prettyAt level item ++ cs)) =
      some ([item], rest) := by
  rw [items?, value?_congr (skipBlanks_newline level _), h level fuel cs hf hcs]
  simp only [hlast]

theorem items?_comma (hcomma : skipBlanks cs = ',' :: rest) :
    items? (fuel + 1) levels (newline level ++ (prettyAt level item ++ cs)) =
      (items? fuel levels rest).map fun r => (item :: r.1, r.2) := by
  rw [items?, value?_congr (skipBlanks_newline level _), h level fuel cs hf hcs]
  simp only [hcomma]

theorem fields?_last (name : String) (hlast : skipBlanks cs = '\x7d' :: rest) :
    fields? (fuel + 1) levels
      (newline level ++ (quote name ++ ':' :: ' ' :: (prettyAt level item ++ cs))) =
      some ([(name, item)], rest) := by
  rw [fields?, skipBlanks_newline, quote_append, skipBlanks_cons rfl]
  simp only [text?_quote, skipBlanks_colon, value?_blank, h level fuel cs hf hcs, hlast]

theorem fields?_comma (name : String) (hcomma : skipBlanks cs = ',' :: rest) :
    fields? (fuel + 1) levels
      (newline level ++ (quote name ++ ':' :: ' ' :: (prettyAt level item ++ cs))) =
      (fields? fuel levels rest).map fun r => ((name, item) :: r.1, r.2) := by
  rw [fields?, skipBlanks_newline, quote_append, skipBlanks_cons rfl]
  simp only [text?_quote, skipBlanks_colon, value?_blank, h level fuel cs hf hcs, hcomma]

end

/-- Items are read one by one. Each needs one call more than its own text allows for, and has the
    comma before it or the bracket around it to pay for that. -/
theorem items?_pretty {levels : Nat} {item : Json} {items : List Json}
    (hitem : ReadBack levels item) (h : ∀ v ∈ items, ReadBack levels v) {level fuel : Nat}
    (hf : (prettyAt level item).length + (prettyItems level items).length ≤ fuel)
    (outer : Nat) (rest : List Char) :
    items? (fuel + 1) levels (newline level ++ (prettyAt level item ++
      (prettyItems level items ++ (newline outer ++ ']' :: rest)))) =
      some (item :: items, rest) := by
  have hends := endsNumber_prettyItems level items outer (']' :: rest)
  induction items generalizing item fuel with
  | nil => exact items?_last hitem hf hends (skipBlanks_newline outer _)
  | cons next items ih =>
    rw [List.forall_mem_cons] at h
    simp only [prettyItems, List.length_append, List.length_cons] at hf
    obtain ⟨fuel, rfl⟩ : ∃ k, fuel = k + 1 := ⟨fuel - 1, by omega⟩
    rw [items?_comma hitem (by omega) hends (by rw [prettyItems_cons_append, skipBlanks_cons rfl]),
      ih h.1 h.2 (by omega) (endsNumber_prettyItems level items outer _)]
    rfl

theorem fields?_pretty {levels : Nat} {name : String} {value : Json}
    {fields : List (String × Json)} (hvalue : ReadBack levels value)
    (h : ∀ field ∈ fields, ReadBack levels field.2) {level fuel : Nat}
    (hf : (prettyAt level value).length + (prettyFields level fields).length ≤ fuel)
    (outer : Nat) (rest : List Char) :
    fields? (fuel + 1) levels (newline level ++ (quote name ++
      ':' :: ' ' :: (prettyAt level value ++
        (prettyFields level fields ++ (newline outer ++ '\x7d' :: rest))))) =
      some ((name, value) :: fields, rest) := by
  have hends := endsNumber_prettyFields level fields outer ('\x7d' :: rest)
  induction fields generalizing name value fuel with
  | nil => exact fields?_last hvalue hf hends name (skipBlanks_newline outer _)
  | cons next fields ih =>
    obtain ⟨other, v⟩ := next
    obtain ⟨hv, hrest⟩ : ReadBack levels v ∧ ∀ field ∈ fields, ReadBack levels field.2 :=
      List.forall_mem_cons.1 h
    simp only [prettyFields, List.length_append, List.length_cons] at hf
    obtain ⟨fuel, rfl⟩ : ∃ k, fuel = k + 1 := ⟨fuel - 1, by omega⟩
    rw [fields?_comma hvalue (by omega) hends name
        (by rw [prettyFields_cons_append, skipBlanks_cons rfl]),
      ih hv hrest (by omega) (endsNumber_prettyFields level fields outer _)]
    rfl

theorem exists_succ_of_length {c : Char} {cs : List Char} {fuel : Nat}
    (h : (c :: cs).length ≤ fuel) : ∃ k, fuel = k + 1 :=
  Nat.exists_eq_add_one.2 (Nat.lt_of_lt_of_le (Nat.succ_pos _) h)

theorem readBack_arr {levels : Nat} {items : List Json} (h : ∀ item ∈ items, Legible levels item)
    (hread : ∀ item ∈ items, ReadBack levels item) : ReadBack (levels + 1) (arr items) := by
  intro level fuel rest hf _
  cases items with
  | nil =>
    obtain ⟨fuel, rfl⟩ := exists_succ_of_length hf
    rfl
  | cons item items =>
    rw [List.forall_mem_cons] at h hread
    simp only [prettyAt, List.length_append, List.length_cons] at hf
    obtain ⟨fuel, rfl⟩ : ∃ k, fuel = k + 2 := ⟨fuel - 2, by omega⟩
    obtain ⟨c, cs, hopen, hc⟩ := h.1.opens (level + 1)
    rw [prettyAt_arr_append, value?_bracket, items?_pretty hread.1 hread.2 (by omega)]
    · rfl
    · -- The closing bracket is looked for first, and the first item does not begin with one.
      intro ds hd
      rw [skipBlanks_newline, hopen, List.cons_append, skipBlanks_cons hc.blank] at hd
      exact hc.ne_bracket (List.cons.inj hd).1

theorem readBack_obj {levels : Nat} {fields : List (String × Json)}
    (hn : (fields.map Prod.fst).Nodup) (hread : ∀ field ∈ fields, ReadBack levels field.2) :
    ReadBack (levels + 1) (obj fields) := by
  intro level fuel rest hf _
  cases fields with
  | nil =>
    obtain ⟨fuel, rfl⟩ := exists_succ_of_length hf
    rfl
  | cons field fields =>
    obtain ⟨name, value⟩ := field
    obtain ⟨hvalue, hrest⟩ : ReadBack levels value ∧ ∀ field ∈ fields, ReadBack levels field.2 :=
      List.forall_mem_cons.1 hread
    simp only [prettyAt, List.length_append, List.length_cons] at hf
    obtain ⟨fuel, rfl⟩ : ∃ k, fuel = k + 2 := ⟨fuel - 2, by omega⟩
    rw [prettyAt_obj_append, value?_brace, fields?_pretty hvalue hrest (by omega), Option.map_some,
      ofFields_of_nodup hn]
    intro ds hd
    rw [skipBlanks_newline, quote_append, skipBlanks_cons rfl] at hd
    exact absurd (List.cons.inj hd).1 (by decide)

/-- Legible values are read back, because their parts are. -/
theorem Legible.readBack {levels : Nat} {v : Json} (h : Legible levels v) : ReadBack levels v := by
  induction h with
  | null =>
    intro level fuel rest hf _
    obtain ⟨fuel, rfl⟩ := exists_succ_of_length hf
    rfl
  | bool b =>
    intro level fuel rest hf _
    cases b with
    | false =>
      obtain ⟨fuel, rfl⟩ := exists_succ_of_length hf
      rfl
    | true =>
      obtain ⟨fuel, rfl⟩ := exists_succ_of_length hf
      rfl
  | @int _ n hn =>
    intro level fuel rest hf hr
    obtain ⟨c, cs, hopen, -⟩ := opens_toString n
    rw [prettyAt, hopen] at hf
    obtain ⟨fuel, rfl⟩ := exists_succ_of_length hf
    exact value?_int hn fuel _ hr
  | str s =>
    intro level fuel rest hf _
    obtain ⟨fuel, rfl⟩ := exists_succ_of_length hf
    exact value?_quote s fuel _ rest
  | arr h ih => exact readBack_arr h ih
  | obj hn h ih => exact readBack_obj hn ih

/-- A legible value is what its whole text stands for. -/
theorem parse?_pretty {v : Json} (h : Legible maxNesting v) : parse? v.pretty = some v := by
  have hread := h.readBack 0 (2 * (prettyAt 0 v).length + 2) [] (by omega) endsNumber_nil
  rw [List.append_nil] at hread
  simp [parse?, pretty, hread, skipBlanks]

end TileNest.Json
