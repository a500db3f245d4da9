import TileNest.Affine

/-
  Reading printed tile indices. An expression is printed as pieces with signs between them: its
  weighted variables, then its constant. A weight of one and a constant of zero are left out, the
  sign of the first piece stands directly before it, and a constant alone is always printed. Still
  nothing is lost: a variable begins with no digit, so that a piece shows whether it is a weighted
  variable, a variable alone or a number, and blanks, commas and stars occur in no piece but where
  the printer puts them.

  Main result: `TileIndex.text_determines`. The reader `TileIndex.read?` gives back every index
  whose variables are identifiers from its text, all weights and constants of 64 bits included; so
  two such indices with one text are one.
-/

namespace TileNest

/-! ## Identifiers -/

/-- A letter, a digit or an underscore. Characters beyond ASCII count as letters. -/
def isWordChar (c : Char) : Bool := c.isAlphanum || c == '_' || 128 ≤ c.toNat

/-- Letters, digits and underscores, the first of them not a digit. -/
structure Identifier (name : String) : Prop where
  start : ∃ c cs, name.toList = c :: cs ∧ c.isDigit = false
  chars : ∀ c ∈ name.toList, isWordChar c = true

theorem Identifier.not_mem {name : String} (h : Identifier name) {c : Char}
    (hc : isWordChar c = false) : c ∉ name.toList := by
  intro hmem
  rw [h.chars c hmem] at hc
  cases hc

theorem not_mem_toDigits {c : Char} (hc : isWordChar c = false) (n : Nat) :
    c ∉ Nat.toDigits 10 n := by
  intro hmem
  have hdigit : c.isDigit = true := Nat.isDigit_of_mem_toDigits (by decide) (by decide) hmem
  simp [isWordChar, Char.isAlphanum, hdigit] at hc

theorem exists_toDigits_eq (n : Nat) : ∃ c cs, Nat.toDigits 10 n = c :: cs ∧ c.isDigit = true := by
  have hne : Nat.toDigits 10 n ≠ [] := Nat.toDigits_ne_nil
  obtain ⟨c, cs, h⟩ := List.exists_cons_of_ne_nil hne
  have hmem : c ∈ Nat.toDigits 10 n := h ▸ List.mem_cons_self
  exact ⟨c, cs, h, Nat.isDigit_of_mem_toDigits (by decide) (by decide) hmem⟩

theorem toList_toString_int (n : Int) :
    (toString n).toList = (if n < 0 then ['-'] else []) ++ Nat.toDigits 10 n.natAbs := by
  rw [Int.toString_eq_repr, Int.repr_eq_if]
  split
  · next hle =>
    have habs : n.toNat = n.natAbs := by omega
    rw [if_neg (by omega), habs, Nat.toList_repr, List.nil_append]
  · next hlt =>
    have habs : (-n).toNat = n.natAbs := by omega
    rw [if_pos (by omega), habs, String.toList_append, Nat.toList_repr]
    rfl

namespace Affine

/-! ## Pieces -/

/-- A part of an expression without its sign: a variable with its weight, or a number. -/
inductive Piece where
  | term (name : String) (weight : Nat)
  | number (n : Nat)

namespace Piece

def text : Piece → List Char
  | term name weight =>
    if weight = 1 then name.toList else Nat.toDigits 10 weight ++ '*' :: name.toList
  | number n => Nat.toDigits 10 n

/-- The piece with this text. -/
def read (cs : List Char) : Piece :=
  match cs.splitOn '*' with
  | [digits, name] => .term (String.ofList name) (Nat.ofDigitChars 10 digits 0)
  | _ =>
    if cs.head?.any Char.isDigit then .number (Nat.ofDigitChars 10 cs 0)
    else .term (String.ofList cs) 1

/-- The variable of the piece, if it has one, is an identifier. -/
def Named : Piece → Prop
  | term name _ => Identifier name
  | number _ => True

theorem read_digits (n : Nat) : read (Nat.toDigits 10 n) = .number n := by
  obtain ⟨c, cs, hd, hc⟩ := exists_toDigits_eq n
  have hhead : (Nat.toDigits 10 n).head?.any Char.isDigit = true := by simp [hd, hc]
  rw [read, List.splitOn_eq_singleton (not_mem_toDigits (by decide) n)]
  dsimp only
  rw [if_pos hhead, Nat.ofDigitChars_ten_toDigits]

theorem read_name {name : String} (h : Identifier name) : read name.toList = .term name 1 := by
  obtain ⟨c, cs, hn, hc⟩ := h.start
  have hhead : ¬ name.toList.head?.any Char.isDigit = true := by simp [hn, hc]
  rw [read, List.splitOn_eq_singleton (h.not_mem (by decide))]
  dsimp only
  rw [if_neg hhead, String.ofList_toList]

theorem read_star {name : String} (h : Identifier name) (n : Nat) :
    read (Nat.toDigits 10 n ++ '*' :: name.toList) = .term name n := by
  rw [read, List.splitOn_append_cons_self_of_not_mem (not_mem_toDigits (by decide) n),
    List.splitOn_eq_singleton (h.not_mem (by decide))]
  dsimp only
  rw [String.ofList_toList, Nat.ofDigitChars_ten_toDigits]

theorem read_text {p : Piece} (h : p.Named) : read p.text = p := by
  cases p with
  | number n => exact read_digits n
  | term name weight =>
    rw [text]
    split
    · next hone => rw [hone, read_name h]
    · exact read_star h weight

/-- Besides characters of words only a star occurs in a piece. -/
theorem not_mem_text {p : Piece} (h : p.Named) {c : Char} (hc : isWordChar c = false)
    (hstar : c ≠ '*') : c ∉ p.text := by
  cases p with
  | number n => exact not_mem_toDigits hc n
  | term name weight =>
    have hname : c ∉ name.toList := Identifier.not_mem h hc
    have hdigits := not_mem_toDigits hc weight
    rw [text]
    split
    · exact hname
    · simp [hname, hdigits, hstar]

/-- A piece has a text, which does not begin with a sign. -/
theorem text_eq_cons {p : Piece} (h : p.Named) : ∃ c cs, p.text = c :: cs ∧ c ≠ '-' := by
  have hsign : '-' ∉ p.text := not_mem_text h (by decide) (by decide)
  have hne : p.text ≠ [] := by
    cases p with
    | number n => exact Nat.toDigits_ne_nil
    | term name weight =>
      obtain ⟨c, cs, hname, -⟩ := Identifier.start h
      rw [text]
      split
      · simp [hname]
      · simp
  obtain ⟨c, cs, hp⟩ := List.exists_cons_of_ne_nil hne
  rw [hp, List.mem_cons, not_or] at hsign
  exact ⟨c, cs, hp, Ne.symm hsign.1⟩

end Piece

/-! ## Words -/

/-- The words of the pieces that follow another one: each has its sign before it. -/
def laterWords : List (Bool × Piece) → List (List Char)
  | [] => []
  | (negative, p) :: ps => [if negative then '-' else '+'] :: p.text :: laterWords ps

/-- The words of pieces with their signs. -/
def wordsOf : List (Bool × Piece) → List (List Char)
  | [] => []
  | (negative, p) :: ps => (if negative then '-' :: p.text else p.text) :: laterWords ps

/-- The pieces that follow another one. -/
def readLater : List (List Char) → Option (List (Bool × Piece))
  | [] => some []
  | ['+'] :: w :: ws => (readLater ws).map ((false, .read w) :: ·)
  | ['-'] :: w :: ws => (readLater ws).map ((true, .read w) :: ·)
  | _ => none

/-- The pieces with their signs, if the words are theirs. -/
def readWords : List (List Char) → Option (List (Bool × Piece))
  | [] => none
  | ('-' :: w) :: ws => (readLater ws).map ((true, .read w) :: ·)
  | w :: ws => (readLater ws).map ((false, .read w) :: ·)

theorem readLater_laterWords {ps : List (Bool × Piece)} (h : ∀ p ∈ ps, p.2.Named) :
    readLater (laterWords ps) = some ps := by
  induction ps with
  | nil => rfl
  | cons p ps ih =>
    obtain ⟨negative, p⟩ := p
    rw [List.forall_mem_cons] at h
    cases negative with
    | false => simp [laterWords, readLater, ih h.2, Piece.read_text h.1]
    | true => simp [laterWords, readLater, ih h.2, Piece.read_text h.1]

theorem readWords_wordsOf {ps : List (Bool × Piece)} (hne : ps ≠ []) (h : ∀ p ∈ ps, p.2.Named) :
    readWords (wordsOf ps) = some ps := by
  obtain ⟨⟨negative, p⟩, ps, rfl⟩ := List.exists_cons_of_ne_nil hne
  rw [List.forall_mem_cons] at h
  cases negative with
  | true => simp [wordsOf, readWords, readLater_laterWords h.2, Piece.read_text h.1]
  | false =>
    -- Without a sign the first word is the piece alone, which must not be taken for one with a sign.
    obtain ⟨c, cs, htext, hc⟩ := Piece.text_eq_cons h.1
    have hread := Piece.read_text h.1
    dsimp only at htext hread
    rw [htext] at hread
    simp [wordsOf, readWords, htext, hc, readLater_laterWords h.2, hread]

/-- A text that neither a blank nor a comma divides. -/
structure Undivided (w : List Char) : Prop where
  ne_nil : w ≠ []
  no_blank : ' ' ∉ w
  no_comma : ',' ∉ w

theorem Piece.undivided_text {p : Piece} (h : p.Named) : Undivided p.text := by
  obtain ⟨c, cs, htext, -⟩ := text_eq_cons h
  refine ⟨?_, not_mem_text h (by decide) (by decide), not_mem_text h (by decide) (by decide)⟩
  rw [htext]
  exact List.cons_ne_nil c cs

theorem undivided_of_mem_laterWords {ps : List (Bool × Piece)} (h : ∀ p ∈ ps, p.2.Named) :
    ∀ w ∈ laterWords ps, Undivided w := by
  induction ps with
  | nil => exact fun w hw => absurd hw List.not_mem_nil
  | cons p ps ih =>
    rw [List.forall_mem_cons] at h
    rw [laterWords, List.forall_mem_cons, List.forall_mem_cons]
    refine ⟨?_, Piece.undivided_text h.1, ih h.2⟩
    split
    · exact ⟨by decide, by decide, by decide⟩
    · exact ⟨by decide, by decide, by decide⟩

theorem undivided_of_mem_wordsOf {ps : List (Bool × Piece)} (h : ∀ p ∈ ps, p.2.Named) :
    ∀ w ∈ wordsOf ps, Undivided w := by
  cases ps with
  | nil => exact fun w hw => absurd hw List.not_mem_nil
  | cons p ps =>
    rw [List.forall_mem_cons] at h
    have hp : Undivided p.2.text := Piece.undivided_text h.1
    rw [wordsOf, List.forall_mem_cons]
    refine ⟨?_, undivided_of_mem_laterWords h.2⟩
    split
    · exact ⟨by simp, by simp [hp.no_blank], by simp [hp.no_comma]⟩
    · exact hp

/-! ## Expressions -/

/-- The number with this sign and absolute value. -/
def signed (negative : Bool) (n : Nat) : Int := if negative then -n else n

theorem signed_magnitude (a : Int64) : signed (decide (a < 0)) (magnitude a) = a.toInt := by
  have hzero : a < 0 ↔ a.toInt < 0 := Int64.lt_iff_toInt_lt
  simp only [signed, magnitude, decide_eq_true_eq, hzero]
  omega

def termPiece (t : String × Int64) : Bool × Piece :=
  (decide (t.2 < 0), .term t.1 (magnitude t.2))

def constantPiece (c : Int64) : Bool × Piece := (decide (c < 0), .number (magnitude c))

/-- The pieces that an expression is printed as. -/
def pieces (e : Affine) : List (Bool × Piece) :=
  e.terms.map termPiece
    ++ if e.constant = 0 ∧ e.terms ≠ [] then [] else [constantPiece e.constant]

/-- The expression of these pieces, which are terms and then at most one number. -/
def assemble : List (Bool × Piece) → Option Affine
  | [] => some (ofConstant 0)
  | (negative, .number n) :: [] => (Checked.ofInt? (signed negative n)).map ofConstant
  | (negative, .term name n) :: ps =>
    (Checked.ofInt? (signed negative n)).bind fun weight =>
      (assemble ps).map fun e => ⟨(name, weight) :: e.terms, e.constant⟩
  | (_, .number _) :: _ :: _ => none

theorem assemble_terms (terms : List (String × Int64)) {ps : List (Bool × Piece)} {c : Int64}
    (h : assemble ps = some (ofConstant c)) :
    assemble (terms.map termPiece ++ ps) = some ⟨terms, c⟩ := by
  induction terms with
  | nil => exact h
  | cons t terms ih =>
    simp [termPiece, assemble, signed_magnitude, Checked.ofInt?_toInt, ih]

theorem assemble_pieces (e : Affine) : assemble e.pieces = some e := by
  rw [pieces]
  apply assemble_terms
  split
  · next hz => rw [assemble, hz.1]
  · simp [constantPiece, assemble, signed_magnitude, Checked.ofInt?_toInt]

theorem pieces_ne_nil (e : Affine) : e.pieces ≠ [] := by
  rw [pieces]
  split
  · next hz => simp [hz.2]
  · simp

/-- The variables of the expression are identifiers. -/
def Named (e : Affine) : Prop := ∀ t ∈ e.terms, Identifier t.1

theorem Named.pieces {e : Affine} (h : e.Named) : ∀ p ∈ e.pieces, p.2.Named := by
  intro p hp
  rw [Affine.pieces, List.mem_append, List.mem_map] at hp
  rcases hp with ⟨t, ht, rfl⟩ | hp
  · exact h t ht
  · split at hp
    · cases hp
    · rw [List.mem_singleton.1 hp]
      trivial

/-! ## Texts of expressions -/

theorem intercalate_cons (sep w : List Char) (ws : List (List Char)) :
    sep.intercalate (w :: ws) = w ++ ws.flatMap (sep ++ ·) := by
  induction ws generalizing w with
  | nil => simp
  | cons v ws ih => rw [List.intercalate_cons_cons, ih]; simp

/-- What is printed after the first piece. -/
def laterChars (ps : List (Bool × Piece)) : List Char := (laterWords ps).flatMap ([' '] ++ ·)

theorem laterChars_cons (negative : Bool) (p : Piece) (ps : List (Bool × Piece)) :
    laterChars ((negative, p) :: ps) =
      [' ', if negative then '-' else '+', ' '] ++ p.text ++ laterChars ps := by
  simp [laterChars, laterWords]

theorem laterChars_append (ps qs : List (Bool × Piece)) :
    laterChars (ps ++ qs) = laterChars ps ++ laterChars qs := by
  induction ps with
  | nil => rfl
  | cons p ps ih => rw [List.cons_append, laterChars_cons, laterChars_cons, ih, ← List.append_assoc]

theorem intercalate_wordsOf_cons (negative : Bool) (p : Piece) (ps : List (Bool × Piece)) :
    [' '].intercalate (wordsOf ((negative, p) :: ps)) =
      (if negative then ['-'] else []) ++ p.text ++ laterChars ps := by
  rw [wordsOf, intercalate_cons]
  cases negative with
  | false => rfl
  | true => rfl

theorem toList_operator (a : Int64) :
    (if a < 0 then " - " else " + ").toList = [' ', if a < 0 then '-' else '+', ' '] := by
  split
  · rfl
  · rfl

theorem toList_termText (name : String) (weight : Int64) :
    (termText name weight).toList = Piece.text (.term name (magnitude weight)) := by
  rw [termText, Piece.text]
  split
  · rfl
  · simp

theorem toList_laterText (terms : List (String × Int64)) :
    (laterText terms).toList = laterChars (terms.map termPiece) := by
  induction terms with
  | nil => rfl
  | cons t terms ih =>
    obtain ⟨name, weight⟩ := t
    rw [laterText, String.toList_append, String.toList_append, toList_operator, toList_termText, ih,
      List.map_cons, termPiece, laterChars_cons]
    simp only [decide_eq_true_eq]

theorem toList_constantText (c : Int64) :
    (constantText c).toList = laterChars (if c = 0 then [] else [constantPiece c]) := by
  rw [constantText]
  split
  · rfl
  · rw [String.toList_append, toList_operator, constantPiece, laterChars_cons]
    simp [Piece.text, laterChars, laterWords]

theorem toList_toString_toInt (c : Int64) :
    (toString c.toInt).toList = (if c < 0 then ['-'] else []) ++ Nat.toDigits 10 (magnitude c) := by
  have hzero : c < 0 ↔ c.toInt < 0 := Int64.lt_iff_toInt_lt
  simp only [toList_toString_int, hzero, magnitude]

/-- The text of an expression is its words with blanks between them. -/
theorem toList_text (e : Affine) : e.text.toList = [' '].intercalate (wordsOf e.pieces) := by
  obtain ⟨terms, constant⟩ := e
  cases terms with
  | nil =>
    have hpieces : pieces ⟨[], constant⟩ = [constantPiece constant] := by simp [pieces]
    rw [hpieces, constantPiece, intercalate_wordsOf_cons, text, toList_toString_toInt]
    simp [Piece.text, laterChars, laterWords]
  | cons t terms =>
    obtain ⟨name, weight⟩ := t
    have hpieces : pieces ⟨(name, weight) :: terms, constant⟩ =
        termPiece (name, weight) :: (terms.map termPiece
          ++ if constant = 0 then [] else [constantPiece constant]) := by
      simp [pieces]
    have hsign : (if weight < 0 then "-" else "").toList = if weight < 0 then ['-'] else [] := by
      split
      · rfl
      · rfl
    rw [hpieces, termPiece, intercalate_wordsOf_cons, laterChars_append, ← toList_laterText,
      ← toList_constantText, ← toList_termText, text]
    simp only [String.toList_append, hsign, decide_eq_true_eq, List.append_assoc]

/-- The expression with this text. Blanks before the text or after it do not matter. -/
def read? (cs : List Char) : Option Affine :=
  (readWords ((cs.splitOn ' ').filter (!·.isEmpty))).bind assemble

theorem read?_cons_blank (cs : List Char) : read? (' ' :: cs) = read? cs := by
  simp [read?, List.splitOn_cons_eq_if_modifyHead]

theorem wordsOf_pieces_ne_nil (e : Affine) : wordsOf e.pieces ≠ [] := by
  obtain ⟨p, ps, hp⟩ := List.exists_cons_of_ne_nil e.pieces_ne_nil
  rw [hp, wordsOf]
  exact List.cons_ne_nil _ _

theorem read?_text {e : Affine} (h : e.Named) : read? e.text.toList = some e := by
  have hwords := undivided_of_mem_wordsOf h.pieces
  have hsplit : e.text.toList.splitOn ' ' = wordsOf e.pieces := by
    rw [toList_text]
    exact List.splitOn_intercalate _ (fun w hw => (hwords w hw).no_blank) e.wordsOf_pieces_ne_nil
  have hfilter : (wordsOf e.pieces).filter (!·.isEmpty) = wordsOf e.pieces := by
    apply List.filter_eq_self.2
    intro w hw
    simpa using (hwords w hw).ne_nil
  rw [read?, hsplit, hfilter, readWords_wordsOf e.pieces_ne_nil h.pieces, Option.bind_some,
    assemble_pieces]

theorem comma_not_mem_text {e : Affine} (h : e.Named) : ',' ∉ e.text.toList := by
  have hwords := undivided_of_mem_wordsOf h.pieces
  obtain ⟨w, ws, hws⟩ := List.exists_cons_of_ne_nil e.wordsOf_pieces_ne_nil
  rw [hws, List.forall_mem_cons] at hwords
  rw [toList_text, hws, intercalate_cons, List.mem_append, List.mem_flatMap]
  rintro (hw | ⟨v, hv, hmem⟩)
  · exact hwords.1.no_comma hw
  · exact (hwords.2 v hv).no_comma (by simpa using hmem)

end Affine

/-! ## Indices -/

namespace TileIndex

/-- The variables of the index are identifiers. -/
def Named (index : TileIndex) : Prop := ∀ e ∈ index.axes, e.Named

/-- The expressions between commas. -/
def readAxes? (cs : List Char) : Option (List Affine) := (cs.splitOn ',').mapM Affine.read?

theorem readAxes?_nil : readAxes? [] = none := rfl

/-- The index with this text. -/
def read? (s : String) : Option TileIndex :=
  match s.toList with
  | '[' :: cs =>
    if cs.dropLast = [] then some ⟨[]⟩ else (readAxes? cs.dropLast).map TileIndex.mk
  | _ => none

theorem mapM_read?_texts {axes : List Affine} (h : ∀ e ∈ axes, e.Named) :
    (axes.map fun e => ' ' :: e.text.toList).mapM Affine.read? = some axes := by
  induction axes with
  | nil => rfl
  | cons e axes ih =>
    rw [List.forall_mem_cons] at h
    rw [List.map_cons, List.mapM_cons, Affine.read?_cons_blank, Affine.read?_text h.1, ih h.2]
    rfl

/-- The blank after a comma can as well be said to begin the next expression. -/
theorem toList_commas_cons (e : Affine) (axes : List Affine) :
    (Text.commas ((e :: axes).map Affine.text)).toList =
      [','].intercalate (e.text.toList :: axes.map fun e => ' ' :: e.text.toList) := by
  rw [Text.commas, String.toList_intercalate, List.map_cons, List.map_cons, Affine.intercalate_cons,
    Affine.intercalate_cons]
  simp [List.flatMap_map, Function.comp_def]

theorem readAxes?_commas {axes : List Affine} (hne : axes ≠ []) (h : ∀ e ∈ axes, e.Named) :
    readAxes? (Text.commas (axes.map Affine.text)).toList = some axes := by
  obtain ⟨e, axes, rfl⟩ := List.exists_cons_of_ne_nil hne
  rw [List.forall_mem_cons] at h
  have hcommas : ∀ cs ∈ e.text.toList :: axes.map (fun e => ' ' :: e.text.toList), ',' ∉ cs := by
    rw [List.forall_mem_cons, List.forall_mem_map]
    refine ⟨Affine.comma_not_mem_text h.1, ?_⟩
    intro a ha
    simpa using Affine.comma_not_mem_text (h.2 a ha)
  rw [readAxes?, toList_commas_cons, List.splitOn_intercalate _ hcommas (List.cons_ne_nil _ _),
    List.mapM_cons, Affine.read?_text h.1, mapM_read?_texts h.2]
  rfl

theorem read?_text {index : TileIndex} (h : index.Named) : read? index.text = some index := by
  obtain ⟨axes⟩ := index
  have htext : (text ⟨axes⟩).toList =
      '[' :: ((Text.commas (axes.map Affine.text)).toList ++ [']']) := by
    simp [text, Text.bracketed]
  rw [read?, htext]
  simp only [List.dropLast_concat]
  by_cases hne : axes = []
  · rw [hne]
    rfl
  · have hread := readAxes?_commas hne h
    -- No expression has an empty text, so an index with axes is not read as the one without.
    have hsome : (Text.commas (axes.map Affine.text)).toList ≠ [] := by
      intro hnil
      rw [hnil] at hread
      exact absurd hread (by simp [readAxes?_nil])
    rw [if_neg hsome, hread]
    rfl

/-- The printed index determines the index: the reader gives it back, whatever its weights and
    constants are, and so no other index is printed alike. -/
theorem text_determines {index : TileIndex} (h : index.Named) :
    read? index.text = some index ∧
      ∀ other : TileIndex, other.Named → other.text = index.text → other = index := by
  refine ⟨read?_text h, ?_⟩
  intro other hother htext
  have hread := read?_text hother
  rw [htext, read?_text h] at hread
  exact (Option.some.inj hread).symm

end TileIndex

namespace Sample

/-- One variable twice, without a weight and with the weight zero, the least weight, the least
    constant, and a constant alone. -/
def extremes : TileIndex :=
  ⟨[⟨[("i", -1), ("i", 0), ("_j2", Int64.minValue)], Int64.minValue⟩, ⟨[], 0⟩]⟩

theorem extremes_named : extremes.Named := by
  have hi : Identifier "i" := ⟨⟨'i', [], rfl, rfl⟩, List.all_eq_true.1 rfl⟩
  have hj : Identifier "_j2" := ⟨⟨'_', ['j', '2'], rfl, rfl⟩, List.all_eq_true.1 rfl⟩
  simp only [extremes, TileIndex.Named, Affine.Named, List.forall_mem_cons]
  exact ⟨⟨hi, hi, hj, List.forall_mem_nil _⟩, List.forall_mem_nil _, List.forall_mem_nil _⟩

end Sample

theorem TileIndex.text_determines_extremes :
    Sample.extremes.Named ∧
      Sample.extremes.text = "[-i + 0*i - 9223372036854775808*_j2 - 9223372036854775808, 0]" ∧
      read? Sample.extremes.text = some Sample.extremes ∧
      ∀ other : TileIndex, other.Named → other.text = Sample.extremes.text →
        other = Sample.extremes :=
  ⟨Sample.extremes_named, by decide +kernel, text_determines Sample.extremes_named⟩

end TileNest
