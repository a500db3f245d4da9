import TileNest.Json.Basic
import TileNest.Json.Numeral

/-
  Reading data values from text. A number is whole when it is written without fraction and
  exponent and is not a negative zero; numbers beyond the range of doubles are refused. Escapes of
  surrogates must come in pairs. Lists and objects nest at most `maxNesting` deep.
-/

namespace TileNest.Json

/-- Drops blanks. -/
def skipBlanks (cs : List Char) : List Char :=
  cs.dropWhile fun c => c = ' ' || c = '\t' || c = '\n' || c = '\r'

/-- What follows a fixed word. -/
def word? : (expected : List Char) → List Char → Option (List Char)
  | [], cs => some cs
  | e :: es, c :: cs => if e = c then word? es cs else none
  | _ :: _, [] => none

/-- The value of a hexadecimal digit. -/
def hexValue? (c : Char) : Option Nat :=
  if '0' ≤ c && c ≤ '9' then some (c.toNat - '0'.toNat)
  else if 'a' ≤ c && c ≤ 'f' then some (c.toNat - 'a'.toNat + 10)
  else if 'A' ≤ c && c ≤ 'F' then some (c.toNat - 'A'.toNat + 10)
  else none

/-- The number that four hexadecimal digits stand for. -/
def hexUnit? (a b c d : Char) : Option Nat := do
  let a ← hexValue? a
  let b ← hexValue? b
  let c ← hexValue? c
  let d ← hexValue? d
  return ((a * 16 + b) * 16 + c) * 16 + d

/-- The character that a backslash and this letter stand for. -/
def simpleEscape? (c : Char) : Option Char :=
  if c = '"' || c = '\\' || c = '/' then some c
  else if c = 'b' then some (Char.ofNat 8)
  else if c = 'f' then some (Char.ofNat 12)
  else if c = 'n' then some '\n'
  else if c = 'r' then some '\r'
  else if c = 't' then some '\t'
  else none

/-- A piece of quoted text: a character, or a 16-bit unit that was written in digits. -/
inductive Piece where
  | char (c : Char)
  | unit (n : Nat)

/-- The pieces up to the closing quote, and what follows it. -/
def pieces? : List Char → Option (List Piece × List Char)
  | [] => none
  | '"' :: cs => some ([], cs)
  | '\\' :: 'u' :: a :: b :: c :: d :: cs => do
    let n ← hexUnit? a b c d
    let (ps, rest) ← pieces? cs
    return (.unit n :: ps, rest)
  | '\\' :: c :: cs => do
    let c ← simpleEscape? c
    let (ps, rest) ← pieces? cs
    return (.char c :: ps, rest)
  | c :: cs =>
    if c.toNat < 32 then none
    else do
      let (ps, rest) ← pieces? cs
      return (.char c :: ps, rest)

/-- The characters that the pieces spell. A high surrogate takes the low surrogate after it. -/
def spell? : List Piece → Option (List Char)
  | [] => some []
  | .char c :: ps => (spell? ps).map (c :: ·)
  | .unit hi :: .unit lo :: ps =>
    if 0xD800 ≤ hi && hi < 0xDC00 then
      if 0xDC00 ≤ lo && lo < 0xE000 then
        (spell? ps).map (Char.ofNat (0x10000 + (hi - 0xD800) * 0x400 + (lo - 0xDC00)) :: ·)
      else none
    else if 0xDC00 ≤ hi && hi < 0xE000 then none
    else (spell? (.unit lo :: ps)).map (Char.ofNat hi :: ·)
  | .unit n :: ps => if 0xD800 ≤ n && n < 0xE000 then none else (spell? ps).map (Char.ofNat n :: ·)

/-- Text after its opening quote, and what follows it. -/
def text? (cs : List Char) : Option (String × List Char) := do
  let (ps, rest) ← pieces? cs
  let s ← spell? ps
  return (String.ofList s, rest)

/-- The digits at the start, at least one, and what follows them. -/
def digits? (cs : List Char) : Option (List Char × List Char) :=
  let ds := cs.takeWhile Char.isDigit
  if ds.isEmpty then none else some (ds, cs.dropWhile Char.isDigit)

/-- The digits of a whole part, which start with 0 only alone. -/
def whole? (cs : List Char) : Option (List Char × List Char) := do
  let (ds, rest) ← digits? cs
  if ds.head? = some '0' && ds.length ≠ 1 then none else some (ds, rest)

/-- A fraction, if one follows. -/
def fraction? : List Char → Option (List Char × List Char)
  | '.' :: cs => (digits? cs).map fun (ds, rest) => ('.' :: ds, rest)
  | cs => some ([], cs)

/-- An exponent, if one follows. -/
def exponent? : List Char → Option (List Char × List Char)
  | [] => some ([], [])
  | e :: cs =>
    if e = 'e' || e = 'E' then
      match cs with
      | '+' :: cs => (digits? cs).map fun (ds, rest) => (e :: '+' :: ds, rest)
      | '-' :: cs => (digits? cs).map fun (ds, rest) => (e :: '-' :: ds, rest)
      | cs => (digits? cs).map fun (ds, rest) => (e :: ds, rest)
    else some ([], e :: cs)

/-- The number that an exponent with its mark stands for. -/
def exponentValue : List Char → Int
  | [] => 0
  | _ :: '-' :: ds => -digitsValue ds
  | _ :: '+' :: ds => digitsValue ds
  | _ :: ds => digitsValue ds

/-- A number without its sign, and what follows it. -/
def number? (negative : Bool) (cs : List Char) : Option (Json × List Char) := do
  let (ds, cs) ← whole? cs
  let (fraction, cs) ← fraction? cs
  let (exponent, cs) ← exponent? cs
  if !(Numeral.ofDigits ds fraction.tail (exponentValue exponent)).fits then none
  else if fraction.isEmpty && exponent.isEmpty && !(negative && digitsValue ds == 0) then
    let n : Int := digitsValue ds
    return (.int (if negative then -n else n), cs)
  else
    let sign := if negative then ['-'] else []
    return (.real (String.ofList (sign ++ ds ++ fraction ++ exponent)), cs)

/-- How many lists and objects may be open at once. -/
def maxNesting : Nat := 127

mutual

/-- A value, and what follows it. `fuel` bounds the nesting of the calls, and `levels` says how many
    more lists and objects may be opened. -/
def value? : (fuel levels : Nat) → List Char → Option (Json × List Char)
  | 0, _, _ => none
  | fuel + 1, levels, cs =>
    match skipBlanks cs, levels with
    | [], _ => none
    | '"' :: cs, _ => (text? cs).map fun (s, rest) => (.str s, rest)
    | '[' :: _, 0 => none
    | '[' :: cs, levels + 1 =>
      match skipBlanks cs with
      | ']' :: rest => some (.arr [], rest)
      | _ => (items? fuel levels cs).map fun (items, rest) => (.arr items, rest)
    | '\x7b' :: _, 0 => none
    | '\x7b' :: cs, levels + 1 =>
      match skipBlanks cs with
      | '\x7d' :: rest => some (.obj [], rest)
      | _ => (fields? fuel levels cs).map fun (fields, rest) => (ofFields fields, rest)
    | '-' :: cs, _ => number? true cs
    | c :: cs, _ =>
      if c.isDigit then number? false (c :: cs)
      else if c = 't' then (word? "rue".toList cs).map fun rest => (.bool true, rest)
      else if c = 'f' then (word? "alse".toList cs).map fun rest => (.bool false, rest)
      else if c = 'n' then (word? "ull".toList cs).map fun rest => (.null, rest)
      else none

/-- Items up to the closing bracket, at least one. -/
def items? : (fuel levels : Nat) → List Char → Option (List Json × List Char)
  | 0, _, _ => none
  | fuel + 1, levels, cs =>
    match value? fuel levels cs with
    | none => none
    | some (item, rest) =>
      match skipBlanks rest with
      | ',' :: rest => (items? fuel levels rest).map fun (items, rest) => (item :: items, rest)
      | ']' :: rest => some ([item], rest)
      | _ => none

/-- Fields up to the closing brace, at least one. -/
def fields? : (fuel levels : Nat) → List Char → Option (List (String × Json) × List Char)
  | 0, _, _ => none
  | fuel + 1, levels, cs =>
    match skipBlanks cs with
    | '"' :: cs =>
      match text? cs with
      | none => none
      | some (name, rest) =>
        match skipBlanks rest with
        | ':' :: rest =>
          match value? fuel levels rest with
          | none => none
          | some (value, rest) =>
            match skipBlanks rest with
            | ',' :: rest =>
              (fields? fuel levels rest).map fun (fields, rest) => ((name, value) :: fields, rest)
            | '\x7d' :: rest => some ([(name, value)], rest)
            | _ => none
        | _ => none
    | _ => none

end

/-- The value that the whole text stands for. Every two calls read at least one character. -/
def parse? (s : String) : Option Json :=
  let cs := s.toList
  match value? (2 * cs.length + 2) maxNesting cs with
  | some (v, rest) => if (skipBlanks rest).isEmpty then some v else none
  | none => none

end TileNest.Json
