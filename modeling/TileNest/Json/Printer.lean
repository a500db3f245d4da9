import TileNest.Json.Basic

/-
  Data values as text, on one line (`Json.compact`) or with two spaces of indentation for each
  level (`Json.pretty`).
-/

namespace TileNest.Json

/-- A digit below sixteen. -/
def hexDigit (n : Nat) : Char := "0123456789abcdef".toList.getD n '0'

/-- A character inside quotes. Quotes, backslashes and control characters are escaped. -/
def escape (c : Char) : List Char :=
  if c = '"' then ['\\', '"']
  else if c = '\\' then ['\\', '\\']
  else if c.toNat = 8 then ['\\', 'b']
  else if c.toNat = 12 then ['\\', 'f']
  else if c = '\n' then ['\\', 'n']
  else if c = '\r' then ['\\', 'r']
  else if c = '\t' then ['\\', 't']
  else if c.toNat < 32 then ['\\', 'u', '0', '0', hexDigit (c.toNat / 16), hexDigit (c.toNat % 16)]
  else [c]

/-- Text in quotes. -/
def quote (s : String) : List Char := '"' :: s.toList.flatMap escape ++ ['"']

/-- A new line indented by this many levels. -/
def newline (level : Nat) : List Char := '\n' :: List.replicate (2 * level) ' '

mutual

/-- A value that starts at this level of indentation. -/
def prettyAt (level : Nat) : Json → List Char
  | null => "null".toList
  | bool b => (if b then "true" else "false").toList
  | int n => (toString n).toList
  | real numeral => numeral.toList
  | str s => quote s
  | arr [] => ['[', ']']
  | arr (item :: items) =>
    '[' :: newline (level + 1) ++ prettyAt (level + 1) item ++ prettyItems (level + 1) items
      ++ newline level ++ [']']
  | obj [] => ['\x7b', '\x7d']
  | obj ((name, value) :: fields) =>
    '\x7b' :: newline (level + 1) ++ quote name ++ ':' :: ' ' :: prettyAt (level + 1) value
      ++ prettyFields (level + 1) fields ++ newline level ++ ['\x7d']

/-- The items that follow the first one. -/
def prettyItems (level : Nat) : List Json → List Char
  | [] => []
  | item :: items => ',' :: newline level ++ prettyAt level item ++ prettyItems level items

/-- The fields that follow the first one. -/
def prettyFields (level : Nat) : List (String × Json) → List Char
  | [] => []
  | (name, value) :: fields =>
    ',' :: newline level ++ quote name ++ ':' :: ' ' :: prettyAt level value
      ++ prettyFields level fields

end

/-- The value with each item and field on a line of its own. -/
def pretty (v : Json) : String := String.ofList (prettyAt 0 v)

mutual

/-- The value on one line, in front of `rest`. -/
def compactOnto (rest : List Char) : Json → List Char
  | null => "null".toList ++ rest
  | bool b => (if b then "true" else "false").toList ++ rest
  | int n => (toString n).toList ++ rest
  | real numeral => numeral.toList ++ rest
  | str s => quote s ++ rest
  | arr items => '[' :: compactItems (']' :: rest) items
  | obj fields => '\x7b' :: compactFields ('\x7d' :: rest) fields

/-- The items, separated by commas. -/
def compactItems (rest : List Char) : List Json → List Char
  | [] => rest
  | [item] => compactOnto rest item
  | item :: next :: items => compactOnto (',' :: compactItems rest (next :: items)) item

/-- The fields, separated by commas. -/
def compactFields (rest : List Char) : List (String × Json) → List Char
  | [] => rest
  | [(name, value)] => quote name ++ ':' :: compactOnto rest value
  | (name, value) :: next :: fields =>
    quote name ++ ':' :: compactOnto (',' :: compactFields rest (next :: fields)) value

end

/-- The value on one line. -/
def compact (v : Json) : String := String.ofList (compactOnto [] v)

end TileNest.Json
