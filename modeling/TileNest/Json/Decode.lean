import TileNest.Checked
import TileNest.Json.Basic

/-
  The parts of which decoders are made. A record is an object with named fields or an array of the
  values in the order of the fields. A case is its name, or an object with the name as its only
  field and no content. A tagged value is a record that also says which case it is.
-/

namespace TileNest.Json

def string? : Json → Option String
  | str s => some s
  | _ => none

def bool? : Json → Option Bool
  | bool b => some b
  | _ => none

/-- A 64-bit size. -/
def size? : Json → Option Nat
  | int n => if 0 ≤ n ∧ n.toNat < Checked.sizeLimit then some n.toNat else none
  | _ => none

/-- A signed 64-bit number. -/
def int64? : Json → Option Int64
  | int n => Checked.ofInt? n
  | _ => none

/-- A list of items. -/
def list? {α : Type} (item : Json → Option α) : Json → Option (List α)
  | arr items => items.mapM item
  | _ => none

/-- A value, or null for none. -/
def optional? {α : Type} (value : Json → Option α) : Json → Option (Option α)
  | null => some none
  | v => (value v).map some

/-- The values of a record's fields, each if it is there. -/
def partialRecord? (names : List String) : Json → Option (List (Option Json))
  | obj fields => some (names.map fun name => fields.lookup name)
  | arr items =>
    if items.length ≤ names.length then some ((List.range names.length).map (items[·]?)) else none
  | _ => none

/-- The values of a record's fields, all of which must be there. -/
def record? (names : List String) (v : Json) : Option (List Json) :=
  (partialRecord? names v).bind fun values => values.mapM id

/-- The name of a case. -/
def case? : Json → Option String
  | str name => some name
  | obj [(name, null)] => some name
  | _ => none

/-- The name of a case inside a tagged value, where an empty object is no content either. -/
def innerCase? : Json → Option String
  | obj [(name, obj [])] => some name
  | v => case? v

/-- The tag of a tagged value, and the record that holds its fields. -/
def tagged? : Json → Option (String × Json)
  | obj fields =>
    match fields.lookup "type" with
    | some (str tag) => some (tag, obj fields)
    | _ => none
  | arr (str tag :: items) => some (tag, arr items)
  | _ => none

end TileNest.Json
