/-
  Data values in the interchange format. Whole numbers are kept exactly; any other number is kept
  as it was written.
-/

namespace TileNest

/-- A data value. -/
inductive Json where
  | null
  | bool (value : Bool)
  | int (value : Int)
  | real (numeral : String)
  | str (value : String)
  | arr (items : List Json)
  | obj (fields : List (String × Json))
  deriving Repr, Inhabited

namespace Json

def ofNat (n : Nat) : Json := .int n

def ofInt64 (n : Int64) : Json := .int n.toInt

def ofStrings (items : List String) : Json := .arr (items.map .str)

/-- The value of a field of an object. -/
def field? (name : String) : Json → Option Json
  | obj fields => fields.lookup name
  | _ => none

/-- The fields with the value of `name` replaced, or added at the end. -/
def setField (name : String) (value : Json) : List (String × Json) → List (String × Json)
  | [] => [(name, value)]
  | (other, v) :: fields =>
    if other = name then (other, value) :: fields else (other, v) :: setField name value fields

/-- The object of these fields. Of several fields with one name the last counts. -/
def ofFields (fields : List (String × Json)) : Json :=
  .obj (fields.foldl (fun object field => setField field.1 field.2 object) [])

end Json

end TileNest
