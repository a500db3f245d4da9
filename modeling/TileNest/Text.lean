/-
  Text forms shared by labels and messages: comma-separated items and bracketed lists of numbers.
-/

namespace TileNest.Text

/-- The items with a comma and a space between neighbours. -/
def commas (items : List String) : String := ", ".intercalate items

/-- The items in square brackets. -/
def bracketed (items : List String) : String := "[" ++ commas items ++ "]"

/-- Sizes in square brackets, such as `[64, 32]`. -/
def sizes (ns : List Nat) : String := bracketed (ns.map toString)

/-- Coordinates in square brackets, such as `[0, -1]`. -/
def coordinates (ns : List Int64) : String := bracketed (ns.map fun n => toString n.toInt)

end TileNest.Text
