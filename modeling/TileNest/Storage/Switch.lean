import TileNest.Blank
import TileNest.Storage.Plan

/-
  The switch that turns the reuse of slots off. It is a text from the surroundings of the program;
  letter case and blanks around it do not matter.
-/

namespace TileNest

namespace Switch

/-- The words that set the switch. -/
def words : List String := ["1", "true", "yes", "on"]

/-- The text sets the switch. -/
def isSet (text : String) : Bool :=
  words.contains (String.ofList ((Blank.trim text.toList).map Char.toLower))

end Switch

/-- The options to plan with when none are given: slots are reused unless the switch is set. -/
def PlanOptions.ofSwitch (switch : Option String) : PlanOptions :=
  { reuseSlots := !switch.any Switch.isSet }

end TileNest
