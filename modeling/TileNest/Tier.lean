/-
  The three levels of memory and the one-step routes between them. `Route.between?` is defined
  exactly on adjacent tiers (`between?_isSome_iff`) and gives back a route's own ends.
-/

namespace TileNest

/-- A level of memory, innermost first. -/
inductive Tier where
  | register
  | shared
  | global
  deriving DecidableEq, Repr

namespace Tier

/-- Distance from the registers. -/
def level : Tier → Nat
  | register => 0
  | shared => 1
  | global => 2

/-- Data moves between the two tiers in one step. -/
def adjacent (a b : Tier) : Bool := a.level + 1 == b.level || b.level + 1 == a.level

/-- The letter that stands for the tier in route names. -/
def letter : Tier → String
  | register => "r"
  | shared => "s"
  | global => "g"

/-- The tier as a word. -/
def text : Tier → String
  | register => "register"
  | shared => "shared"
  | global => "global"

instance : LT Tier := ⟨fun a b => a.level < b.level⟩

instance (a b : Tier) : Decidable (a < b) := inferInstanceAs (Decidable (a.level < b.level))

end Tier

/-- One step between adjacent tiers. -/
inductive Route where
  | globalToShared
  | sharedToRegister
  | registerToShared
  | sharedToGlobal
  deriving DecidableEq, Repr

namespace Route

/-- The route from one tier to the other, if they are adjacent. -/
def between? : Tier → Tier → Option Route
  | .global, .shared => some globalToShared
  | .shared, .register => some sharedToRegister
  | .register, .shared => some registerToShared
  | .shared, .global => some sharedToGlobal
  | _, _ => none

/-- The tier that is read. -/
def source : Route → Tier
  | globalToShared => .global
  | sharedToRegister => .shared
  | registerToShared => .register
  | sharedToGlobal => .shared

/-- The tier that is written. -/
def dest : Route → Tier
  | globalToShared => .shared
  | sharedToRegister => .register
  | registerToShared => .shared
  | sharedToGlobal => .global

/-- The route leads toward the registers. -/
def inward (r : Route) : Bool := r.dest < r.source

/-- The route in letters: `g2s`, `s2r`, `r2s` or `s2g`. -/
def text (r : Route) : String := r.source.letter ++ "2" ++ r.dest.letter

/-- The route in capitals, as it opens a type name. -/
def capitals (r : Route) : String := r.text.map Char.toUpper

theorem between?_isSome_iff (a b : Tier) : (between? a b).isSome = a.adjacent b := by
  cases a <;> cases b <;> rfl

end Route

end TileNest
