import Mathlib.Algebra.Order.Ring.Int
import Mathlib.Data.List.Basic

/-! # Runtime values (`value.hpp`, `robot_host.hpp`) -/

namespace CardCode

inductive Color where
  | off
  | red
  | green
  | blue
  | yellow
  | white
  deriving Repr, DecidableEq

namespace Color

def name : Color → String
  | .off => "off"
  | .red => "red"
  | .green => "green"
  | .blue => "blue"
  | .yellow => "yellow"
  | .white => "white"

/-- `color_from_name` of the compiler. -/
def fromName (name : String) : Option Color :=
  if name = "off" then some .off
  else if name = "red" then some .red
  else if name = "green" then some .green
  else if name = "blue" then some .blue
  else if name = "yellow" then some .yellow
  else if name = "white" then some .white
  else none

/-- The enumerator's position, as the cast to an integer gives it. -/
def ordinal : Color → Int64
  | .off => 0
  | .red => 1
  | .green => 2
  | .blue => 3
  | .yellow => 4
  | .white => 5

/-- The cast back, for the ordinals the compiler stores. -/
def ofOrdinal (ordinal : Int64) : Color :=
  if ordinal = 1 then .red
  else if ordinal = 2 then .green
  else if ordinal = 3 then .blue
  else if ordinal = 4 then .yellow
  else if ordinal = 5 then .white
  else .off

theorem ofOrdinal_ordinal (color : Color) : ofOrdinal color.ordinal = color := by
  cases color <;> decide

theorem name_of_fromName {name : String} {color : Color}
    (found : fromName name = some color) : color.name = name := by
  rw [fromName] at found
  split_ifs at found <;> simp_all [Color.name, eq_comm]

end Color

inductive Value where
  | none
  | integer (value : Int64)
  | boolean (value : Bool)
  | color (value : Color)
  deriving Repr, DecidableEq

def Value.truthy : Value → Bool
  | .boolean value => value
  | .integer value => value ≠ 0
  | .color _ => true
  | .none => false

/-- The range of `std::int64_t`. -/
def InInt64 (value : Int) : Prop :=
  -2 ^ 63 ≤ value ∧ value ≤ 2 ^ 63 - 1

instance (value : Int) : Decidable (InInt64 value) :=
  inferInstanceAs (Decidable (_ ∧ _))

end CardCode
