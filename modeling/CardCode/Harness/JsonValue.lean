import CardCode.Engine.Lexer
import CardCode.Engine.Value

/-! # JSON values (`harness/json.hpp`)

Strings hold bytes. A number is the rational number its `double` stands for.
-/

namespace CardCode.Harness

inductive JsonValue where
  | null
  | bool (value : Bool)
  | num (number : Rat)
  | str (text : Bytes)
  | arr (items : List JsonValue)
  | obj (fields : List (Bytes × JsonValue))

/-- A `std::string` in a message of the bridge. -/
def textOf (text : Bytes) : String :=
  String.ofList (text.map Char.ofUInt8)

namespace JsonValue

def find (value : JsonValue) (key : String) : Option JsonValue :=
  match value with
  | .obj fields => fields.lookup (bytes key)
  | _ => none

def asStr : JsonValue → Bytes
  | .str text => text
  | _ => []

/-- `as_int`: the number without its fraction, or what the conversion delivers `beyond` the
range of `long long`, where it is undefined. -/
def asInt (beyond : Rat → Int64) : JsonValue → Int64
  | .num number =>
      if InInt64 (number.num.tdiv number.den) then Int64.ofInt (number.num.tdiv number.den)
      else beyond number
  | _ => 0

def asBool : JsonValue → Bool
  | .bool value => value
  | .num number => number ≠ 0
  | _ => false

end JsonValue

end CardCode.Harness
