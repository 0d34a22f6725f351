import CardCode.Harness.JsonValue
import CardCode.Harness.Messages

/-! # JSON text (`harness/json.hpp`)

The writer's pieces, the parser, and the text of every message. A position in the
text is what is left of it.
-/

namespace CardCode.Harness

/-- The byte of an ASCII character. -/
abbrev byte (c : Char) : UInt8 :=
  c.toUInt8

/-! ## Writer -/

def hexDigit (digit : UInt8) : UInt8 :=
  (bytes "0123456789abcdef").getD digit.toNat 0

def jsonEscapeByte (c : UInt8) : Bytes :=
  if c = byte '"' then bytes "\\\""
  else if c = byte '\\' then bytes "\\\\"
  else if c = byte '\n' then bytes "\\n"
  else if c = byte '\r' then bytes "\\r"
  else if c = byte '\t' then bytes "\\t"
  else if c = 8 then bytes "\\b"
  else if c = 12 then bytes "\\f"
  else if c < 0x20 then bytes "\\u00" ++ [hexDigit (c / 16), hexDigit (c % 16)]
  else [c]

def jsonEscape (text : Bytes) : Bytes :=
  text.flatMap jsonEscapeByte

def jstr (text : Bytes) : Bytes :=
  byte '"' :: (jsonEscape text ++ [byte '"'])

/-- `std::to_string`. -/
def jnum (number : Int) : Bytes :=
  match number with
  | .ofNat magnitude => (Nat.toDigits 10 magnitude).map Char.toUInt8
  | .negSucc less => byte '-' :: (Nat.toDigits 10 (less + 1)).map Char.toUInt8

def jbool (value : Bool) : Bytes :=
  if value then bytes "true" else bytes "false"

/-- Written values with commas between them. -/
def commaSeparated : List Bytes → Bytes
  | [] => []
  | [item] => item
  | item :: rest => item ++ byte ',' :: commaSeparated rest

def jobjV (fields : List (Bytes × Bytes)) : Bytes :=
  byte '{' ::
    (commaSeparated (fields.map fun field => jstr field.1 ++ byte ':' :: field.2) ++ [byte '}'])

def jarr (items : List Bytes) : Bytes :=
  byte '[' :: (commaSeparated items ++ [byte ']'])

/-! ## Parser -/

def isSpaceByte (c : UInt8) : Bool :=
  c = byte ' ' || c = byte '\t' || c = byte '\n' || c = byte '\r'

def skipWs (text : Bytes) : Bytes :=
  text.dropWhile isSpaceByte

def hexValue (c : UInt8) : Option UInt32 :=
  if byte '0' ≤ c && c ≤ byte '9' then some (c - byte '0').toUInt32
  else if byte 'a' ≤ c && c ≤ byte 'f' then some (c - byte 'a' + 10).toUInt32
  else if byte 'A' ≤ c && c ≤ byte 'F' then some (c - byte 'A' + 10).toUInt32
  else none

/-- The four digits of a `\u` escape. -/
def hexValues : List UInt8 → UInt32 → Option UInt32
  | [], codePoint => some codePoint
  | c :: rest, codePoint =>
      match hexValue c with
      | some digit => hexValues rest (codePoint <<< 4 ||| digit)
      | none => none

def encodeCodePoint (codePoint : UInt32) : Bytes :=
  let last := (0x80 : UInt32) ||| (codePoint &&& 0x3F)
  if codePoint < 0x80 then [codePoint.toUInt8]
  else if codePoint < 0x800 then
    let lead := (0xC0 : UInt32) ||| (codePoint >>> 6)
    [lead.toUInt8, last.toUInt8]
  else
    let lead := (0xE0 : UInt32) ||| (codePoint >>> 12)
    let middle := (0x80 : UInt32) ||| ((codePoint >>> 6) &&& 0x3F)
    [lead.toUInt8, middle.toUInt8, last.toUInt8]

/-- What a one-letter escape stands for. -/
def unescape (c : UInt8) : Option UInt8 :=
  if c = byte '"' then some (byte '"')
  else if c = byte '\\' then some (byte '\\')
  else if c = byte '/' then some (byte '/')
  else if c = byte 'n' then some (byte '\n')
  else if c = byte 'r' then some (byte '\r')
  else if c = byte 't' then some (byte '\t')
  else if c = byte 'b' then some 8
  else if c = byte 'f' then some 12
  else none

/-- The loop of `parse_string`, after the opening quote. -/
def stringLoop : Bytes → Bytes → Option (Bytes × Bytes)
  | [], _ => none
  | c :: rest, out =>
      if c = byte '"' then some (out, rest)
      else if c = byte '\\' then
        match rest with
        | [] => none
        | e :: rest =>
            if e = byte 'u' then
              match rest with
              | first :: second :: third :: fourth :: rest =>
                  match hexValues [first, second, third, fourth] 0 with
                  | some codePoint => stringLoop rest (out ++ encodeCodePoint codePoint)
                  | none => none
              | _ => none
            else
              match unescape e with
              | some meant => stringLoop rest (out ++ [meant])
              | none => none
      else stringLoop rest (out ++ [c])

def parseString : Bytes → Option (Bytes × Bytes)
  | [] => none
  | c :: rest => if c = byte '"' then stringLoop rest [] else none

def parseBool (text : Bytes) : Option (JsonValue × Bytes) :=
  if text.take 4 = bytes "true" then some (.bool true, text.drop 4)
  else if text.take 5 = bytes "false" then some (.bool false, text.drop 5)
  else none

def parseNull (text : Bytes) : Option (JsonValue × Bytes) :=
  if text.take 4 = bytes "null" then some (.null, text.drop 4) else none

def isNumberByte (c : UInt8) : Bool :=
  (byte '0' ≤ c && c ≤ byte '9') || c = byte '-' || c = byte '+' || c = byte '.' ||
    c = byte 'e' || c = byte 'E'

/-- `strtod` of the C library is a parameter. -/
def parseNumber (strtod : Bytes → Rat) (text : Bytes) : Option (JsonValue × Bytes) :=
  let number := text.takeWhile isNumberByte
  if number.isEmpty then none
  else some (.num (strtod number), text.dropWhile isNumberByte)

/-- `std::map::emplace`, which keeps what is there. -/
def emplace (fields : List (Bytes × JsonValue)) (key : Bytes) (value : JsonValue) :
    List (Bytes × JsonValue) :=
  if (fields.lookup key).isSome then fields else fields ++ [(key, value)]

/-- The loop of `parse_object`; its iterations and the nesting of values are bounded
by `fuel`. -/
def objectLoop (parse : Bytes → Option (JsonValue × Bytes)) :
    Nat → List (Bytes × JsonValue) → Bytes → Option (JsonValue × Bytes)
  | 0, _, _ => none
  | fuel + 1, fields, text =>
      match parseString (skipWs text) with
      | none => none
      | some (key, rest) =>
          match skipWs rest with
          | [] => none
          | colon :: rest =>
              if colon = byte ':' then
                match parse rest with
                | none => none
                | some (value, rest) =>
                    match skipWs rest with
                    | [] => none
                    | c :: rest =>
                        if c = byte ',' then objectLoop parse fuel (emplace fields key value) rest
                        else if c = byte '}' then some (.obj (emplace fields key value), rest)
                        else none
              else none

def parseObject (parse : Bytes → Option (JsonValue × Bytes)) (fuel : Nat) (text : Bytes) :
    Option (JsonValue × Bytes) :=
  match skipWs text with
  | c :: rest => if c = byte '}' then some (.obj [], rest) else objectLoop parse fuel [] (c :: rest)
  | [] => objectLoop parse fuel [] []

def arrayLoop (parse : Bytes → Option (JsonValue × Bytes)) :
    Nat → List JsonValue → Bytes → Option (JsonValue × Bytes)
  | 0, _, _ => none
  | fuel + 1, items, text =>
      match parse text with
      | none => none
      | some (value, rest) =>
          match skipWs rest with
          | [] => none
          | c :: rest =>
              if c = byte ',' then arrayLoop parse fuel (items ++ [value]) rest
              else if c = byte ']' then some (.arr (items ++ [value]), rest)
              else none

def parseArray (parse : Bytes → Option (JsonValue × Bytes)) (fuel : Nat) (text : Bytes) :
    Option (JsonValue × Bytes) :=
  match skipWs text with
  | c :: rest => if c = byte ']' then some (.arr [], rest) else arrayLoop parse fuel [] (c :: rest)
  | [] => arrayLoop parse fuel [] []

def parseValue (strtod : Bytes → Rat) : Nat → Bytes → Option (JsonValue × Bytes)
  | 0, _ => none
  | fuel + 1, text =>
      match skipWs text with
      | [] => none
      | c :: rest =>
          if c = byte '{' then parseObject (parseValue strtod fuel) fuel rest
          else if c = byte '[' then parseArray (parseValue strtod fuel) fuel rest
          else if c = byte '"' then
            (parseString (c :: rest)).map fun parsed => (.str parsed.1, parsed.2)
          else if c = byte 't' || c = byte 'f' then parseBool (c :: rest)
          else if c = byte 'n' then parseNull (c :: rest)
          else parseNumber strtod (c :: rest)

/-- Every call of `parse_value` takes a byte of its own, so this much fuel is not used up. -/
def parseText (strtod : Bytes → Rat) (text : Bytes) : Option (JsonValue × Bytes) :=
  (parseValue strtod (text.length + 1) text).map fun parsed => (parsed.1, skipWs parsed.2)

/-- `json_parse`, which tolerates whatever follows the value. -/
def jsonParse (strtod : Bytes → Rat) (text : Bytes) : Option JsonValue :=
  (parseText strtod text).map Prod.fst

/-! ## Trees of written values -/

inductive JsonTree where
  | str (text : Bytes)
  | int (number : Int)
  | bool (value : Bool)
  | arr (items : List JsonTree)
  | obj (fields : List (Bytes × JsonTree))

namespace JsonTree

mutual

def write : JsonTree → Bytes
  | .str text => jstr text
  | .int number => jnum number
  | .bool value => jbool value
  | .arr items => jarr (writeAll items)
  | .obj fields => jobjV (writeFields fields)

def writeAll : List JsonTree → List Bytes
  | [] => []
  | item :: rest => item.write :: writeAll rest

def writeFields : List (Bytes × JsonTree) → List (Bytes × Bytes)
  | [] => []
  | (key, tree) :: rest => (key, tree.write) :: writeFields rest

end

mutual

/-- What a tree is read as. -/
def value : JsonTree → JsonValue
  | .str text => .str text
  | .int number => .num number
  | .bool value => .bool value
  | .arr items => .arr (valueAll items)
  | .obj fields => .obj (valueFields fields)

def valueAll : List JsonTree → List JsonValue
  | [] => []
  | item :: rest => item.value :: valueAll rest

def valueFields : List (Bytes × JsonTree) → List (Bytes × JsonValue)
  | [] => []
  | (key, tree) :: rest => (key, tree.value) :: valueFields rest

end

/-- Integers a `double` holds and objects whose keys are distinct. -/
inductive Exact : JsonTree → Prop
  | str {text} : Exact (.str text)
  | int {number : Int} : number.natAbs ≤ 2 ^ 53 → Exact (.int number)
  | bool {value} : Exact (.bool value)
  | arr {items} : (∀ item ∈ items, Exact item) → Exact (.arr items)
  | obj {fields} : (fields.map Prod.fst).Nodup → (∀ field ∈ fields, Exact field.2) →
      Exact (.obj fields)

end JsonTree

/-! ## The text of a message -/

def textField (key : String) (text : String) : Bytes × JsonTree :=
  (bytes key, .str (bytes text))

def intField (key : String) (number : Int) : Bytes × JsonTree :=
  (bytes key, .int number)

/-- `jspan`. -/
def spanTree (span : SourceSpan) : JsonTree :=
  .obj [intField "startOffset" span.startOffset.toNat, intField "endOffset" span.endOffset.toNat,
    intField "startLine" span.startLine.toNat, intField "startColumn" span.startColumn.toNat,
    intField "endLine" span.endLine.toNat, intField "endColumn" span.endColumn.toNat]

def diagnosticTree (diagnostic : Diagnostic) : JsonTree :=
  .obj [textField "severity" (if diagnostic.severity = .error then "error" else "warning"),
    textField "message" diagnostic.message, (bytes "span", spanTree diagnostic.span)]

def NodeEvent.name : NodeEvent → String
  | .start => "start"
  | .done => "done"
  | .skipped => "skipped"
  | .error => "error"

def nodeTree (message : NodeMessage) : JsonTree :=
  .obj ([textField "type" "node", textField "event" (NodeEvent.name message.event),
      textField "id" message.id, intField "nodeId" message.nodeId.toNat,
      textField "op" message.op, (bytes "span", spanTree message.span)] ++
    match message.message with
    | some text => [textField "message" text]
    | none => [])

/-- The name and the arguments `ForwardingRobotHost` forwards a call with. -/
def commandFields : RobotCommand → String × List (Bytes × JsonTree)
  | .driveForward speed durationMs =>
      ("drive_forward", [intField "speed" speed.toInt, intField "durationMs" durationMs.toInt])
  | .driveBackward speed durationMs =>
      ("drive_backward", [intField "speed" speed.toInt, intField "durationMs" durationMs.toInt])
  | .turnLeft degrees => ("turn_left", [intField "degrees" degrees.toInt])
  | .turnRight degrees => ("turn_right", [intField "degrees" degrees.toInt])
  | .stop => ("stop", [])
  | .waitMs durationMs => ("wait", [intField "durationMs" durationMs.toInt])
  | .setLight color => ("set_light", [textField "color" color.name])
  | .beep => ("beep", [])

def sensorFields : SensorReading → String × JsonTree
  | .distanceCm value => ("distance-cm", .int value.toInt)
  | .button pressed => ("button", .bool pressed)
  | .lineLeft seen => ("line-left", .bool seen)
  | .lineRight seen => ("line-right", .bool seen)

/-- What `JsonEventSink`, `ForwardingRobotHost` and the bridge write for a message. -/
def messageTree : HostMessage → JsonTree
  | .diagnostics ok diagnostics =>
      .obj [textField "type" "diagnostics", (bytes "ok", .bool ok),
        (bytes "diagnostics", .arr (diagnostics.map diagnosticTree))]
  | .programStart => .obj [textField "type" "programStart"]
  | .programDone => .obj [textField "type" "programDone"]
  | .programError message span =>
      .obj [textField "type" "programError", textField "message" message,
        (bytes "span", spanTree span)]
  | .node message => nodeTree message
  | .robotCommand call =>
      .obj [textField "type" "robotCommand", textField "command" (commandFields call).1,
        (bytes "args", .obj (commandFields call).2)]
  | .sensorRead reading =>
      .obj [textField "type" "sensorRead", textField "sensor" (sensorFields reading).1,
        (bytes "value", (sensorFields reading).2)]
  | .error message => .obj [textField "type" "error", textField "message" message]

def messageText (message : HostMessage) : Bytes :=
  (messageTree message).write

end CardCode.Harness
