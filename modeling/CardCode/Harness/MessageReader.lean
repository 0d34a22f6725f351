import CardCode.Harness.JsonText
import CardCode.Syntax.Wording

/-! # Reading a message's fields back

`readMessage` takes a message from a JSON value, each field by its name. What the harness
writes of a message is read as that message, so no field is lost or changed on the way.
-/

namespace CardCode.Harness

/-! ## Fields -/

namespace JsonValue

def text? (value : JsonValue) (key : String) : Option String :=
  match value.find key with
  | some (.str text) => some (textOf text)
  | _ => none

def int? (value : JsonValue) (key : String) : Option Int :=
  match value.find key with
  | some (.num number) => some number.num
  | _ => none

def bool? (value : JsonValue) (key : String) : Option Bool :=
  match value.find key with
  | some (.bool value) => some value
  | _ => none

def uint32? (value : JsonValue) (key : String) : Option UInt32 :=
  (value.int? key).map UInt32.ofInt

def int32? (value : JsonValue) (key : String) : Option Int32 :=
  (value.int? key).map Int32.ofInt

end JsonValue

/-! ## Messages -/

def readSpan (value : JsonValue) : Option SourceSpan := do
  let startOffset ← value.uint32? "startOffset"
  let endOffset ← value.uint32? "endOffset"
  let startLine ← value.uint32? "startLine"
  let startColumn ← value.uint32? "startColumn"
  let endLine ← value.uint32? "endLine"
  let endColumn ← value.uint32? "endColumn"
  pure { startOffset, endOffset, startLine, startColumn, endLine, endColumn }

def readSeverity (name : String) : Option DiagnosticSeverity :=
  if name = "error" then some .error
  else if name = "warning" then some .warning
  else none

def readDiagnostic (value : JsonValue) : Option Diagnostic := do
  let severity ← (← value.text? "severity") |> readSeverity
  let message ← value.text? "message"
  let span ← (← value.find "span") |> readSpan
  pure { severity, span, message }

def readEvent (name : String) : Option NodeEvent :=
  if name = "start" then some .start
  else if name = "done" then some .done
  else if name = "skipped" then some .skipped
  else if name = "error" then some .error
  else none

def readNode (value : JsonValue) : Option NodeMessage := do
  let event ← (← value.text? "event") |> readEvent
  let id ← value.text? "id"
  let nodeId ← value.uint32? "nodeId"
  let op ← value.text? "op"
  let span ← (← value.find "span") |> readSpan
  pure { event, id, nodeId, op, span, message := value.text? "message" }

def readCommand (command : String) (args : JsonValue) : Option RobotCommand :=
  if command = "drive_forward" then do
    pure (.driveForward (← args.int32? "speed") (← args.int32? "durationMs"))
  else if command = "drive_backward" then do
    pure (.driveBackward (← args.int32? "speed") (← args.int32? "durationMs"))
  else if command = "turn_left" then (args.int32? "degrees").map .turnLeft
  else if command = "turn_right" then (args.int32? "degrees").map .turnRight
  else if command = "stop" then some .stop
  else if command = "wait" then (args.int32? "durationMs").map .waitMs
  else if command = "set_light" then ((args.text? "color").bind Color.fromName).map .setLight
  else if command = "beep" then some .beep
  else none

def readReading (sensor : String) (value : JsonValue) : Option SensorReading :=
  if sensor = "distance-cm" then (value.int32? "value").map .distanceCm
  else if sensor = "button" then (value.bool? "value").map .button
  else if sensor = "line-left" then (value.bool? "value").map .lineLeft
  else if sensor = "line-right" then (value.bool? "value").map .lineRight
  else none

/-- The message a value describes, its fields read by their names. -/
def readMessage (value : JsonValue) : Option HostMessage := do
  let type ← value.text? "type"
  if type = "diagnostics" then
    match value.find "diagnostics" with
    | some (.arr items) =>
        pure (.diagnostics (← value.bool? "ok") (← items.mapM readDiagnostic))
    | _ => none
  else if type = "programStart" then pure .programStart
  else if type = "programDone" then pure .programDone
  else if type = "programError" then
    pure (.programError (← value.text? "message") (← (← value.find "span") |> readSpan))
  else if type = "node" then (readNode value).map .node
  else if type = "robotCommand" then
    (readCommand (← value.text? "command") (← value.find "args")).map .robotCommand
  else if type = "sensorRead" then
    (readReading (← value.text? "sensor") value).map .sensorRead
  else if type = "error" then (value.text? "message").map .error
  else none

/-- The texts a message carries that are not its own. -/
def quotedTexts : HostMessage → List String
  | .diagnostics _ diagnostics => diagnostics.map Diagnostic.message
  | .programError message _ => [message]
  | .node message => message.id :: message.op :: message.message.toList
  | .error message => [message]
  | _ => []

/-- A `std::string`, one character a byte. -/
def OfBytes (text : String) : Prop :=
  ∀ c ∈ text.toList, c.toNat < 256

instance (text : String) : Decidable (OfBytes text) :=
  List.decidableBAll (fun c : Char => c.toNat < 256) text.toList

theorem textOf_bytes {text : String} (ofBytes : OfBytes text) : textOf (bytes text) = text := by
  rw [textOf, bytes, List.map_map, List.map_congr_left, List.map_id, String.ofList_toList]
  intro c member
  have small := ofBytes c member
  apply Char.ext
  apply UInt32.toNat_inj.mp
  change c.toUInt8.toUInt32.toNat = c.toNat
  rw [UInt8.toNat_toUInt32, Char.toUInt8, UInt32.toNat_toUInt8]
  exact Nat.mod_eq_of_lt small

theorem ofBytes_of_inAscii {text : String} (ascii : InAscii text) : OfBytes text :=
  fun c member => Nat.lt_trans (ascii c member) (by decide)

theorem command_inAscii (call : RobotCommand) : InAscii (commandFields call).1 := by
  have names : ∀ name ∈ ["drive_forward", "drive_backward", "turn_left", "turn_right", "stop",
      "wait", "set_light", "beep"], InAscii name := by
    decide
  apply names
  cases call <;> simp [commandFields]

theorem sensor_inAscii (reading : SensorReading) : InAscii (sensorFields reading).1 := by
  have names : ∀ name ∈ ["distance-cm", "button", "line-left", "line-right"], InAscii name := by
    decide
  apply names
  cases reading <;> simp [sensorFields]

/-! ## What is written is read -/

section Kept

variable {value : JsonValue} {key : String}

theorem uint32_kept {number : UInt32} (found : value.int? key = some (number.toNat : Int)) :
    value.uint32? key = some number := by
  have small : (number.toNat : Int) < 2 ^ 32 := Int.ofNat_lt.mpr number.toNat_lt
  rw [JsonValue.uint32?, found, Option.map_some, UInt32.ofInt,
    Int.emod_eq_of_lt (Int.natCast_nonneg _) small, Int.toNat_natCast, UInt32.ofNat_toNat]

theorem int32_kept {number : Int32} (found : value.int? key = some number.toInt) :
    value.int32? key = some number := by
  rw [JsonValue.int32?, found, Option.map_some, Int32.ofInt_toInt]

theorem text_kept {text : String} (ofBytes : OfBytes text)
    (found : value.find key = some (.str (bytes text))) : value.text? key = some text := by
  rw [JsonValue.text?, found]
  exact congrArg some (textOf_bytes ofBytes)

end Kept

theorem readSpan_value (span : SourceSpan) : readSpan (spanTree span).value = some span := by
  have startOffset : (spanTree span).value.uint32? "startOffset" = some span.startOffset :=
    uint32_kept rfl
  have endOffset : (spanTree span).value.uint32? "endOffset" = some span.endOffset :=
    uint32_kept rfl
  have startLine : (spanTree span).value.uint32? "startLine" = some span.startLine :=
    uint32_kept rfl
  have startColumn : (spanTree span).value.uint32? "startColumn" = some span.startColumn :=
    uint32_kept rfl
  have endLine : (spanTree span).value.uint32? "endLine" = some span.endLine := uint32_kept rfl
  have endColumn : (spanTree span).value.uint32? "endColumn" = some span.endColumn :=
    uint32_kept rfl
  rw [readSpan, startOffset, endOffset, startLine, startColumn, endLine, endColumn]
  rfl

theorem readDiagnostic_value {diagnostic : Diagnostic} (ofBytes : OfBytes diagnostic.message) :
    readDiagnostic (diagnosticTree diagnostic).value = some diagnostic := by
  have message : (diagnosticTree diagnostic).value.text? "message" = some diagnostic.message :=
    text_kept ofBytes rfl
  have span : (diagnosticTree diagnostic).value.find "span" =
      some (spanTree diagnostic.span).value := rfl
  rcases diagnostic with ⟨severity, place, text⟩
  have name : (diagnosticTree ⟨severity, place, text⟩).value.text? "severity" =
      some (if severity = .error then "error" else "warning") :=
    text_kept (by cases severity <;> decide) rfl
  rw [readDiagnostic, name, message, span]
  cases severity <;> simp [readSeverity, readSpan_value]

theorem readNode_value {message : NodeMessage} (id : OfBytes message.id) (op : OfBytes message.op)
    (text : ∀ text ∈ message.message, OfBytes text) :
    readNode (nodeTree message).value = some message := by
  have eventName : (nodeTree message).value.text? "event" = some (NodeEvent.name message.event) :=
    text_kept (by cases message.event <;> decide) rfl
  have event : readEvent (NodeEvent.name message.event) = some message.event := by
    cases message.event <;> rfl
  have idText : (nodeTree message).value.text? "id" = some message.id := text_kept id rfl
  have nodeId : (nodeTree message).value.uint32? "nodeId" = some message.nodeId := uint32_kept rfl
  have opText : (nodeTree message).value.text? "op" = some message.op := text_kept op rfl
  have span : (nodeTree message).value.find "span" = some (spanTree message.span).value := rfl
  have quoted : (nodeTree message).value.text? "message" = message.message := by
    rw [nodeTree]
    cases found : message.message with
    | none => rfl
    | some quoted => exact text_kept (text quoted found) rfl
  rw [readNode, eventName, idText, nodeId, opText, span, quoted]
  simp [event, readSpan_value]

theorem readCommand_value (call : RobotCommand) :
    readCommand (commandFields call).1 (JsonTree.obj (commandFields call).2).value = some call := by
  cases call with
  | driveForward speed durationMs | driveBackward speed durationMs =>
      have speedKept : (JsonTree.obj [intField "speed" speed.toInt,
          intField "durationMs" durationMs.toInt]).value.int32? "speed" = some speed :=
        int32_kept rfl
      have durationKept : (JsonTree.obj [intField "speed" speed.toInt,
          intField "durationMs" durationMs.toInt]).value.int32? "durationMs" = some durationMs :=
        int32_kept rfl
      simp [readCommand, commandFields, speedKept, durationKept]
  | turnLeft degrees | turnRight degrees =>
      have kept : (JsonTree.obj [intField "degrees" degrees.toInt]).value.int32? "degrees" =
          some degrees := int32_kept rfl
      simp [readCommand, commandFields, kept]
  | waitMs durationMs =>
      have kept : (JsonTree.obj [intField "durationMs" durationMs.toInt]).value.int32?
          "durationMs" = some durationMs := int32_kept rfl
      simp [readCommand, commandFields, kept]
  | setLight color =>
      have kept : (JsonTree.obj [textField "color" color.name]).value.text? "color" =
          some color.name := text_kept (by cases color <;> decide) rfl
      have named : Color.fromName color.name = some color := by cases color <;> rfl
      simp [readCommand, commandFields, kept, named]
  | stop | beep => rfl

theorem readDiagnostics_value {diagnostics : List Diagnostic}
    (ofBytes : ∀ diagnostic ∈ diagnostics, OfBytes diagnostic.message) :
    (JsonTree.valueAll (diagnostics.map diagnosticTree)).mapM readDiagnostic =
      some diagnostics := by
  induction diagnostics with
  | nil => rfl
  | cons diagnostic rest induction =>
      rw [List.forall_mem_cons] at ofBytes
      rw [List.map_cons, JsonTree.valueAll, List.mapM_cons, readDiagnostic_value ofBytes.1,
        induction ofBytes.2]
      rfl

/-- A message is read from its tree as it was. -/
theorem readMessage_value {message : HostMessage}
    (ofBytes : ∀ text ∈ quotedTexts message, OfBytes text) :
    readMessage (messageTree message).value = some message := by
  cases message with
  | programStart | programDone => rfl
  | diagnostics ok diagnostics =>
      have items : (messageTree (.diagnostics ok diagnostics)).value.find "diagnostics" =
          some (.arr (JsonTree.valueAll (diagnostics.map diagnosticTree))) := rfl
      have flag : (messageTree (.diagnostics ok diagnostics)).value.bool? "ok" = some ok := rfl
      have type : (messageTree (.diagnostics ok diagnostics)).value.text? "type" =
          some "diagnostics" := rfl
      rw [quotedTexts, List.forall_mem_map] at ofBytes
      rw [readMessage, type, items, flag]
      simp [readDiagnostics_value ofBytes]
  | programError text span =>
      have type : (messageTree (.programError text span)).value.text? "type" =
          some "programError" := rfl
      have kept : (messageTree (.programError text span)).value.text? "message" = some text :=
        text_kept (ofBytes text List.mem_cons_self) rfl
      have place : (messageTree (.programError text span)).value.find "span" =
          some (spanTree span).value := rfl
      rw [readMessage, type, kept, place]
      simp [readSpan_value]
  | node message =>
      have type : (messageTree (.node message)).value.text? "type" = some "node" := by
        rw [messageTree, nodeTree]
        rfl
      rw [quotedTexts, List.forall_mem_cons, List.forall_mem_cons] at ofBytes
      have read : readNode (messageTree (.node message)).value = some message :=
        readNode_value ofBytes.1 ofBytes.2.1
          fun text member => ofBytes.2.2 text (Option.mem_toList.mpr member)
      rw [readMessage, type, read]
      rfl
  | robotCommand call =>
      have type : (messageTree (.robotCommand call)).value.text? "type" = some "robotCommand" :=
        rfl
      have name : (messageTree (.robotCommand call)).value.text? "command" =
          some (commandFields call).1 :=
        text_kept (ofBytes_of_inAscii (command_inAscii call)) rfl
      have args : (messageTree (.robotCommand call)).value.find "args" =
          some (JsonTree.obj (commandFields call).2).value := rfl
      rw [readMessage, type, name, args]
      simp [readCommand_value]
  | sensorRead reading =>
      have type : (messageTree (.sensorRead reading)).value.text? "type" = some "sensorRead" := rfl
      have name : (messageTree (.sensorRead reading)).value.text? "sensor" =
          some (sensorFields reading).1 :=
        text_kept (ofBytes_of_inAscii (sensor_inAscii reading)) rfl
      have read : readReading (sensorFields reading).1
          (messageTree (.sensorRead reading)).value = some reading := by
        cases reading with
        | distanceCm value =>
            have kept : (messageTree (.sensorRead (.distanceCm value))).value.int32? "value" =
                some value := int32_kept rfl
            simp [readReading, sensorFields, kept]
        | button | lineLeft | lineRight => rfl
      rw [readMessage, type, name]
      simp [read]
  | error text =>
      have type : (messageTree (.error text)).value.text? "type" = some "error" := rfl
      have kept : (messageTree (.error text)).value.text? "message" = some text :=
        text_kept (ofBytes text List.mem_cons_self) rfl
      rw [readMessage, type, kept]
      rfl

end CardCode.Harness
