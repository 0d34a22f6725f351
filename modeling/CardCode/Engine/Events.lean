import CardCode.Engine.Ast
import CardCode.Engine.Value
import CardCode.Foundation.Process

/-! # What a run shows and asks (`events.hpp`, `robot_host.hpp`) -/

namespace CardCode

inductive ExecutionEventType where
  | programStart
  | programDone
  | programError
  | nodeStart
  | nodeDone
  | nodeSkipped
  | nodeError
  deriving Repr, DecidableEq

/-- What the event sink receives. -/
structure ExecutionEvent where
  type : ExecutionEventType
  nodeId : UInt32 := 0
  span : SourceSpan := {}
  message : String := ""
  deriving Repr, DecidableEq

/-- One actuator call on the robot host. -/
inductive RobotCommand where
  | driveForward (speed durationMs : Int32)
  | driveBackward (speed durationMs : Int32)
  | turnLeft (degrees : Int32)
  | turnRight (degrees : Int32)
  | stop
  | waitMs (durationMs : Int32)
  | setLight (color : Color)
  | beep
  deriving Repr, DecidableEq

/-- One sensor read and the value the host returned. -/
inductive SensorReading where
  | distanceCm (value : Int32)
  | button (pressed : Bool)
  | lineLeft (seen : Bool)
  | lineRight (seen : Bool)
  deriving Repr, DecidableEq

/-- The kind of node that makes a given actuator call. -/
def RobotCommand.kind : RobotCommand → NodeKind
  | .driveForward .. => .drive
  | .driveBackward .. => .backward
  | .turnLeft _ => .turnLeft
  | .turnRight _ => .turnRight
  | .stop => .stop
  | .waitMs _ => .wait
  | .setLight _ => .light
  | .beep => .beep

/-- The kind of node that makes a given sensor read. -/
def SensorReading.kind : SensorReading → NodeKind
  | .distanceCm _ => .distanceCm
  | .button _ => .button
  | .lineLeft _ => .lineLeft
  | .lineRight _ => .lineRight

/-- Points of a run that nothing outside the interpreter can see. -/
inductive Mark where
  | whileIteration
  | repeatIteration (index : Nat)
  | enterCall (function : Node) (arguments : List Value)
  | exitCall
  /-- An arithmetic loop that has read these operands is about to combine the value it holds
  for them with the next one. -/
  | combining (op : String) (operands : List Int64) (accumulator operand : Int64)
  /-- An arithmetic loop has combined these operands into `result`. -/
  | combined (op : String) (operands : List Int64) (result : Int64)
  /-- An arithmetic node returns `result` for these operands. -/
  | computed (op : String) (operands : List Int64) (result : Int64)

/-- One entry of a run's trace. `emit` and `emitProgram` are the calls of the
functions of those names, with the node the former is given. The calls on the
host carry the node whose evaluation makes them; the final stop has none. -/
inductive Action where
  | emit (type : ExecutionEventType) (node : Node) (message : String)
  | emitProgram (type : ExecutionEventType) (message : String)
  | command (call : RobotCommand) (issuer : Option Node)
  | sensor (reading : SensorReading) (issuer : Node)
  | poll (cancelled : Bool)
  | mark (mark : Mark)

abbrev Trace := List Action

/-- The event the sink receives for an entry. -/
def Action.event? : Action → Option ExecutionEvent
  | .emit type node message => some { type, nodeId := node.id, span := node.span, message }
  | .emitProgram type message => some { type, message }
  | _ => none

inductive Query where
  | poll
  | distanceCm (issuer : Node)
  | button (issuer : Node)
  | lineLeft (issuer : Node)
  | lineRight (issuer : Node)

def Query.Reply : Query → Type
  | .distanceCm _ => Int32
  | _ => Bool

/-- The reply of a host where nothing happens: no cancellation, no obstacle at
hand, no button pressed, no line seen. -/
def Query.still : (query : Query) → query.Reply
  | .poll => false
  | .distanceCm _ => (0 : Int32)
  | .button _ => false
  | .lineLeft _ => false
  | .lineRight _ => false

instance (query : Query) : Nonempty query.Reply :=
  ⟨query.still⟩

@[reducible] def engineInterface : Interface where
  Action := Action
  Query := Query
  Reply := Query.Reply
  record
    | .poll, cancelled => .poll cancelled
    | .distanceCm issuer, value => .sensor (.distanceCm value) issuer
    | .button issuer, pressed => .sensor (.button pressed) issuer
    | .lineLeft issuer, seen => .sensor (.lineLeft seen) issuer
    | .lineRight issuer, seen => .sensor (.lineRight seen) issuer

end CardCode
