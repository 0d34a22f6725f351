import CardCode.Engine.Events

/-! # The host's messages (`json_event_sink.hpp`, `forwarding_host.hpp`)

Messages are kept as the fields written into them, before they become JSON text.
-/

namespace CardCode

/-- The `event` field of a `node` message. -/
inductive NodeEvent where
  | start
  | done
  | skipped
  | error
  deriving Repr, DecidableEq

structure NodeMessage where
  event : NodeEvent
  id : String
  nodeId : UInt32
  op : String
  span : SourceSpan
  message : Option String
  deriving Repr, DecidableEq

inductive HostMessage where
  | diagnostics (ok : Bool) (diagnostics : List Diagnostic)
  | programStart
  | programDone
  | programError (message : String) (span : SourceSpan)
  | node (message : NodeMessage)
  | robotCommand (call : RobotCommand)
  | sensorRead (reading : SensorReading)
  | error (message : String)
  deriving Repr, DecidableEq

def nodeIdToString (id : UInt32) : String :=
  "n" ++ toString id.toNat

/-- `node_json`: `op` is whatever message the event carries. -/
def nodeJson (event : NodeEvent) (e : ExecutionEvent) : NodeMessage where
  event := event
  id := nodeIdToString e.nodeId
  nodeId := e.nodeId
  op := e.message
  span := e.span
  message := if e.type = .nodeError then some e.message else none

/-- `JsonEventSink::on_event`. -/
def onEvent (e : ExecutionEvent) : HostMessage :=
  match e.type with
  | .programStart => .programStart
  | .programDone => .programDone
  | .programError => .programError e.message e.span
  | .nodeStart => .node (nodeJson .start e)
  | .nodeDone => .node (nodeJson .done e)
  | .nodeSkipped => .node (nodeJson .skipped e)
  | .nodeError => .node (nodeJson .error e)

/-- The message the harness writes for an entry of a run's trace. -/
def Action.message? (action : Action) : Option HostMessage :=
  match action.event? with
  | some event => some (onEvent event)
  | none =>
      match action with
      | .command call _ => some (.robotCommand call)
      | .sensor reading _ => some (.sensorRead reading)
      | _ => none

def Trace.messages (trace : Trace) : List HostMessage :=
  trace.filterMap Action.message?

end CardCode
