import CardCode.Engine.Compiler
import CardCode.Engine.Interpreter
import CardCode.Harness.JsonValue
import CardCode.Harness.Messages

/-! # The protocol bridge (`harness/protocol_bridge.hpp`)

The control thread handles messages one after another; every accepted run has a
worker thread of its own. The threads share the cancel flag, the running flag and
the sensors. A step is one access to what they share or one message that is
emitted, so any order of steps is an interleaving of the threads.
-/

namespace CardCode.Harness

/-- What a run request asks for. -/
structure Job where
  source : Bytes
  limits : ExecutionLimits

/-! ## Requests -/

/-- What the control thread is about to do; `idle` where it waits for a message. -/
inductive Control where
  | idle
  | fails (message : String)
  | compiles (source : Bytes)
  | exchanges (job : Job)
  | joins (job : Job)
  | clears (job : Job)
  | starts (job : Job)
  | cancels
  | stores (readings : List SensorReading)

/-- `static_cast<std::uint32_t>(x->as_int())` where the field is there. -/
def parseLimit (beyond : Rat → Int64) (limits : JsonValue) (key : String) (default : UInt32) :
    UInt32 :=
  match limits.find key with
  | some number => UInt32.ofInt (number.asInt beyond).toInt
  | none => default

def parseLimits (beyond : Rat → Int64) (limits : Option JsonValue) : ExecutionLimits :=
  let default : ExecutionLimits := {}
  match limits with
  | none => default
  | some limits =>
      { maxTotalSteps := parseLimit beyond limits "maxTotalSteps" default.maxTotalSteps
        maxRepeatCount := parseLimit beyond limits "maxRepeatCount" default.maxRepeatCount
        maxCallDepth := parseLimit beyond limits "maxCallDepth" default.maxCallDepth }

def doCompile (message : JsonValue) : Control :=
  match message.find "source" with
  | none => .fails "compile: missing 'source'"
  | some source => .compiles source.asStr

def doRun (beyond : Rat → Int64) (message : JsonValue) : Control :=
  match message.find "source" with
  | none => .fails "run: missing 'source'"
  | some source => .exchanges ⟨source.asStr, parseLimits beyond (message.find "limits")⟩

def doSetSensor (beyond : Rat → Int64) (message : JsonValue) : Control :=
  match message.find "sensor", message.find "value" with
  | some sensor, some value =>
      let name := sensor.asStr
      if name = bytes "distance-cm" then
        .stores [.distanceCm (Int32.ofInt (value.asInt beyond).toInt)]
      else if name = bytes "button" then .stores [.button value.asBool]
      else if name = bytes "line-left" then .stores [.lineLeft value.asBool]
      else if name = bytes "line-right" then .stores [.lineRight value.asBool]
      else .fails ("setSensor: unknown sensor '" ++ textOf name ++ "'")
  | _, _ => .fails "setSensor: missing 'sensor' or 'value'"

/-- The stores of `ForwardingRobotHost::reset`. -/
def resetReadings : List SensorReading :=
  [.distanceCm 1000, .button false, .lineLeft false, .lineRight false]

/-- `handle`, up to its first access to what the threads share; `none` is a message
that is no JSON text. `beyond` is what the conversion of a number delivers that is beyond
`long long`, which C++ leaves undefined. -/
def handle (beyond : Rat → Int64) (message : Option JsonValue) : Control :=
  match message with
  | some (.obj fields) =>
      let value := JsonValue.obj fields
      match value.find "type" with
      | some (.str type) =>
          if type = bytes "compile" then doCompile value
          else if type = bytes "run" then doRun beyond value
          else if type = bytes "cancel" then .cancels
          else if type = bytes "setSensor" then doSetSensor beyond value
          else if type = bytes "reset" then .stores resetReadings
          else .fails ("unknown message type '" ++ textOf type ++ "'")
      | _ => .fails "missing 'type'"
  | _ => .fails "malformed message"

/-- `emit_diagnostics`. -/
def diagnosticsMessage (result : CompileResult) : HostMessage :=
  .diagnostics result.ok result.diagnostics

/-! ## Workers -/

abbrev Execution := Process engineInterface Fault ExecutionResult

/-- Where the thread of a run stands. In `reporting` a sensor has been loaded and
its message is about to be emitted. -/
inductive Worker where
  | compiling (job : Job)
  | executing (execution : Execution)
  | reporting (message : HostMessage) (execution : Execution)
  | finishing
  | finished

/-- The state of `ForwardingRobotHost`. -/
structure Robot where
  distanceCm : Int32 := 1000
  button : Bool := false
  lineLeft : Bool := false
  lineRight : Bool := false

def Robot.store (robot : Robot) : SensorReading → Robot
  | .distanceCm value => { robot with distanceCm := value }
  | .button pressed => { robot with button := pressed }
  | .lineLeft seen => { robot with lineLeft := seen }
  | .lineRight seen => { robot with lineRight := seen }

/-- The bridge: its control thread, every thread it ever started and what they
share. `joinable` is that of `worker_`, the handle of the last thread. -/
structure Bridge where
  control : Control := .idle
  workers : List Worker := []
  joinable : Bool := false
  cancel : Bool := false
  running : Bool := false
  robot : Robot := {}

/-- What a query of the engine loads. -/
def Bridge.reply (bridge : Bridge) : (query : Query) → query.Reply
  | .poll => bridge.cancel
  | .distanceCm _ => bridge.robot.distanceCm
  | .button _ => bridge.robot.button
  | .lineLeft _ => bridge.robot.lineLeft
  | .lineRight _ => bridge.robot.lineRight

def Bridge.setWorker (bridge : Bridge) (run : Nat) (worker : Worker) : Bridge :=
  { bridge with workers := bridge.workers.set run worker }

/-- The process is there: it ends where a thread comes to an operation that traps. -/
def Bridge.Alive (bridge : Bridge) : Prop :=
  .executing (.fault .trapped) ∉ bridge.workers

theorem alive_empty {bridge : Bridge} (empty : bridge.workers = []) : bridge.Alive := by
  rw [Bridge.Alive, empty]
  exact List.not_mem_nil

theorem alive_single {bridge : Bridge} {worker : Worker} (single : bridge.workers = [worker])
    (goes : worker ≠ .executing (.fault .trapped)) : bridge.Alive := by
  rw [Bridge.Alive, single, List.mem_singleton]
  exact goes.symm

/-! ## Steps -/

/-- What a step shows. Runs are numbered in the order in which they are accepted. -/
inductive Label where
  | receive (message : Option JsonValue)
  | reply (message : HostMessage)
  | refuse
  | accept (job : Job)
  | join
  | clear
  | start
  | cancel
  | store (reading : SensorReading)
  | emit (run : Nat) (message : HostMessage)
  | poll (run : Nat) (seen : Bool)
  | load (run : Nat) (reading : SensorReading)
  | work (run : Nat)
  | finish (run : Nat)

/-- What a step of the thread of a run shows that performs an action. -/
def Label.ofAction (run : Nat) (action : Action) : Label :=
  match action.message? with
  | some message => .emit run message
  | none => .work run

inductive ControlStep (bridge : Bridge) : Label → Bridge → Prop
  | receive {message} {beyond : Rat → Int64} :
      bridge.control = .idle →
      ControlStep bridge (.receive message) { bridge with control := handle beyond message }
  | fail {message} :
      bridge.control = .fails message →
      ControlStep bridge (.reply (.error message)) { bridge with control := .idle }
  | compile {source result} :
      bridge.control = .compiles source → compile source = some result →
      ControlStep bridge (.reply (diagnosticsMessage result)) { bridge with control := .idle }
  | refuse {job} :
      bridge.control = .exchanges job → bridge.running = true →
      ControlStep bridge .refuse
        { bridge with control := .fails "a program is already running" }
  | accept {job} :
      bridge.control = .exchanges job → bridge.running = false →
      ControlStep bridge (.accept job) { bridge with control := .joins job, running := true }
  | join {job} :
      bridge.control = .joins job →
      (bridge.joinable = true → bridge.workers.getLast? = some .finished) →
      ControlStep bridge .join { bridge with control := .clears job, joinable := false }
  | clear {job} :
      bridge.control = .clears job →
      ControlStep bridge .clear { bridge with control := .starts job, cancel := false }
  /-- Assigning to a joinable `worker_` would end the process. -/
  | start {job} :
      bridge.control = .starts job → bridge.joinable = false →
      ControlStep bridge .start
        { bridge with
          control := .idle, workers := bridge.workers ++ [.compiling job], joinable := true }
  | cancel :
      bridge.control = .cancels →
      ControlStep bridge .cancel { bridge with control := .idle, cancel := true }
  | store {reading rest} :
      bridge.control = .stores (reading :: rest) →
      ControlStep bridge (.store reading)
        { bridge with
          control := if rest.isEmpty then .idle else .stores rest
          robot := bridge.robot.store reading }

/-- `overflow` is what the machine delivers where a 64-bit operation overflows. -/
inductive WorkerStep (overflow : String → Int64 → Int64 → Int64) (bridge : Bridge) (run : Nat) :
    Label → Bridge → Prop
  | accepted {job root diagnostics} :
      bridge.workers[run]? = some (.compiling job) →
      compile job.source = some ⟨some root, diagnostics⟩ → hasErrors diagnostics = false →
      WorkerStep overflow bridge run (.emit run (.diagnostics true diagnostics))
        (bridge.setWorker run
          (.executing (execute { limits := job.limits, overflow } root)))
  | rejected {job result} :
      bridge.workers[run]? = some (.compiling job) →
      compile job.source = some result → result.ok = false →
      WorkerStep overflow bridge run (.emit run (.diagnostics false result.diagnostics))
        (bridge.setWorker run .finishing)
  | act {action next} :
      bridge.workers[run]? = some (.executing (.act action next)) →
      WorkerStep overflow bridge run (.ofAction run action)
        (bridge.setWorker run (.executing next))
  | poll {next} :
      bridge.workers[run]? = some (.executing (.ask .poll next)) →
      WorkerStep overflow bridge run (.poll run bridge.cancel)
        (bridge.setWorker run (.executing (next bridge.cancel)))
  | sense {query next reading issuer} :
      bridge.workers[run]? = some (.executing (.ask query next)) →
      engineInterface.record query (bridge.reply query) = .sensor reading issuer →
      WorkerStep overflow bridge run (.load run reading)
        (bridge.setWorker run (.reporting (.sensorRead reading) (next (bridge.reply query))))
  | report {message execution} :
      bridge.workers[run]? = some (.reporting message execution) →
      WorkerStep overflow bridge run (.emit run message)
        (bridge.setWorker run (.executing execution))
  | done {result} :
      bridge.workers[run]? = some (.executing (.done result)) →
      WorkerStep overflow bridge run (.work run) (bridge.setWorker run .finishing)
  | finish :
      bridge.workers[run]? = some .finishing →
      WorkerStep overflow bridge run (.finish run)
        { bridge.setWorker run .finished with running := false }

/-- A step of either thread. -/
inductive Step (overflow : String → Int64 → Int64 → Int64) (bridge : Bridge) :
    Label → Bridge → Prop
  | control {label next} :
      ControlStep bridge label next → bridge.Alive → Step overflow bridge label next
  | worker {run label next} :
      WorkerStep overflow bridge run label next → bridge.Alive → Step overflow bridge label next

/-- What the bridge has done since it was made, and where that has led it. -/
inductive Reaches (overflow : String → Int64 → Int64 → Int64) : List Label → Bridge → Prop
  | initial : Reaches overflow [] {}
  | step {history bridge label next} :
      Reaches overflow history bridge → Step overflow bridge label next →
      Reaches overflow (history ++ [label]) next

def Label.message? : Label → Option HostMessage
  | .reply message => some message
  | .emit _ message => some message
  | _ => none

/-- The messages the bridge has emitted, in order. -/
def emitted (history : List Label) : List HostMessage :=
  history.filterMap Label.message?

end CardCode.Harness
