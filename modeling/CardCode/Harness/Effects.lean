import CardCode.Harness.Serial

/-! # What the steps do

A step shows what it does to the fields of the bridge and what it finds there, so that a
history tells what the fields are.
-/

namespace CardCode.Harness

/-- The fields of the bridge, and how many threads it has started. -/
structure Memory where
  cancel : Bool := false
  running : Bool := false
  joinable : Bool := false
  started : Nat := 0
  robot : Robot := {}

def Bridge.memory (bridge : Bridge) : Memory where
  cancel := bridge.cancel
  running := bridge.running
  joinable := bridge.joinable
  started := bridge.workers.length
  robot := bridge.robot

/-- What a step makes of the fields. -/
def Label.effect (memory : Memory) : Label → Memory
  | .accept _ => { memory with running := true }
  | .join => { memory with joinable := false }
  | .clear => { memory with cancel := false }
  | .start => { memory with joinable := true, started := memory.started + 1 }
  | .cancel => { memory with cancel := true }
  | .store reading => { memory with robot := memory.robot.store reading }
  | .finish _ => { memory with running := false }
  | .receive _ | .reply _ | .refuse | .emit _ _ | .poll _ _ | .load _ _ | .work _ => memory

/-- The fields after all that has been done. -/
def memoryAfter (history : List Label) : Memory :=
  history.foldl Label.effect {}

theorem memoryAfter_snoc (history : List Label) (label : Label) :
    memoryAfter (history ++ [label]) = label.effect (memoryAfter history) := by
  rw [memoryAfter, List.foldl_append]
  rfl

/-- A sensor of the robot holds this value. -/
def Robot.Holds (robot : Robot) : SensorReading → Prop
  | .distanceCm value => robot.distanceCm = value
  | .button pressed => robot.button = pressed
  | .lineLeft seen => robot.lineLeft = seen
  | .lineRight seen => robot.lineRight = seen

/-- What a step shows of the fields is what it finds there. -/
def Label.Finds (memory : Memory) : Label → Prop
  | .accept _ => memory.running = false
  | .refuse => memory.running = true
  | .start => memory.joinable = false
  | .poll _ seen => memory.cancel = seen
  | .load _ reading => memory.robot.Holds reading
  | _ => True

section Steps

variable {overflow : String → Int64 → Int64 → Int64} {history : List Label}
variable {bridge next : Bridge} {label : Label} {run : Nat}

theorem ofAction_effect (run : Nat) (action : Action) (memory : Memory) :
    (Label.ofAction run action).effect memory = memory := by
  rw [Label.ofAction]
  split <;> rfl

theorem ControlStep.memory (step : ControlStep bridge label next) :
    next.memory = label.effect bridge.memory := by
  cases step with
  | start =>
      rw [Bridge.memory, List.length_append]
      rfl
  | _ => rfl

theorem Bridge.memory_setWorker (bridge : Bridge) (run : Nat) (worker : Worker) :
    (bridge.setWorker run worker).memory = bridge.memory := by
  rw [Bridge.memory, Bridge.setWorker, List.length_set]
  rfl

theorem WorkerStep.memory (step : WorkerStep overflow bridge run label next) :
    next.memory = label.effect bridge.memory := by
  cases step with
  | act => rw [ofAction_effect, Bridge.memory_setWorker]
  | finish =>
      have kept := bridge.memory_setWorker run .finished
      rw [Label.effect, ← kept]
      rfl
  | _ => exact bridge.memory_setWorker run _

/-- Nothing but what the steps show is done to the fields. -/
theorem Reaches.memory (reaches : Reaches overflow history bridge) :
    bridge.memory = memoryAfter history := by
  induction reaches with
  | initial => rfl
  | step _ step induction =>
      rw [memoryAfter_snoc, ← induction]
      cases step with
      | control step => exact step.memory
      | worker step => exact step.memory

theorem reply_holds {query : Query} {reading : SensorReading} {issuer : Node}
    (about : engineInterface.record query (bridge.reply query) = .sensor reading issuer) :
    bridge.robot.Holds reading := by
  cases query with
  | poll => cases about
  | distanceCm | button | lineLeft | lineRight => cases about; rfl

theorem ControlStep.finds (step : ControlStep bridge label next) : label.Finds bridge.memory := by
  cases step with
  | accept _ rests => exact rests
  | refuse _ runs => exact runs
  | start _ joined => exact joined
  | _ => trivial

theorem WorkerStep.finds (step : WorkerStep overflow bridge run label next) :
    label.Finds bridge.memory := by
  cases step with
  | act =>
      rw [Label.ofAction]
      split <;> trivial
  | poll => rfl
  | sense _ about => exact reply_holds about
  | _ => trivial

theorem Reaches.finds (reaches : Reaches overflow history bridge) :
    ∀ before label after, history = before ++ label :: after →
      label.Finds (memoryAfter before) := by
  refine reaches.each (fun before label => label.Finds (memoryAfter before)) ?_
  intro history bridge label next reaches step
  rw [← reaches.memory]
  cases step with
  | control step => exact step.finds
  | worker step => exact step.finds

/-- The thread of a run compiles what the run was accepted for. -/
theorem Reaches.compiles {job : Job} (reaches : Reaches overflow history bridge)
    (stands : bridge.workers[run]? = some (.compiling job)) :
    (accepted history)[run]? = some job := by
  rcases reaches.phase.thread stands nofun with
    ⟨-, -, jobs, job, -, block, rfl, -, jobsAre, -, -, progress⟩
  cases progress
  rw [jobsAre, List.getElem?_concat_length]

end Steps

end CardCode.Harness
