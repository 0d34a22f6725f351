import CardCode.Harness.Requests
import CardCode.Semantics.Initiative

/-! # Sensors of the robot

A run's thread loads a sensor and shows what it loaded in a step of its own. Meanwhile the
control thread may store other values, and none of them is ever shown in its place.
-/

namespace CardCode.Harness

open Process

section Steps

variable {overflow : String → Int64 → Int64 → Int64} {history : List Label}
variable {bridge next : Bridge} {label : Label} {run : Nat}

/-! ## What is loaded -/

/-- The thread's last step was a load of the value that the message is about. -/
def Loaded (history : List Label) (run : Nat) (message : HostMessage) : Prop :=
  ∃ earlier between reading, history = earlier ++ .load run reading :: between ∧
    (∀ label ∈ between, label.run? ≠ some run) ∧ message = .sensorRead reading ∧
    (memoryAfter earlier).robot.Holds reading

theorem Loaded.later {message : HostMessage} (loaded : Loaded history run message)
    (other : label.run? ≠ some run) : Loaded (history ++ [label]) run message := by
  rcases loaded with ⟨earlier, between, reading, rfl, others, about, holds⟩
  refine ⟨earlier, between ++ [label], reading, by simp, ?_, about, holds⟩
  intro found member
  rcases List.mem_append.mp member with member | member
  · exact others found member
  · rw [List.mem_singleton.mp member]
    exact other

/-- Where a thread stands after a step of its own, if it is about to show a reading. -/
theorem WorkerStep.reporting {message : HostMessage} {execution : Execution}
    (reaches : Reaches overflow history bridge)
    (step : WorkerStep overflow bridge run label next)
    (stands : next.workers[run]? = some (.reporting message execution)) :
    Loaded (history ++ [label]) run message := by
  have inside {earlier later : Worker} (stood : bridge.workers[run]? = some earlier)
      (moved : (bridge.workers.set run later)[run]? = some (.reporting message execution)) :
      later = .reporting message execution := by
    rw [List.getElem?_set_self (List.getElem?_eq_some_iff.mp stood).1] at moved
    exact Option.some.inj moved
  cases step with
  | @sense _ _ reading _ stood about =>
      cases inside stood stands
      have holds : bridge.memory.robot.Holds reading := reply_holds about
      rw [reaches.memory] at holds
      exact ⟨history, [], reading, rfl, nofun, rfl, holds⟩
  | accepted stood | rejected stood | act stood | poll stood | report stood | done stood
  | finish stood =>
      cases inside stood stands

theorem Reaches.reporting {message : HostMessage} {execution : Execution}
    (reaches : Reaches overflow history bridge)
    (stands : bridge.workers[run]? = some (.reporting message execution)) :
    Loaded history run message := by
  induction reaches with
  | initial => cases stands
  | @step history bridge label next reaches step induction =>
      cases step with
      | control step =>
          refine (induction ?_).later (by rw [step.run?]; exact nofun)
          cases step with
          | start =>
              rw [List.getElem?_append] at stands
              split at stands
              · exact stands
              · rw [List.getElem?_singleton] at stands
                split at stands <;> cases stands
          | _ => exact stands
      | @worker moved _ _ step =>
          by_cases same : moved = run
          · subst same
            exact step.reporting reaches stands
          · refine (induction ?_).later ?_
            · rcases step.set with ⟨later, workers⟩
              rwa [workers, List.getElem?_set_ne same] at stands
            · rw [step.run?]
              exact fun equal => same (Option.some.inj equal)

theorem own_message {action : Action} (own : action.isOwn = true) (reading : SensorReading) :
    action.message? ≠ some (.sensorRead reading) := by
  have event (found : ExecutionEvent) : some (onEvent found) ≠ some (.sensorRead reading) := by
    rw [onEvent]
    split <;> exact nofun
  cases action with
  | emit | emitProgram => exact event _
  | command | mark => exact nofun
  | sensor | poll => cases own

/-- A program shows no sensor by an action of its own. -/
theorem Reaches.acts_silently {action : Action} {rest : Execution}
    (reaches : Reaches overflow history bridge)
    (stands : bridge.workers[run]? = some (.executing (.act action rest)))
    (reading : SensorReading) : action.message? ≠ some (.sensorRead reading) := by
  rcases reaches.phase.thread stands nofun with ⟨-, -, _, job, _, _, -, -, -, -, -, progress⟩
  cases progress with
  | executing compiled clean reached =>
      cases (owns_execute _ _).after reached with
      | act own => exact own_message own reading

/-- Every value a run shows is the one the robot held when the run's thread loaded it, in
that thread's last step. -/
theorem Reaches.sensors_shown (reaches : Reaches overflow history bridge) :
    ∀ before run reading after, history = before ++ .emit run (.sensorRead reading) :: after →
      ∃ earlier between, before = earlier ++ .load run reading :: between ∧
        (∀ label ∈ between, label.run? ≠ some run) ∧
        (memoryAfter earlier).robot.Holds reading := by
  intro before run reading after split
  refine reaches.each (fun before label => ∀ run reading, label = .emit run (.sensorRead reading) →
    ∃ earlier between, before = earlier ++ .load run reading :: between ∧
      (∀ label ∈ between, label.run? ≠ some run) ∧
      (memoryAfter earlier).robot.Holds reading) ?_ before _ after split run reading rfl
  intro history bridge label next reaches step run reading labelled
  cases step with
  | control step => cases step <;> cases labelled
  | worker step =>
      cases step with
      | report stands =>
          cases labelled
          rcases reaches.reporting stands with
            ⟨earlier, between, shown, split, others, same, holds⟩
          cases same
          exact ⟨earlier, between, split, others, holds⟩
      | act stands =>
          rw [Label.ofAction] at labelled
          split at labelled
          next about =>
            cases labelled
            exact absurd about (reaches.acts_silently stands reading)
          next => cases labelled
      | _ => cases labelled

/-! ## A run left alone -/

theorem emissions_cons (label : Label) (more : List Label) :
    emissions (label :: more) = label.emission?.toList ++ emissions more := by
  rw [emissions, emissions, List.filterMap_cons]
  cases label.emission? <;> rfl

theorem messages_cons (action : Action) (trace : Trace) :
    Trace.messages (action :: trace) = action.message?.toList ++ Trace.messages trace := by
  rw [Trace.messages, Trace.messages, List.filterMap_cons]
  cases action.message? <;> rfl

theorem ofAction_emission (action : Action) :
    (Label.ofAction run action).emission?.toList =
      action.message?.toList.map fun message => (run, message) := by
  rw [Label.ofAction]
  cases action.message? <;> rfl

/-- What the thread of a run emits when no other thread makes a step. -/
def shownAlone (bridge : Bridge) (run asked : Nat) (execution : Execution) :
    List (Nat × HostMessage) :=
  (Trace.messages (respond (fun _ => bridge.reply) asked execution).1).map
    fun message => (run, message)

theorem shownAlone_act (asked : Nat) (action : Action) (rest : Execution) :
    shownAlone bridge run asked (.act action rest) =
      (Label.ofAction run action).emission?.toList ++ shownAlone bridge run asked rest := by
  rw [shownAlone, respond, messages_cons, List.map_append, ofAction_emission]
  rfl

theorem shownAlone_ask (asked : Nat) (query : Query) (rest : query.Reply → Execution) :
    shownAlone bridge run asked (.ask query rest) =
      ((engineInterface.record query (bridge.reply query)).message?.toList.map
        fun message => (run, message)) ++
        shownAlone bridge run (asked + 1) (rest (bridge.reply query)) := by
  rw [shownAlone, respond, messages_cons, List.map_append]
  rfl

theorem shownAlone_setWorker (asked : Nat) (worker : Worker) (execution : Execution) :
    shownAlone (bridge.setWorker run worker) run asked execution =
      shownAlone bridge run asked execution := by
  have replies : (bridge.setWorker run worker).reply = bridge.reply := by
    funext query
    cases query <;> rfl
  rw [shownAlone, replies, shownAlone]

/-- While nothing is stored and nobody cancels, a run's thread shows what its program does
with the values there are. -/
theorem Reaches.left_alone {execution : Execution} (reaches : Reaches overflow history bridge)
    (stands : bridge.workers[run]? = some (.executing execution)) (asked : Nat) :
    ∃ more later, Reaches overflow (history ++ more) later ∧
      emissions more = shownAlone bridge run asked execution := by
  induction execution generalizing history bridge asked with
  | done | fault => exact ⟨[], bridge, by rwa [List.append_nil], rfl⟩
  | act action rest induction =>
      have alive := reaches.phase.alive stands nofun nofun
      have stays : (bridge.setWorker run (.executing rest)).workers[run]? =
          some (.executing rest) :=
        List.getElem?_set_self (List.getElem?_eq_some_iff.mp stands).1
      rcases induction (reaches.step (.worker (.act stands) alive)) stays asked with
        ⟨more, later, reached, shown⟩
      rw [List.append_assoc] at reached
      refine ⟨_, later, reached, ?_⟩
      rw [List.singleton_append, emissions_cons, shown, shownAlone_setWorker, shownAlone_act]
  | ask query rest induction =>
      have alive := reaches.phase.alive stands nofun nofun
      have stays (worker : Worker) : (bridge.setWorker run worker).workers[run]? = some worker :=
        List.getElem?_set_self (List.getElem?_eq_some_iff.mp stands).1
      cases about : engineInterface.record query (bridge.reply query) with
      | poll seen =>
          cases query with
          | poll =>
              rcases induction bridge.cancel (reaches.step (.worker (.poll stands) alive))
                (stays _) (asked + 1) with ⟨more, later, reached, shown⟩
              rw [List.append_assoc] at reached
              refine ⟨_, later, reached, ?_⟩
              rw [List.singleton_append, emissions_cons, shown, shownAlone_setWorker,
                shownAlone_ask, about]
              rfl
          | _ => cases about
      | sensor reading issuer =>
          have loaded := reaches.step (.worker (.sense stands about) alive)
          have told := loaded.step
            (.worker (.report (stays _)) (loaded.phase.alive (stays _) nofun nofun))
          have again (first second : Worker) :
              ((bridge.setWorker run first).setWorker run second).workers[run]? = some second :=
            List.getElem?_set_self (List.getElem?_eq_some_iff.mp (stays first)).1
          rcases induction (bridge.reply query) told (again _ _) (asked + 1) with
            ⟨more, later, reached, shown⟩
          rw [List.append_assoc, List.append_assoc] at reached
          refine ⟨_, later, reached, ?_⟩
          rw [List.singleton_append, List.singleton_append, emissions_cons, emissions_cons, shown,
            shownAlone_setWorker, shownAlone_setWorker, shownAlone_ask, about]
          rfl
      | emit | emitProgram | command | mark => cases query <;> cases about

end Steps

/-! ## A distance that is waited for -/

def waitDistanceProgram : Program :=
  (Program.ofSource? (bytes "(wait (distance-cm))")).get (by decide +kernel)

def setDistanceRequest : JsonValue :=
  .obj [(bytes "type", .str (bytes "setSensor")), (bytes "sensor", .str (bytes "distance-cm")),
    (bytes "value", .num 7)]

/-- The bridge while its first run executes a program, where the distance is seven. -/
def executingBridge (program : Program) : Bridge where
  workers := [.executing (execute { limits := {}, overflow := calmSetting.overflow } program.root)]
  joinable := true
  running := true
  robot := { distanceCm := 7 }

theorem executing_reaches (program : Program) :
    ∃ history, Reaches calmSetting.overflow history (executingBridge program) := by
  let job : Job := ⟨program.source, {}⟩
  let beyond : Rat → Int64 := fun _ => 0
  have rests : Reaches calmSetting.overflow [] {} := .initial
  have asked := rests.step
    (.control (@ControlStep.receive _ (some setDistanceRequest) beyond rfl) (alive_empty rfl))
  have stored := asked.step
    (.control (@ControlStep.store _ (.distanceCm 7) [] rfl) (alive_empty rfl))
  have received := stored.step
    (.control (@ControlStep.receive _ (some (runRequest program.source)) beyond rfl)
      (alive_empty rfl))
  have accepted := received.step
    (.control (@ControlStep.accept _ job rfl rfl) (alive_empty rfl))
  have joined := accepted.step (.control (.join rfl nofun) (alive_empty rfl))
  have cleared := joined.step (.control (.clear rfl) (alive_empty rfl))
  have started := cleared.step (.control (.start rfl rfl) (alive_empty rfl))
  exact ⟨_, started.step (.worker (@WorkerStep.accepted _ _ 0 job _ _ rfl program.compiled
    program.accepted) (alive_single rfl nofun))⟩

/-- What the program shows there. -/
def waitDistanceShown : List HostMessage :=
  Trace.messages (respond (fun _ => (executingBridge waitDistanceProgram).reply) 0
    (execute { limits := {}, overflow := calmSetting.overflow } waitDistanceProgram.root)).1

theorem distance_shown :
    ∃ before after bridge, Reaches calmSetting.overflow
        (before ++ .emit 0 (.sensorRead (.distanceCm 7)) :: after) bridge ∧
      ∃ earlier between, before = earlier ++ .load 0 (.distanceCm 7) :: between ∧
        (∀ label ∈ between, label.run? ≠ some 0) ∧
        (memoryAfter earlier).robot.Holds (.distanceCm 7) := by
  rcases executing_reaches waitDistanceProgram with ⟨history, reaches⟩
  rcases @Reaches.left_alone _ _ _ 0 _ reaches rfl 0 with ⟨more, bridge, reached, shown⟩
  have told : HostMessage.sensorRead (.distanceCm 7) ∈ waitDistanceShown := by
    decide +kernel
  have numbered : (0, .sensorRead (.distanceCm 7)) ∈ emissions more := by
    rw [shown]
    exact List.mem_map_of_mem told
  have emitted : Label.emit 0 (.sensorRead (.distanceCm 7)) ∈ history ++ more := by
    rcases List.mem_filterMap.mp numbered with ⟨label, member, emission⟩
    cases label with
    | emit =>
        cases emission
        exact List.mem_append_right _ member
    | _ => cases emission
  rcases List.append_of_mem emitted with ⟨before, after, split⟩
  exact ⟨before, after, bridge, split ▸ reached, reached.sensors_shown before 0 _ after split⟩

end CardCode.Harness
