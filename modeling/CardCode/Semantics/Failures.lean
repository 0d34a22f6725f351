import CardCode.Compilation.Extents
import CardCode.Semantics.NodeEvents

/-! # How a failure is reported

A run that fails reports it three times: as the error of a node, in its result and in its
last event. The error of the node and the result agree. The last event, and with it the
message that is sent, has the same text but no place in the source.
-/

namespace CardCode

open Process

/-- The events the sink receives in a run. -/
def Trace.events (trace : Trace) : List ExecutionEvent :=
  trace.filterMap Action.event?

/-- A run fails, and not because it is cancelled. -/
def FailsInRun (trace : Trace) (result : ExecutionResult) : Prop :=
  result.success = false ∧ .poll true ∉ trace

def ExecutionEvent.isNodeError (event : ExecutionEvent) : Bool :=
  event.type = .nodeError

/-- There is one node error, and its message and span, those of the result and those of the
last event and of the message sent for it are the same, the span that of a node. -/
def ReportsAgree (root : Node) (trace : Trace) (result : ExecutionResult) : Prop :=
  ∃ node message, Node.Within node root ∧
    (∃ event, trace.events.filter ExecutionEvent.isNodeError = [event] ∧
      event.span = node.span ∧ event.message = message) ∧
    result.error = some ⟨.error, node.span, message⟩ ∧
    (∃ event, trace.events.getLast? = some event ∧ event.type = .programError ∧
      event.span = node.span ∧ event.message = message) ∧
    trace.messages.getLast? = some (.programError message node.span)

/-- How a failure at a node is reported. -/
structure FailureReport (root : Node) (trace : Trace) (result : ExecutionResult) (node : Node)
    (message : String) : Prop where
  within : Node.Within node root
  once : trace.events.filter ExecutionEvent.isNodeError =
    [⟨.nodeError, node.id, node.span, message⟩]
  returned : result.error = some ⟨.error, node.span, message⟩
  last : trace.events.getLast? = some ⟨.programError, 0, {}, message⟩
  sent : trace.messages.getLast? = some (.programError message {})

/-! ## What is seen of a trace -/

/-- A reader that skips marks sees the visible entries. -/
theorem filterMap_visible {β : Type} {read : Action → Option β}
    (skips : ∀ point, read (.mark point) = none) (trace : Trace) :
    trace.visible.filterMap read = trace.filterMap read := by
  rw [Trace.visible, List.filterMap_filter]
  congr 1
  funext entry
  cases entry with
  | mark point => exact (skips point).symm
  | _ => rfl

theorem no_program_report {stack opened : List OpenNode} {trace : Trace}
    (reaches : openNodes stack trace = some opened) :
    ∀ type message, .emitProgram type message ∉ trace := by
  induction trace generalizing stack with
  | nil => exact fun _ _ member => nomatch member
  | cons entry rest induction =>
      rw [openNodes_cons] at reaches
      rcases Option.bind_eq_some_iff.mp reaches with ⟨next, advances, later⟩
      intro type message member
      rcases List.mem_cons.mp member with rfl | member
      · cases stack <;> cases advances
      · exact induction later type message member

/-- A calm trace of nodes has no node error in it. -/
theorem calm_no_nodeError {opened : List OpenNode} {trace : Trace}
    (reaches : openNodes [] trace = some opened) (calm : Trace.Calm trace) :
    trace.events.filter ExecutionEvent.isNodeError = [] := by
  apply List.filter_eq_nil_iff.mpr
  intro event member
  rcases List.mem_filterMap.mp member with ⟨entry, present, shown⟩
  have quiet := calm entry present
  cases entry with
  | emit type node message =>
      cases shown
      cases type with
      | nodeError => cases quiet
      | _ => exact Bool.false_ne_true
  | emitProgram type message => exact absurd present (no_program_report reaches type message)
  | _ => cases shown

/-! ## Failures -/

variable (program : Program) (setting : Setting) {trace : Trace} {result : ExecutionResult}

/-- The error of a run is that of a node of the tree. -/
theorem Program.error_within (run : Run (execute setting program.root) trace (.ok result))
    {node : Node} {message : String} (member : .emit .nodeError node message ∈ trace) :
    Node.Within node program.root := by
  rcases program.run_leaves setting run (program.within_inherited setting) .self _ member with
    report | ⟨own, within, leaves⟩
  · cases report
  · cases leaves with
    | complained _ | undefined => exact within
    | issued issues issued => cases issues <;> simp at issued

theorem Program.failure_reported
    (run : Run (execute setting program.root) trace (.ok result))
    (fails : FailsInRun trace result) :
    ∃ node message, FailureReport program.root trace result node message := by
  have events : trace.visible.events = trace.events := filterMap_visible (fun _ => rfl) trace
  have messages : trace.visible.messages = trace.messages := filterMap_visible (fun _ => rfl) trace
  have inside : ∀ entry ∈ trace.visible, entry ∈ trace :=
    fun _ member => List.mem_of_mem_filter member
  rcases execute_run run with ⟨_, performs⟩
  have shape := executeBody_shape performs
  generalize trace.visible = visible at events messages inside shape
  cases shape with
  | done => cases fails.1
  | cancelled => exact absurd (inside _ (by simp)) fails.2
  | @failed body opened node message _ reaches calm _ =>
      have within := program.error_within setting run
        (inside (.emit .nodeError node message) (by simp))
      have seen : trace.events = ⟨.programStart, 0, {}, ""⟩ :: (Trace.events body ++
          [⟨.nodeError, node.id, node.span, message⟩, ⟨.programError, 0, {}, message⟩]) :=
        events.symm.trans (congrArg (List.cons _) List.filterMap_append)
      have told : trace.messages = .programStart :: (Trace.messages body ++
          [.node (nodeJson .error ⟨.nodeError, node.id, node.span, message⟩), .robotCommand .stop,
            .programError message {}]) :=
        messages.symm.trans (congrArg (List.cons _) List.filterMap_append)
      refine ⟨node, message, within, ?_, rfl, ?_, ?_⟩
      · rw [seen, List.filter_cons_of_neg (by decide), List.filter_append,
          calm_no_nodeError reaches calm]
        rfl
      · rw [seen, ← List.cons_append, List.getLast?_append]
        rfl
      · rw [told, ← List.cons_append, List.getLast?_append]
        rfl

/-- No node has the span of the last event. -/
theorem Program.span_ne_default {node : Node} (within : Node.Within node program.root) :
    node.span ≠ {} := by
  intro same
  have extended := program.extended node within
  rw [same] at extended
  exact absurd extended (Nat.lt_irrefl 0)

theorem Program.reports_differ {node : Node} {message : String}
    (report : FailureReport program.root trace result node message) :
    ¬ReportsAgree program.root trace result := by
  intro agree
  rcases agree with ⟨other, text, within, _, _, _, sent⟩
  rw [report.sent] at sent
  exact program.span_ne_default within (HostMessage.programError.inj (Option.some.inj sent)).2.symm

/-- A run that fails has one node error. Its message and span, the span of a node of the
tree, are those of the result, and the message is that of the last event. The span of the
last event is never that of the node. -/
theorem Program.failure_loses_span
    (run : Run (execute setting program.root) trace (.ok result))
    (fails : FailsInRun trace result) :
    (∃ node message, FailureReport program.root trace result node message) ∧
      ¬ReportsAgree program.root trace result := by
  rcases program.failure_reported setting run fails with ⟨node, message, report⟩
  exact ⟨⟨node, message, report⟩, program.reports_differ report⟩

/-- A program that divides by zero. -/
def dividingProgram : Program :=
  (Program.ofSource? (bytes "(wait (/ 1 0))")).get (by decide +kernel)

def dividingRun : Trace × Except Fault ExecutionResult :=
  respond (fun _ => Query.still) 0 (execute calmSetting dividingProgram.root)

def Action.seesCancel : Action → Bool
  | .poll cancelled => cancelled
  | _ => false

theorem dividing_runs {result : ExecutionResult} (ends : dividingRun.2 = .ok result) :
    Run (execute calmSetting dividingProgram.root) dividingRun.1 (.ok result) := by
  rw [← ends]
  exact run_respond _ _ 0

theorem dividing_fails :
    ∃ result, dividingRun.2 = .ok result ∧ FailsInRun dividingRun.1 result := by
  have ends : dividingRun.2.toOption.map ExecutionResult.success = some false := by decide +kernel
  have calm : dividingRun.1.all (fun entry => !entry.seesCancel) = true := by decide +kernel
  rcases Option.map_eq_some_iff.mp ends with ⟨result, found, failed⟩
  refine ⟨result, ?_, failed, ?_⟩
  · exact ok_of_toOption found
  · intro member
    have unseen := List.all_eq_true.mp calm (.poll true) member
    exact Bool.false_ne_true unseen

theorem dividing_loses_span :
    ∃ result, dividingRun.2 = .ok result ∧
      (∃ node message,
        FailureReport dividingProgram.root dividingRun.1 result node message) ∧
      ¬ReportsAgree dividingProgram.root dividingRun.1 result := by
  rcases dividing_fails with ⟨result, ends, fails⟩
  have run := dividing_runs ends
  exact ⟨result, ends, dividingProgram.failure_loses_span calmSetting run fails⟩

theorem dividing_reports_differ :
    ¬∀ (program : Program) (setting : Setting) (trace : Trace) (result : ExecutionResult),
      Run (execute setting program.root) trace (.ok result) → FailsInRun trace result →
      ReportsAgree program.root trace result := by
  intro always
  rcases dividing_fails with ⟨result, ends, fails⟩
  have run := dividing_runs ends
  rcases dividingProgram.failure_reported calmSetting run fails with ⟨node, message, report⟩
  exact dividingProgram.reports_differ report (always dividingProgram calmSetting _ _ run fails)

end CardCode
