import CardCode.Compilation.Spelling
import CardCode.Harness.Messages
import CardCode.Semantics.Guarantees

/-! # What node events identify

The user interface finds the node of an event by its id. The start and end of a
node always lead back to it. An error carries its text where the operator is
expected, and a branch that is skipped may be one that has no id of its own.
-/

namespace CardCode

open Process

/-- The event leads to one highlightable node of the tree, and the message
written for it carries that node's operator and span. -/
def ExecutionEvent.Identifies (event : ExecutionEvent) (root : Node) : Prop :=
  ∃ found, root.highlighted.filter (fun node => node.id = event.nodeId) = [found] ∧
    event.span = found.span ∧
    ∀ message, onEvent event = .node message →
      message.nodeId = found.id ∧ message.span = found.span ∧ message.op = found.op

/-- The events whose node is sure to be found: all but errors and skipped nodes
that are not highlightable. -/
def Traceable (type : ExecutionEventType) (node : Node) : Prop :=
  type ≠ .nodeError ∧ (type = .nodeSkipped → node.kind.isHighlightable = true)

theorem Program.within_inherited (program : Program) (setting : Setting) :
    Inherited (program.env setting) fun node => Node.Within node program.root where
  part := fun _ _ within member => (Node.Within.part member .self).trans within
  call := by
    intro node function _ _ found
    rcases collected_some found with absent | ⟨member, -, -⟩
    · cases absent
    · rcases List.mem_cons.mp member with equal | member
      · rw [equal]
        exact .self
      · exact .part (mem_parts_of_child member) .self

/-! ## Errors -/

theorem complaint_has_space {node : Node} {message : String}
    (listed : message ∈ complaints node) : ' ' ∈ message.toList := by
  simp only [complaints, List.mem_cons, List.not_mem_nil, or_false] at listed
  rcases listed with rfl | rfl | rfl | rfl | rfl | rfl | rfl | rfl | rfl | rfl | rfl | rfl |
    rfl | rfl | rfl | rfl | rfl
  all_goals simp [String.toList_append]

/-- An error's text is no operator. -/
theorem Program.error_not_identified (program : Program) {node : Node} {message : String}
    (space : ' ' ∈ message.toList) :
    ¬ ExecutionEvent.Identifies ⟨.nodeError, node.id, node.span, message⟩ program.root := by
  intro identifies
  rcases identifies with ⟨found, only, -, written⟩
  have member : found ∈ program.root.highlighted :=
    List.mem_of_mem_filter (only ▸ List.mem_singleton_self found)
  have spelled := program.spelled found (Node.within_of_mem member)
  have op := (written _ rfl).2.2
  rw [nodeJson] at op
  dsimp only at op
  rw [op] at space
  exact absurd (spelled ' ' space) (by decide)

/-! ## Runs -/

theorem Program.node_identified (program : Program) {type : ExecutionEventType} {node : Node}
    (within : Node.Within node program.root) (lit : node.kind.isHighlightable = true)
    (notError : type = .nodeStart ∨ type = .nodeDone ∨ type = .nodeSkipped) :
    ExecutionEvent.Identifies ⟨type, node.id, node.span, node.op⟩ program.root := by
  refine ⟨node, program.filter_id within lit, rfl, ?_⟩
  intro message written
  rcases notError with rfl | rfl | rfl <;> cases written <;> exact ⟨rfl, rfl, rfl⟩

/-- In every run, a node event is about a highlightable node and identifies it
exactly when it is no error and, if it reports a skipped node, that node is
highlightable. -/
theorem Program.node_event_iff (program : Program) (setting : Setting) {trace : Trace}
    {outcome : Except Fault ExecutionResult}
    (run : Run (execute setting program.root) trace outcome) :
    ∀ type node message, Action.emit type node message ∈ trace →
      ((node.kind.isHighlightable = true ∧
          ExecutionEvent.Identifies ⟨type, node.id, node.span, message⟩ program.root) ↔
        Traceable type node) := by
  intro type node message member
  rcases program.run_leaves setting run (program.within_inherited setting) .self _ member with
    report | ⟨own, within, leaves⟩
  · cases report
  cases leaves with
  | started lit =>
      exact ⟨fun _ => ⟨by simp, by simp⟩,
        fun _ => ⟨lit, program.node_identified within lit (.inl rfl)⟩⟩
  | done lit =>
      exact ⟨fun _ => ⟨by simp, by simp⟩,
        fun _ => ⟨lit, program.node_identified within lit (.inr (.inl rfl))⟩⟩
  | complained listed =>
      refine ⟨fun both => ?_, fun traceable => absurd rfl traceable.1⟩
      exact absurd both.2 (program.error_not_identified (complaint_has_space listed))
  | undefined =>
      refine ⟨fun both => ?_, fun traceable => absurd rfl traceable.1⟩
      exact absurd both.2 (program.error_not_identified (by simp [String.toList_append]))
  | skipped part =>
      have inside : Node.Within node program.root := (Node.Within.part part .self).trans within
      refine ⟨fun both => ⟨by simp, fun _ => both.1⟩, fun traceable => ?_⟩
      have lit := traceable.2 rfl
      exact ⟨lit, program.node_identified inside lit (.inr (.inr rfl))⟩
  | issued issues issued => cases issues <;> simp at issued

/-- The program `(if true 1 2)`. -/
def branchingProgram : Program :=
  (Program.ofSource? (bytes "(if true 1 2)")).get (by decide +kernel)

def branchingRun : Trace × Except Fault ExecutionResult :=
  respond (fun _ => Query.still) 0 (execute calmSetting branchingProgram.root)

def Action.skipsDark : Action → Bool
  | .emit .nodeSkipped node _ => !node.kind.isHighlightable
  | _ => false

theorem branching_skips :
    ∃ node message, Action.emit .nodeSkipped node message ∈ branchingRun.1 ∧
      node.kind.isHighlightable = false := by
  have skips : branchingRun.1.any Action.skipsDark = true := by
    decide +kernel
  rcases List.any_eq_true.mp skips with ⟨entry, member, dark⟩
  rw [Action.skipsDark.eq_def] at dark
  split at dark
  · exact ⟨_, _, member, by simpa using dark⟩
  · cases dark

theorem branching_node_event_iff :
    ∃ node message, Action.emit .nodeSkipped node message ∈ branchingRun.1 ∧
      ((node.kind.isHighlightable = true ∧
          ExecutionEvent.Identifies ⟨.nodeSkipped, node.id, node.span, message⟩
            branchingProgram.root) ↔
        Traceable .nodeSkipped node) := by
  rcases branching_skips with ⟨node, message, member, -⟩
  exact ⟨node, message, member,
    branchingProgram.node_event_iff calmSetting (run_respond _ _ 0) _ node message member⟩

/-- A literal branch that is not taken is reported as skipped all the same. -/
theorem skipped_literal_not_identified :
    ¬ ∀ (program : Program) (setting : Setting) (trace : Trace)
        (outcome : Except Fault ExecutionResult),
      Run (execute setting program.root) trace outcome →
      ∀ type node message, Action.emit type node message ∈ trace →
        node.kind.isHighlightable = true ∧
          ExecutionEvent.Identifies ⟨type, node.id, node.span, message⟩ program.root := by
  intro always
  rcases branching_skips with ⟨node, message, member, dark⟩
  have identified := always branchingProgram calmSetting _ _ (run_respond _ _ 0) _ _ _ member
  rw [identified.1] at dark
  cases dark

end CardCode
