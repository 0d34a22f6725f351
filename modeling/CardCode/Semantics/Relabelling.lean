import CardCode.Engine.Interpreter
import CardCode.Foundation.Simulation

/-! # Trees under other ids and spans

What becomes of a tree, of its runs and of the interpreter's state when ids and spans
are replaced by others.
-/

namespace CardCode

open Process

/-- New ids and spans for the nodes of a tree. -/
structure Relabelling where
  id : UInt32 → UInt32
  span : SourceSpan → SourceSpan
  id_zero : id 0 = 0
  span_empty : span {} = {}
  span_join : ∀ first second, span (first.join second) = (span first).join (span second)

namespace Relabelling

/-- Every label as it is. -/
def keep : Relabelling where
  id := fun id => id
  span := fun span => span
  id_zero := rfl
  span_empty := rfl
  span_join := fun _ _ => rfl

def withoutSpans : Relabelling where
  id := fun id => id
  span := fun _ => {}
  id_zero := rfl
  span_empty := rfl
  span_join := fun _ _ => rfl

def withoutLabels : Relabelling where
  id := fun _ => 0
  span := fun _ => {}
  id_zero := rfl
  span_empty := rfl
  span_join := fun _ _ => rfl

end Relabelling

variable (labels : Relabelling)

/-! ## Trees -/

namespace Node

mutual

def relabel : Node → Node
  | ⟨id, kind, span, op, args, children, nums, params⟩ =>
      ⟨labels.id id, kind, labels.span span, op, relabelAll args, relabelAll children, nums,
        params⟩

def relabelAll : List Node → List Node
  | [] => []
  | node :: rest => node.relabel :: relabelAll rest

end

theorem relabelAll_eq (nodes : List Node) :
    relabelAll labels nodes = nodes.map (relabel labels) := by
  induction nodes with
  | nil => rfl
  | cons node rest induction => rw [relabelAll, induction, List.map_cons]

variable (node : Node)

theorem relabel_eq : node.relabel labels =
    { node with
      id := labels.id node.id
      span := labels.span node.span
      args := node.args.map (relabel labels)
      children := node.children.map (relabel labels) } := by
  cases node
  rw [relabel, relabelAll_eq, relabelAll_eq]

@[simp] theorem relabel_id : (node.relabel labels).id = labels.id node.id := by
  rw [relabel_eq]

@[simp] theorem relabel_kind : (node.relabel labels).kind = node.kind := by
  rw [relabel_eq]

@[simp] theorem relabel_span : (node.relabel labels).span = labels.span node.span := by
  rw [relabel_eq]

@[simp] theorem relabel_op : (node.relabel labels).op = node.op := by
  rw [relabel_eq]

@[simp] theorem relabel_args :
    (node.relabel labels).args = node.args.map (relabel labels) := by
  rw [relabel_eq]

@[simp] theorem relabel_children :
    (node.relabel labels).children = node.children.map (relabel labels) := by
  rw [relabel_eq]

@[simp] theorem relabel_nums : (node.relabel labels).nums = node.nums := by
  rw [relabel_eq]

@[simp] theorem relabel_params : (node.relabel labels).params = node.params := by
  rw [relabel_eq]

/-- Nothing changes where every label is kept. -/
theorem relabel_keep : ∀ node : Node, node.relabel .keep = node := by
  apply induct
  intro node parts
  have same (nodes : List Node) (among : ∀ part ∈ nodes, part ∈ node.parts) :
      nodes.map (relabel .keep) = nodes := by
    rw [List.map_congr_left fun part member => parts part (among part member), List.map_id']
  rw [relabel_eq, same node.args fun _ => List.mem_append_left _,
    same node.children fun _ => List.mem_append_right _]
  cases node
  rfl

theorem heightAll_map {nodes : List Node} {change : Node → Node}
    (same : ∀ node ∈ nodes, (change node).height = node.height) :
    heightAll (nodes.map change) = heightAll nodes := by
  induction nodes with
  | nil => rfl
  | cons node rest induction =>
      rw [List.map_cons, heightAll, heightAll, same node List.mem_cons_self,
        induction fun other member => same other (List.mem_cons_of_mem _ member)]

theorem height_relabel : ∀ node : Node, (node.relabel labels).height = node.height := by
  apply induct
  intro node parts
  rw [relabel_eq, height, heightAll_map, heightAll_map]
  · cases node
    rw [height]
  · exact fun child member => parts child (List.mem_append_right _ member)
  · exact fun arg member => parts arg (List.mem_append_left _ member)

end Node

/-! ## Runs -/

def Mark.relabel : Mark → Mark
  | .enterCall function arguments => .enterCall (function.relabel labels) arguments
  | point => point

def Action.relabel : Action → Action
  | .emit type node message => .emit type (node.relabel labels) message
  | .emitProgram type message => .emitProgram type message
  | .command call issuer => .command call (issuer.map (Node.relabel labels))
  | .sensor reading issuer => .sensor reading (issuer.relabel labels)
  | .poll cancelled => .poll cancelled
  | .mark point => .mark (point.relabel labels)

def Query.relabel : Query → Query
  | .poll => .poll
  | .distanceCm issuer => .distanceCm (issuer.relabel labels)
  | .button issuer => .button (issuer.relabel labels)
  | .lineLeft issuer => .lineLeft (issuer.relabel labels)
  | .lineRight issuer => .lineRight (issuer.relabel labels)

/-- The reply to a question is the reply to it under other labels. -/
def Query.relabelReply : (question : Query) → question.Reply → (question.relabel labels).Reply
  | .poll, cancelled => cancelled
  | .distanceCm _, value => value
  | .button _, pressed => pressed
  | .lineLeft _, seen => seen
  | .lineRight _, seen => seen

def Relabelling.names : Renaming engineInterface engineInterface where
  action := Action.relabel labels
  query := Query.relabel labels
  reply := Query.relabelReply labels
  record_reply := by
    intro question given
    cases question <;> rfl

def Diagnostic.relabel (diagnostic : Diagnostic) : Diagnostic :=
  { diagnostic with span := labels.span diagnostic.span }

def ExecState.relabel (state : ExecState) : ExecState :=
  { state with error := state.error.relabel labels }

def ExecutionResult.relabel (result : ExecutionResult) : ExecutionResult :=
  { result with error := result.error.map (Diagnostic.relabel labels) }

theorem ExecState.relabel_initial : ({} : ExecState).relabel labels = {} := by
  rw [ExecState.relabel, Diagnostic.relabel, labels.span_empty]

theorem Action.relabel_keep (action : Action) : action.relabel .keep = action := by
  cases action with
  | emit type node message => rw [Action.relabel, Node.relabel_keep]
  | emitProgram type message => rfl
  | command call issuer =>
      cases issuer with
      | none => rfl
      | some issuer => rw [Action.relabel, Option.map_some, Node.relabel_keep]
  | sensor reading issuer => rw [Action.relabel, Node.relabel_keep]
  | poll cancelled => rfl
  | mark point =>
      cases point with
      | enterCall function arguments => rw [Action.relabel, Mark.relabel, Node.relabel_keep]
      | _ => rfl

theorem ExecutionResult.relabel_keep (result : ExecutionResult) :
    result.relabel .keep = result := by
  rcases result with ⟨success, error⟩
  cases error with
  | none => rfl
  | some error => rfl

end CardCode
