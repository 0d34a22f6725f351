import CardCode.Semantics.Activity
import CardCode.Semantics.Traps

/-! # Where the entries of a trace come from

Every entry of an activity's trace is left by some node: the node of the activity,
one below it, or one of a function that is called. Laws about single entries are
proved by cases over `Leaves` and need no induction of their own.
-/

namespace CardCode

/-- The entries a node itself can leave, apart from those of its parts. -/
inductive Leaves (env : Env) (node : Node) : Action → Prop
  | polled {cancelled} : Leaves env node (.poll cancelled)
  | started :
      node.kind.isHighlightable = true → Leaves env node (.emit .nodeStart node node.op)
  | done :
      node.kind.isHighlightable = true → Leaves env node (.emit .nodeDone node node.op)
  | complained {message} :
      message ∈ complaints node → Leaves env node (.emit .nodeError node message)
  | undefined :
      node.kind = .call → env.functions node.op = none →
      Leaves env node
        (.emit .nodeError node ("undefined function '" ++ node.op ++ "'"))
  | skipped {part} :
      part ∈ node.parts → Leaves env node (.emit .nodeSkipped part part.op)
  | iterated : Leaves env node (.mark .whileIteration)
  | repeated {index} :
      index < env.limits.maxRepeatCount.toNat →
      Leaves env node (.mark (.repeatIteration index))
  | combining {operands accumulator operand result} :
      env.Folds node.op operands accumulator → operands ≠ [] →
      (dividesBy node.op = true → operand ≠ 0) →
      env.operate node.op accumulator operand = some result →
      Leaves env node (.mark (.combining node.op operands accumulator operand))
  | combined {operands result} :
      env.Folds node.op operands result →
      Leaves env node (.mark (.combined node.op operands result))
  | computed {operands result} :
      env.Folds node.op operands result →
      Leaves env node (.mark (.computed node.op operands result))
  | entered {function values} :
      node.kind = .call → env.functions node.op = some function →
      values.length = node.args.length →
      Leaves env node (.mark (.enterCall function values))
  | left : Leaves env node (.mark .exitCall)
  | issued {calls entry} :
      Issues node calls → entry ∈ calls → Leaves env node entry

def Task.node : Task → Node
  | .eval node => node
  | .work node => node

/-- A property of nodes that parts and called functions inherit. -/
structure Inherited (env : Env) (Property : Node → Prop) : Prop where
  part : ∀ node part, Property node → part ∈ node.parts → Property part
  call : ∀ node function, Property node → node.kind = .call →
    env.functions node.op = some function → Property function

/-- Every property is inherited that holds of all nodes. -/
theorem inherited_true (env : Env) : Inherited env fun _ => True where
  part := fun _ _ _ _ => trivial
  call := fun _ _ _ _ _ => trivial

theorem Inherited.untrapped {env : Env} {Property : Node → Prop}
    (inherited : Inherited env Property) :
    Inherited env.untrapped Property where
  part := inherited.part
  call := inherited.call

theorem leaves_polled {env : Env} {node : Node} {entry : Action}
    (member : entry ∈ env.polled) : Leaves env node entry := by
  rw [Env.polled] at member
  split at member
  · rw [List.mem_singleton.mp member]
    exact .polled
  · cases member

/-- Every entry of an activity is left by a node that inherited the property of
the activity's own. -/
theorem Activity.leaves {env : Env} {Property : Node → Prop}
    (inherited : Inherited env Property) {task : Task} {state reached : ExecState}
    {trace : Trace} (activity : Activity env task state trace reached) :
    Property task.node → ∀ entry ∈ trace, ∃ node, Property node ∧ Leaves env node entry := by
  induction activity with
  | stopped => exact fun _ _ member => nomatch member
  | @cancelled node =>
      intro holds entry member
      rw [List.mem_singleton.mp member]
      exact ⟨node, holds, .polled⟩
  | @exhausted node =>
      intro holds entry member
      rcases List.mem_append.mp member with member | member
      · exact ⟨node, holds, leaves_polled member⟩
      · rw [List.mem_singleton.mp member]
        exact ⟨node, holds, .complained (by simp [complaints])⟩
  | @silent node _ _ _ _ _ _ induction =>
      intro holds entry member
      rcases List.mem_append.mp member with member | member
      · exact ⟨node, holds, leaves_polled member⟩
      · exact induction holds entry member
  | @interrupted node _ _ _ _ lit _ _ _ induction =>
      intro holds entry member
      rcases List.mem_append.mp member with member | member
      · exact ⟨node, holds, leaves_polled member⟩
      · rcases List.mem_cons.mp member with equal | member
        · rw [equal]
          exact ⟨node, holds, .started lit⟩
        · exact induction holds entry member
  | @completed node _ _ _ _ _ lit _ _ _ issues induction =>
      intro holds entry member
      rcases List.mem_append.mp member with member | member
      · rcases List.mem_append.mp member with member | member
        · rcases List.mem_append.mp member with member | member
          · exact ⟨node, holds, leaves_polled member⟩
          · rcases List.mem_cons.mp member with equal | member
            · rw [equal]
              exact ⟨node, holds, .started lit⟩
            · exact induction holds entry member
        · exact ⟨node, holds, .issued issues member⟩
      · rw [List.mem_singleton.mp member]
        exact ⟨node, holds, .done lit⟩
  | idle => exact fun _ _ member => nomatch member
  | follow _ _ _ firstInduction restInduction =>
      intro holds entry member
      rcases List.mem_append.mp member with member | member
      · exact firstInduction holds entry member
      · exact restInduction holds entry member
  | part member _ induction =>
      exact fun holds => induction (inherited.part _ _ holds member)
  | @complain node _ _ listed =>
      intro holds entry member
      rw [List.mem_singleton.mp member]
      exact ⟨node, holds, .complained listed⟩
  | @undefined node _ kind missing =>
      intro holds entry member
      rw [List.mem_singleton.mp member]
      exact ⟨node, holds, .undefined kind missing⟩
  | @skip node _ _ part =>
      intro holds entry member
      rw [List.mem_singleton.mp member]
      exact ⟨node, holds, .skipped part⟩
  | store => exact fun _ _ member => nomatch member
  | @iterate node =>
      intro holds entry member
      rw [List.mem_singleton.mp member]
      exact ⟨node, holds, .iterated⟩
  | @round node _ _ bounded =>
      intro holds entry member
      rw [List.mem_singleton.mp member]
      exact ⟨node, holds, .repeated bounded⟩
  | @prepare node _ _ _ _ _ folds nonempty divisor operates =>
      intro holds entry member
      rw [List.mem_singleton.mp member]
      exact ⟨node, holds, .combining folds nonempty divisor operates⟩
  | @combine node _ _ _ folds =>
      intro holds entry member
      rw [List.mem_singleton.mp member]
      exact ⟨node, holds, .combined folds⟩
  | @compute node _ _ _ folds =>
      intro holds entry member
      rw [List.mem_singleton.mp member]
      exact ⟨node, holds, .computed folds⟩
  | @call node _ function values _ _ _ kind found count _ _ induction =>
      intro holds entry member
      rcases List.mem_append.mp member with member | member
      · rcases List.mem_cons.mp member with equal | member
        · rw [equal]
          exact ⟨node, holds, .entered kind found count⟩
        · exact induction (inherited.call _ _ holds kind found) entry member
      · rw [List.mem_singleton.mp member]
        exact ⟨node, holds, .left⟩

/-- The entries a run leaves beside those of its root: what it reports itself. -/
inductive Action.IsReport : Action → Prop
  | program {type message} : IsReport (.emitProgram type message)
  | stop : IsReport (.command .stop none)

theorem Closes.isReport {root : Node} {state : ExecState} {ending : Trace}
    {result : ExecutionResult} (closes : Closes root state ending result) :
    ∀ entry ∈ ending, entry.IsReport := by
  intro entry member
  cases closes with
  | done =>
      rw [List.mem_singleton.mp member]
      exact .program
  | cancelled | errored =>
      rcases List.mem_cons.mp member with equal | member
      · rw [equal]
        exact .stop
      · rw [List.mem_singleton.mp member]
        exact .program

/-- Every entry of a run is a report of the run itself or left by a node. -/
theorem executeBody_leaves {env : Env} {fuel : Nat} {root : Node} {trace : Trace}
    {result : ExecutionResult} {state : ExecState} {Property : Node → Prop}
    (inherited : Inherited env Property) (holds : Property root)
    (run : Process.Performs (executeBody env fuel root) {} trace result state) :
    ∀ entry ∈ trace, entry.IsReport ∨ ∃ node, Property node ∧ Leaves env node entry := by
  rcases executeBody_activity run with ⟨body, ending, activity, closes, rfl⟩
  intro entry member
  rcases List.mem_append.mp member with member | member
  · rcases List.mem_cons.mp member with equal | member
    · rw [equal]
      exact .inl .program
    · exact .inr (activity.leaves inherited holds entry member)
  · exact .inl (closes.isReport entry member)

end CardCode
