import CardCode.Engine.Interpreter
import CardCode.Foundation.Answers

/-! # Of its own accord

The interpreter reads a sensor and looks at the cancel flag by asking, and never otherwise.
-/

namespace CardCode

open Process

/-- What is not the record of an answer. -/
def Action.isOwn : Action → Bool
  | .sensor .. | .poll _ => false
  | _ => true

/-- Nothing of this is the record of an answer, save where something was asked. -/
abbrev Acts {α : Type} (body : Exec α) : Prop :=
  OwnsAll (fun action : Action => action.isOwn = true) body

section Functions

variable {env : Env} {eval : Eval} {node : Node}

theorem acts_perform {action : Action} (own : action.isOwn = true) :
    Acts (perform action : Exec Unit) :=
  ownsAll_perform own

theorem acts_ask (question : Query) : Acts (ask question) :=
  fun _ => .ask fun _ => .done

theorem acts_stopping : Acts stopping :=
  ownsAll_bind ownsAll_get fun _ => ownsAll_pure _

theorem acts_unlessStopping {α : Type} {halt next : Exec α} (halts : Acts halt)
    (goes : Acts next) : Acts (do if ← stopping then halt else next) :=
  ownsAll_bind acts_stopping fun _ => ownsAll_ite halts goes

theorem acts_fail (message : String) : Acts (fail node message) :=
  ownsAll_bind (ownsAll_modify _) fun _ => ownsAll_bind (acts_perform rfl) fun _ =>
    ownsAll_pure _

theorem acts_issue (call : RobotCommand) : Acts (issue node call) :=
  ownsAll_bind (acts_perform rfl) fun _ => ownsAll_pure _

theorem acts_withArg {α : Type} {index : Nat} {next : Node → Exec α}
    (goes : ∀ arg, Acts (next arg)) : Acts (do let arg ← argAt node index; next arg) := by
  apply ownsAll_bind _ goes
  rw [argAt]
  split
  · exact ownsAll_pure _
  · exact ownsAll_abort _

theorem acts_evalInt (evaluates : ∀ node, Acts (eval node)) (arg : Node) (what : String) :
    Acts (evalInt eval arg node what) := by
  apply ownsAll_bind (evaluates arg)
  intro value
  apply acts_unlessStopping (ownsAll_pure _)
  cases value with
  | integer number => exact ownsAll_pure _
  | _ => exact ownsAll_bind (acts_fail _) fun _ => ownsAll_pure _

theorem acts_withInt {index : Nat} {what : String} {next : Int64 → Exec Value}
    (evaluates : ∀ node, Acts (eval node)) (goes : ∀ number, Acts (next number)) :
    Acts (do
      let arg ← argAt node index
      match ← evalInt eval arg node what with
      | none => pure .none
      | some number => next number) := by
  apply acts_withArg
  intro arg
  apply ownsAll_bind (acts_evalInt evaluates arg what)
  intro found
  cases found with
  | none => exact ownsAll_pure _
  | some number => exact goes number

theorem acts_withOperand {index : Nat} {next : Value → Exec Value}
    (evaluates : ∀ node, Acts (eval node)) (goes : ∀ value, Acts (next value)) :
    Acts (do
      let arg ← argAt node index
      let value ← eval arg
      if ← stopping then pure .none else next value) :=
  acts_withArg fun arg => ownsAll_bind (evaluates arg) fun value =>
    acts_unlessStopping (ownsAll_pure _) (goes value)

/-! ## Loops -/

theorem acts_evalChildren (evaluates : ∀ node, Acts (eval node)) (nodes : List Node) :
    Acts (evalChildren eval nodes) := by
  induction nodes with
  | nil => exact ownsAll_pure _
  | cons child rest induction =>
      exact ownsAll_bind (evaluates child) fun _ =>
        acts_unlessStopping (ownsAll_pure _) induction

theorem acts_evalSequence (evaluates : ∀ node, Acts (eval node)) (nodes : List Node)
    (last : Value) : Acts (evalSequence eval nodes last) := by
  induction nodes generalizing last with
  | nil => exact ownsAll_pure _
  | cons child rest induction =>
      exact ownsAll_bind (evaluates child) fun value =>
        acts_unlessStopping (ownsAll_pure _) (induction value)

theorem acts_evalBody (evaluates : ∀ node, Acts (eval node)) (nodes : List Node)
    (last : Value) : Acts (evalBody eval nodes last) := by
  induction nodes generalizing last with
  | nil => exact ownsAll_pure _
  | cons child rest induction =>
      exact ownsAll_bind (evaluates child) fun value =>
        acts_unlessStopping (ownsAll_pure _) (induction value)

theorem acts_skipChildren (nodes : List Node) : Acts (skipChildren nodes) := by
  induction nodes with
  | nil => exact ownsAll_pure _
  | cons child rest induction => exact ownsAll_bind (acts_perform rfl) fun _ => induction

theorem acts_evalArguments (evaluates : ∀ node, Acts (eval node)) (nodes : List Node)
    (values : List Value) : Acts (evalArguments eval nodes values) := by
  induction nodes generalizing values with
  | nil => exact ownsAll_pure _
  | cons arg rest induction =>
      exact ownsAll_bind (evaluates arg) fun value =>
        acts_unlessStopping (ownsAll_pure _) (induction _)

theorem acts_repeatLoop (evaluates : ∀ node, Acts (eval node)) (remaining index : Nat) :
    Acts (repeatLoop eval node remaining index) := by
  induction remaining generalizing index with
  | zero => exact ownsAll_pure _
  | succ remaining induction =>
      exact ownsAll_bind (acts_perform rfl) fun _ =>
        ownsAll_bind (acts_evalChildren evaluates _) fun _ =>
          acts_unlessStopping (ownsAll_pure _) (induction _)

theorem acts_whileLoop (evaluates : ∀ node, Acts (eval node)) (fuel : Nat) :
    Acts (whileLoop env eval node fuel) := by
  induction fuel with
  | zero => exact ownsAll_abort _
  | succ fuel induction =>
      apply ownsAll_bind ownsAll_get
      intro state
      apply ownsAll_ite (acts_fail _)
      apply ownsAll_bind (ownsAll_modify _)
      intro ticked
      apply ownsAll_bind (acts_perform rfl)
      intro marked
      apply acts_withOperand evaluates
      intro condition
      apply ownsAll_ite (ownsAll_pure _)
      exact ownsAll_bind (acts_evalChildren evaluates _) fun _ =>
        acts_unlessStopping (ownsAll_pure _) induction

theorem acts_booleanLoop (evaluates : ∀ node, Acts (eval node)) (isAnd : Bool)
    (nodes : List Node) : Acts (booleanLoop eval isAnd nodes) := by
  induction nodes with
  | nil => exact ownsAll_pure _
  | cons arg rest induction =>
      exact ownsAll_bind (evaluates arg) fun _ => acts_unlessStopping (ownsAll_pure _)
        (ownsAll_ite (ownsAll_pure _) (ownsAll_ite (ownsAll_pure _) induction))

theorem acts_combine (op : String) (operands : List Int64) (accumulator operand : Int64) :
    Acts (combine env op operands accumulator operand) := by
  apply ownsAll_bind (acts_perform rfl)
  intro marked
  split
  · exact ownsAll_pure _
  · exact ownsAll_abort _

theorem acts_arithmeticLoop (evaluates : ∀ node, Acts (eval node)) (nodes : List Node)
    (operands : List Int64) (accumulator : Int64) :
    Acts (arithmeticLoop env eval node nodes operands accumulator) := by
  induction nodes generalizing operands accumulator with
  | nil => exact ownsAll_bind (acts_perform rfl) fun _ => ownsAll_pure _
  | cons arg rest induction =>
      apply ownsAll_bind (evaluates arg)
      intro value
      apply acts_unlessStopping (ownsAll_pure _)
      cases value with
      | integer operand =>
          exact ownsAll_ite (induction _ _) (ownsAll_ite (acts_fail _)
            (ownsAll_bind (acts_combine _ _ _ _) fun _ =>
              ownsAll_bind (acts_perform rfl) fun _ => induction _ _))
      | _ => exact acts_fail _

/-! ## Forms -/

theorem acts_callFunction (evaluates : ∀ node, Acts (eval node)) :
    Acts (callFunction env eval node) := by
  rw [callFunction]
  split
  · exact acts_fail _
  · apply ownsAll_bind (acts_evalArguments evaluates _ _)
    intro found
    cases found with
    | none => exact ownsAll_pure _
    | some values =>
        apply ownsAll_bind ownsAll_get
        intro state
        apply ownsAll_ite (acts_fail _)
        apply ownsAll_bind (acts_perform rfl)
        intro marked
        apply ownsAll_bind (ownsAll_modify _)
        intro entered
        apply ownsAll_bind (acts_evalBody evaluates _ _)
        intro result
        exact ownsAll_bind (ownsAll_modify _) fun _ => ownsAll_bind (acts_perform rfl) fun _ =>
          ownsAll_pure _

theorem acts_evalIf (evaluates : ∀ node, Acts (eval node)) : Acts (evalIf eval node) :=
  acts_withOperand evaluates fun _ => acts_withArg fun _ =>
    ownsAll_bind (acts_perform rfl) fun _ => acts_withArg evaluates

theorem acts_evalSetVar (evaluates : ∀ node, Acts (eval node)) : Acts (evalSetVar eval node) := by
  apply acts_withOperand evaluates
  intro value
  apply ownsAll_bind ownsAll_get
  intro state
  split
  · exact acts_fail _
  · exact ownsAll_bind (ownsAll_modify _) fun _ => ownsAll_pure _

theorem acts_evalVarRef : Acts (evalVarRef node) := by
  apply ownsAll_bind ownsAll_get
  intro state
  split
  · exact acts_fail _
  · exact ownsAll_pure _

theorem acts_evalDrive (evaluates : ∀ node, Acts (eval node)) : Acts (evalDrive eval node) :=
  acts_withInt evaluates fun _ => acts_withInt evaluates fun _ =>
    ownsAll_ite (acts_fail _) (ownsAll_ite (acts_fail _)
      (ownsAll_ite (acts_issue _) (acts_issue _)))

theorem acts_evalLight (evaluates : ∀ node, Acts (eval node)) : Acts (evalLight eval node) := by
  apply acts_withOperand evaluates
  intro value
  split
  · exact acts_issue _
  · exact acts_fail _

theorem acts_evalCompare (evaluates : ∀ node, Acts (eval node)) :
    Acts (evalCompare eval node) := by
  apply acts_withOperand evaluates
  intro left
  apply acts_withOperand evaluates
  intro right
  split
  · exact ownsAll_pure _
  · exact acts_fail _

theorem acts_readDistance : Acts (readDistance node) :=
  ownsAll_bind (acts_ask _) fun _ => ownsAll_pure _

theorem acts_readFlag {read : Exec Bool} (reads : Acts read) : Acts (readFlag read) :=
  ownsAll_bind reads fun _ => ownsAll_pure _

theorem acts_evalInner (evaluates : ∀ node, Acts (eval node)) (fuel : Nat) :
    Acts (evalInner env eval fuel node) := by
  rw [evalInner]
  split
  · exact acts_evalSequence evaluates _ _
  · exact acts_withInt evaluates fun _ => ownsAll_ite (acts_fail _)
      (ownsAll_ite (acts_fail _) (acts_repeatLoop evaluates _ _))
  · exact acts_withOperand evaluates fun _ => ownsAll_ite (acts_evalSequence evaluates _ _)
      (ownsAll_bind (acts_skipChildren _) fun _ => ownsAll_pure _)
  · exact acts_evalIf evaluates
  · exact acts_whileLoop evaluates fuel
  · exact ownsAll_pure _
  · exact acts_withOperand evaluates fun _ => ownsAll_bind (ownsAll_modify _) fun _ =>
      ownsAll_pure _
  · exact acts_evalSetVar evaluates
  · exact acts_evalVarRef
  · exact acts_callFunction evaluates
  · exact acts_evalDrive evaluates
  · exact acts_evalDrive evaluates
  · exact acts_withInt evaluates fun _ => ownsAll_ite (acts_fail _)
      (ownsAll_ite (acts_issue _) (acts_issue _))
  · exact acts_withInt evaluates fun _ => ownsAll_ite (acts_fail _)
      (ownsAll_ite (acts_issue _) (acts_issue _))
  · exact acts_issue _
  · exact acts_withInt evaluates fun _ => ownsAll_ite (acts_fail _) (acts_issue _)
  · exact acts_evalLight evaluates
  · exact acts_issue _
  · exact acts_readDistance
  · exact acts_readFlag (acts_ask (.button node))
  · exact acts_readFlag (acts_ask (.lineLeft node))
  · exact acts_readFlag (acts_ask (.lineRight node))
  · exact acts_evalCompare evaluates
  · rw [evalBoolean]
    exact ownsAll_ite (acts_withOperand evaluates fun _ => ownsAll_pure _)
      (acts_booleanLoop evaluates _ _)
  · exact acts_arithmeticLoop evaluates _ _ _
  · exact ownsAll_pure _
  · exact ownsAll_pure _
  · exact ownsAll_pure _

end Functions

theorem acts_eval (env : Env) (fuel : Nat) (node : Node) : Acts (eval env fuel node) := by
  induction fuel generalizing node with
  | zero => exact ownsAll_abort _
  | succ fuel induction =>
      rw [eval]
      apply acts_unlessStopping (ownsAll_pure _)
      have polls : Acts (pollCancel env) := by
        rw [pollCancel]
        exact ownsAll_ite (acts_ask .poll) (ownsAll_pure _)
      apply ownsAll_bind polls
      intro cancelled
      apply ownsAll_ite
      · exact ownsAll_bind (ownsAll_modify _) fun _ => ownsAll_pure _
      · apply ownsAll_ite _ (acts_evalInner induction fuel)
        apply ownsAll_bind ownsAll_get
        intro state
        apply ownsAll_ite (acts_fail _)
        apply ownsAll_bind (ownsAll_modify _)
        intro ticked
        apply ownsAll_bind (acts_perform rfl)
        intro started
        apply ownsAll_bind (acts_evalInner induction fuel)
        intro value
        exact acts_unlessStopping (ownsAll_pure _) (ownsAll_bind (acts_perform rfl) fun _ =>
          ownsAll_pure _)

theorem acts_executeBody (env : Env) (fuel : Nat) (root : Node) :
    Acts (executeBody env fuel root) := by
  apply ownsAll_bind (acts_perform rfl)
  intro started
  apply ownsAll_bind (acts_eval _ _ _)
  intro value
  apply ownsAll_bind ownsAll_get
  intro state
  apply ownsAll_ite
  · exact ownsAll_bind (acts_perform rfl) fun _ => ownsAll_bind (acts_perform rfl) fun _ =>
      ownsAll_pure _
  · apply ownsAll_ite
    · exact ownsAll_bind (acts_perform rfl) fun _ =>
        ownsAll_bind (acts_perform rfl) fun _ => ownsAll_pure _
    · exact ownsAll_bind (acts_perform rfl) fun _ => ownsAll_pure _

theorem owns_execute (setting : Setting) (root : Node) :
    Owns (fun action : Action => action.isOwn = true) (execute setting root) :=
  (acts_executeBody _ _ _ {}).bind fun _ => .done

end CardCode
