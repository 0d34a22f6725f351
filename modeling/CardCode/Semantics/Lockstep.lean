import CardCode.Compilation.WellFormed
import CardCode.Semantics.Relabelling

/-! # Two runs in lockstep

The interpreter does the same with a tree under other labels, with larger limits and where
an operation that traps delivers something, until it complains about a limit or traps. One
proof over the interpreter serves every comparison of two runs.
-/

namespace CardCode

open Process

/-! ## Environments -/

/-- What one run may be excused of where another goes on. -/
abbrev EngineExcuse := Excuse engineInterface Fault

/-- A limit that is no smaller; where it is larger, the complaint about the limit is excused. -/
structure Weakens (excuse : EngineExcuse) (message : String) (limit larger : UInt32) : Prop where
  le : limit ≤ larger
  alarm : limit ≠ larger → ∀ node, excuse.action (.emit .nodeError node message)

theorem weakens_refl {excuse : EngineExcuse} {message : String} (limit : UInt32) :
    Weakens excuse message limit limit where
  le := UInt32.le_refl limit
  alarm := fun different => absurd rfl different

/-- Fuel that is no less; where it is more, running out of it is excused. -/
structure Outlasts (excuse : EngineExcuse) (fuel larger : Nat) : Prop where
  le : fuel ≤ larger
  spent : fuel ≠ larger → excuse.fault .outOfFuel

theorem Outlasts.refl {excuse : EngineExcuse} (fuel : Nat) : Outlasts excuse fuel fuel where
  le := Nat.le_refl fuel
  spent := fun different => absurd rfl different

theorem Outlasts.pred {excuse : EngineExcuse} {fuel larger : Nat}
    (outlasts : Outlasts excuse (fuel + 1) (larger + 1)) : Outlasts excuse fuel larger where
  le := Nat.le_of_succ_le_succ outlasts.le
  spent := fun different => outlasts.spent fun same => different (Nat.succ.inj same)

/-- The two operations deliver the same, or coming to the first is excused, or its trap is. -/
inductive Replaces (excuse : EngineExcuse) (op : String) (left right : Int64) :
    Option Int64 → Option Int64 → Prop
  | same {delivered} : Replaces excuse op left right delivered delivered
  | alarm {delivered otherDelivered} :
      (∀ operands, excuse.action (.mark (.combining op operands left right))) →
      Replaces excuse op left right delivered otherDelivered
  | last {otherDelivered} :
      (∀ operands, excuse.last (.mark (.combining op operands left right)) .trapped) →
      Replaces excuse op left right none otherDelivered

/-- `other` has the functions of `env` under other labels, and limits no smaller. -/
structure Lockstep (labels : Relabelling) (excuse : EngineExcuse) (env other : Env) : Prop where
  functions : ∀ name, other.functions name = (env.functions name).map (Node.relabel labels)
  cancellable : other.cancellable = env.cancellable
  operates : ∀ op left right,
    Replaces excuse op left right (env.operate op left right) (other.operate op left right)
  steps : Weakens excuse "execution exceeded maximum step limit" env.limits.maxTotalSteps
    other.limits.maxTotalSteps
  rounds : Weakens excuse "repeat count exceeds limit" env.limits.maxRepeatCount
    other.limits.maxRepeatCount
  depth : Weakens excuse "maximum call depth exceeded" env.limits.maxCallDepth
    other.limits.maxCallDepth

section Rules

variable {labels : Relabelling} {excuse : EngineExcuse} {α β γ δ : Type}

variable (labels excuse) in
/-- `other` does under other labels what `body` does. -/
abbrev Follows (result : α → β) (body : Exec α) (other : Exec β) : Prop :=
  Mirrors labels.names excuse (ExecState.relabel labels) result body other

variable (labels excuse) in
/-- `other` evaluates a tree under other labels as `eval` does the tree. -/
def Copies (eval other : Eval) : Prop :=
  ∀ node : Node, Follows labels excuse id (eval node) (other (node.relabel labels))

/-! ## Elementary steps -/

theorem follows_stopping : Follows labels excuse id stopping stopping :=
  mirrors_bind mirrors_get fun state => mirrors_pure state.stopping

theorem follows_perform (action : Action) :
    Follows labels excuse id (perform action) (perform (action.relabel labels)) :=
  @mirrors_perform _ _ Fault _ _ labels.names excuse (ExecState.relabel labels) action

theorem follows_query (question : Query) :
    Follows labels excuse (question.relabelReply labels) (ask question)
      (ask (question.relabel labels)) :=
  @mirrors_query _ _ Fault _ _ labels.names excuse (ExecState.relabel labels) question

theorem follows_emit (type : ExecutionEventType) (node : Node) (message : String) :
    Follows labels excuse id (emit type node message) (emit type (node.relabel labels) message) :=
  follows_perform (.emit type node message)

theorem follows_emitProgram (type : ExecutionEventType) (message : String) :
    Follows labels excuse id (emitProgram type message) (emitProgram type message) :=
  follows_perform (.emitProgram type message)

theorem follows_command (call : RobotCommand) (issuer : Option Node) :
    Follows labels excuse id (command call issuer)
      (command call (issuer.map (Node.relabel labels))) :=
  follows_perform (.command call issuer)

theorem follows_mark (point : Mark) :
    Follows labels excuse id (mark point) (mark (point.relabel labels)) :=
  follows_perform (.mark point)

theorem follows_emitSkipped (node : Node) :
    Follows labels excuse id (emitSkipped node) (emitSkipped (node.relabel labels)) := by
  rw [emitSkipped, emitSkipped, Node.relabel_op]
  exact follows_emit .nodeSkipped node node.op

theorem follows_tick :
    Follows labels excuse id (modify ExecState.tick) (modify ExecState.tick) :=
  mirrors_modify fun _ => rfl

theorem follows_fail (node : Node) (message : String) :
    Follows labels excuse id (fail node message) (fail (node.relabel labels) message) := by
  apply mirrors_bind
  · apply mirrors_modify
    intro state
    rw [ExecState.failed, Node.relabel_span]
    rfl
  · intro _
    exact mirrors_bind (follows_emit .nodeError node message) fun _ => mirrors_pure Value.none

theorem follows_argAt (node : Node) (index : Nat) :
    Follows labels excuse (Node.relabel labels) (argAt node index)
      (argAt (node.relabel labels) index) := by
  rw [argAt, argAt, Node.relabel_args, List.getElem?_map]
  cases node.args[index]? with
  | none => exact mirrors_abort
  | some arg => exact mirrors_pure arg

/-- A limit refuses in the larger case only what it refuses in the smaller. -/
theorem Weakens.follows {message : String} {limit larger : UInt32}
    (weakens : Weakens excuse message limit larger) {node : Node}
    {refused otherRefused : Prop} [Decidable refused] [Decidable otherRefused]
    {next other : Exec Value} (stricter : otherRefused → refused)
    (differs : refused → ¬ otherRefused → limit ≠ larger)
    (proceeds : ¬ refused → Follows labels excuse id next other) :
    Follows labels excuse id (if refused then fail node message else next)
      (if otherRefused then fail (node.relabel labels) message else other) := by
  by_cases holds : refused
  · rw [if_pos holds]
    by_cases also : otherRefused
    · rw [if_pos also]
      exact follows_fail node message
    · intro start
      exact .alarm (weakens.alarm (differs holds also) node)
  · rw [if_neg holds, if_neg (mt stricter holds)]
    exact proceeds holds

/-- A counter that has reached the limit. -/
theorem Weakens.follows_counter {message : String} {limit larger : UInt32}
    (weakens : Weakens excuse message limit larger) {node : Node} {count : UInt32}
    {next other : Exec Value} (proceeds : Follows labels excuse id next other) :
    Follows labels excuse id (if limit ≤ count then fail node message else next)
      (if larger ≤ count then fail (node.relabel labels) message else other) := by
  apply weakens.follows
  · intro reached
    exact UInt32.le_trans weakens.le reached
  · intro reached below equal
    exact below (equal ▸ reached)
  · exact fun _ => proceeds

/-- Fuel that is used up, where the other has none left either or is excused. -/
theorem Outlasts.follows_spent {result : α → β} {larger : Nat} (outlasts : Outlasts excuse 0 larger)
    {other : Exec β} (spent : larger = 0 → other = abort .outOfFuel) :
    Follows labels excuse result (abort .outOfFuel) other := by
  cases larger with
  | zero =>
      rw [spent rfl]
      exact mirrors_abort
  | succ larger => exact mirrors_excused (outlasts.spent (Nat.succ_ne_zero larger).symm) other

theorem follows_unlessStopping {result : α → β} {halt next : Exec α} {otherHalt other : Exec β}
    (halts : Follows labels excuse result halt otherHalt)
    (proceeds : Follows labels excuse result next other) :
    Follows labels excuse result (do if ← stopping then halt else next)
      (do if ← stopping then otherHalt else other) :=
  mirrors_bind follows_stopping fun _ => mirrors_ite Iff.rfl (fun _ => halts) fun _ => proceeds

variable {eval other : Eval}

/-- The value of a part, and what is done with it unless the run is stopping. -/
theorem follows_part {result : α → β} {halt next : Value → Exec α}
    {otherHalt following : Value → Exec β} (copies : Copies labels excuse eval other) (part : Node)
    (halts : ∀ value, Follows labels excuse result (halt value) (otherHalt value))
    (proceeds : ∀ value, Follows labels excuse result (next value) (following value)) :
    Follows labels excuse result
      (do let value ← eval part; if ← stopping then halt value else next value)
      (do let value ← other (part.relabel labels)
          if ← stopping then otherHalt value else following value) :=
  mirrors_bind (copies part) fun value => follows_unlessStopping (halts value) (proceeds value)

/-- The value of an argument, and what is done with it unless the run is stopping. -/
theorem follows_withValue (copies : Copies labels excuse eval other) (node : Node) (index : Nat)
    {next following : Value → Exec Value}
    (proceeds : ∀ value, Follows labels excuse id (next value) (following value)) :
    Follows labels excuse id
      (do let arg ← argAt node index
          let value ← eval arg
          if ← stopping then pure .none else next value)
      (do let arg ← argAt (node.relabel labels) index
          let value ← other arg
          if ← stopping then pure .none else following value) :=
  mirrors_bind (follows_argAt node index) fun arg =>
    follows_part copies arg (fun _ => mirrors_pure Value.none) proceeds

/-! ## Loops -/

theorem evalChildren_follows (copies : Copies labels excuse eval other) (nodes : List Node) :
    Follows labels excuse id (evalChildren eval nodes)
      (evalChildren other (nodes.map (Node.relabel labels))) := by
  induction nodes with
  | nil => exact mirrors_pure ()
  | cons child rest induction =>
      exact follows_part copies child (fun _ => mirrors_pure ()) fun _ => induction

theorem evalSequence_follows (copies : Copies labels excuse eval other) (nodes : List Node)
    (last : Value) :
    Follows labels excuse id (evalSequence eval nodes last)
      (evalSequence other (nodes.map (Node.relabel labels)) last) := by
  induction nodes generalizing last with
  | nil => exact mirrors_pure last
  | cons child rest induction =>
      exact follows_part copies child (fun _ => mirrors_pure Value.none) induction

theorem evalBody_follows (copies : Copies labels excuse eval other) (nodes : List Node)
    (last : Value) :
    Follows labels excuse id (evalBody eval nodes last)
      (evalBody other (nodes.map (Node.relabel labels)) last) := by
  induction nodes generalizing last with
  | nil => exact mirrors_pure last
  | cons child rest induction => exact follows_part copies child mirrors_pure induction

theorem skipChildren_follows (nodes : List Node) :
    Follows labels excuse id (skipChildren nodes)
      (skipChildren (nodes.map (Node.relabel labels))) := by
  induction nodes with
  | nil => exact mirrors_pure ()
  | cons child rest induction => exact mirrors_bind (follows_emitSkipped child) fun _ => induction

theorem evalArguments_follows (copies : Copies labels excuse eval other) (nodes : List Node)
    (values : List Value) :
    Follows labels excuse id (evalArguments eval nodes values)
      (evalArguments other (nodes.map (Node.relabel labels)) values) := by
  induction nodes generalizing values with
  | nil => exact mirrors_pure (some values)
  | cons arg rest induction =>
      exact follows_part copies arg (fun _ => mirrors_pure none) fun _ => induction _

theorem repeatLoop_follows (copies : Copies labels excuse eval other) (node : Node)
    (remaining index : Nat) :
    Follows labels excuse id (repeatLoop eval node remaining index)
      (repeatLoop other (node.relabel labels) remaining index) := by
  induction remaining generalizing index with
  | zero => exact mirrors_pure Value.none
  | succ remaining induction =>
      rw [repeatLoop, repeatLoop, Node.relabel_children]
      apply mirrors_bind (follows_mark (.repeatIteration index))
      intro _
      apply mirrors_bind (evalChildren_follows copies node.children)
      intro _
      exact follows_unlessStopping (mirrors_pure Value.none) (induction (index + 1))

theorem booleanLoop_follows (copies : Copies labels excuse eval other) (isAnd : Bool)
    (nodes : List Node) :
    Follows labels excuse id (booleanLoop eval isAnd nodes)
      (booleanLoop other isAnd (nodes.map (Node.relabel labels))) := by
  induction nodes with
  | nil => exact mirrors_pure (Value.boolean isAnd)
  | cons arg rest induction =>
      apply follows_part copies arg fun _ => mirrors_pure Value.none
      intro value
      apply mirrors_ite Iff.rfl fun _ => mirrors_pure (Value.boolean false)
      intro _
      exact mirrors_ite Iff.rfl (fun _ => mirrors_pure (Value.boolean true)) fun _ => induction

section Environments

variable {env otherEnv : Env}

theorem whileLoop_follows (lockstep : Lockstep labels excuse env otherEnv)
    (copies : Copies labels excuse eval other) (node : Node) {fuel larger : Nat}
    (outlasts : Outlasts excuse fuel larger) :
    Follows labels excuse id (whileLoop env eval node fuel)
      (whileLoop otherEnv other (node.relabel labels) larger) := by
  induction fuel generalizing larger with
  | zero => exact outlasts.follows_spent fun none => by rw [none, whileLoop]
  | succ fuel induction =>
      cases larger with
      | zero => exact absurd outlasts.le (Nat.not_succ_le_zero fuel)
      | succ larger =>
          apply mirrors_bind mirrors_get
          intro state
          apply lockstep.steps.follows_counter
          apply mirrors_bind follows_tick
          intro _
          apply mirrors_bind (follows_mark .whileIteration)
          intro _
          apply follows_withValue copies node 0
          intro value
          apply mirrors_ite Iff.rfl fun _ => mirrors_pure Value.none
          intro _
          rw [Node.relabel_children]
          apply mirrors_bind (evalChildren_follows copies node.children)
          intro _
          exact follows_unlessStopping (mirrors_pure Value.none) (induction outlasts.pred)

theorem combine_follows (lockstep : Lockstep labels excuse env otherEnv) (op : String)
    (operands : List Int64) (accumulator operand : Int64) :
    Follows labels excuse id (combine env op operands accumulator operand)
      (combine otherEnv op operands accumulator operand) := by
  have operates := lockstep.operates op accumulator operand
  rw [combine, combine]
  generalize env.operate op accumulator operand = delivered at operates ⊢
  generalize otherEnv.operate op accumulator operand = otherDelivered at operates ⊢
  cases operates with
  | same =>
      apply mirrors_bind (follows_mark (.combining op operands accumulator operand))
      intro _
      cases delivered with
      | none => exact mirrors_abort
      | some result => exact mirrors_pure result
  | alarm raised => exact fun _ => .alarm (raised operands)
  | last ends => exact fun _ => .last (ends operands)

theorem arithmeticLoop_follows (lockstep : Lockstep labels excuse env otherEnv)
    (copies : Copies labels excuse eval other) (node : Node) (nodes : List Node)
    (operands : List Int64) (accumulator : Int64) :
    Follows labels excuse id (arithmeticLoop env eval node nodes operands accumulator)
      (arithmeticLoop otherEnv other (node.relabel labels) (nodes.map (Node.relabel labels))
        operands accumulator) := by
  induction nodes generalizing operands accumulator with
  | nil =>
      rw [List.map_nil, arithmeticLoop, arithmeticLoop, Node.relabel_op]
      exact mirrors_bind (follows_mark (.computed node.op operands accumulator)) fun _ =>
        mirrors_pure (Value.integer accumulator)
  | cons arg rest induction =>
      rw [List.map_cons, arithmeticLoop, arithmeticLoop, Node.relabel_op]
      apply follows_part copies arg fun _ => mirrors_pure Value.none
      intro value
      have refused := @follows_fail labels excuse node "arithmetic operands must be integers"
      cases value with
      | integer operand =>
          apply mirrors_ite Iff.rfl fun _ => induction [operand] operand
          intro _
          apply mirrors_ite Iff.rfl fun _ => follows_fail node "division by zero"
          intro _
          apply mirrors_bind (combine_follows lockstep node.op operands accumulator operand)
          intro result
          exact mirrors_bind (follows_mark (.combined node.op (operands ++ [operand]) result))
            fun _ => induction _ _
      | none => exact refused
      | boolean _ => exact refused
      | color _ => exact refused

/-! ## Node kinds -/

theorem evalInt_follows (copies : Copies labels excuse eval other) (arg context : Node)
    (what : String) :
    Follows labels excuse id (evalInt eval arg context what)
      (evalInt other (arg.relabel labels) (context.relabel labels) what) := by
  apply follows_part copies arg fun _ => mirrors_pure none
  intro value
  have refused : Follows labels excuse id
      (do let _ ← fail context ("expected an integer for " ++ what); pure (none : Option Int64))
      (do let _ ← fail (context.relabel labels) ("expected an integer for " ++ what); pure none) :=
    mirrors_bind (follows_fail context _) fun _ => mirrors_pure none
  cases value with
  | integer number => exact mirrors_pure (some number)
  | none => exact refused
  | boolean _ => exact refused
  | color _ => exact refused

/-- An argument that has to be an integer, and what is done with it. -/
theorem follows_int (copies : Copies labels excuse eval other) (node : Node) (index : Nat)
    (what : String) {use otherUse : Option Int64 → Exec Value}
    (halts : Follows labels excuse id (use none) (otherUse none))
    (proceeds : ∀ number, Follows labels excuse id (use (some number)) (otherUse (some number))) :
    Follows labels excuse id
      (do let arg ← argAt node index; let found ← evalInt eval arg node what; use found)
      (do let arg ← argAt (node.relabel labels) index
          let found ← evalInt other arg (node.relabel labels) what
          otherUse found) := by
  apply mirrors_bind (follows_argAt node index)
  intro arg
  apply mirrors_bind (evalInt_follows copies arg node what)
  intro found
  cases found with
  | none => exact halts
  | some number => exact proceeds number

theorem evalRepeat_follows (lockstep : Lockstep labels excuse env otherEnv)
    (copies : Copies labels excuse eval other) (node : Node) :
    Follows labels excuse id (evalRepeat env eval node)
      (evalRepeat otherEnv other (node.relabel labels)) := by
  apply follows_int copies node 0 "repeat count" (mirrors_pure Value.none)
  intro count
  apply mirrors_ite Iff.rfl fun _ => follows_fail node _
  intro _
  have wider := UInt32.le_iff_toNat_le.mp lockstep.rounds.le
  apply lockstep.rounds.follows
  · exact fun beyond => Nat.lt_of_le_of_lt wider beyond
  · intro beyond within equal
    exact within (equal ▸ beyond)
  · exact fun _ => repeatLoop_follows copies node _ 0

theorem evalWhen_follows (copies : Copies labels excuse eval other) (node : Node) :
    Follows labels excuse id (evalWhen eval node) (evalWhen other (node.relabel labels)) := by
  rw [evalWhen, evalWhen, Node.relabel_children]
  apply follows_withValue copies node 0
  intro condition
  apply mirrors_ite Iff.rfl fun _ => evalSequence_follows copies node.children .none
  intro _
  exact mirrors_bind (skipChildren_follows node.children) fun _ => mirrors_pure Value.none

theorem evalIf_follows (copies : Copies labels excuse eval other) (node : Node) :
    Follows labels excuse id (evalIf eval node) (evalIf other (node.relabel labels)) := by
  apply follows_withValue copies node 0
  intro condition
  apply mirrors_bind (follows_argAt node _)
  intro skipped
  apply mirrors_bind (follows_emitSkipped skipped)
  intro _
  exact mirrors_bind (follows_argAt node _) copies

theorem define_relabel (state : ExecState) (name : String) (value : Value) :
    (state.relabel labels).define name value = (state.define name value).relabel labels := by
  rcases state with ⟨globals, locals, steps, callDepth, errored, cancelled, error⟩
  cases locals with
  | none => rfl
  | some vars => rfl

theorem assign_relabel (state : ExecState) (name : String) (value : Value) :
    (state.relabel labels).assign name value = (state.assign name value).relabel labels := by
  rcases state with ⟨globals, locals, steps, callDepth, errored, cancelled, error⟩
  cases locals with
  | none => rfl
  | some vars =>
      simp only [ExecState.assign, ExecState.relabel]
      split
      · rfl
      · rfl

theorem evalDefineVar_follows (copies : Copies labels excuse eval other) (node : Node) :
    Follows labels excuse id (evalDefineVar eval node)
      (evalDefineVar other (node.relabel labels)) := by
  rw [evalDefineVar, evalDefineVar, Node.relabel_op]
  apply follows_withValue copies node 0
  intro value
  have stores : Follows labels excuse id (modify fun state => state.define node.op value)
      (modify fun state => state.define node.op value) :=
    mirrors_modify fun state => define_relabel state node.op value
  exact mirrors_bind stores fun _ => mirrors_pure value

theorem evalSetVar_follows (copies : Copies labels excuse eval other) (node : Node) :
    Follows labels excuse id (evalSetVar eval node) (evalSetVar other (node.relabel labels)) := by
  rw [evalSetVar, evalSetVar, Node.relabel_op]
  apply follows_withValue copies node 0
  intro value
  apply mirrors_bind mirrors_get
  intro state
  have found : (state.relabel labels).find node.op = state.find node.op := rfl
  rw [found]
  cases state.find node.op with
  | none => exact follows_fail node _
  | some _ =>
      have stores : Follows labels excuse id (modify fun state => state.assign node.op value)
          (modify fun state => state.assign node.op value) :=
        mirrors_modify fun state => assign_relabel state node.op value
      exact mirrors_bind stores fun _ => mirrors_pure value

theorem evalVarRef_follows (node : Node) :
    Follows labels excuse id (evalVarRef node) (evalVarRef (node.relabel labels)) := by
  rw [evalVarRef, evalVarRef, Node.relabel_op]
  apply mirrors_bind mirrors_get
  intro state
  have found : (state.relabel labels).find node.op = state.find node.op := rfl
  rw [found]
  cases state.find node.op with
  | none => exact follows_fail node _
  | some value => exact mirrors_pure value

theorem issue_follows (node : Node) (call : RobotCommand) :
    Follows labels excuse id (issue node call) (issue (node.relabel labels) call) :=
  mirrors_bind (follows_command call (some node)) fun _ => mirrors_pure Value.none

theorem evalDrive_follows (copies : Copies labels excuse eval other) (node : Node) :
    Follows labels excuse id (evalDrive eval node) (evalDrive other (node.relabel labels)) := by
  rw [evalDrive, evalDrive, Node.relabel_kind]
  apply follows_int copies node 0 "speed" (mirrors_pure Value.none)
  intro speed
  apply follows_int copies node 1 "duration_ms" (mirrors_pure Value.none)
  intro duration
  apply mirrors_ite Iff.rfl fun _ => follows_fail node _
  intro _
  apply mirrors_ite Iff.rfl fun _ => follows_fail node _
  intro _
  exact mirrors_ite Iff.rfl (fun _ => issue_follows node _) fun _ => issue_follows node _

theorem evalTurn_follows (copies : Copies labels excuse eval other) (node : Node) :
    Follows labels excuse id (evalTurn eval node) (evalTurn other (node.relabel labels)) := by
  rw [evalTurn, evalTurn, Node.relabel_kind]
  apply follows_int copies node 0 "degrees" (mirrors_pure Value.none)
  intro degrees
  apply mirrors_ite Iff.rfl fun _ => follows_fail node _
  intro _
  exact mirrors_ite Iff.rfl (fun _ => issue_follows node _) fun _ => issue_follows node _

theorem evalWait_follows (copies : Copies labels excuse eval other) (node : Node) :
    Follows labels excuse id (evalWait eval node) (evalWait other (node.relabel labels)) := by
  apply follows_int copies node 0 "duration_ms" (mirrors_pure Value.none)
  intro duration
  apply mirrors_ite Iff.rfl fun _ => follows_fail node _
  exact fun _ => issue_follows node _

theorem evalLight_follows (copies : Copies labels excuse eval other) (node : Node) :
    Follows labels excuse id (evalLight eval node) (evalLight other (node.relabel labels)) := by
  apply follows_withValue copies node 0
  intro value
  cases value with
  | color color => exact issue_follows node (.setLight color)
  | none => exact follows_fail node _
  | integer _ => exact follows_fail node _
  | boolean _ => exact follows_fail node _

theorem evalCompare_follows (copies : Copies labels excuse eval other) (node : Node) :
    Follows labels excuse id (evalCompare eval node)
      (evalCompare other (node.relabel labels)) := by
  rw [evalCompare, evalCompare, Node.relabel_op]
  apply follows_withValue copies node 0
  intro left
  apply follows_withValue copies node 1
  intro right
  split
  · exact mirrors_pure _
  · exact follows_fail node _

theorem evalBoolean_follows (copies : Copies labels excuse eval other) (node : Node) :
    Follows labels excuse id (evalBoolean eval node)
      (evalBoolean other (node.relabel labels)) := by
  rw [evalBoolean, evalBoolean, Node.relabel_op, Node.relabel_args]
  apply mirrors_ite Iff.rfl
  · intro _
    exact follows_withValue copies node 0 fun value =>
      mirrors_pure (Value.boolean (!value.truthy))
  · exact fun _ => booleanLoop_follows copies _ node.args

theorem follows_ask (question : Query) {use : question.Reply → Value}
    {otherUse : (question.relabel labels).Reply → Value}
    (same : ∀ given, otherUse (question.relabelReply labels given) = use given) :
    Follows labels excuse id (do let given ← ask question; pure (use given))
      (do let given ← ask (question.relabel labels); pure (otherUse given)) := by
  apply mirrors_bind (follows_query question)
  intro given
  rw [same]
  exact mirrors_pure (use given)

theorem pollCancel_follows (lockstep : Lockstep labels excuse env otherEnv) :
    Follows labels excuse id (pollCancel env) (pollCancel otherEnv) := by
  rw [pollCancel, pollCancel, lockstep.cancellable]
  exact mirrors_ite Iff.rfl (fun _ => follows_query .poll) fun _ => mirrors_pure false

theorem callFunction_follows (lockstep : Lockstep labels excuse env otherEnv)
    (copies : Copies labels excuse eval other) (call : Node) :
    Follows labels excuse id (callFunction env eval call)
      (callFunction otherEnv other (call.relabel labels)) := by
  rw [callFunction, callFunction, Node.relabel_op, lockstep.functions]
  cases env.functions call.op with
  | none => exact follows_fail call _
  | some function =>
      rw [Node.relabel_args]
      apply mirrors_bind (evalArguments_follows copies call.args [])
      intro found
      cases found with
      | none => exact mirrors_pure Value.none
      | some values =>
          apply mirrors_bind mirrors_get
          intro state
          apply lockstep.depth.follows_counter
          apply mirrors_bind (follows_mark (.enterCall function values))
          intro _
          have enters : Follows labels excuse id
              (modify fun state =>
                state.enter (bindParams function.params values fun _ => none))
              (modify fun state =>
                state.enter
                  (bindParams (function.relabel labels).params values fun _ => none)) := by
            rw [Node.relabel_params]
            exact mirrors_modify fun _ => rfl
          apply mirrors_bind enters
          intro _
          rw [Node.relabel_children]
          apply mirrors_bind (evalBody_follows copies function.children .none)
          intro result
          have leaves : Follows labels excuse id
              (modify fun reached => reached.leave state.locals)
              (modify fun reached => reached.leave (state.relabel labels).locals) :=
            mirrors_modify fun _ => rfl
          apply mirrors_bind leaves
          intro _
          exact mirrors_bind (follows_mark .exitCall) fun _ => mirrors_pure result

theorem evalInner_follows (lockstep : Lockstep labels excuse env otherEnv)
    (copies : Copies labels excuse eval other) {fuel larger : Nat}
    (outlasts : Outlasts excuse fuel larger) (node : Node) :
    Follows labels excuse id (evalInner env eval fuel node)
      (evalInner otherEnv other larger (node.relabel labels)) := by
  rw [evalInner.eq_def, evalInner.eq_def, Node.relabel_kind]
  cases kind : node.kind with
  | doForm =>
      rw [Node.relabel_children]
      exact evalSequence_follows copies node.children .none
  | repeatForm => exact evalRepeat_follows lockstep copies node
  | whenForm => exact evalWhen_follows copies node
  | ifForm => exact evalIf_follows copies node
  | whileForm => exact whileLoop_follows lockstep copies node outlasts
  | defineFunc => exact mirrors_pure Value.none
  | defineVar => exact evalDefineVar_follows copies node
  | setVar => exact evalSetVar_follows copies node
  | varRef => exact evalVarRef_follows node
  | call => exact callFunction_follows lockstep copies node
  | drive | backward => exact evalDrive_follows copies node
  | turnLeft | turnRight => exact evalTurn_follows copies node
  | stop => exact issue_follows node .stop
  | wait => exact evalWait_follows copies node
  | light => exact evalLight_follows copies node
  | beep => exact issue_follows node .beep
  | distanceCm => exact follows_ask (.distanceCm node) fun _ => rfl
  | button => exact follows_ask (.button node) fun _ => rfl
  | lineLeft => exact follows_ask (.lineLeft node) fun _ => rfl
  | lineRight => exact follows_ask (.lineRight node) fun _ => rfl
  | compare => exact evalCompare_follows copies node
  | booleanOp => exact evalBoolean_follows copies node
  | arithmetic =>
      rw [Node.relabel_args]
      exact arithmeticLoop_follows lockstep copies node node.args [] 0
  | integerLiteral =>
      rw [Node.relabel_nums]
      exact mirrors_pure (Value.integer _)
  | booleanLiteral =>
      rw [Node.relabel_nums]
      exact mirrors_pure (Value.boolean _)
  | colorLiteral =>
      rw [Node.relabel_nums]
      exact mirrors_pure (Value.color _)

end Environments

end Rules

/-! ## Whole evaluations -/

/-- A node under other labels is evaluated in step with it. -/
theorem eval_follows {labels : Relabelling} {excuse : EngineExcuse} {env otherEnv : Env}
    (lockstep : Lockstep labels excuse env otherEnv) {fuel larger : Nat}
    (outlasts : Outlasts excuse fuel larger) :
    Copies labels excuse (eval env fuel) (eval otherEnv larger) := by
  induction fuel generalizing larger with
  | zero => exact fun _ => outlasts.follows_spent fun none => by rw [none, CardCode.eval]
  | succ fuel induction =>
      cases larger with
      | zero => exact absurd outlasts.le (Nat.not_succ_le_zero fuel)
      | succ larger =>
          have copies := induction outlasts.pred
          have inner (node : Node) := evalInner_follows lockstep copies outlasts.pred node
          intro node
          rw [eval, eval, Node.relabel_kind]
          apply follows_unlessStopping (mirrors_pure Value.none)
          apply mirrors_bind (pollCancel_follows lockstep)
          intro cancelled
          apply mirrors_ite Iff.rfl
          · intro _
            have cancels : Follows labels excuse id
                (modify fun state => { state with cancelled := true })
                (modify fun state => { state with cancelled := true }) :=
              mirrors_modify fun _ => rfl
            exact mirrors_bind cancels fun _ => mirrors_pure Value.none
          · intro _
            apply mirrors_ite Iff.rfl
            · intro _
              apply mirrors_bind mirrors_get
              intro state
              apply lockstep.steps.follows_counter
              apply mirrors_bind follows_tick
              intro _
              rw [Node.relabel_op]
              apply mirrors_bind (follows_emit .nodeStart node node.op)
              intro _
              apply mirrors_bind (inner node)
              intro value
              apply follows_unlessStopping (mirrors_pure value)
              exact mirrors_bind (follows_emit .nodeDone node node.op) fun _ => mirrors_pure value
            · exact fun _ => inner node

/-! ## Whole runs -/

section Runs

variable {labels : Relabelling} {excuse : EngineExcuse}

theorem executeBody_follows {env otherEnv : Env} (lockstep : Lockstep labels excuse env otherEnv)
    {fuel larger : Nat} (outlasts : Outlasts excuse fuel larger) (root : Node) :
    Follows labels excuse (ExecutionResult.relabel labels) (executeBody env fuel root)
      (executeBody otherEnv larger (root.relabel labels)) := by
  have fails (message : String) (error : Diagnostic) :
      Follows labels excuse (ExecutionResult.relabel labels)
        (do command .stop none; emitProgram .programError message; pure ⟨false, some error⟩)
        (do command .stop none
            emitProgram .programError message
            pure ⟨false, some (error.relabel labels)⟩) := by
    apply mirrors_bind (follows_command .stop none)
    intro _
    exact mirrors_bind (follows_emitProgram .programError message) fun _ => mirrors_pure _
  apply mirrors_bind (follows_emitProgram .programStart "")
  intro _
  apply mirrors_bind (eval_follows lockstep outlasts root)
  intro _
  apply mirrors_bind mirrors_get
  intro state
  apply mirrors_ite Iff.rfl
  · intro _
    rw [Node.relabel_span]
    exact fails "execution cancelled" ⟨.error, root.span, "execution cancelled"⟩
  · intro _
    apply mirrors_ite Iff.rfl
    · exact fun _ => fails state.error.message state.error
    · intro _
      exact mirrors_bind (follows_emitProgram .programDone "") fun _ => mirrors_pure _

theorem collected_relabel (nodes : List Node) {table other : String → Option Node}
    (same : ∀ name, other name = (table name).map (Node.relabel labels)) (name : String) :
    (nodes.map (Node.relabel labels)).foldl collectFunction other name =
      (nodes.foldl collectFunction table name).map (Node.relabel labels) := by
  induction nodes generalizing table other with
  | nil => exact same name
  | cons node rest induction =>
      apply induction
      intro name
      rw [collectFunction, collectFunction, Node.relabel_kind, Node.relabel_op]
      split_ifs
      · dsimp only
        split
        · rfl
        · exact same name
      · exact same name

theorem collectFunctions_relabel (root : Node) (name : String) :
    collectFunctions (root.relabel labels) name =
      (collectFunctions root name).map (Node.relabel labels) := by
  rw [collectFunctions_eq, collectFunctions_eq, Node.relabel_children, ← List.map_cons]
  exact @collected_relabel labels (root :: root.children) (fun _ => none) _ (fun _ => rfl) name

/-- Settings that differ in their limits alone. -/
theorem lockstep_of_limits {setting : Setting} {limits : ExecutionLimits} (root : Node)
    (steps : Weakens excuse "execution exceeded maximum step limit"
      setting.limits.maxTotalSteps limits.maxTotalSteps)
    (rounds : Weakens excuse "repeat count exceeds limit" setting.limits.maxRepeatCount
      limits.maxRepeatCount)
    (depth : Weakens excuse "maximum call depth exceeded" setting.limits.maxCallDepth
      limits.maxCallDepth) :
    Lockstep labels excuse (setting.env root)
      ({ setting with limits }.env (root.relabel labels)) where
  functions := collectFunctions_relabel root
  cancellable := rfl
  operates := fun _ _ _ => .same
  steps := steps
  rounds := rounds
  depth := depth

theorem execute_simulates {setting other : Setting} {root : Node}
    (lockstep : Lockstep labels excuse (setting.env root) (other.env (root.relabel labels)))
    (spent : setting.limits ≠ other.limits → excuse.fault .outOfFuel) :
    Simulates labels.names excuse (ExecutionResult.relabel labels) (execute setting root)
      (execute other (root.relabel labels)) := by
  have outlasts : Outlasts excuse (fuelBound setting.limits root)
      (fuelBound other.limits (root.relabel labels)) := by
    rw [fuelBound, fuelBound, Node.height_relabel]
    refine ⟨?_, ?_⟩
    · have steps := UInt32.le_iff_toNat_le.mp lockstep.steps.le
      have depth := UInt32.le_iff_toNat_le.mp lockstep.depth.le
      have heights := Nat.mul_le_mul_right root.height (Nat.succ_le_succ depth)
      exact Nat.add_le_add_right (Nat.add_le_add heights steps) 2
    · intro different
      apply spent
      intro same
      rw [same] at different
      exact different rfl
  have follows := executeBody_follows lockstep outlasts root {}
  rw [ExecState.relabel_initial] at follows
  exact follows.bind fun final => .done

end Runs

/-! ## Schedules -/

/-- What the surroundings of a run reply: the cancel flag by poll, the sensors by
sensor read. -/
structure Schedule where
  cancelled : Nat → Bool
  distanceCm : Nat → Int32
  button : Nat → Bool
  lineLeft : Nat → Bool
  lineRight : Nat → Bool

/-- How often the flag was polled and how often a sensor was read. -/
structure Progress where
  polls : Nat := 0
  reads : Nat := 0

def Schedule.world (schedule : Schedule) : World engineInterface Progress where
  reply progress
    | .poll => schedule.cancelled progress.polls
    | .distanceCm _ => schedule.distanceCm progress.reads
    | .button _ => schedule.button progress.reads
    | .lineLeft _ => schedule.lineLeft progress.reads
    | .lineRight _ => schedule.lineRight progress.reads
  next progress
    | .poll => { progress with polls := progress.polls + 1 }
    | _ => { progress with reads := progress.reads + 1 }

/-- The run of a tree under a schedule. -/
def Schedule.run (schedule : Schedule) (setting : Setting) (root : Node) :
    Trace × Except Fault ExecutionResult :=
  attend schedule.world {} (execute setting root)

theorem Schedule.carries (schedule : Schedule) (labels : Relabelling) :
    labels.names.Carries schedule.world schedule.world where
  reply := by
    intro progress question
    cases question <;> rfl
  next := by
    intro progress question
    cases question <;> rfl

/-- A tree under other labels runs as it does, unless it is excused. -/
theorem Schedule.run_relabel (schedule : Schedule) {labels : Relabelling}
    {excuse : EngineExcuse} {setting other : Setting} {root : Node}
    (lockstep : Lockstep labels excuse (setting.env root) (other.env (root.relabel labels)))
    (spent : setting.limits ≠ other.limits → excuse.fault .outOfFuel)
    (ends : ∀ reason, (schedule.run setting root).2 = .error reason →
      ¬ excuse.AtEnd (schedule.run setting root).1 reason)
    (quiet : ∀ action ∈ (schedule.run setting root).1, ¬ excuse.action action) :
    schedule.run other (root.relabel labels) =
      ((schedule.run setting root).1.map (Action.relabel labels),
        (schedule.run setting root).2.map (ExecutionResult.relabel labels)) :=
  (execute_simulates lockstep spent).attend_eq (schedule.carries labels) ends quiet

end CardCode
