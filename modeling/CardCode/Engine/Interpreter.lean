import CardCode.Engine.Events

/-! # The engine's interpreter (`src/engine.cpp`)

The recursion of `eval` is bounded by `fuel`; every other function receives the
evaluator for sub-expressions as an argument. `fuelBound` is what `execute`
passes.
-/

namespace CardCode

structure ExecutionLimits where
  maxRepeatCount : UInt32 := 100
  maxTotalSteps : UInt32 := 1000
  maxCallDepth : UInt32 := 64
  deriving Repr, DecidableEq

/-- Variable bindings of one frame. -/
abbrev Vars := String → Option Value

def Vars.set (vars : Vars) (name : String) (value : Value) : Vars :=
  fun other => if other = name then some value else vars other

/-- The interpreter's mutable state. `locals` is the frame passed as `scope`;
it is absent where `scope` is the global frame. -/
structure ExecState where
  globals : Vars := fun _ => none
  locals : Option Vars := none
  steps : UInt32 := 0
  callDepth : UInt32 := 0
  errored : Bool := false
  cancelled : Bool := false
  error : Diagnostic := {}

namespace ExecState

def stopping (state : ExecState) : Bool :=
  state.errored || state.cancelled

/-- `Frame::find`: the local frame first, then the global one. -/
def find (state : ExecState) (name : String) : Option Value :=
  match state.locals with
  | none => state.globals name
  | some vars =>
      match vars name with
      | some value => some value
      | none => state.globals name

/-- Bind a variable in the frame passed as `scope`. -/
def define (state : ExecState) (name : String) (value : Value) : ExecState :=
  match state.locals with
  | none => { state with globals := state.globals.set name value }
  | some vars => { state with locals := some (vars.set name value) }

/-- Overwrite the slot that `find` returns. -/
def assign (state : ExecState) (name : String) (value : Value) : ExecState :=
  match state.locals with
  | none => { state with globals := state.globals.set name value }
  | some vars =>
      if (vars name).isSome then { state with locals := some (vars.set name value) }
      else { state with globals := state.globals.set name value }

def tick (state : ExecState) : ExecState :=
  { state with steps := state.steps + 1 }

def failed (state : ExecState) (node : Node) (message : String) : ExecState :=
  { state with
    errored := true
    error := { severity := .error, span := node.span, message } }

def enter (state : ExecState) (vars : Vars) : ExecState :=
  { state with locals := some vars, callDepth := state.callDepth + 1 }

/-- Back to the caller's frame. -/
def leave (state : ExecState) (caller : Option Vars) : ExecState :=
  { state with locals := caller, callDepth := state.callDepth - 1 }

end ExecState

inductive Fault where
  | outOfFuel
  | outOfBounds
  /-- The processor traps at a quotient that is out of range, which ends the process. -/
  | trapped
  deriving Repr, DecidableEq

/-- What stays fixed during a run. `overflow` is what an `int64` operation delivers
where C++ leaves its result undefined, or nothing where the processor traps. -/
structure Env where
  functions : String → Option Node
  limits : ExecutionLimits
  cancellable : Bool
  overflow : String → Int64 → Int64 → Option Int64

abbrev Exec := Process.Stateful engineInterface Fault ExecState

abbrev Eval := Node → Exec Value

open Process

/-! ## Elementary steps -/

def stopping : Exec Bool := do
  let state ← get
  pure state.stopping

def ask (question : Query) : Exec question.Reply :=
  @query engineInterface Fault ExecState question

def emit (type : ExecutionEventType) (node : Node) (message : String) : Exec Unit :=
  perform (.emit type node message)

def emitProgram (type : ExecutionEventType) (message : String) : Exec Unit :=
  perform (.emitProgram type message)

def command (call : RobotCommand) (issuer : Option Node) : Exec Unit :=
  perform (.command call issuer)

def mark (point : Mark) : Exec Unit :=
  perform (.mark point)

def fail (node : Node) (message : String) : Exec Value := do
  modify fun state => state.failed node message
  emit .nodeError node message
  pure .none

def emitSkipped (node : Node) : Exec Unit :=
  emit .nodeSkipped node node.op

/-- `*n.args[i]`, which C++ does not check. -/
def argAt (node : Node) (index : Nat) : Exec Node :=
  match node.args[index]? with
  | some arg => pure arg
  | none => abort .outOfBounds

/-! ## Loops -/

def evalChildren (eval : Eval) : List Node → Exec Unit
  | [] => pure ()
  | child :: rest => do
      let _ ← eval child
      if ← stopping then pure () else evalChildren eval rest

/-- The loop of `do` and `when`, which forget the value when stopping. -/
def evalSequence (eval : Eval) : List Node → Value → Exec Value
  | [], last => pure last
  | child :: rest, _ => do
      let value ← eval child
      if ← stopping then pure .none else evalSequence eval rest value

/-- The loop over a function body, which keeps the value when stopping. -/
def evalBody (eval : Eval) : List Node → Value → Exec Value
  | [], last => pure last
  | child :: rest, _ => do
      let value ← eval child
      if ← stopping then pure value else evalBody eval rest value

def skipChildren : List Node → Exec Unit
  | [] => pure ()
  | child :: rest => do
      emitSkipped child
      skipChildren rest

/-- The argument values of a call, or nothing when stopping. -/
def evalArguments (eval : Eval) : List Node → List Value → Exec (Option (List Value))
  | [], values => pure (some values)
  | arg :: rest, values => do
      let value ← eval arg
      if ← stopping then pure none else evalArguments eval rest (values ++ [value])

def repeatLoop (eval : Eval) (node : Node) : Nat → Nat → Exec Value
  | 0, _ => pure .none
  | remaining + 1, index => do
      mark (.repeatIteration index)
      evalChildren eval node.children
      if ← stopping then pure .none else repeatLoop eval node remaining (index + 1)

/-- The unbounded loop of `while`; each iteration costs a step. -/
def whileLoop (env : Env) (eval : Eval) (node : Node) : Nat → Exec Value
  | 0 => abort .outOfFuel
  | fuel + 1 => do
      let state ← get
      if env.limits.maxTotalSteps ≤ state.steps then
        fail node "execution exceeded maximum step limit"
      else do
        modify ExecState.tick
        mark .whileIteration
        let condition ← argAt node 0
        let value ← eval condition
        if ← stopping then pure .none
        else if !value.truthy then pure .none
        else do
          evalChildren eval node.children
          if ← stopping then pure .none else whileLoop env eval node fuel

def booleanLoop (eval : Eval) (isAnd : Bool) : List Node → Exec Value
  | [] => pure (.boolean isAnd)
  | arg :: rest => do
      let value ← eval arg
      if ← stopping then pure .none
      else if isAnd && !value.truthy then pure (.boolean false)
      else if !isAnd && value.truthy then pure (.boolean true)
      else booleanLoop eval isAnd rest

/-! ## Arithmetic -/

/-- The mathematical result of one operation; C++ division truncates. -/
def exactResult (op : String) (left right : Int) : Int :=
  if op = "+" then left + right
  else if op = "-" then left - right
  else if op = "*" then left * right
  else left.tdiv right

/-- One `int64` operation of the machine, where it does not trap. -/
def Env.operate (env : Env) (op : String) (left right : Int64) : Option Int64 :=
  if InInt64 (exactResult op left.toInt right.toInt) then
    some (Int64.ofInt (exactResult op left.toInt right.toInt))
  else env.overflow op left right

/-- Whether the loop takes its last branch, the one for `/`. -/
def dividesBy (op : String) : Bool :=
  op ≠ "+" && op ≠ "-" && op ≠ "*"

/-- The value held for the operands read so far is combined with the next one. -/
def combine (env : Env) (op : String) (operands : List Int64) (accumulator operand : Int64) :
    Exec Int64 := do
  mark (.combining op operands accumulator operand)
  match env.operate op accumulator operand with
  | some result => pure result
  | none => abort .trapped

def arithmeticLoop (env : Env) (eval : Eval) (node : Node) :
    List Node → List Int64 → Int64 → Exec Value
  | [], operands, accumulator => do
      mark (.computed node.op operands accumulator)
      pure (.integer accumulator)
  | arg :: rest, operands, accumulator => do
      let value ← eval arg
      if ← stopping then pure .none
      else
        match value with
        | .integer operand =>
            if operands.isEmpty then
              arithmeticLoop env eval node rest [operand] operand
            else if dividesBy node.op && operand = 0 then
              fail node "division by zero"
            else do
              let result ← combine env node.op operands accumulator operand
              mark (.combined node.op (operands ++ [operand]) result)
              arithmeticLoop env eval node rest (operands ++ [operand]) result
        | _ => fail node "arithmetic operands must be integers"

def compareValues (op : String) (left right : Int64) : Bool :=
  if op = "<" then left < right
  else if op = ">" then left > right
  else if op = "=" then left = right
  else if op = "<=" then left ≤ right
  else if op = ">=" then left ≥ right
  else false

/-! ## Node kinds -/

/-- The value of an argument that has to be an integer, unless stopping. -/
def evalInt (eval : Eval) (arg context : Node) (what : String) :
    Exec (Option Int64) := do
  let value ← eval arg
  if ← stopping then pure none
  else
    match value with
    | .integer number => pure (some number)
    | _ => do
        let _ ← fail context ("expected an integer for " ++ what)
        pure none

def bindParams : List String → List Value → Vars → Vars
  | [], _, vars => vars
  | name :: names, values, vars =>
      bindParams names values.tail (vars.set name (values.head?.getD .none))

def callFunction (env : Env) (eval : Eval) (call : Node) : Exec Value :=
  match env.functions call.op with
  | none => fail call ("undefined function '" ++ call.op ++ "'")
  | some function => do
      match ← evalArguments eval call.args [] with
      | none => pure .none
      | some values => do
          let state ← get
          if env.limits.maxCallDepth ≤ state.callDepth then
            fail call "maximum call depth exceeded"
          else do
            mark (.enterCall function values)
            modify fun state =>
              state.enter (bindParams function.params values fun _ => none)
            let result ← evalBody eval function.children .none
            modify fun reached => reached.leave state.locals
            mark .exitCall
            pure result

def evalRepeat (env : Env) (eval : Eval) (node : Node) : Exec Value := do
  let arg ← argAt node 0
  match ← evalInt eval arg node "repeat count" with
  | none => pure .none
  | some count =>
      if count < 0 then fail node "repeat count must not be negative"
      else if env.limits.maxRepeatCount.toNat < count.toInt.toNat then
        fail node "repeat count exceeds limit"
      else repeatLoop eval node count.toInt.toNat 0

def evalWhen (eval : Eval) (node : Node) : Exec Value := do
  let arg ← argAt node 0
  let condition ← eval arg
  if ← stopping then pure .none
  else if condition.truthy then evalSequence eval node.children .none
  else do
    skipChildren node.children
    pure .none

def evalIf (eval : Eval) (node : Node) : Exec Value := do
  let arg ← argAt node 0
  let condition ← eval arg
  if ← stopping then pure .none
  else do
    let skipped ← argAt node (if condition.truthy then 2 else 1)
    emitSkipped skipped
    let taken ← argAt node (if condition.truthy then 1 else 2)
    eval taken

def evalDefineVar (eval : Eval) (node : Node) : Exec Value := do
  let arg ← argAt node 0
  let value ← eval arg
  if ← stopping then pure .none
  else do
    modify fun state => state.define node.op value
    pure value

def evalSetVar (eval : Eval) (node : Node) : Exec Value := do
  let arg ← argAt node 0
  let value ← eval arg
  if ← stopping then pure .none
  else do
    let state ← get
    match state.find node.op with
    | none => fail node ("set! of undefined variable '" ++ node.op ++ "'")
    | some _ => do
        modify fun state => state.assign node.op value
        pure value

def evalVarRef (node : Node) : Exec Value := do
  let state ← get
  match state.find node.op with
  | none => fail node ("undefined variable '" ++ node.op ++ "'")
  | some value => pure value

/-- An actuator call, which is the last thing a command node does. -/
def issue (node : Node) (call : RobotCommand) : Exec Value := do
  command call (some node)
  pure .none

def evalDrive (eval : Eval) (node : Node) : Exec Value := do
  let speedArg ← argAt node 0
  match ← evalInt eval speedArg node "speed" with
  | none => pure .none
  | some speed => do
      let durationArg ← argAt node 1
      match ← evalInt eval durationArg node "duration_ms" with
      | none => pure .none
      | some duration =>
          if speed < 0 || speed > 100 then
            fail node "speed must be between 0 and 100"
          else if duration < 0 || duration > 10000 then
            fail node "duration_ms must be between 0 and 10000"
          else if node.kind = .drive then
            issue node (.driveForward speed.toInt32 duration.toInt32)
          else issue node (.driveBackward speed.toInt32 duration.toInt32)

def evalTurn (eval : Eval) (node : Node) : Exec Value := do
  let arg ← argAt node 0
  match ← evalInt eval arg node "degrees" with
  | none => pure .none
  | some degrees =>
      if degrees < 0 || degrees > 3600 then
        fail node "degrees must be between 0 and 3600"
      else if node.kind = .turnLeft then issue node (.turnLeft degrees.toInt32)
      else issue node (.turnRight degrees.toInt32)

def evalWait (eval : Eval) (node : Node) : Exec Value := do
  let arg ← argAt node 0
  match ← evalInt eval arg node "duration_ms" with
  | none => pure .none
  | some duration =>
      if duration < 0 || duration > 10000 then
        fail node "duration_ms must be between 0 and 10000"
      else issue node (.waitMs duration.toInt32)

def evalLight (eval : Eval) (node : Node) : Exec Value := do
  let arg ← argAt node 0
  let value ← eval arg
  if ← stopping then pure .none
  else
    match value with
    | .color color => issue node (.setLight color)
    | _ => fail node "light expects a color"

def evalCompare (eval : Eval) (node : Node) : Exec Value := do
  let leftArg ← argAt node 0
  let left ← eval leftArg
  if ← stopping then pure .none
  else do
    let rightArg ← argAt node 1
    let right ← eval rightArg
    if ← stopping then pure .none
    else
      match left, right with
      | .integer x, .integer y => pure (.boolean (compareValues node.op x y))
      | _, _ => fail node "comparison operands must be integers"

def evalBoolean (eval : Eval) (node : Node) : Exec Value :=
  if node.op = "not" then do
    let arg ← argAt node 0
    let value ← eval arg
    if ← stopping then pure .none else pure (.boolean (!value.truthy))
  else booleanLoop eval (node.op = "and") node.args

def readDistance (node : Node) : Exec Value := do
  let value ← ask (.distanceCm node)
  pure (.integer (Int32.toInt64 value))

def readFlag (read : Exec Bool) : Exec Value := do
  let value ← read
  pure (.boolean value)

/-- `eval_inner`; `fuel` bounds the iterations of `while`. -/
def evalInner (env : Env) (eval : Eval) (fuel : Nat) (node : Node) : Exec Value :=
  match node.kind with
  | .doForm => evalSequence eval node.children .none
  | .repeatForm => evalRepeat env eval node
  | .whenForm => evalWhen eval node
  | .ifForm => evalIf eval node
  | .whileForm => whileLoop env eval node fuel
  | .defineFunc => pure .none
  | .defineVar => evalDefineVar eval node
  | .setVar => evalSetVar eval node
  | .varRef => evalVarRef node
  | .call => callFunction env eval node
  | .drive | .backward => evalDrive eval node
  | .turnLeft | .turnRight => evalTurn eval node
  | .stop => issue node .stop
  | .wait => evalWait eval node
  | .light => evalLight eval node
  | .beep => issue node .beep
  | .distanceCm => readDistance node
  | .button => readFlag (ask (.button node))
  | .lineLeft => readFlag (ask (.lineLeft node))
  | .lineRight => readFlag (ask (.lineRight node))
  | .compare => evalCompare eval node
  | .booleanOp => evalBoolean eval node
  | .arithmetic => arithmeticLoop env eval node node.args [] 0
  | .integerLiteral => pure (.integer (node.nums.head?.getD 0))
  | .booleanLiteral => pure (.boolean (node.nums.head?.any fun value => value ≠ 0))
  | .colorLiteral => pure (.color (Color.ofOrdinal (node.nums.head?.getD 0)))

/-- The cancel flag, where `execute` was given one. -/
def pollCancel (env : Env) : Exec Bool :=
  if env.cancellable then ask .poll else pure false

def eval (env : Env) : Nat → Eval
  | 0, _ => abort .outOfFuel
  | fuel + 1, node => do
      if ← stopping then pure .none
      else if ← pollCancel env then do
        modify fun state => { state with cancelled := true }
        pure .none
      else if node.kind.isHighlightable then do
        let state ← get
        if env.limits.maxTotalSteps ≤ state.steps then
          fail node "execution exceeded maximum step limit"
        else do
          modify ExecState.tick
          emit .nodeStart node node.op
          let value ← evalInner env (eval env fuel) fuel node
          if ← stopping then pure value
          else do
            emit .nodeDone node node.op
            pure value
      else evalInner env (eval env fuel) fuel node

/-! ## Programs -/

/-- `collect_functions`: a later definition of a name replaces an earlier one. -/
def collectFunctions (root : Node) : String → Option Node :=
  (root :: root.children).foldl
    (fun table node =>
      if node.kind = .defineFunc then
        fun name => if name = node.op then some node else table name
      else table)
    fun _ => none

mutual

def Node.height : Node → Nat
  | ⟨_, _, _, _, args, children, _, _⟩ =>
      max (Node.heightAll args) (Node.heightAll children) + 1

def Node.heightAll : List Node → Nat
  | [] => 0
  | node :: rest => max node.height (Node.heightAll rest)

end

/-- Fuel no run uses up: each pending call nests at most the height of the
tree, and no loop outlives the step limit. -/
def fuelBound (limits : ExecutionLimits) (root : Node) : Nat :=
  (limits.maxCallDepth.toNat + 1) * root.height + limits.maxTotalSteps.toNat + 2

structure ExecutionResult where
  success : Bool
  error : Option Diagnostic
  deriving Repr, DecidableEq

def executeBody (env : Env) (fuel : Nat) (root : Node) : Exec ExecutionResult := do
  emitProgram .programStart ""
  let _ ← eval env fuel root
  let state ← get
  if state.cancelled then do
    command .stop none
    emitProgram .programError "execution cancelled"
    pure ⟨false, some
      { severity := .error, span := root.span, message := "execution cancelled" }⟩
  else if state.errored then do
    command .stop none
    emitProgram .programError state.error.message
    pure ⟨false, some state.error⟩
  else do
    emitProgram .programDone ""
    pure ⟨true, none⟩

/-- What `execute` is called with beside the program. `cancellable` says
whether a cancel flag was passed, `overflow` what a sum, a difference or a product out of
range is. The one quotient out of range traps. -/
structure Setting where
  limits : ExecutionLimits := {}
  cancellable : Bool := true
  overflow : String → Int64 → Int64 → Int64

def Setting.env (setting : Setting) (root : Node) : Env where
  functions := collectFunctions root
  limits := setting.limits
  cancellable := setting.cancellable
  overflow op left right :=
    if dividesBy op then none else some (setting.overflow op left right)

def execute (setting : Setting) (root : Node) :
    Process engineInterface Fault ExecutionResult := do
  let final ← executeBody (setting.env root) (fuelBound setting.limits root) root {}
  pure final.1

end CardCode
