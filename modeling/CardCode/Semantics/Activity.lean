import CardCode.Semantics.Steps

/-! # What an evaluation may do

An abstract interpreter: it keeps the order of events, the counters and the
stopping discipline of `eval`, and leaves open which branch is taken, how often
a loop runs and which values are computed. `eval_activity` shows that every run
of the interpreter is one of its runs, so a law proved by induction over
`Activity` holds of the program.
-/

namespace CardCode

open Process

/-- Every text a runtime error of `node` can carry, save for the one about an
undefined function. -/
def complaints (node : Node) : List String :=
  [ "execution exceeded maximum step limit",
    "expected an integer for repeat count",
    "expected an integer for speed",
    "expected an integer for duration_ms",
    "expected an integer for degrees",
    "repeat count must not be negative",
    "repeat count exceeds limit",
    "set! of undefined variable '" ++ node.op ++ "'",
    "undefined variable '" ++ node.op ++ "'",
    "maximum call depth exceeded",
    "speed must be between 0 and 100",
    "duration_ms must be between 0 and 10000",
    "degrees must be between 0 and 3600",
    "light expects a color",
    "comparison operands must be integers",
    "arithmetic operands must be integers",
    "division by zero" ]

/-- The machine's left fold over the operands of an arithmetic node. -/
def Env.fold (env : Env) (op : String) : List Int64 → Option Int64
  | [] => some 0
  | first :: rest => rest.foldlM (env.operate op) first

/-- `result` is what the arithmetic loop holds after reading `operands`. -/
structure Env.Folds (env : Env) (op : String) (operands : List Int64)
    (result : Int64) : Prop where
  result_eq : env.fold op operands = some result
  divisors : dividesBy op = true → ∀ divisor ∈ operands.tail, divisor ≠ 0

/-- What a node does to the robot host once its own work is over. -/
inductive Issues (node : Node) : Trace → Prop
  | nothing :
      node.kind.isCommand = false → node.kind.isSensor = false → Issues node []
  | command {call : RobotCommand} :
      call.kind = node.kind → Issues node [.command call (some node)]
  | sensor {reading : SensorReading} :
      reading.kind = node.kind → Issues node [.sensor reading node]

/-- The entry of a poll that found the flag clear. -/
def Env.polled (env : Env) : Trace :=
  if env.cancellable then [.poll false] else []

/-- Evaluating a node as a whole, or doing what stands between its start and end. -/
inductive Task where
  | eval (node : Node)
  | work (node : Node)

inductive Activity (env : Env) : Task → ExecState → Trace → ExecState → Prop
  | stopped {node state} :
      state.stopping = true → Activity env (.eval node) state [] state
  | cancelled {node state} :
      state.stopping = false → env.cancellable = true →
      Activity env (.eval node) state [.poll true] { state with cancelled := true }
  | exhausted {node state} :
      state.stopping = false → node.kind.isHighlightable = true →
      env.limits.maxTotalSteps ≤ state.steps →
      Activity env (.eval node) state
        (env.polled ++
          [.emit .nodeError node "execution exceeded maximum step limit"])
        (state.failed node "execution exceeded maximum step limit")
  | silent {node state trace reached} :
      state.stopping = false → node.kind.isHighlightable = false →
      Activity env (.work node) state trace reached →
      Activity env (.eval node) state (env.polled ++ trace) reached
  | interrupted {node state trace reached} :
      state.stopping = false → node.kind.isHighlightable = true →
      state.steps < env.limits.maxTotalSteps →
      Activity env (.work node) state.tick trace reached →
      reached.stopping = true →
      Activity env (.eval node) state
        (env.polled ++ .emit .nodeStart node node.op :: trace) reached
  | completed {node state trace calls reached} :
      state.stopping = false → node.kind.isHighlightable = true →
      state.steps < env.limits.maxTotalSteps →
      Activity env (.work node) state.tick trace reached →
      reached.stopping = false → Issues node calls →
      Activity env (.eval node) state
        (env.polled ++ .emit .nodeStart node node.op :: trace ++ calls ++
          [.emit .nodeDone node node.op]) reached
  | idle {node state} : Activity env (.work node) state [] state
  | follow {node state first middle rest reached} :
      Activity env (.work node) state first middle →
      middle.stopping = false →
      Activity env (.work node) middle rest reached →
      Activity env (.work node) state (first ++ rest) reached
  | part {node part state trace reached} :
      part ∈ node.parts → Activity env (.eval part) state trace reached →
      Activity env (.work node) state trace reached
  | complain {node state message} :
      message ∈ complaints node →
      Activity env (.work node) state [.emit .nodeError node message]
        (state.failed node message)
  | undefined {node state} :
      node.kind = .call → env.functions node.op = none →
      Activity env (.work node) state
        [.emit .nodeError node ("undefined function '" ++ node.op ++ "'")]
        (state.failed node ("undefined function '" ++ node.op ++ "'"))
  | skip {node part state} :
      part ∈ node.parts →
      Activity env (.work node) state [.emit .nodeSkipped part part.op] state
  | store {node state} (globals : Vars) (locals : Option Vars) :
      Activity env (.work node) state [] { state with globals, locals }
  | iterate {node state} :
      state.steps < env.limits.maxTotalSteps →
      Activity env (.work node) state [.mark .whileIteration] state.tick
  | round {node state index} :
      index < env.limits.maxRepeatCount.toNat →
      Activity env (.work node) state [.mark (.repeatIteration index)] state
  | prepare {node state operands accumulator operand result} :
      env.Folds node.op operands accumulator → operands ≠ [] →
      (dividesBy node.op = true → operand ≠ 0) →
      env.operate node.op accumulator operand = some result →
      Activity env (.work node) state
        [.mark (.combining node.op operands accumulator operand)] state
  | combine {node state operands result} :
      env.Folds node.op operands result →
      Activity env (.work node) state [.mark (.combined node.op operands result)] state
  | compute {node state operands result} :
      env.Folds node.op operands result →
      Activity env (.work node) state [.mark (.computed node.op operands result)] state
  | call {node state function values trace reached} (vars : Vars) :
      node.kind = .call → env.functions node.op = some function →
      values.length = node.args.length →
      state.callDepth < env.limits.maxCallDepth →
      Activity env (.work function) (state.enter vars) trace reached →
      Activity env (.work node) state
        (.mark (.enterCall function values) :: trace ++ [.mark .exitCall])
        (reached.leave state.locals)

@[simp] theorem stopping_failed (state : ExecState) (node : Node) (message : String) :
    (state.failed node message).stopping = true := rfl

@[simp] theorem stopping_tick (state : ExecState) :
    state.tick.stopping = state.stopping := rfl

@[simp] theorem stopping_enter (state : ExecState) (vars : Vars) :
    (state.enter vars).stopping = state.stopping := rfl

@[simp] theorem stopping_leave (state : ExecState) (caller : Option Vars) :
    (state.leave caller).stopping = state.stopping := rfl

/-! ## The interpreter refines the abstract one -/

/-- Every evaluation by `eval` is an activity. -/
def Refines (env : Env) (eval : Eval) : Prop :=
  ∀ node state trace value reached,
    Performs (eval node) state trace value reached →
    Activity env (.eval node) state trace reached

/-- A whole run of `eval_inner`: quiet work, then what the node issues, unless
the work was cut short. -/
inductive Ends (env : Env) (node : Node) (state : ExecState) :
    Trace → ExecState → Prop
  | stopped {trace reached} :
      Activity env (.work node) state trace reached → reached.stopping = true →
      Ends env node state trace reached
  | issued {trace calls reached} :
      Activity env (.work node) state trace reached → reached.stopping = false →
      Issues node calls → Ends env node state (trace ++ calls) reached

section Work

variable {env : Env} {eval : Eval} {node : Node}
variable {state reached : ExecState} {trace : Trace} {value : Value}

theorem mem_parts_of_arg {arg : Node} {index : Nat}
    (found : node.args[index]? = some arg) : arg ∈ node.parts :=
  List.mem_append_left _ (List.mem_of_getElem? found)

theorem mem_parts_of_child {child : Node} (member : child ∈ node.children) :
    child ∈ node.parts :=
  List.mem_append_right _ member

/-- Every evaluator shape `eval part; if stopping then ... else next`. -/
theorem partThen_activity {part : Node} {α : Type} {halt : Value → α}
    {next : Value → Exec α} {result : α} (refines : Refines env eval)
    (member : part ∈ node.parts)
    (run : Performs (do
        let value ← eval part
        if ← stopping then pure (halt value) else next value)
      state trace result reached)
    (tail : ∀ value middle rest, middle.stopping = false →
      Performs (next value) middle rest result reached →
      Activity env (.work node) middle rest reached) :
    Activity env (.work node) state trace reached := by
  cases performs_body run with
  | halted headRun _ => exact .part member (refines _ _ _ _ _ headRun)
  | went headRun going restRun =>
      have head := refines _ _ _ _ _ headRun
      exact .follow (.part member head) going (tail _ _ _ going restRun)

theorem fail_activity {message : String} (listed : message ∈ complaints node)
    (run : Performs (fail node message) state trace value reached) :
    Activity env (.work node) state trace reached := by
  rcases performs_fail.mp run with ⟨rfl, -, rfl⟩
  exact .complain listed

/-! ### Loops -/

theorem evalChildren_activity (refines : Refines env eval) (nodes : List Node)
    (members : ∀ child ∈ nodes, child ∈ node.parts) {result : Unit}
    (run : Performs (evalChildren eval nodes) state trace result reached) :
    Activity env (.work node) state trace reached := by
  induction nodes generalizing state trace with
  | nil =>
      rcases performs_pure.mp run with ⟨rfl, -, rfl⟩
      exact .idle
  | cons child rest induction =>
      apply partThen_activity refines (members child (by simp)) run
      intro _ middle tail _ restRun
      exact induction (fun other member => members other (by simp [member])) restRun

theorem evalSequence_activity (refines : Refines env eval) (nodes : List Node)
    (members : ∀ child ∈ nodes, child ∈ node.parts) {last : Value}
    (run : Performs (evalSequence eval nodes last) state trace value reached) :
    Activity env (.work node) state trace reached := by
  induction nodes generalizing state trace last with
  | nil =>
      rcases performs_pure.mp run with ⟨rfl, -, rfl⟩
      exact .idle
  | cons child rest induction =>
      apply partThen_activity refines (members child (by simp)) run
      intro _ middle tail _ restRun
      exact induction (fun other member => members other (by simp [member])) restRun

theorem evalBody_activity (refines : Refines env eval) (nodes : List Node)
    (members : ∀ child ∈ nodes, child ∈ node.parts) {last : Value}
    (run : Performs (evalBody eval nodes last) state trace value reached) :
    Activity env (.work node) state trace reached := by
  induction nodes generalizing state trace last with
  | nil =>
      rcases performs_pure.mp run with ⟨rfl, -, rfl⟩
      exact .idle
  | cons child rest induction =>
      apply partThen_activity refines (members child (by simp)) run
      intro _ middle tail _ restRun
      exact induction (fun other member => members other (by simp [member])) restRun

theorem skipChildren_activity (nodes : List Node)
    (members : ∀ child ∈ nodes, child ∈ node.parts) {result : Unit}
    (going : state.stopping = false)
    (run : Performs (skipChildren nodes) state trace result reached) :
    Activity env (.work node) state trace reached := by
  induction nodes generalizing trace with
  | nil =>
      rcases performs_pure.mp run with ⟨rfl, -, rfl⟩
      exact .idle
  | cons child rest induction =>
      rcases performs_afterSkipped.mp run with ⟨tail, restRun, rfl⟩
      change Activity env (.work node) state ([_] ++ tail) reached
      exact .follow (.skip (members child (by simp))) going
        (induction (fun other member => members other (by simp [member])) restRun)

theorem evalArguments_activity (refines : Refines env eval) (nodes : List Node)
    (members : ∀ arg ∈ nodes, arg ∈ node.parts) {values : List Value}
    {result : Option (List Value)}
    (run : Performs (evalArguments eval nodes values) state trace result reached) :
    Activity env (.work node) state trace reached := by
  induction nodes generalizing state trace values with
  | nil =>
      rcases performs_pure.mp run with ⟨rfl, -, rfl⟩
      exact .idle
  | cons arg rest induction =>
      apply partThen_activity refines (members arg (by simp)) run
      intro _ middle tail _ restRun
      exact induction (fun other member => members other (by simp [member])) restRun

/-- A finished argument list has a value for every argument, and nothing stopped. -/
theorem evalArguments_some (nodes : List Node) {values found : List Value}
    (going : state.stopping = false)
    (run : Performs (evalArguments eval nodes values) state trace (some found) reached) :
    found.length = values.length + nodes.length ∧ reached.stopping = false := by
  induction nodes generalizing state trace values with
  | nil =>
      rcases performs_pure.mp run with ⟨-, equal, rfl⟩
      cases equal
      exact ⟨rfl, going⟩
  | cons arg rest induction =>
      cases performs_body run with
      | went _ going restRun =>
          have counted := induction going restRun
          refine ⟨?_, counted.2⟩
          rw [counted.1, List.length_append, List.length_cons, List.length_cons,
            List.length_nil]
          omega

/-- The body of a loop, then what follows it unless the run is stopping. -/
theorem bodyThen_activity {next : Exec Value} (refines : Refines env eval)
    (run : Performs (do
        evalChildren eval node.children
        if ← stopping then pure .none else next)
      state trace value reached)
    (tail : ∀ middle rest, middle.stopping = false →
      Performs next middle rest value reached →
      Activity env (.work node) middle rest reached) :
    Activity env (.work node) state trace reached := by
  have body {first : Trace} {middle : ExecState}
      (bodyRun : Performs (evalChildren eval node.children) state first () middle) :
      Activity env (.work node) state first middle :=
    evalChildren_activity refines node.children (fun child member => mem_parts_of_child member)
      bodyRun
  cases performs_body run with
  | halted bodyRun _ => exact body bodyRun
  | went bodyRun going restRun =>
      exact .follow (body bodyRun) going (tail _ _ going restRun)

theorem repeatLoop_activity (refines : Refines env eval) (remaining index : Nat)
    (bounded : index + remaining ≤ env.limits.maxRepeatCount.toNat)
    (going : state.stopping = false)
    (run : Performs (repeatLoop eval node remaining index) state trace value reached) :
    Activity env (.work node) state trace reached := by
  induction remaining generalizing state trace index with
  | zero =>
      rcases performs_pure.mp run with ⟨rfl, -, rfl⟩
      exact .idle
  | succ remaining induction =>
      rcases performs_afterMark.mp run with ⟨tail, roundRun, rfl⟩
      change Activity env (.work node) state ([_] ++ tail) reached
      apply Activity.follow (.round (by omega)) going
      exact bodyThen_activity refines roundRun fun _ _ continuing againRun =>
        induction (index + 1) (by omega) continuing againRun

theorem whileLoop_activity (refines : Refines env eval) (fuel : Nat)
    (going : state.stopping = false)
    (run : Performs (whileLoop env eval node fuel) state trace value reached) :
    Activity env (.work node) state trace reached := by
  induction fuel generalizing state trace with
  | zero => exact absurd run performs_abort
  | succ fuel induction =>
      rw [whileLoop] at run
      rw [performs_withState] at run
      by_cases exhausted : env.limits.maxTotalSteps ≤ state.steps
      · rw [if_pos exhausted] at run
        exact fail_activity (by simp [complaints]) run
      · rw [if_neg exhausted, performs_afterModify] at run
        rcases performs_afterMark.mp run with ⟨tail, iterationRun, rfl⟩
        change Activity env (.work node) state ([_] ++ tail) reached
        apply Activity.follow (.iterate (UInt32.not_le.mp exhausted)) going
        rcases performs_withArg.mp iterationRun with ⟨condition, found, conditionRun⟩
        apply partThen_activity refines (mem_parts_of_arg found) conditionRun
        intro held middle rest continuing bodyRun
        cases truth : held.truthy with
        | false =>
            simp only [truth, Bool.not_false, if_true] at bodyRun
            rcases performs_pure.mp bodyRun with ⟨rfl, -, rfl⟩
            exact .idle
        | true =>
            simp only [truth, Bool.not_true, Bool.false_eq_true, if_false] at bodyRun
            exact bodyThen_activity refines bodyRun fun _ _ continuing againRun =>
              induction continuing againRun

theorem booleanLoop_activity (refines : Refines env eval) (isAnd : Bool)
    (nodes : List Node) (members : ∀ arg ∈ nodes, arg ∈ node.parts)
    (run : Performs (booleanLoop eval isAnd nodes) state trace value reached) :
    Activity env (.work node) state trace reached := by
  induction nodes generalizing state trace with
  | nil =>
      rcases performs_pure.mp run with ⟨rfl, -, rfl⟩
      exact .idle
  | cons arg rest induction =>
      apply partThen_activity refines (members arg (by simp)) run
      intro held middle tail _ restRun
      split at restRun
      · rcases performs_pure.mp restRun with ⟨rfl, -, rfl⟩
        exact .idle
      · split at restRun
        · rcases performs_pure.mp restRun with ⟨rfl, -, rfl⟩
          exact .idle
        · exact induction (fun other member => members other (by simp [member])) restRun

theorem fold_append {op : String} {operands : List Int64} (nonempty : operands ≠ [])
    (operand : Int64) :
    env.fold op (operands ++ [operand]) =
      (env.fold op operands).bind fun accumulator => env.operate op accumulator operand := by
  cases operands with
  | nil => exact absurd rfl nonempty
  | cons first rest =>
      rw [List.cons_append, Env.fold, Env.fold, List.foldlM_append]
      simp

/-- Reading one more operand extends the machine's fold by one operation. -/
theorem Env.Folds.snoc {op : String} {operands : List Int64}
    {accumulator operand result : Int64} (folds : env.Folds op operands accumulator)
    (nonempty : operands ≠ []) (divisor : dividesBy op = true → operand ≠ 0)
    (operates : env.operate op accumulator operand = some result) :
    env.Folds op (operands ++ [operand]) result := by
  refine ⟨?_, ?_⟩
  · rw [fold_append nonempty, folds.result_eq]
    exact operates
  cases operands with
  | nil => exact absurd rfl nonempty
  | cons first rest =>
      intro divides other member
      rcases List.mem_append.mp member with member | member
      · exact folds.divisors divides other member
      · rw [List.mem_singleton.mp member]
        exact divisor divides

theorem arithmeticLoop_activity (refines : Refines env eval) (nodes : List Node)
    (members : ∀ arg ∈ nodes, arg ∈ node.parts) {operands : List Int64}
    {accumulator : Int64} (folds : env.Folds node.op operands accumulator)
    (run : Performs (arithmeticLoop env eval node nodes operands accumulator)
      state trace value reached) :
    Activity env (.work node) state trace reached := by
  induction nodes generalizing state trace operands accumulator with
  | nil =>
      rcases performs_afterMark.mp run with ⟨tail, endRun, rfl⟩
      rcases performs_pure.mp endRun with ⟨rfl, -, rfl⟩
      exact .compute folds
  | cons arg rest induction =>
      have later : ∀ other ∈ rest, other ∈ node.parts :=
        fun other member => members other (by simp [member])
      apply partThen_activity refines (members arg (by simp)) run
      intro held middle tail going restRun
      cases held with
      | integer operand =>
          cases first : operands with
          | nil =>
              simp only [first, List.isEmpty_nil, if_true] at restRun
              exact induction later ⟨rfl, by simp⟩ restRun
          | cons head others =>
              simp only [first, List.isEmpty_cons, Bool.false_eq_true, if_false]
                at restRun
              by_cases zero : dividesBy node.op = true ∧ operand = 0
              · simp only [zero.1, zero.2, decide_true, Bool.and_self, if_true]
                  at restRun
                exact fail_activity (by simp [complaints]) restRun
              · rw [if_neg (by simpa using zero)] at restRun
                rcases performs_afterCombine.mp restRun with
                  ⟨result, last, operates, markedRun, rfl⟩
                rcases performs_afterMark.mp markedRun with ⟨_, loopRun, rfl⟩
                rw [first] at folds
                have nonempty : head :: others ≠ [] := List.cons_ne_nil head others
                have divisor : dividesBy node.op = true → operand ≠ 0 :=
                  fun divides isZero => zero ⟨divides, isZero⟩
                have extended := folds.snoc nonempty divisor operates
                exact .follow (.prepare folds nonempty divisor operates) going
                  (.follow (.combine extended) going (induction later extended loopRun))
      | none => exact fail_activity (by simp [complaints]) restRun
      | boolean _ => exact fail_activity (by simp [complaints]) restRun
      | color _ => exact fail_activity (by simp [complaints]) restRun

/-! ### Node kinds -/

theorem Activity.ends (quiet : Issues node [])
    (activity : Activity env (.work node) state trace reached) :
    Ends env node state trace reached := by
  cases flag : reached.stopping with
  | true => exact .stopped activity flag
  | false => simpa using Ends.issued activity flag quiet

theorem Ends.after {first rest : Trace} {middle : ExecState}
    (activity : Activity env (.work node) state first middle)
    (going : middle.stopping = false) (ends : Ends env node middle rest reached) :
    Ends env node state (first ++ rest) reached := by
  cases ends with
  | stopped work stop => exact .stopped (.follow activity going work) stop
  | issued work continuing issues =>
      rw [← List.append_assoc]
      exact .issued (.follow activity going work) continuing issues

theorem Ends.issues {calls : Trace} (going : state.stopping = false)
    (issues : Issues node calls) : Ends env node state calls state := by
  have work : Ends env node state ([] ++ calls) state := .issued .idle going issues
  exact work

theorem fail_ends {message : String} (listed : message ∈ complaints node)
    (run : Performs (fail node message) state trace value reached) :
    Ends env node state trace reached := by
  have activity : Activity env (.work node) state trace reached := fail_activity listed run
  rcases performs_fail.mp run with ⟨-, -, rfl⟩
  exact .stopped activity rfl

theorem issue_ends {call : RobotCommand} (going : state.stopping = false)
    (run : Performs (issue node call) state trace value reached)
    (kind : call.kind = node.kind) :
    Ends env node state trace reached := by
  rcases performs_issue.mp run with ⟨rfl, -, rfl⟩
  exact Ends.issues going (.command kind)

theorem partThen_ends {part : Node} {next : Value → Exec Value} {result : Value}
    (refines : Refines env eval) (member : part ∈ node.parts)
    (run : Performs (do
        let value ← eval part
        if ← stopping then pure .none else next value)
      state trace result reached)
    (tail : ∀ value middle rest, middle.stopping = false →
      Performs (next value) middle rest result reached →
      Ends env node middle rest reached) :
    Ends env node state trace reached := by
  cases performs_body run with
  | halted headRun stopped =>
      exact .stopped (.part member (refines _ _ _ _ _ headRun)) stopped
  | went headRun going restRun =>
      have head := Activity.part member (refines _ _ _ _ _ headRun)
      exact .after head going (tail _ _ _ going restRun)

/-- An integer argument, then the rest of the node. -/
theorem intThen_ends {part : Node} {what : String} {next : Int64 → Exec Value}
    (refines : Refines env eval) (member : part ∈ node.parts)
    (listed : "expected an integer for " ++ what ∈ complaints node)
    (run : Performs (do
        match ← evalInt eval part node what with
        | none => pure .none
        | some number => next number)
      state trace value reached)
    (tail : ∀ number middle rest, middle.stopping = false →
      Performs (next number) middle rest value reached →
      Ends env node middle rest reached) :
    Ends env node state trace reached := by
  cases performs_withInteger run with
  | halted headRun stopped =>
      exact .stopped (.part member (refines _ _ _ _ _ headRun)) stopped
  | refused headRun going =>
      have head := Activity.part member (refines _ _ _ _ _ headRun)
      exact .after head going (fail_ends listed (performs_fail.mpr ⟨rfl, rfl, rfl⟩))
  | read headRun going restRun =>
      have head := Activity.part member (refines _ _ _ _ _ headRun)
      exact .after head going (tail _ _ _ going restRun)

theorem callFunction_activity (refines : Refines env eval) (kind : node.kind = .call)
    (going : state.stopping = false)
    (run : Performs (callFunction env eval node) state trace value reached) :
    Activity env (.work node) state trace reached := by
  rw [callFunction] at run
  cases known : env.functions node.op with
  | none =>
      simp only [known] at run
      rcases performs_fail.mp run with ⟨rfl, -, rfl⟩
      exact .undefined kind known
  | some function =>
      simp only [known] at run
      rcases performs_bind.mp run with ⟨first, found, middle, rest, argsRun, restRun, rfl⟩
      have arguments := evalArguments_activity refines node.args
        (fun arg member => List.mem_append_left _ member) argsRun
      cases found with
      | none =>
          rcases performs_pure.mp restRun with ⟨rfl, -, rfl⟩
          rwa [List.append_nil]
      | some values =>
          have counted := evalArguments_some node.args going argsRun
          refine .follow arguments counted.2 ?_
          rw [performs_withState] at restRun
          by_cases deep : env.limits.maxCallDepth ≤ middle.callDepth
          · rw [if_pos deep] at restRun
            exact fail_activity (by simp [complaints]) restRun
          · rw [if_neg deep] at restRun
            rcases performs_afterMark.mp restRun with ⟨tail, enteredRun, rfl⟩
            rw [performs_afterModify] at enteredRun
            rcases performs_bind.mp enteredRun with
              ⟨body, result, final, last, bodyRun, lastRun, rfl⟩
            rw [performs_afterModify] at lastRun
            rcases performs_afterMark.mp lastRun with ⟨nothing, endRun, rfl⟩
            rcases performs_pure.mp endRun with ⟨rfl, -, rfl⟩
            have work : Activity env (.work function) _ body final :=
              evalBody_activity refines function.children
                (fun child member => mem_parts_of_child member) bodyRun
            exact .call _ kind known (by simpa using counted.1)
              (UInt32.not_le.mp deep) work

theorem evalRepeat_ends (refines : Refines env eval) (kind : node.kind = .repeatForm)
    (run : Performs (evalRepeat env eval node) state trace value reached) :
    Ends env node state trace reached := by
  have quiet : Issues node [] := .nothing (by rw [kind]; rfl) (by rw [kind]; rfl)
  rcases performs_withArg.mp run with ⟨arg, found, argRun⟩
  apply intThen_ends refines (mem_parts_of_arg found) (by simp [complaints]) argRun
  intro count middle rest going countRun
  split at countRun
  · exact fail_ends (by simp [complaints]) countRun
  · split at countRun
    · exact fail_ends (by simp [complaints]) countRun
    · exact (repeatLoop_activity refines _ 0 (by omega) going countRun).ends quiet

theorem evalWhen_activity (refines : Refines env eval)
    (run : Performs (evalWhen eval node) state trace value reached) :
    Activity env (.work node) state trace reached := by
  rcases performs_withArg.mp run with ⟨arg, found, argRun⟩
  apply partThen_activity refines (mem_parts_of_arg found) argRun
  intro condition middle rest going restRun
  cases truth : condition.truthy with
  | true =>
      simp only [truth, if_true] at restRun
      exact evalSequence_activity refines node.children
        (fun child member => mem_parts_of_child member) restRun
  | false =>
      simp only [truth, Bool.false_eq_true, if_false] at restRun
      rcases performs_bind.mp restRun with ⟨skips, _, final, last, skipRun, endRun, rfl⟩
      rcases performs_pure.mp endRun with ⟨rfl, -, rfl⟩
      rw [List.append_nil]
      exact skipChildren_activity node.children
        (fun child member => mem_parts_of_child member) going skipRun

theorem evalIf_activity (refines : Refines env eval)
    (run : Performs (evalIf eval node) state trace value reached) :
    Activity env (.work node) state trace reached := by
  rcases performs_withArg.mp run with ⟨arg, found, argRun⟩
  apply partThen_activity refines (mem_parts_of_arg found) argRun
  intro condition middle rest going restRun
  rcases performs_withArg.mp restRun with ⟨skipped, skippedFound, skipRun⟩
  rcases performs_afterSkipped.mp skipRun with ⟨tail, takenRun, rfl⟩
  rcases performs_withArg.mp takenRun with ⟨taken, takenFound, takenRun⟩
  change Activity env (.work node) middle ([_] ++ tail) reached
  exact .follow (.skip (mem_parts_of_arg skippedFound)) going
    (.part (mem_parts_of_arg takenFound) (refines _ _ _ _ _ takenRun))

theorem define_activity (name : String) (held : Value) :
    Activity env (.work node) state [] (state.define name held) := by
  rw [ExecState.define]
  split
  · exact .store _ _
  · exact .store _ _

theorem assign_activity (name : String) (held : Value) :
    Activity env (.work node) state [] (state.assign name held) := by
  rw [ExecState.assign]
  split
  · exact .store _ _
  · split
    · exact .store _ _
    · exact .store _ _

theorem evalDefineVar_activity (refines : Refines env eval)
    (run : Performs (evalDefineVar eval node) state trace value reached) :
    Activity env (.work node) state trace reached := by
  rcases performs_withArg.mp run with ⟨arg, found, argRun⟩
  apply partThen_activity refines (mem_parts_of_arg found) argRun
  intro held middle rest _ restRun
  rw [performs_afterModify] at restRun
  rcases performs_pure.mp restRun with ⟨rfl, -, rfl⟩
  exact define_activity _ _

theorem evalSetVar_activity (refines : Refines env eval)
    (run : Performs (evalSetVar eval node) state trace value reached) :
    Activity env (.work node) state trace reached := by
  rcases performs_withArg.mp run with ⟨arg, found, argRun⟩
  apply partThen_activity refines (mem_parts_of_arg found) argRun
  intro held middle rest _ restRun
  rw [performs_withState] at restRun
  split at restRun
  · exact fail_activity (by simp [complaints]) restRun
  · rw [performs_afterModify] at restRun
    rcases performs_pure.mp restRun with ⟨rfl, -, rfl⟩
    exact assign_activity _ _

theorem evalVarRef_activity
    (run : Performs (evalVarRef node) state trace value reached) :
    Activity env (.work node) state trace reached := by
  rw [evalVarRef] at run
  rw [performs_withState] at run
  split at run
  · exact fail_activity (by simp [complaints]) run
  · rcases performs_pure.mp run with ⟨rfl, -, rfl⟩
    exact .idle

theorem evalDrive_ends (refines : Refines env eval)
    (kind : node.kind = .drive ∨ node.kind = .backward)
    (run : Performs (evalDrive eval node) state trace value reached) :
    Ends env node state trace reached := by
  rcases performs_withArg.mp run with ⟨arg, found, argRun⟩
  apply intThen_ends refines (mem_parts_of_arg found) (by simp [complaints]) argRun
  intro speed middle rest _ restRun
  rcases performs_withArg.mp restRun with ⟨arg, found, argRun⟩
  apply intThen_ends refines (mem_parts_of_arg found) (by simp [complaints]) argRun
  intro duration final last going lastRun
  split at lastRun
  · exact fail_ends (by simp [complaints]) lastRun
  · split at lastRun
    · exact fail_ends (by simp [complaints]) lastRun
    · split at lastRun
      next isDrive => exact issue_ends going lastRun isDrive.symm
      next notDrive =>
        exact issue_ends going lastRun (kind.resolve_left notDrive).symm

theorem evalTurn_ends (refines : Refines env eval)
    (kind : node.kind = .turnLeft ∨ node.kind = .turnRight)
    (run : Performs (evalTurn eval node) state trace value reached) :
    Ends env node state trace reached := by
  rcases performs_withArg.mp run with ⟨arg, found, argRun⟩
  apply intThen_ends refines (mem_parts_of_arg found) (by simp [complaints]) argRun
  intro degrees middle rest going restRun
  split at restRun
  · exact fail_ends (by simp [complaints]) restRun
  · split at restRun
    next isLeft => exact issue_ends going restRun isLeft.symm
    next notLeft => exact issue_ends going restRun (kind.resolve_left notLeft).symm

theorem evalWait_ends (refines : Refines env eval) (kind : node.kind = .wait)
    (run : Performs (evalWait eval node) state trace value reached) :
    Ends env node state trace reached := by
  rcases performs_withArg.mp run with ⟨arg, found, argRun⟩
  apply intThen_ends refines (mem_parts_of_arg found) (by simp [complaints]) argRun
  intro duration middle rest going restRun
  split at restRun
  · exact fail_ends (by simp [complaints]) restRun
  · exact issue_ends going restRun kind.symm

theorem evalLight_ends (refines : Refines env eval) (kind : node.kind = .light)
    (run : Performs (evalLight eval node) state trace value reached) :
    Ends env node state trace reached := by
  rcases performs_withArg.mp run with ⟨arg, found, argRun⟩
  apply partThen_ends refines (mem_parts_of_arg found) argRun
  intro held middle rest going restRun
  cases held with
  | color shade => exact issue_ends going restRun kind.symm
  | none => exact fail_ends (by simp [complaints]) restRun
  | integer _ => exact fail_ends (by simp [complaints]) restRun
  | boolean _ => exact fail_ends (by simp [complaints]) restRun

theorem evalCompare_activity (refines : Refines env eval)
    (run : Performs (evalCompare eval node) state trace value reached) :
    Activity env (.work node) state trace reached := by
  rcases performs_withArg.mp run with ⟨arg, found, argRun⟩
  apply partThen_activity refines (mem_parts_of_arg found) argRun
  intro left middle rest _ restRun
  rcases performs_withArg.mp restRun with ⟨arg, found, argRun⟩
  apply partThen_activity refines (mem_parts_of_arg found) argRun
  intro right final last _ lastRun
  split at lastRun
  · rcases performs_pure.mp lastRun with ⟨rfl, -, rfl⟩
    exact .idle
  · exact fail_activity (by simp [complaints]) lastRun

theorem evalBoolean_activity (refines : Refines env eval)
    (run : Performs (evalBoolean eval node) state trace value reached) :
    Activity env (.work node) state trace reached := by
  rw [evalBoolean] at run
  split at run
  · rcases performs_withArg.mp run with ⟨arg, found, argRun⟩
    apply partThen_activity refines (mem_parts_of_arg found) argRun
    intro held middle rest _ restRun
    rcases performs_pure.mp restRun with ⟨rfl, -, rfl⟩
    exact .idle
  · exact booleanLoop_activity refines _ node.args
      (fun arg member => List.mem_append_left _ member) run

theorem readDistance_ends (kind : node.kind = .distanceCm)
    (going : state.stopping = false)
    (run : Performs (readDistance node) state trace value reached) :
    Ends env node state trace reached := by
  rcases performs_readDistance.mp run with ⟨distance, rfl, -, rfl⟩
  exact Ends.issues going (.sensor kind.symm)

theorem readFlag_ends {read : Exec Bool} (record : Bool → SensorReading)
    (reads : ∀ {before after trace flag}, Performs read before trace flag after ↔
      trace = [.sensor (record flag) node] ∧ after = before)
    (kind : ∀ flag, (record flag).kind = node.kind) (going : state.stopping = false)
    (run : Performs (readFlag read) state trace value reached) :
    Ends env node state trace reached := by
  rcases (performs_readFlag reads).mp run with ⟨flag, rfl, -, rfl⟩
  exact Ends.issues going (.sensor (kind flag))

theorem evalInner_ends (refines : Refines env eval) (fuel : Nat)
    (going : state.stopping = false)
    (run : Performs (evalInner env eval fuel node) state trace value reached) :
    Ends env node state trace reached := by
  have silent : node.kind.isCommand = false → node.kind.isSensor = false →
      Issues node [] := .nothing
  have constant : Issues node [] → ∀ {result : Value},
      Performs (pure result : Exec Value) state trace value reached →
      Ends env node state trace reached := by
    intro quiet result pureRun
    rcases performs_pure.mp pureRun with ⟨rfl, -, rfl⟩
    exact Activity.ends quiet .idle
  rw [evalInner] at run
  cases kind : node.kind <;> simp only [kind] at run silent
  case doForm =>
    exact (evalSequence_activity refines node.children
      (fun child member => mem_parts_of_child member) run).ends
        (silent rfl rfl)
  case repeatForm => exact evalRepeat_ends refines kind run
  case whenForm =>
    exact (evalWhen_activity refines run).ends (silent rfl rfl)
  case ifForm =>
    exact (evalIf_activity refines run).ends (silent rfl rfl)
  case whileForm =>
    exact (whileLoop_activity refines fuel going run).ends
      (silent rfl rfl)
  case defineVar =>
    exact (evalDefineVar_activity refines run).ends (silent rfl rfl)
  case defineFunc => exact constant (silent rfl rfl) run
  case setVar =>
    exact (evalSetVar_activity refines run).ends (silent rfl rfl)
  case varRef =>
    exact (evalVarRef_activity run).ends (silent rfl rfl)
  case call =>
    exact (callFunction_activity refines kind going run).ends
      (silent rfl rfl)
  case drive => exact evalDrive_ends refines (.inl kind) run
  case backward => exact evalDrive_ends refines (.inr kind) run
  case turnLeft => exact evalTurn_ends refines (.inl kind) run
  case turnRight => exact evalTurn_ends refines (.inr kind) run
  case stop => exact issue_ends going run kind.symm
  case wait => exact evalWait_ends refines kind run
  case light => exact evalLight_ends refines kind run
  case beep => exact issue_ends going run kind.symm
  case distanceCm => exact readDistance_ends kind going run
  case button =>
    exact readFlag_ends .button performs_ask (fun _ => kind.symm) going run
  case lineLeft =>
    exact readFlag_ends .lineLeft performs_ask (fun _ => kind.symm) going run
  case lineRight =>
    exact readFlag_ends .lineRight performs_ask (fun _ => kind.symm) going run
  case compare =>
    exact (evalCompare_activity refines run).ends (silent rfl rfl)
  case booleanOp =>
    exact (evalBoolean_activity refines run).ends (silent rfl rfl)
  case arithmetic =>
    exact (arithmeticLoop_activity refines node.args
      (fun arg member => List.mem_append_left _ member) ⟨rfl, by simp⟩ run).ends
        (silent rfl rfl)
  case integerLiteral => exact constant (silent rfl rfl) run
  case booleanLiteral => exact constant (silent rfl rfl) run
  case colorLiteral => exact constant (silent rfl rfl) run

end Work

theorem NodeKind.not_issuing_of_not_highlightable {kind : NodeKind}
    (silent : kind.isHighlightable = false) :
    kind.isCommand = false ∧ kind.isSensor = false := by
  cases kind <;> simp_all [NodeKind.isHighlightable, NodeKind.isCommand,
    NodeKind.isSensor]

theorem RobotCommand.isCommand_kind (call : RobotCommand) : call.kind.isCommand = true := by
  cases call <;> rfl

theorem SensorReading.isSensor_kind (reading : SensorReading) :
    reading.kind.isSensor = true := by
  cases reading <;> rfl

/-- Nodes that are neither commands nor sensors leave the host alone. -/
theorem Issues.eq_nil {node : Node} {calls : Trace} (issues : Issues node calls)
    (quiet : node.kind.isCommand = false ∧ node.kind.isSensor = false) : calls = [] := by
  cases issues with
  | nothing => rfl
  | @command call equal =>
      rw [← equal, call.isCommand_kind] at quiet
      exact absurd quiet.1 (by simp)
  | @sensor reading equal =>
      rw [← equal, reading.isSensor_kind] at quiet
      exact absurd quiet.2 (by simp)

/-- What `eval` does with a node once no cancellation was seen. -/
theorem attended_activity {env : Env} {fuel : Nat} {node : Node}
    {state reached : ExecState} {trace : Trace} {value : Value}
    (refines : Refines env (eval env fuel)) (going : state.stopping = false)
    (run : Performs (do
        if node.kind.isHighlightable then do
          let state ← get
          if env.limits.maxTotalSteps ≤ state.steps then
            fail node "execution exceeded maximum step limit"
          else do
            modify ExecState.tick
            emit .nodeStart node node.op
            let value ← evalInner env (eval env fuel) fuel node
            if ← stopping then pure value
            else do
              emit .nodeDone node node.op
              pure value
        else evalInner env (eval env fuel) fuel node)
      state trace value reached) :
    Activity env (.eval node) state (env.polled ++ trace) reached := by
  cases lit : node.kind.isHighlightable with
  | false =>
      rw [if_neg (by simp [lit])] at run
      have quiet := NodeKind.not_issuing_of_not_highlightable lit
      cases evalInner_ends refines fuel going run with
      | stopped work stop => exact .silent going lit work
      | issued work continuing issues =>
          rw [issues.eq_nil quiet, List.append_nil]
          exact .silent going lit work
  | true =>
      rw [if_pos lit, performs_withState] at run
      by_cases full : env.limits.maxTotalSteps ≤ state.steps
      · rw [if_pos full] at run
        rcases performs_fail.mp run with ⟨rfl, -, rfl⟩
        exact .exhausted going lit full
      · rw [if_neg full, performs_afterModify] at run
        rcases performs_afterEmit.mp run with ⟨tail, startedRun, rfl⟩
        rcases performs_bind.mp startedRun with
          ⟨inner, result, final, last, innerRun, lastRun, rfl⟩
        have room : state.steps < env.limits.maxTotalSteps := UInt32.not_le.mp full
        rw [performs_unlessStopping] at lastRun
        cases evalInner_ends refines fuel (by simpa using going) innerRun with
        | stopped work stop =>
            rw [if_pos stop] at lastRun
            rcases performs_pure.mp lastRun with ⟨rfl, -, rfl⟩
            rw [List.append_nil]
            exact .interrupted going lit room work stop
        | issued work continuing issues =>
            rw [if_neg (by simp [continuing])] at lastRun
            rcases performs_afterEmit.mp lastRun with ⟨nothing, endRun, rfl⟩
            rcases performs_pure.mp endRun with ⟨rfl, -, rfl⟩
            have completed := Activity.completed going lit room work continuing issues
            simpa using completed

/-- Every run of the interpreter's evaluator is an activity. -/
theorem eval_activity (env : Env) (fuel : Nat) : Refines env (eval env fuel) := by
  induction fuel with
  | zero => exact fun _ _ _ _ _ run => absurd run performs_abort
  | succ fuel induction =>
      intro node state trace value reached run
      rw [eval] at run
      rw [performs_unlessStopping] at run
      cases stop : state.stopping with
      | true =>
          rw [if_pos stop] at run
          rcases performs_pure.mp run with ⟨rfl, -, rfl⟩
          exact .stopped stop
      | false =>
          rw [if_neg (by simp [stop])] at run
          rcases performs_bind.mp run with
            ⟨polled, flag, middle, rest, pollRun, restRun, rfl⟩
          rcases performs_pollCancel.mp pollRun with ⟨rfl, polledEq⟩
          cases flag with
          | true =>
              rw [if_pos rfl, performs_afterModify] at restRun
              rcases performs_pure.mp restRun with ⟨rfl, -, rfl⟩
              split at polledEq
              next cancellable =>
                rw [polledEq, List.append_nil]
                exact .cancelled stop cancellable
              next => exact absurd polledEq.2 (by simp)
          | false =>
              have entries : polled = env.polled := by
                rw [Env.polled]
                split at polledEq
                next cancellable => rw [if_pos cancellable, polledEq]
                next cancellable => rw [if_neg cancellable, polledEq.1]
              rw [if_neg (by simp)] at restRun
              rw [entries]
              exact attended_activity induction stop restRun

/-! ## Whole runs -/

/-- How `execute` reports the state in which evaluation of the root ended. -/
inductive Closes (root : Node) (state : ExecState) : Trace → ExecutionResult → Prop
  | cancelled :
      state.cancelled = true →
      Closes root state
        [.command .stop none, .emitProgram .programError "execution cancelled"]
        ⟨false, some ⟨.error, root.span, "execution cancelled"⟩⟩
  | errored :
      state.cancelled = false → state.errored = true →
      Closes root state
        [.command .stop none, .emitProgram .programError state.error.message]
        ⟨false, some state.error⟩
  | done :
      state.cancelled = false → state.errored = false →
      Closes root state [.emitProgram .programDone ""] ⟨true, none⟩

theorem executeBody_performs {env : Env} {fuel : Nat} {root : Node}
    {state reached : ExecState} {trace : Trace} {result : ExecutionResult}
    (run : Performs (executeBody env fuel root) state trace result reached) :
    ∃ body value ending, Performs (eval env fuel root) state body value reached ∧
      Closes root reached ending result ∧
      trace = .emitProgram .programStart "" :: body ++ ending := by
  rcases performs_afterEmitProgram.mp run with ⟨tail, evalRun, rfl⟩
  rcases performs_bind.mp evalRun with
    ⟨body, value, middle, ending, bodyRun, endRun, rfl⟩
  rw [performs_withState] at endRun
  cases cancelled : middle.cancelled with
  | true =>
      simp only [cancelled, if_true] at endRun
      rcases performs_afterCommand.mp endRun with ⟨last, errorRun, rfl⟩
      rcases performs_afterEmitProgram.mp errorRun with ⟨nothing, pureRun, rfl⟩
      rcases performs_pure.mp pureRun with ⟨rfl, rfl, rfl⟩
      exact ⟨body, value, _, bodyRun, .cancelled cancelled, rfl⟩
  | false =>
      simp only [cancelled, Bool.false_eq_true, if_false] at endRun
      cases errored : middle.errored with
      | true =>
          simp only [errored, if_true] at endRun
          rcases performs_afterCommand.mp endRun with ⟨last, errorRun, rfl⟩
          rcases performs_afterEmitProgram.mp errorRun with ⟨nothing, pureRun, rfl⟩
          rcases performs_pure.mp pureRun with ⟨rfl, rfl, rfl⟩
          exact ⟨body, value, _, bodyRun, .errored cancelled errored, rfl⟩
      | false =>
          simp only [errored, Bool.false_eq_true, if_false] at endRun
          rcases performs_afterEmitProgram.mp endRun with ⟨nothing, pureRun, rfl⟩
          rcases performs_pure.mp pureRun with ⟨rfl, rfl, rfl⟩
          exact ⟨body, value, _, bodyRun, .done cancelled errored, rfl⟩

theorem execute_run {setting : Setting} {root : Node} {trace : Trace}
    {result : ExecutionResult}
    (run : Run (execute setting root) trace (.ok result)) :
    ∃ state, Performs (executeBody (setting.env root) (fuelBound setting.limits root) root)
      {} trace result state := by
  rcases run_bind_ok_iff.mp run with ⟨first, final, rest, bodyRun, endRun, rfl⟩
  rcases run_done_iff.mp endRun with ⟨rfl, equal⟩
  cases equal
  rw [List.append_nil]
  exact ⟨final.2, bodyRun⟩

/-- A run of a program is an activity of the root between its two reports. -/
theorem executeBody_activity {env : Env} {fuel : Nat} {root : Node} {trace : Trace}
    {result : ExecutionResult} {state : ExecState}
    (run : Performs (executeBody env fuel root) {} trace result state) :
    ∃ body ending, Activity env (.eval root) {} body state ∧
      Closes root state ending result ∧
      trace = .emitProgram .programStart "" :: body ++ ending := by
  rcases executeBody_performs run with ⟨body, value, ending, bodyRun, closes, equal⟩
  exact ⟨body, ending, eval_activity _ _ _ _ _ _ _ bodyRun, closes, equal⟩

end CardCode
