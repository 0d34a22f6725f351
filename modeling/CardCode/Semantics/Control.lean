import CardCode.Semantics.Gathering

/-! # Control

What becomes of each form that stores a value, evaluates a row or goes round in a loop, and
of an evaluation as a whole. As with operands, no code is unfolded after this.
-/

namespace CardCode

open Process

/-! ## What a form does -/

/-- A row of expressions is evaluated; its values unless it was cut short. -/
inductive RowRuns (eval : Eval) :
    List Node → ExecState → Trace → Option (List Value) → ExecState → Prop
  | finish {state} : RowRuns eval [] state [] (some []) state
  | halt {child rest state trace value reached} :
      Performs (eval child) state trace value reached → reached.stopping = true →
      RowRuns eval (child :: rest) state trace none reached
  | next {child rest state trace value middle more found reached} :
      Performs (eval child) state trace value middle → middle.stopping = false →
      RowRuns eval rest middle more found reached →
      RowRuns eval (child :: rest) state (trace ++ more) (found.map (value :: ·)) reached

/-- The value of the one operand is stored. -/
def Stores (store : ExecState → Value → ExecState) (values : List Value) (state : ExecState)
    (trace : Trace) (value : Value) (reached : ExecState) : Prop :=
  values = [value] ∧ trace = [] ∧ reached = store state value

/-- The one operand goes to what is done next. -/
def Passes (next : Value → Exec Value) (values : List Value) (state : ExecState) (trace : Trace)
    (value : Value) (reached : ExecState) : Prop :=
  ∃ operand, values = [operand] ∧ Performs (next operand) state trace value reached

/-- A count that is in order goes to the loop, or is too large for it. -/
def Counting (env : Env) (eval : Eval) (node : Node) (values : List Value) (state : ExecState)
    (trace : Trace) (value : Value) (reached : ExecState) : Prop :=
  ∃ count : Int64, values = [.integer count] ∧
    if env.limits.maxRepeatCount.toNat < count.toInt.toNat then
      Performs (fail node "repeat count exceeds limit") state trace value reached
    else Performs (repeatLoop eval node count.toInt.toNat 0) state trace value reached

/-- The body of a function is evaluated in a frame of its own, unless it lies too deep. -/
def Enters (env : Env) (eval : Eval) (node function : Node) (values : List Value)
    (state : ExecState) (trace : Trace) (value : Value) (reached : ExecState) : Prop :=
  (env.limits.maxCallDepth ≤ state.callDepth ∧
    Performs (fail node "maximum call depth exceeded") state trace value reached) ∨
  (state.callDepth < env.limits.maxCallDepth ∧ ∃ body last,
    Performs (evalBody eval function.children .none)
      (state.enter (bindParams function.params values fun _ => none)) body value last ∧
    trace = .mark (.enterCall function values) :: body ++ [.mark .exitCall] ∧
    reached = last.leave state.locals)

/-- What a condition decides in `when`. -/
def whenNext (eval : Eval) (node : Node) (condition : Value) : Exec Value :=
  if condition.truthy then evalSequence eval node.children .none
  else do
    skipChildren node.children
    pure .none

/-- What a condition decides in `if`. -/
def ifNext (eval : Eval) (node : Node) (condition : Value) : Exec Value := do
  let skipped ← argAt node (if condition.truthy then 2 else 1)
  emitSkipped skipped
  let taken ← argAt node (if condition.truthy then 1 else 2)
  eval taken

/-- What becomes of the rounds of a `repeat`. -/
inductive RoundRun (eval : Eval) (node : Node) (state : ExecState) :
    Nat → Trace → Value → ExecState → Prop
  | ended : RoundRun eval node state 0 [] .none state
  | cut {count round first found reached} :
      RowRuns eval node.children state first found reached → reached.stopping = true →
      RoundRun eval node state (count + 1) (.mark (.repeatIteration round) :: first) .none reached
  | again {count round first found middle index rest value reached} :
      RowRuns eval node.children state first found middle → middle.stopping = false →
      Performs (repeatLoop eval node count index) middle rest value reached →
      RoundRun eval node state (count + 1) (.mark (.repeatIteration round) :: first ++ rest) value
        reached

/-- What becomes of an iteration of a `while`. -/
inductive LoopRun (env : Env) (eval : Eval) (node : Node) (fuel : Nat) (state : ExecState) :
    Trace → Value → ExecState → Prop
  | limited {trace value reached} :
      env.limits.maxTotalSteps ≤ state.steps →
      Performs (fail node "execution exceeded maximum step limit") state trace value reached →
      LoopRun env eval node fuel state trace value reached
  | refused {trace value reached} :
      state.steps < env.limits.maxTotalSteps →
      Gathers env eval node [] node.operands state.tick trace none reached →
      LoopRun env eval node fuel state (.mark .whileIteration :: trace) value reached
  | left {trace condition reached} :
      state.steps < env.limits.maxTotalSteps →
      Gathers env eval node [] node.operands state.tick trace (some [condition]) reached →
      condition.truthy = false →
      LoopRun env eval node fuel state (.mark .whileIteration :: trace) .none reached
  | cut {first condition middle rest found reached} :
      state.steps < env.limits.maxTotalSteps →
      Gathers env eval node [] node.operands state.tick first (some [condition]) middle →
      condition.truthy = true → RowRuns eval node.children middle rest found reached →
      reached.stopping = true →
      LoopRun env eval node fuel state (.mark .whileIteration :: first ++ rest) .none reached
  | again {first condition middle rest found after last value reached} :
      state.steps < env.limits.maxTotalSteps →
      Gathers env eval node [] node.operands state.tick first (some [condition]) middle →
      condition.truthy = true → RowRuns eval node.children middle rest found after →
      after.stopping = false → Performs (whileLoop env eval node fuel) after last value reached →
      LoopRun env eval node fuel state (.mark .whileIteration :: first ++ rest ++ last) value
        reached

/-- What becomes of an evaluation that starts. -/
inductive EvalRun (env : Env) (fuel : Nat) (node : Node) (state : ExecState) :
    Trace → Value → ExecState → Prop
  | cancelled {trace value reached} :
      reached.cancelled = true → EvalRun env fuel node state trace value reached
  | exhausted {trace rest value reached} :
      node.kind.isHighlightable = true → env.limits.maxTotalSteps ≤ state.steps →
      Performs (fail node "execution exceeded maximum step limit") state rest value reached →
      EvalRun env fuel node state trace value reached
  | lit {trace work value reached} :
      node.kind.isHighlightable = true → state.steps < env.limits.maxTotalSteps →
      Performs (evalInner env (eval env fuel) fuel node) state.tick work value reached →
      trace.Alike work →
      EvalRun env fuel node state trace value reached
  | plain {trace work value reached} :
      ¬ node.kind.isHighlightable = true →
      Performs (evalInner env (eval env fuel) fuel node) state work value reached →
      trace.Alike work →
      EvalRun env fuel node state trace value reached

section Forms

variable {env : Env} {eval : Eval} {node : Node}
variable {state reached : ExecState} {trace : Trace} {value : Value}

/-! ## Sensors and variables -/

theorem sensor_run {fuel : Nat} (form : node.form = .sensor)
    (run : Performs (evalInner env eval fuel node) state trace value reached) :
    ∃ reading : SensorReading, reading.kind = node.kind ∧ trace = [.sensor reading node] ∧
      value = reading.value ∧ reached = state := by
  rw [evalInner] at run
  have flag {question : Query} {read : Exec Bool} (record : Bool → SensorReading)
      (kinds : ∀ found, (record found).kind = node.kind)
      (values : ∀ found, (record found).value = .boolean found)
      (reads : ∀ {before after trace found}, Performs read before trace found after ↔
        trace = [.sensor (record found) node] ∧ after = before)
      (flagRun : Performs (readFlag read) state trace value reached) :
      ∃ reading : SensorReading, reading.kind = node.kind ∧ trace = [.sensor reading node] ∧
        value = reading.value ∧ reached = state := by
    rcases (performs_readFlag reads).mp flagRun with ⟨found, rfl, rfl, rfl⟩
    exact ⟨record found, kinds found, rfl, (values found).symm, rfl⟩
  cases kind : node.kind with
  | distanceCm =>
      rw [kind] at run
      rcases performs_readDistance.mp run with ⟨distance, rfl, rfl, rfl⟩
      exact ⟨.distanceCm distance, rfl, rfl, rfl, rfl⟩
  | button =>
      rw [kind] at run
      rw [kind] at flag
      exact @flag (.button node) _ .button (fun _ => rfl) (fun _ => rfl) performs_ask run
  | lineLeft =>
      rw [kind] at run
      rw [kind] at flag
      exact @flag (.lineLeft node) _ .lineLeft (fun _ => rfl) (fun _ => rfl) performs_ask run
  | lineRight =>
      rw [kind] at run
      rw [kind] at flag
      exact @flag (.lineRight node) _ .lineRight (fun _ => rfl) (fun _ => rfl) performs_ask run
  | booleanOp =>
      rw [Node.form, kind] at form
      dsimp only at form
      split at form <;> cases form
  | _ =>
      rw [Node.form, kind] at form
      cases form

theorem definition_reads (kind : node.kind = .defineVar)
    (run : Performs (evalDefineVar eval node) state trace value reached) :
    ReadsFirst env eval node (Stores fun middle held => middle.define node.op held) state trace
      value reached := by
  have operands : node.operands = node.args.take 1 := by
    rw [Node.operands, kind]
  apply operand_reads operands run
  intro operand middle more nextRun
  rw [performs_afterModify] at nextRun
  rcases performs_pure.mp nextRun with ⟨rfl, rfl, rfl⟩
  refine .inr ⟨?_, rfl, rfl, rfl⟩
  rw [Machine.objection, kind]

theorem assignment_reads (kind : node.kind = .setVar)
    (run : Performs (evalSetVar eval node) state trace value reached) :
    ReadsFirst env eval node (Stores fun middle held => middle.assign node.op held) state trace
      value reached := by
  have operands : node.operands = node.args.take 1 := by
    rw [Node.operands, kind]
  have objects (middle : ExecState) (held : Value) :
      env.machine.objection middle.scope node [held] =
        unbound (middle.find node.op) ("set! of undefined variable '" ++ node.op ++ "'") := by
    rw [Machine.objection, kind, ← scope_find]
    rfl
  apply operand_reads operands run
  intro operand middle more nextRun
  rw [performs_withState] at nextRun
  rw [objects]
  cases found : middle.find node.op with
  | none =>
      rw [found] at nextRun
      exact .inl ⟨_, rfl, nextRun⟩
  | some held =>
      rw [found] at nextRun
      dsimp only at nextRun
      rw [performs_afterModify] at nextRun
      rcases performs_pure.mp nextRun with ⟨rfl, rfl, rfl⟩
      exact .inr ⟨rfl, rfl, rfl, rfl⟩

/-! ## Rows -/

/-- The loops of `do`, `when` and function bodies differ in the value they leave when
stopping. -/
theorem loop_row {loop : List Node → Value → Exec Value} {halt : Value → Value}
    (ends : ∀ last, loop [] last = pure last)
    (goes : ∀ child rest last, loop (child :: rest) last = do
      let held ← eval child
      if ← stopping then pure (halt held) else loop rest held)
    (nodes : List Node) {last : Value}
    (run : Performs (loop nodes last) state trace value reached) :
    ∃ found, RowRuns eval nodes state trace found reached ∧
      ∀ values, found = some values → value = values.getLast?.getD last := by
  induction nodes generalizing state trace last with
  | nil =>
      rw [ends] at run
      rcases performs_pure.mp run with ⟨rfl, rfl, rfl⟩
      refine ⟨_, .finish, ?_⟩
      intro values equal
      cases equal
      rfl
  | cons child rest induction =>
      rw [goes] at run
      cases performs_body run with
      | halted head stopped => exact ⟨_, .halt head stopped, fun values equal => nomatch equal⟩
      | @went first held middle more _ _ head going tailRun =>
          rcases induction tailRun with ⟨found, row, value⟩
          refine ⟨_, .next head going row, ?_⟩
          intro values equal
          cases found with
          | none => cases equal
          | some tail =>
              cases equal
              rw [List.getLast?_cons, value tail rfl]
              rfl

theorem evalSequence_row (nodes : List Node)
    (run : Performs (evalSequence eval nodes .none) state trace value reached) :
    ∃ found, RowRuns eval nodes state trace found reached ∧
      ∀ values, found = some values → [value] = lastValue values := by
  rcases loop_row (fun _ => rfl) (fun _ _ _ => rfl) nodes run with
    ⟨found, row, last⟩
  exact ⟨found, row, fun values equal => by rw [last values equal, lastValue]⟩

theorem evalBody_row (nodes : List Node)
    (run : Performs (evalBody eval nodes .none) state trace value reached) :
    ∃ found, RowRuns eval nodes state trace found reached ∧
      ∀ values, found = some values → [value] = lastValue values := by
  rcases loop_row (fun _ => rfl) (fun _ _ _ => rfl) nodes run with
    ⟨found, row, last⟩
  exact ⟨found, row, fun values equal => by rw [last values equal, lastValue]⟩

theorem evalChildren_row (nodes : List Node) {nothing : Unit}
    (run : Performs (evalChildren eval nodes) state trace nothing reached) :
    ∃ found, RowRuns eval nodes state trace found reached := by
  induction nodes generalizing state trace with
  | nil =>
      rcases performs_pure.mp run with ⟨rfl, rfl, rfl⟩
      exact ⟨_, .finish⟩
  | cons child rest induction =>
      have split : AfterBody (eval child) (fun _ => ()) (fun _ => evalChildren eval rest) state
          trace nothing reached := performs_body run
      cases split with
      | halted head stopped => exact ⟨_, .halt head stopped⟩
      | went head going tailRun =>
          rcases induction tailRun with ⟨found, row⟩
          exact ⟨_, .next head going row⟩

/-- The arguments of a call are read in order; none is objected to. -/
theorem evalArguments_gathers (kind : node.kind = .call) (rest : List Node) {values : List Value}
    {found : Option (List Value)}
    (run : Performs (evalArguments eval rest values) state trace found reached) :
    Gathers env eval node values rest state trace found reached := by
  induction rest generalizing state trace values with
  | nil =>
      rcases performs_pure.mp run with ⟨rfl, rfl, rfl⟩
      exact .read
  | cons arg rest induction =>
      have split : AfterBody (eval arg) (fun _ => none)
          (fun held => evalArguments eval rest (values ++ [held])) state trace found reached :=
        performs_body run
      cases split with
      | halted head stopped => exact .halt head stopped
      | @went first held middle more _ _ head going tailRun =>
          apply Gathers.goOn head going _ (combines_of_other (by rw [kind]; decide) _)
            (induction tailRun)
          rw [Machine.objection, kind]
          simp

/-! ## Control -/

theorem call_reads (kind : node.kind = .call) {function : Node}
    (defined : env.functions node.op = some function)
    (run : Performs (callFunction env eval node) state trace value reached) :
    ReadsFirst env eval node (Enters env eval node function) state trace value reached := by
  have operands : node.operands = node.args := by
    rw [Node.operands, kind]
  rw [callFunction, defined] at run
  dsimp only at run
  rcases performs_bind.mp run with ⟨first, found, middle, more, argumentRun, nextRun, rfl⟩
  have gathers := @evalArguments_gathers env _ _ _ _ _ kind node.args _ _ argumentRun
  rw [← operands] at gathers
  cases found with
  | none =>
      rcases performs_pure.mp nextRun with ⟨rfl, rfl, rfl⟩
      rw [List.append_nil]
      exact .refused gathers
  | some values =>
      apply ReadsFirst.read gathers
      dsimp only at nextRun
      rw [performs_withState] at nextRun
      split at nextRun
      next deep => exact .inl ⟨deep, nextRun⟩
      next shallow =>
        rw [performs_afterMark] at nextRun
        rcases nextRun with ⟨rest, nextRun, rfl⟩
        rw [performs_afterModify] at nextRun
        rcases performs_bind.mp nextRun with ⟨body, held, last, final, bodyRun, endRun, rfl⟩
        rw [performs_afterModify, performs_afterMark] at endRun
        rcases endRun with ⟨nothing, endRun, rfl⟩
        rcases performs_pure.mp endRun with ⟨rfl, rfl, rfl⟩
        exact .inr ⟨UInt32.not_le.mp shallow, body, last, bodyRun, rfl, rfl⟩

theorem counted_reads (kind : node.kind = .repeatForm)
    (run : Performs (evalRepeat env eval node) state trace value reached) :
    ReadsFirst env eval node (Counting env eval node) state trace value reached := by
  have operands : node.operands = node.args.take 1 := by
    rw [Node.operands, kind]
  have objects (scope : Scope) (count : Value) :
      env.machine.objection scope node [count] =
        expectInteger "repeat count" checkCount count := by
    rw [Machine.objection, kind]
    rfl
  apply integer_reads operands objects run
  intro count middle more nextRun
  split at nextRun
  next negative => exact .inl ⟨_, if_pos negative, nextRun⟩
  next fine =>
    refine .inr ⟨if_neg fine, count, rfl, ?_⟩
    split at nextRun
    next many =>
      rw [if_pos many]
      exact nextRun
    next few =>
      rw [if_neg few]
      exact nextRun

theorem conditional_reads (kind : node.kind = .whenForm)
    (run : Performs (evalWhen eval node) state trace value reached) :
    ReadsFirst env eval node (Passes (whenNext eval node)) state trace value reached := by
  have operands : node.operands = node.args.take 1 := by
    rw [Node.operands, kind]
  apply operand_reads operands run
  intro operand middle more nextRun
  refine .inr ⟨?_, operand, rfl, nextRun⟩
  rw [Machine.objection, kind]

theorem branch_reads (kind : node.kind = .ifForm)
    (run : Performs (evalIf eval node) state trace value reached) :
    ReadsFirst env eval node (Passes (ifNext eval node)) state trace value reached := by
  have operands : node.operands = node.args.take 1 := by
    rw [Node.operands, kind]
  apply operand_reads operands run
  intro operand middle more nextRun
  refine .inr ⟨?_, operand, rfl, nextRun⟩
  rw [Machine.objection, kind]

/-! ## Loops -/

/-- One step of `and` and `or`, in the words of `Node.isDecided`. -/
theorem booleanLoop_cons (arg : Node) (rest : List Node) :
    booleanLoop eval (node.op = "and") (arg :: rest) = (do
      let held ← eval arg
      if ← stopping then pure .none
      else if node.isDecided held then pure (.boolean (node.op ≠ "and"))
      else booleanLoop eval (node.op = "and") rest) := by
  rw [booleanLoop]
  congr
  funext held
  congr
  funext stops
  by_cases isAnd : node.op = "and" <;> cases holds : held.truthy <;>
    simp [Node.isDecided, isAnd, holds]

theorem repeatLoop_round {count index : Nat}
    (run : Performs (repeatLoop eval node count index) state trace value reached) :
    RoundRun eval node state count trace value reached := by
  cases count with
  | zero =>
      rcases performs_pure.mp run with ⟨rfl, rfl, rfl⟩
      exact .ended
  | succ count =>
      rcases performs_afterMark.mp run with ⟨tail, tailRun, rfl⟩
      have split : AfterBody (evalChildren eval node.children) (fun _ => .none)
          (fun _ => repeatLoop eval node count (index + 1)) state tail value reached :=
        performs_body tailRun
      cases split with
      | halted head stopped =>
          rcases evalChildren_row _ head with ⟨found, row⟩
          exact .cut row stopped
      | went head going restRun =>
          rcases evalChildren_row _ head with ⟨found, row⟩
          exact .again row going restRun

theorem whileLoop_round (kind : node.kind = .whileForm) {fuel : Nat}
    (run : Performs (whileLoop env eval node (fuel + 1)) state trace value reached) :
    LoopRun env eval node fuel state trace value reached := by
  rw [whileLoop, performs_withState] at run
  split at run
  next full => exact .limited full run
  next free =>
    have room : state.steps < env.limits.maxTotalSteps := UInt32.not_le.mp free
    rw [performs_afterModify, performs_afterMark] at run
    rcases run with ⟨tail, run, rfl⟩
    rw [performs_withArg] at run
    rcases run with ⟨part, found, run⟩
    have operands : node.operands = [part] := by
      rw [Node.operands, kind, ← take_one found]
    have fine (middle : ExecState) (condition : Value) :
        env.machine.objection middle.scope node ([] ++ [condition]) = none := by
      rw [Machine.objection, kind]
    cases performs_body run with
    | halted head stopped =>
        apply LoopRun.refused room
        rw [operands]
        exact .halt head stopped
    | @went first condition middle rest _ _ head going nextRun =>
        have gathers : Gathers env eval node [] node.operands state.tick first
            (some [condition]) middle := by
          rw [operands, ← List.append_nil first]
          exact .goOn head going (fine _ _) (combines_single _) .read
        split at nextRun
        next fails =>
          rcases performs_pure.mp nextRun with ⟨rfl, rfl, rfl⟩
          rw [List.append_nil]
          exact .left room gathers (by simpa using fails)
        next holds =>
          have split : AfterBody (evalChildren eval node.children) (fun _ => .none)
              (fun _ => whileLoop env eval node fuel) middle rest value reached :=
            performs_body nextRun
          cases split with
          | halted head stopped =>
              rcases evalChildren_row _ head with ⟨found, row⟩
              exact .cut room gathers (by simpa using holds) row stopped
          | went head goes restRun =>
              rcases evalChildren_row _ head with ⟨found, row⟩
              rw [← List.append_assoc]
              exact .again room gathers (by simpa using holds) row goes restRun

/-! ## Evaluation -/

theorem eval_run {fuel : Nat} (going : state.stopping = false)
    (run : Performs (CardCode.eval env (fuel + 1) node) state trace value reached) :
    EvalRun env fuel node state trace value reached := by
  rw [CardCode.eval, performs_unlessStopping, if_neg (by rw [going]; decide)] at run
  rcases performs_bind.mp run with ⟨polled, flag, middle, rest, pollRun, restRun, rfl⟩
  rcases performs_pollCancel.mp pollRun with ⟨rfl, entries⟩
  have quiet : Trace.effects polled = [] ∧ ¬ Trace.Traps polled := by
    split at entries
    · rw [entries]
      simp [Action.Traps]
    · rw [entries.1]
      simp
  cases flag with
  | true =>
      rw [if_pos rfl, performs_afterModify] at restRun
      rcases performs_pure.mp restRun with ⟨rfl, rfl, rfl⟩
      exact .cancelled rfl
  | false =>
      rw [if_neg (by decide)] at restRun
      split at restRun
      next lit =>
        rw [performs_withState] at restRun
        split at restRun
        next full => exact .exhausted lit full restRun
        next free =>
          rw [performs_afterModify, performs_afterEmit] at restRun
          rcases restRun with ⟨tail, tailRun, rfl⟩
          rcases performs_bind.mp tailRun with ⟨work, held, last, ending, workRun, endRun, rfl⟩
          have ends : held = value ∧ last = reached ∧ Trace.Shows ending [] := by
            rw [performs_unlessStopping] at endRun
            split at endRun
            · rcases performs_pure.mp endRun with ⟨rfl, rfl, rfl⟩
              exact ⟨rfl, rfl, shows_nil⟩
            · rcases performs_afterEmit.mp endRun with ⟨nothing, pureRun, rfl⟩
              rcases performs_pure.mp pureRun with ⟨rfl, rfl, rfl⟩
              exact ⟨rfl, rfl, rfl, by simp [Action.Traps]⟩
          rcases ends with ⟨rfl, rfl, silent⟩
          apply EvalRun.lit lit (UInt32.not_le.mp free) workRun
          constructor
          · simp [quiet.1, silent.effects]
          · simp [quiet.2, silent.untrapped, Action.Traps]
      next unlit =>
        apply EvalRun.plain unlit restRun
        constructor
        · simp [quiet.1]
        · simp [quiet.2]

end Forms

end CardCode
