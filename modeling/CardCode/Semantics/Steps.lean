import CardCode.Engine.Interpreter

/-! # Elementary steps of the interpreter

What each primitive of the interpreter leaves in the trace and in the state.
Later proofs use these equivalences and never unfold a primitive.
-/

namespace CardCode

open Process

variable {state reached : ExecState} {trace : Trace} {value : Value}
variable {α : Type}

@[simp] theorem performs_stopping {flag : Bool} :
    Performs stopping state trace flag reached ↔
      trace = [] ∧ flag = state.stopping ∧ reached = state := by
  constructor
  · intro run
    cases run
    exact ⟨rfl, rfl, rfl⟩
  · intro equal
    rcases equal with ⟨rfl, rfl, rfl⟩
    exact .done

@[simp] theorem performs_emit {type : ExecutionEventType} {node : Node}
    {message : String} {result : Unit} :
    Performs (emit type node message) state trace result reached ↔
      trace = [.emit type node message] ∧ reached = state :=
  performs_perform

@[simp] theorem performs_emitProgram {type : ExecutionEventType}
    {message : String} {result : Unit} :
    Performs (emitProgram type message) state trace result reached ↔
      trace = [.emitProgram type message] ∧ reached = state :=
  performs_perform

@[simp] theorem performs_command {call : RobotCommand} {issuer : Option Node}
    {result : Unit} :
    Performs (command call issuer) state trace result reached ↔
      trace = [.command call issuer] ∧ reached = state :=
  performs_perform

@[simp] theorem performs_mark {point : Mark} {result : Unit} :
    Performs (mark point) state trace result reached ↔
      trace = [.mark point] ∧ reached = state :=
  performs_perform

@[simp] theorem performs_emitSkipped {node : Node} {result : Unit} :
    Performs (emitSkipped node) state trace result reached ↔
      trace = [.emit .nodeSkipped node node.op] ∧ reached = state :=
  performs_emit

@[simp] theorem performs_fail {node : Node} {message : String} :
    Performs (fail node message) state trace value reached ↔
      trace = [.emit .nodeError node message] ∧ value = .none ∧
        reached = state.failed node message := by
  constructor
  · intro run
    cases run with
    | act run =>
        cases run
        exact ⟨rfl, rfl, rfl⟩
  · intro equal
    rcases equal with ⟨rfl, rfl, rfl⟩
    exact .act .done

@[simp] theorem performs_issue {node : Node} {call : RobotCommand} :
    Performs (issue node call) state trace value reached ↔
      trace = [.command call (some node)] ∧ value = .none ∧ reached = state := by
  constructor
  · intro run
    cases run with
    | act run =>
        cases run
        exact ⟨rfl, rfl, rfl⟩
  · intro equal
    rcases equal with ⟨rfl, rfl, rfl⟩
    exact .act .done

@[simp] theorem performs_argAt {node arg : Node} {index : Nat} :
    Performs (argAt node index) state trace arg reached ↔
      node.args[index]? = some arg ∧ trace = [] ∧ reached = state := by
  rw [argAt]
  cases node.args[index]? with
  | none => simp
  | some found =>
      simp only [performs_pure, Option.some.injEq]
      constructor
      · intro equal
        exact ⟨equal.2.1.symm, equal.1, equal.2.2⟩
      · intro equal
        exact ⟨equal.2.1, equal.1.symm, equal.2.2⟩

@[simp] theorem performs_pollCancel {env : Env} {flag : Bool} :
    Performs (pollCancel env) state trace flag reached ↔
      reached = state ∧
        if env.cancellable then trace = [.poll flag] else trace = [] ∧ flag = false := by
  rw [pollCancel]
  cases env.cancellable with
  | false => simp [and_comm, and_assoc, and_left_comm]
  | true => exact performs_query.trans and_comm

@[simp] theorem performs_combine {env : Env} {op : String} {operands : List Int64}
    {accumulator operand result : Int64} :
    Performs (combine env op operands accumulator operand) state trace result reached ↔
      trace = [.mark (.combining op operands accumulator operand)] ∧
        env.operate op accumulator operand = some result ∧ reached = state := by
  rw [combine]
  simp only [performs_bind, performs_mark]
  cases env.operate op accumulator operand with
  | none => simp
  | some found =>
      simp only [performs_pure, Option.some.injEq]
      constructor
      · intro run
        rcases run with ⟨_, _, _, _, ⟨rfl, rfl⟩, ⟨rfl, rfl, rfl⟩, rfl⟩
        exact ⟨rfl, rfl, rfl⟩
      · intro equal
        rcases equal with ⟨rfl, rfl, rfl⟩
        exact ⟨_, (), _, [], ⟨rfl, rfl⟩, ⟨rfl, rfl, rfl⟩, rfl⟩

theorem performs_ask {question : Query} {reply : question.Reply} :
    Performs (ask question) state trace reply reached ↔
      trace = [engineInterface.record question reply] ∧ reached = state :=
  performs_query

theorem performs_readDistance {node : Node} :
    Performs (readDistance node) state trace value reached ↔
      ∃ distance : Int32, trace = [.sensor (.distanceCm distance) node] ∧
        value = .integer distance.toInt64 ∧ reached = state := by
  rw [readDistance]
  simp only [performs_bind, performs_ask, performs_pure]
  constructor
  · intro run
    rcases run with ⟨_, distance, _, _, ⟨rfl, rfl⟩, ⟨rfl, rfl, rfl⟩, rfl⟩
    exact ⟨distance, rfl, rfl, rfl⟩
  · intro equal
    rcases equal with ⟨distance, rfl, rfl, rfl⟩
    exact ⟨_, distance, _, [], ⟨rfl, rfl⟩, ⟨rfl, rfl, rfl⟩, rfl⟩

/-- A boolean sensor read, for each of the three questions that return one. -/
theorem performs_readFlag {read : Exec Bool} {record : Bool → Action}
    (reads : ∀ {before after trace flag}, Performs read before trace flag after ↔
      trace = [record flag] ∧ after = before) :
    Performs (readFlag read) state trace value reached ↔
      ∃ flag, trace = [record flag] ∧ value = .boolean flag ∧ reached = state := by
  rw [readFlag]
  simp only [performs_bind, reads, performs_pure]
  constructor
  · intro run
    rcases run with ⟨_, flag, _, _, ⟨rfl, rfl⟩, ⟨rfl, rfl, rfl⟩, rfl⟩
    exact ⟨flag, rfl, rfl, rfl⟩
  · intro equal
    rcases equal with ⟨flag, rfl, rfl, rfl⟩
    exact ⟨_, flag, _, [], ⟨rfl, rfl⟩, ⟨rfl, rfl, rfl⟩, rfl⟩

/-! ## Sequencing -/

/-- A step that returns `()` and leaves a fixed entry. -/
theorem performs_then {first : Exec Unit} {next : Exec α} {result : α}
    {entries : Trace} {middle : ExecState}
    (performs : ∀ {trace nothing after}, Performs first state trace nothing after ↔
      trace = entries ∧ after = middle) :
    Performs (do first; next) state trace result reached ↔
      ∃ rest, Performs next middle rest result reached ∧ trace = entries ++ rest := by
  simp only [performs_bind, performs]
  constructor
  · intro run
    rcases run with ⟨_, _, _, rest, ⟨rfl, rfl⟩, run, rfl⟩
    exact ⟨rest, run, rfl⟩
  · intro run
    rcases run with ⟨rest, run, rfl⟩
    exact ⟨_, (), _, rest, ⟨rfl, rfl⟩, run, rfl⟩

@[simp] theorem performs_unlessStopping {halt next : Exec α} {result : α} :
    Performs (do if ← stopping then halt else next) state trace result reached ↔
      if state.stopping then Performs halt state trace result reached
      else Performs next state trace result reached := by
  simp only [performs_bind, performs_stopping]
  cases flag : state.stopping with
  | false =>
      constructor
      · intro run
        rcases run with ⟨_, _, _, rest, ⟨rfl, rfl, rfl⟩, run, rfl⟩
        simpa [flag] using run
      · intro run
        exact ⟨[], false, state, trace, ⟨rfl, rfl, rfl⟩, by simpa using run, rfl⟩
  | true =>
      constructor
      · intro run
        rcases run with ⟨_, _, _, rest, ⟨rfl, rfl, rfl⟩, run, rfl⟩
        simpa [flag] using run
      · intro run
        exact ⟨[], true, state, trace, ⟨rfl, rfl, rfl⟩, by simpa using run, rfl⟩

@[simp] theorem performs_withState {next : ExecState → Exec α} {result : α} :
    Performs (do let state ← get; next state) state trace result reached ↔
      Performs (next state) state trace result reached := by
  simp only [performs_bind, performs_get]
  constructor
  · intro run
    rcases run with ⟨_, _, _, rest, ⟨rfl, rfl, rfl⟩, run, rfl⟩
    exact run
  · intro run
    exact ⟨[], state, state, trace, ⟨rfl, rfl, rfl⟩, run, rfl⟩

@[simp] theorem performs_afterModify {update : ExecState → ExecState}
    {next : Exec α} {result : α} :
    Performs (do modify update; next) state trace result reached ↔
      Performs next (update state) trace result reached := by
  rw [performs_then performs_modify]
  simp

@[simp] theorem performs_afterMark {point : Mark} {next : Exec α} {result : α} :
    Performs (do mark point; next) state trace result reached ↔
      ∃ rest, Performs next state rest result reached ∧
        trace = .mark point :: rest :=
  performs_then performs_mark

/-- Two values are combined, and what is done with the result. -/
theorem performs_afterCombine {env : Env} {op : String} {operands : List Int64}
    {accumulator operand : Int64} {next : Int64 → Exec α} {result : α} :
    Performs (do let combined ← combine env op operands accumulator operand; next combined)
        state trace result reached ↔
      ∃ combined rest, env.operate op accumulator operand = some combined ∧
        Performs (next combined) state rest result reached ∧
        trace = .mark (.combining op operands accumulator operand) :: rest := by
  simp only [performs_bind, performs_combine]
  constructor
  · intro run
    rcases run with ⟨_, combined, _, rest, ⟨rfl, operates, rfl⟩, nextRun, rfl⟩
    exact ⟨combined, rest, operates, nextRun, rfl⟩
  · intro run
    rcases run with ⟨combined, rest, operates, nextRun, rfl⟩
    exact ⟨_, combined, _, rest, ⟨rfl, operates, rfl⟩, nextRun, rfl⟩

@[simp] theorem performs_afterEmit {type : ExecutionEventType} {node : Node}
    {message : String} {next : Exec α} {result : α} :
    Performs (do emit type node message; next) state trace result reached ↔
      ∃ rest, Performs next state rest result reached ∧
        trace = .emit type node message :: rest :=
  performs_then performs_emit

@[simp] theorem performs_afterSkipped {node : Node} {next : Exec α} {result : α} :
    Performs (do emitSkipped node; next) state trace result reached ↔
      ∃ rest, Performs next state rest result reached ∧
        trace = .emit .nodeSkipped node node.op :: rest :=
  performs_then performs_emitSkipped

@[simp] theorem performs_afterEmitProgram {type : ExecutionEventType}
    {message : String} {next : Exec α} {result : α} :
    Performs (do emitProgram type message; next) state trace result reached ↔
      ∃ rest, Performs next state rest result reached ∧
        trace = .emitProgram type message :: rest :=
  performs_then performs_emitProgram

@[simp] theorem performs_afterCommand {call : RobotCommand} {issuer : Option Node}
    {next : Exec α} {result : α} :
    Performs (do command call issuer; next) state trace result reached ↔
      ∃ rest, Performs next state rest result reached ∧
        trace = .command call issuer :: rest :=
  performs_then performs_command

@[simp] theorem performs_withArg {node : Node} {index : Nat} {next : Node → Exec α}
    {result : α} :
    Performs (do let arg ← argAt node index; next arg) state trace result reached ↔
      ∃ arg, node.args[index]? = some arg ∧
        Performs (next arg) state trace result reached := by
  simp only [performs_bind, performs_argAt]
  constructor
  · intro run
    rcases run with ⟨_, arg, _, rest, ⟨found, rfl, rfl⟩, run, rfl⟩
    exact ⟨arg, found, run⟩
  · intro run
    rcases run with ⟨arg, found, run⟩
    exact ⟨[], arg, state, trace, ⟨found, rfl, rfl⟩, run, rfl⟩

/-! ## Parts -/

/-- What becomes of the shape `body; if stopping then ... else next`. -/
inductive AfterBody {β : Type} (body : Exec β) (halt : β → α) (next : β → Exec α) :
    ExecState → Trace → α → ExecState → Prop
  | halted {state trace held reached} :
      Performs body state trace held reached → reached.stopping = true →
      AfterBody body halt next state trace (halt held) reached
  | went {state first held middle rest result reached} :
      Performs body state first held middle → middle.stopping = false →
      Performs (next held) middle rest result reached →
      AfterBody body halt next state (first ++ rest) result reached

theorem performs_body {β : Type} {body : Exec β} {halt : β → α} {next : β → Exec α} {result : α}
    (run : Performs (do
        let value ← body
        if ← stopping then pure (halt value) else next value)
      state trace result reached) :
    AfterBody body halt next state trace result reached := by
  rcases performs_bind.mp run with ⟨first, held, middle, rest, headRun, restRun, rfl⟩
  rw [performs_unlessStopping] at restRun
  cases flag : middle.stopping with
  | true =>
      rw [if_pos flag] at restRun
      rcases performs_pure.mp restRun with ⟨rfl, rfl, rfl⟩
      rw [List.append_nil]
      exact .halted headRun flag
  | false =>
      rw [if_neg (by simp [flag])] at restRun
      exact .went headRun flag restRun

/-- What becomes of a node that needs an integer for an argument. -/
inductive WithInteger (eval : Eval) (part node : Node) (what : String)
    (next : Int64 → Exec Value) : ExecState → Trace → Value → ExecState → Prop
  | halted {state trace held reached} :
      Performs (eval part) state trace held reached → reached.stopping = true →
      WithInteger eval part node what next state trace .none reached
  | refused {state first held middle} :
      Performs (eval part) state first held middle → middle.stopping = false →
      WithInteger eval part node what next state
        (first ++ [.emit .nodeError node ("expected an integer for " ++ what)]) .none
        (middle.failed node ("expected an integer for " ++ what))
  | read {state first number middle rest value reached} :
      Performs (eval part) state first (.integer number) middle → middle.stopping = false →
      Performs (next number) middle rest value reached →
      WithInteger eval part node what next state (first ++ rest) value reached

theorem performs_withInteger {eval : Eval} {part node : Node} {what : String}
    {next : Int64 → Exec Value}
    (run : Performs (do
        match ← evalInt eval part node what with
        | none => pure .none
        | some number => next number)
      state trace value reached) :
    WithInteger eval part node what next state trace value reached := by
  rcases performs_bind.mp run with ⟨_, found, after, rest, intRun, restRun, rfl⟩
  cases performs_body intRun with
  | halted headRun stopped =>
      rcases performs_pure.mp restRun with ⟨rfl, rfl, rfl⟩
      rw [List.append_nil]
      exact .halted headRun stopped
  | @went first held middle last _ _ headRun going lastRun =>
      have refused (refusedRun : Performs (do
            let _ ← fail node ("expected an integer for " ++ what)
            pure none) middle last found after) :
          WithInteger eval part node what next state (first ++ last ++ rest) value reached := by
        rcases performs_bind.mp refusedRun with ⟨text, _, failed, _, failRun, endRun, rfl⟩
        rcases performs_fail.mp failRun with ⟨rfl, -, rfl⟩
        rcases performs_pure.mp endRun with ⟨rfl, rfl, rfl⟩
        rcases performs_pure.mp restRun with ⟨rfl, rfl, rfl⟩
        rw [List.append_nil, List.append_nil]
        exact .refused headRun going
      cases held with
      | integer number =>
          rcases performs_pure.mp lastRun with ⟨rfl, rfl, rfl⟩
          rw [List.append_nil]
          exact .read headRun going restRun
      | none => exact refused lastRun
      | boolean _ => exact refused lastRun
      | color _ => exact refused lastRun

end CardCode
