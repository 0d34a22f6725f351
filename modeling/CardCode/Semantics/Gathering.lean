import CardCode.Semantics.Meaning

/-! # Reading operands

The interpreter reads operands one after another and looks at each value, whatever the form.
One lemma a form says so; none of its code is unfolded again.
-/

namespace CardCode

open Process

def ExecState.scope (state : ExecState) : Scope where
  globals := state.globals
  locals := state.locals

section State

variable (state : ExecState) (name : String) (value : Value)

@[simp] theorem scope_find : state.scope.find name = state.find name := by
  rw [Scope.find, ExecState.find, ExecState.scope]
  cases state.locals with
  | none => rfl
  | some vars =>
      dsimp only
      cases vars name <;> rfl

@[simp] theorem scope_define : (state.define name value).scope = state.scope.define name value := by
  rw [Scope.define, ExecState.define, ExecState.scope, ExecState.scope]
  cases state.locals <;> rfl

@[simp] theorem scope_assign : (state.assign name value).scope = state.scope.assign name value := by
  rw [Scope.assign, ExecState.assign, ExecState.scope, ExecState.scope]
  cases state.locals with
  | none => rfl
  | some vars =>
      dsimp only
      split <;> rfl

@[simp] theorem scope_tick : state.tick.scope = state.scope := rfl

@[simp] theorem scope_failed (node : Node) (message : String) :
    (state.failed node message).scope = state.scope := rfl

end State

/-! ## Effects of a trace -/

@[simp] theorem effects_nil : Trace.effects [] = [] := rfl

@[simp] theorem effects_append (first second : Trace) :
    Trace.effects (first ++ second) = Trace.effects first ++ Trace.effects second :=
  List.filterMap_append

@[simp] theorem effects_marks (marks : List Mark) : Trace.effects (marks.map .mark) = [] := by
  induction marks with
  | nil => rfl
  | cons mark marks induction => exact induction

@[simp] theorem effects_mark (mark : Mark) (rest : Trace) :
    Trace.effects (.mark mark :: rest) = Trace.effects rest := rfl

@[simp] theorem effects_emit (type : ExecutionEventType) (node : Node) (message : String)
    (rest : Trace) : Trace.effects (.emit type node message :: rest) = Trace.effects rest := rfl

@[simp] theorem effects_emitProgram (type : ExecutionEventType) (message : String)
    (rest : Trace) : Trace.effects (.emitProgram type message :: rest) = Trace.effects rest := rfl

@[simp] theorem effects_poll (flag : Bool) (rest : Trace) :
    Trace.effects (.poll flag :: rest) = Trace.effects rest := rfl

@[simp] theorem effects_command (call : RobotCommand) (issuer : Option Node) (rest : Trace) :
    Trace.effects (.command call issuer :: rest) = .command call :: Trace.effects rest := rfl

@[simp] theorem effects_sensor (reading : SensorReading) (issuer : Node) (rest : Trace) :
    Trace.effects (.sensor reading issuer :: rest) = .reading reading :: Trace.effects rest := rfl

/-- The trace has these effects, and nothing in it traps. -/
structure Trace.Shows (trace : Trace) (effects : List Effect) : Prop where
  effects : trace.effects = effects
  untrapped : ¬ trace.Traps

/-- Two traces have the same effects, and either traps if the other does. -/
structure Trace.Alike (trace other : Trace) : Prop where
  effects : trace.effects = other.effects
  traps : trace.Traps ↔ other.Traps

section Shows

variable {first second trace : Trace} {effects others : List Effect}

theorem shows_nil : Trace.Shows [] [] := ⟨rfl, untrapped_nil⟩

theorem Trace.Shows.append (before : first.Shows effects) (behind : second.Shows others) :
    Trace.Shows (first ++ second) (effects ++ others) where
  effects := by rw [effects_append, before.effects, behind.effects]
  untrapped := by
    intro traps
    rcases traps_append.mp traps with traps | traps
    · exact before.untrapped traps
    · exact behind.untrapped traps

/-- What is silent adds nothing. -/
theorem Trace.Shows.followed (before : first.Shows effects) (silent : second.Shows []) :
    Trace.Shows (first ++ second) effects := by
  have all := before.append silent
  rwa [List.append_nil] at all

theorem Trace.Shows.alike (silent : first.Shows []) (rest : Trace) :
    (first ++ rest).Alike rest where
  effects := by rw [effects_append, silent.effects, List.nil_append]
  traps := by rw [traps_append, or_iff_right silent.untrapped]

theorem Trace.Alike.showing (alike : trace.Alike first) (showing : first.Shows effects) :
    trace.Shows effects where
  effects := alike.effects.trans showing.effects
  untrapped := fun traps => showing.untrapped (alike.traps.mp traps)

theorem shows_emit (type : ExecutionEventType) (node : Node) (message : String) :
    Trace.Shows [.emit type node message] [] :=
  ⟨rfl, by simp [Action.Traps]⟩

theorem shows_round (index : Nat) : Trace.Shows [.mark (.repeatIteration index)] [] :=
  ⟨rfl, by simp [Action.Traps]⟩

theorem shows_iteration : Trace.Shows [.mark .whileIteration] [] :=
  ⟨rfl, by simp [Action.Traps]⟩

theorem shows_command (call : RobotCommand) (issuer : Option Node) :
    Trace.Shows [.command call issuer] [.command call] :=
  ⟨rfl, by simp [Action.Traps]⟩

theorem shows_sensor (reading : SensorReading) (issuer : Node) :
    Trace.Shows [.sensor reading issuer] [.reading reading] :=
  ⟨rfl, by simp [Action.Traps]⟩

end Shows

/-! ## Combining -/

section Combining

variable {machine : Machine} {node : Node}

theorem integersOf_map (numbers : List Int64) :
    integersOf (numbers.map .integer) = some numbers := by
  induction numbers with
  | nil => rfl
  | cons number numbers induction =>
      rw [List.map_cons, integersOf, induction]
      rfl

theorem fold_snoc {op : String} {operands : List Int64} (some : operands ≠ []) (operand : Int64) :
    machine.fold op (operands ++ [operand]) =
      (machine.fold op operands).bind fun accumulator =>
        machine.operate op accumulator operand :=
  fold_append some operand

theorem combines_of_other (other : node.kind ≠ .arithmetic) (values : List Value) :
    machine.Combines node values :=
  fun kind => absurd kind other

theorem combines_of_fold {operands : List Int64} {result : Int64}
    (folded : machine.fold node.op operands = some result) :
    machine.Combines node (operands.map .integer) := by
  intro _ others integers
  rw [integersOf_map] at integers
  cases integers
  rw [folded]
  rfl

/-- A single value is not combined with anything. -/
theorem combines_single (value : Value) : machine.Combines node ([] ++ [value]) := by
  intro _ operands integers
  cases value with
  | integer number =>
      cases integers
      rfl
  | none | boolean | color => cases integers

/-- The last of the values is what an operation traps on. -/
def Machine.TrapsAt (machine : Machine) (node : Node) (values : List Value) : Prop :=
  node.kind = .arithmetic ∧ ∃ operands accumulator operand,
    operands ≠ [] ∧ values = (operands ++ [operand]).map .integer ∧
    machine.fold node.op operands = some accumulator ∧ TrapsOn node.op accumulator operand

end Combining

/-! ## What a form does -/

/-- The operands behind those with known values are read: what that leaves, and the values
of all operands unless it was cut short. -/
inductive Gathers (env : Env) (eval : Eval) (node : Node) :
    List Value → List Node → ExecState → Trace → Option (List Value) → ExecState → Prop
  | read {values state} : Gathers env eval node values [] state [] (some values) state
  | halt {values arg rest state trace value reached} :
      Performs (eval arg) state trace value reached → reached.stopping = true →
      Gathers env eval node values (arg :: rest) state trace none reached
  | object {values arg rest state trace value middle message} :
      Performs (eval arg) state trace value middle → middle.stopping = false →
      env.machine.objection middle.scope node (values ++ [value]) = some message →
      Gathers env eval node values (arg :: rest) state
        (trace ++ [.emit .nodeError node message]) none (middle.failed node message)
  | next {values arg rest state trace value middle more found reached} (marks : List Mark) :
      Performs (eval arg) state trace value middle → middle.stopping = false →
      env.machine.objection middle.scope node (values ++ [value]) = none →
      env.machine.Combines node (values ++ [value]) →
      (Trace.Traps (marks.map .mark) → env.machine.TrapsAt node (values ++ [value])) →
      Gathers env eval node (values ++ [value]) rest middle more found reached →
      Gathers env eval node values (arg :: rest) state
        (trace ++ marks.map .mark ++ more) found reached

/-- The operands of a node are read, and then something is done with their values. -/
inductive ReadsFirst (env : Env) (eval : Eval) (node : Node)
    (finish : List Value → ExecState → Trace → Value → ExecState → Prop) (state : ExecState) :
    Trace → Value → ExecState → Prop
  | refused {trace value reached} :
      Gathers env eval node [] node.operands state trace none reached →
      ReadsFirst env eval node finish state trace value reached
  | read {first values middle rest value reached} :
      Gathers env eval node [] node.operands state first (some values) middle →
      finish values middle rest value reached →
      ReadsFirst env eval node finish state (first ++ rest) value reached

/-- What becomes of an operand that has to be an integer. -/
inductive IntegerRun (eval : Eval) (part node : Node) (what : String) (state : ExecState) :
    Trace → Option Int64 → ExecState → Prop
  | halted {trace value reached} :
      Performs (eval part) state trace value reached → reached.stopping = true →
      IntegerRun eval part node what state trace none reached
  | refused {trace value middle more result reached} :
      Performs (eval part) state trace value middle → middle.stopping = false →
      (∀ check, expectInteger what check value = some ("expected an integer for " ++ what)) →
      Performs (fail node ("expected an integer for " ++ what)) middle more result reached →
      IntegerRun eval part node what state (trace ++ more) none reached
  | read {trace number reached} :
      Performs (eval part) state trace (.integer number) reached → reached.stopping = false →
      IntegerRun eval part node what state trace (some number) reached

/-- The robot is called. -/
def Calls (node : Node) (values : List Value) (state : ExecState) (trace : Trace) (value : Value)
    (reached : ExecState) : Prop :=
  ∃ call, node.robotCall values = some call ∧ trace = [.command call (some node)] ∧
    value = .none ∧ reached = state

/-- A value is computed. -/
def Computes (env : Env) (node : Node) (values : List Value) (state : ExecState) (trace : Trace)
    (value : Value) (reached : ExecState) : Prop :=
  env.machine.valueOf state.scope node values = some value ∧ trace.Shows [] ∧ reached = state

section Forms

variable {env : Env} {eval : Eval} {node : Node}
variable {state reached : ExecState} {trace : Trace} {value : Value}

theorem args_of_first {arg : Node} (found : node.args[0]? = some arg) :
    node.args = arg :: node.args.tail := by
  cases args : node.args with
  | nil =>
      rw [args] at found
      cases found
  | cons head tail =>
      rw [args] at found
      cases found
      rfl

theorem tail_of_second {arg : Node} (found : node.args[1]? = some arg) :
    node.args.tail = arg :: node.args.tail.tail := by
  cases args : node.args with
  | nil =>
      rw [args] at found
      cases found
  | cons head tail =>
      rw [args] at found
      cases tail with
      | nil => cases found
      | cons second rest =>
          cases found
          rfl

theorem take_one {arg : Node} (found : node.args[0]? = some arg) : node.args.take 1 = [arg] := by
  rw [args_of_first found]
  rfl

theorem take_two {first second : Node} (found : node.args[0]? = some first)
    (foundSecond : node.args[1]? = some second) : node.args.take 2 = [first, second] := by
  rw [args_of_first found, tail_of_second foundSecond]
  rfl

theorem take_two_cons {first : Node} (found : node.args[0]? = some first) :
    node.args.take 2 = first :: node.args.tail.take 1 := by
  rw [args_of_first found]
  rfl

/-! ## Operands -/

/-- The last operand is read, and its value is not in order. -/
theorem Gathers.objects {values : List Value} {arg : Node} {rest : List Node} {operand : Value}
    {first more : Trace} {middle : ExecState} {message : String}
    (head : Performs (eval arg) state first operand middle) (going : middle.stopping = false)
    (objection : env.machine.objection middle.scope node (values ++ [operand]) = some message)
    (run : Performs (fail node message) middle more value reached) :
    Gathers env eval node values (arg :: rest) state (first ++ more) none reached := by
  rcases performs_fail.mp run with ⟨rfl, -, rfl⟩
  exact .object head going objection

/-- The operand is read, and its value is in order. -/
theorem Gathers.goOn {values : List Value} {arg : Node} {rest : List Node} {operand : Value}
    {first more : Trace} {middle : ExecState} {found : Option (List Value)}
    (head : Performs (eval arg) state first operand middle) (going : middle.stopping = false)
    (objection : env.machine.objection middle.scope node (values ++ [operand]) = none)
    (combines : env.machine.Combines node (values ++ [operand]))
    (tail : Gathers env eval node (values ++ [operand]) rest middle more found reached) :
    Gathers env eval node values (arg :: rest) state (first ++ more) found reached := by
  have joined := Gathers.next [] head going objection combines
    (fun traps => absurd traps untrapped_nil) tail
  rw [List.map_nil, List.append_nil] at joined
  exact joined

theorem evalInt_run {part : Node} {what : String} {found : Option Int64}
    (run : Performs (evalInt eval part node what) state trace found reached) :
    IntegerRun eval part node what state trace found reached := by
  cases performs_body run with
  | halted head stopped => exact .halted head stopped
  | @went first held middle last _ _ head going lastRun =>
      have refused (other : ∀ check,
            expectInteger what check held = some ("expected an integer for " ++ what))
          (refusedRun : Performs (do
            let _ ← fail node ("expected an integer for " ++ what)
            pure none) middle last found reached) :
          IntegerRun eval part node what state (first ++ last) found reached := by
        rcases performs_bind.mp refusedRun with ⟨text, _, failed, _, failRun, endRun, rfl⟩
        rcases performs_pure.mp endRun with ⟨rfl, rfl, rfl⟩
        rw [List.append_nil]
        exact .refused head going other failRun
      cases held with
      | integer number =>
          rcases performs_pure.mp lastRun with ⟨rfl, rfl, rfl⟩
          rw [List.append_nil]
          exact .read head going
      | none => exact refused (fun _ => rfl) lastRun
      | boolean _ => exact refused (fun _ => rfl) lastRun
      | color _ => exact refused (fun _ => rfl) lastRun

/-! ## Commands -/

/-- A call on the robot after all operands. -/
theorem issue_calls {call : RobotCommand} {values : List Value}
    (makes : node.robotCall values = some call)
    (run : Performs (issue node call) state trace value reached) :
    Calls node values state trace value reached := by
  rcases performs_issue.mp run with ⟨rfl, rfl, rfl⟩
  exact ⟨call, makes, rfl, rfl, rfl⟩

/-- The only operand is an integer; what is done next either fails as the objection says
or comes after all operands. -/
theorem integer_reads {what : String} {check : Int64 → Option String}
    {next : Int64 → Exec Value}
    {finish : List Value → ExecState → Trace → Value → ExecState → Prop}
    (operands : node.operands = node.args.take 1)
    (objects : ∀ scope value,
      env.machine.objection scope node [value] = expectInteger what check value)
    (run : Performs (do
        let arg ← argAt node 0
        match ← evalInt eval arg node what with
        | none => pure .none
        | some number => next number) state trace value reached)
    (goesOn : ∀ number middle more, Performs (next number) middle more value reached →
      (∃ message, check number = some message ∧
        Performs (fail node message) middle more value reached) ∨
      (check number = none ∧ finish [.integer number] middle more value reached)) :
    ReadsFirst env eval node finish state trace value reached := by
  rcases performs_withArg.mp run with ⟨part, found, run⟩
  rw [take_one found] at operands
  rcases performs_bind.mp run with ⟨first, number, middle, more, intRun, nextRun, rfl⟩
  cases evalInt_run intRun with
  | halted head stopped =>
      rcases performs_pure.mp nextRun with ⟨rfl, rfl, rfl⟩
      rw [List.append_nil]
      apply ReadsFirst.refused
      rw [operands]
      exact .halt head stopped
  | refused head going other failRun =>
      rcases performs_pure.mp nextRun with ⟨rfl, rfl, rfl⟩
      rw [List.append_nil]
      apply ReadsFirst.refused
      rw [operands]
      exact .objects head going ((objects _ _).trans (other check)) failRun
  | @read _ number _ head going =>
      rcases goesOn number middle more nextRun with ⟨message, objection, failRun⟩ | ⟨fine, ends⟩
      · apply ReadsFirst.refused
        rw [operands]
        exact .objects head going ((objects _ _).trans objection) failRun
      · apply ReadsFirst.read _ ends
        rw [operands, ← List.append_nil first]
        exact .goOn head going ((objects _ _).trans fine) (combines_single _) .read

theorem turn_reads (kind : node.kind = .turnLeft ∨ node.kind = .turnRight)
    (run : Performs (evalTurn eval node) state trace value reached) :
    ReadsFirst env eval node (Calls node) state trace value reached := by
  have operands : node.operands = node.args.take 1 := by
    rcases kind with kind | kind <;> rw [Node.operands, kind]
  have objects (scope : Scope) (degrees : Value) :
      env.machine.objection scope node [degrees] =
        expectInteger "degrees" checkDegrees degrees := by
    rcases kind with kind | kind <;> rw [Machine.objection, kind] <;> rfl
  apply integer_reads operands objects run
  intro number middle more nextRun
  split at nextRun
  next wide => exact .inl ⟨_, if_pos wide, nextRun⟩
  next fits =>
    refine .inr ⟨if_neg fits, ?_⟩
    rcases kind with kind | kind
    · rw [if_pos kind] at nextRun
      exact issue_calls (by rw [Node.robotCall.eq_def, kind]) nextRun
    · rw [if_neg (by rw [kind]; decide)] at nextRun
      exact issue_calls (by rw [Node.robotCall.eq_def, kind]) nextRun

theorem wait_reads (kind : node.kind = .wait)
    (run : Performs (evalWait eval node) state trace value reached) :
    ReadsFirst env eval node (Calls node) state trace value reached := by
  have operands : node.operands = node.args.take 1 := by
    rw [Node.operands, kind]
  have objects (scope : Scope) (duration : Value) :
      env.machine.objection scope node [duration] =
        expectInteger "duration_ms" checkDuration duration := by
    rw [Machine.objection, kind]
    rfl
  apply integer_reads operands objects run
  intro number middle more nextRun
  split at nextRun
  next wide => exact .inl ⟨_, if_pos wide, nextRun⟩
  next fits =>
    refine .inr ⟨if_neg fits, ?_⟩
    exact issue_calls (by rw [Node.robotCall.eq_def, kind]) nextRun

theorem drive_reads (kind : node.kind = .drive ∨ node.kind = .backward)
    (run : Performs (evalDrive eval node) state trace value reached) :
    ReadsFirst env eval node (Calls node) state trace value reached := by
  have other : node.kind ≠ .arithmetic := by
    rcases kind with kind | kind <;> rw [kind] <;> decide
  have operands : node.operands = node.args.take 2 := by
    rcases kind with kind | kind <;> rw [Node.operands, kind]
  have first (scope : Scope) (speed : Value) :
      env.machine.objection scope node [speed] = expectInteger "speed" (fun _ => none) speed := by
    rcases kind with kind | kind <;> rw [Machine.objection, kind] <;> rfl
  have second (scope : Scope) (speed : Int64) (duration : Value) :
      env.machine.objection scope node [.integer speed, duration] =
        expectInteger "duration_ms" (checkDrive speed) duration := by
    rcases kind with kind | kind <;> rw [Machine.objection, kind] <;> rfl
  rcases performs_withArg.mp run with ⟨speedArg, found, run⟩
  rcases performs_bind.mp run with ⟨front, speed, middle, more, speedRun, nextRun, rfl⟩
  rw [take_two_cons found] at operands
  cases evalInt_run speedRun with
  | halted head stopped =>
      rcases performs_pure.mp nextRun with ⟨rfl, rfl, rfl⟩
      rw [List.append_nil]
      apply ReadsFirst.refused
      rw [operands]
      exact .halt head stopped
  | refused head going other failRun =>
      rcases performs_pure.mp nextRun with ⟨rfl, rfl, rfl⟩
      rw [List.append_nil]
      apply ReadsFirst.refused
      rw [operands]
      exact .objects head going ((first _ _).trans (other _)) failRun
  | @read _ speed _ head going =>
      rcases performs_withArg.mp nextRun with ⟨durationArg, foundNext, run⟩
      rcases performs_bind.mp run with ⟨between, duration, after, rest, durationRun, lastRun, rfl⟩
      rw [← take_two_cons found, take_two found foundNext] at operands
      have refused {found : Trace} {last : ExecState}
          (tail : Gathers env eval node [.integer speed] [durationArg] middle found none last) :
          ReadsFirst env eval node (Calls node) state (front ++ found) value last := by
        apply ReadsFirst.refused
        rw [operands]
        exact .goOn head going (first _ _) (combines_single _) tail
      cases evalInt_run durationRun with
      | halted next stopped =>
          rcases performs_pure.mp lastRun with ⟨rfl, rfl, rfl⟩
          rw [List.append_nil]
          exact refused (.halt next stopped)
      | refused next goesOn other failRun =>
          rcases performs_pure.mp lastRun with ⟨rfl, rfl, rfl⟩
          rw [List.append_nil]
          exact refused (.objects next goesOn ((second _ _ _).trans (other _)) failRun)
      | @read _ duration _ next goesOn =>
          dsimp only at lastRun
          split at lastRun
          next wide =>
            refine refused (.objects next goesOn ((second _ _ _).trans ?_) lastRun)
            exact if_pos wide
          next narrow =>
            split at lastRun
            next wide =>
              refine refused (.objects next goesOn ((second _ _ _).trans ?_) lastRun)
              exact (if_neg narrow).trans (if_pos wide)
            next fits =>
              have fine : checkDrive speed duration = none := (if_neg narrow).trans (if_neg fits)
              rw [← List.append_assoc]
              have ends : Calls node [.integer speed, .integer duration] after rest value
                  reached := by
                rcases kind with kind | kind
                · rw [if_pos kind] at lastRun
                  exact issue_calls (by rw [Node.robotCall.eq_def, kind]) lastRun
                · rw [if_neg (by rw [kind]; decide)] at lastRun
                  exact issue_calls (by rw [Node.robotCall.eq_def, kind]) lastRun
              apply ReadsFirst.read _ ends
              rw [operands]
              apply Gathers.goOn head going (first _ _) (combines_single _)
              rw [← List.append_nil between]
              exact .goOn next goesOn ((second _ _ _).trans fine) (combines_of_other other _) .read

/-- The only operand is any value; what is done next either fails as the objection says or
comes after all operands. -/
theorem operand_reads {next : Value → Exec Value}
    {finish : List Value → ExecState → Trace → Value → ExecState → Prop}
    (operands : node.operands = node.args.take 1)
    (run : Performs (do
        let arg ← argAt node 0
        let operand ← eval arg
        if ← stopping then pure .none else next operand) state trace value reached)
    (goesOn : ∀ operand middle more, Performs (next operand) middle more value reached →
      (∃ message, env.machine.objection middle.scope node [operand] = some message ∧
        Performs (fail node message) middle more value reached) ∨
      (env.machine.objection middle.scope node [operand] = none ∧
        finish [operand] middle more value reached)) :
    ReadsFirst env eval node finish state trace value reached := by
  rcases performs_withArg.mp run with ⟨part, found, run⟩
  rw [take_one found] at operands
  cases performs_body run with
  | halted head stopped =>
      apply ReadsFirst.refused
      rw [operands]
      exact .halt head stopped
  | @went first operand middle more _ _ head going nextRun =>
      rcases goesOn operand middle more nextRun with ⟨message, objection, failRun⟩ | ⟨fine, ends⟩
      · apply ReadsFirst.refused
        rw [operands]
        exact .objects head going objection failRun
      · apply ReadsFirst.read _ ends
        rw [operands, ← List.append_nil first]
        exact .goOn head going fine (combines_single _) .read

theorem light_reads (kind : node.kind = .light)
    (run : Performs (evalLight eval node) state trace value reached) :
    ReadsFirst env eval node (Calls node) state trace value reached := by
  have operands : node.operands = node.args.take 1 := by
    rw [Node.operands, kind]
  have objects (scope : Scope) (color : Value) :
      env.machine.objection scope node [color] = lightObjection color := by
    rw [Machine.objection, kind]
    rfl
  apply operand_reads operands run
  intro operand middle more nextRun
  rw [objects]
  cases operand with
  | color color =>
      exact .inr ⟨rfl, issue_calls (by rw [Node.robotCall.eq_def, kind]) nextRun⟩
  | none => exact .inl ⟨_, rfl, nextRun⟩
  | integer _ => exact .inl ⟨_, rfl, nextRun⟩
  | boolean _ => exact .inl ⟨_, rfl, nextRun⟩

theorem command_reads (form : node.form = .command) {fuel : Nat}
    (run : Performs (evalInner env eval fuel node) state trace value reached) :
    ReadsFirst env eval node (Calls node) state trace value reached := by
  have plain {call : RobotCommand} (operands : node.operands = [])
      (makes : node.robotCall [] = some call)
      (issueRun : Performs (issue node call) state trace value reached) :
      ReadsFirst env eval node (Calls node) state trace value reached := by
    have ends := issue_calls makes issueRun
    rw [← List.nil_append trace]
    apply ReadsFirst.read _ ends
    rw [operands]
    exact .read
  rw [Node.form] at form
  rw [evalInner] at run
  cases kind : node.kind with
  | drive =>
      rw [kind] at run
      exact drive_reads (.inl kind) run
  | backward =>
      rw [kind] at run
      exact drive_reads (.inr kind) run
  | turnLeft =>
      rw [kind] at run
      exact turn_reads (.inl kind) run
  | turnRight =>
      rw [kind] at run
      exact turn_reads (.inr kind) run
  | wait =>
      rw [kind] at run
      exact wait_reads kind run
  | light =>
      rw [kind] at run
      exact light_reads kind run
  | stop =>
      rw [kind] at run
      exact plain (by rw [Node.operands, kind]) (by rw [Node.robotCall.eq_def, kind]) run
  | beep =>
      rw [kind] at run
      exact plain (by rw [Node.operands, kind]) (by rw [Node.robotCall.eq_def, kind]) run
  | booleanOp =>
      rw [kind] at form
      dsimp only at form
      split at form <;> cases form
  | _ =>
      rw [kind] at form
      cases form

/-! ## Values -/

theorem arithmeticObjection_snoc (op : String) (values : List Value) (value : Value) :
    arithmeticObjection op (values ++ [value]) =
      match value with
      | .integer operand =>
          if values ≠ [] ∧ dividesBy op = true ∧ operand = 0 then some "division by zero" else none
      | _ => some "arithmetic operands must be integers" := by
  rw [arithmeticObjection, List.getLast?_concat]
  cases value with
  | integer operand =>
      rw [List.length_append, List.length_singleton]
      simp [List.length_pos_iff]
  | _ => rfl

/-- The loop over the operands of an arithmetic expression. -/
theorem arithmetic_gathers (kind : node.kind = .arithmetic) (rest : List Node)
    (operands : List Int64) {accumulator : Int64}
    (folded : env.machine.fold node.op operands = some accumulator)
    (run : Performs (arithmeticLoop env eval node rest operands accumulator) state trace value
      reached) :
    Gathers env eval node (operands.map .integer) rest state trace none reached ∨
      ∃ first ending numbers result, trace = first ++ ending ∧ ending.Shows [] ∧
        env.machine.fold node.op numbers = some result ∧ value = .integer result ∧
        Gathers env eval node (operands.map .integer) rest state first
          (some (numbers.map .integer)) reached := by
  have objects (scope : Scope) (operands : List Int64) (operand : Value) :
      env.machine.objection scope node (operands.map .integer ++ [operand]) =
        match operand with
        | .integer operand =>
            if operands ≠ [] ∧ dividesBy node.op = true ∧ operand = 0 then some "division by zero"
            else none
        | _ => some "arithmetic operands must be integers" := by
    rw [Machine.objection, kind]
    simp only [arithmeticObjection_snoc, ne_eq, List.map_eq_nil_iff]
  induction rest generalizing state trace operands accumulator with
  | nil =>
      rcases performs_afterMark.mp run with ⟨nothing, pureRun, rfl⟩
      rcases performs_pure.mp pureRun with ⟨rfl, rfl, rfl⟩
      refine .inr ⟨[], _, operands, _, rfl, ⟨rfl, ?_⟩, folded, rfl, .read⟩
      simp [Action.Traps]
  | cons arg rest induction =>
      cases performs_body run with
      | halted head stopped => exact .inl (.halt head stopped)
      | @went first operand middle more _ _ head going nextRun =>
          cases operand with
          | none => exact .inl (.objects head going (objects _ _ _) nextRun)
          | boolean _ => exact .inl (.objects head going (objects _ _ _) nextRun)
          | color _ => exact .inl (.objects head going (objects _ _ _) nextRun)
          | integer operand =>
              have snoc : operands.map Value.integer ++ [.integer operand] =
                  (operands ++ [operand]).map .integer := by
                rw [List.map_append]
                rfl
              -- What is left of the loop, behind the marks it leaves for this operand.
              have continues {marks : List Mark} {tail : Trace} {next : Int64}
                  (fine : ¬ (operands ≠ [] ∧ dividesBy node.op = true ∧ operand = 0))
                  (result : env.machine.fold node.op (operands ++ [operand]) = some next)
                  (traps : Trace.Traps (marks.map .mark) →
                    operands ≠ [] ∧ TrapsOn node.op accumulator operand)
                  (tailRun : Performs
                    (arithmeticLoop env eval node rest (operands ++ [operand]) next) middle tail
                    value reached) :
                  Gathers env eval node (operands.map .integer) (arg :: rest) state
                      (first ++ marks.map .mark ++ tail) none reached ∨
                    ∃ front ending numbers result,
                      first ++ marks.map .mark ++ tail = front ++ ending ∧ ending.Shows [] ∧
                      env.machine.fold node.op numbers = some result ∧ value = .integer result ∧
                      Gathers env eval node (operands.map .integer) (arg :: rest) state front
                        (some (numbers.map .integer)) reached := by
                have objection := (objects middle.scope operands (.integer operand)).trans
                  (if_neg fine)
                have combines : env.machine.Combines node
                    (operands.map .integer ++ [.integer operand]) := by
                  rw [snoc]
                  exact combines_of_fold result
                have trapping (marked : Trace.Traps (marks.map .mark)) :
                    env.machine.TrapsAt node (operands.map .integer ++ [.integer operand]) :=
                  ⟨kind, operands, accumulator, operand, (traps marked).1, snoc, folded,
                    (traps marked).2⟩
                rcases induction (operands ++ [operand]) result tailRun with
                  cut | ⟨front, ending, numbers, total, rfl, silent, sum, ends, gathers⟩
                · apply Or.inl
                  apply Gathers.next marks head going objection combines trapping
                  rw [snoc]
                  exact cut
                · refine .inr ⟨first ++ marks.map .mark ++ front, ending, numbers, total, ?_,
                    silent, sum, ends, ?_⟩
                  · rw [List.append_assoc, List.append_assoc, List.append_assoc]
                  · apply Gathers.next marks head going objection combines trapping
                    rw [snoc]
                    exact gathers
              dsimp only at nextRun
              split at nextRun
              next isFirst =>
                rw [List.isEmpty_iff] at isFirst
                subst isFirst
                have ends := @continues [] more operand (by simp) rfl
                  (fun traps => absurd traps untrapped_nil) nextRun
                rwa [show ([] : List Mark).map Action.mark = [] from rfl, List.append_nil] at ends
              next notFirst =>
                rw [List.isEmpty_iff] at notFirst
                split at nextRun
                next zero =>
                  simp only [Bool.and_eq_true, decide_eq_true_eq] at zero
                  exact .inl (.objects head going
                    ((objects _ _ _).trans (if_pos ⟨notFirst, zero⟩)) nextRun)
                next fine =>
                  simp only [Bool.and_eq_true, decide_eq_true_eq] at fine
                  rcases performs_afterCombine.mp nextRun with
                    ⟨result, marked, operates, combinedRun, rfl⟩
                  rcases performs_afterMark.mp combinedRun with ⟨tail, tailRun, rfl⟩
                  have total : env.machine.fold node.op (operands ++ [operand]) = some result := by
                    rw [fold_snoc notFirst, folded]
                    exact operates
                  have ends := @continues
                    [.combining node.op operands accumulator operand,
                      .combined node.op (operands ++ [operand]) result] tail _
                    (fun bad => fine bad.2) total (fun traps => ⟨notFirst, by
                      simpa [Action.Traps] using traps⟩) tailRun
                  rwa [List.map_cons, List.map_singleton, List.append_assoc, List.cons_append,
                    List.singleton_append] at ends

/-- Two operands are read before either is looked at. -/
theorem compare_reads (kind : node.kind = .compare)
    (run : Performs (evalCompare eval node) state trace value reached) :
    ReadsFirst env eval node (Computes env node) state trace value reached := by
  have operands : node.operands = node.args.take 2 := by
    rw [Node.operands, kind]
  have objects (scope : Scope) (values : List Value) :
      env.machine.objection scope node values = compareObjection values := by
    rw [Machine.objection, kind]
  rcases performs_withArg.mp run with ⟨leftArg, found, run⟩
  rw [take_two_cons found] at operands
  cases performs_body run with
  | halted head stopped =>
      apply ReadsFirst.refused
      rw [operands]
      exact .halt head stopped
  | @went front left middle more _ _ head going nextRun =>
      rcases performs_withArg.mp nextRun with ⟨rightArg, foundNext, run⟩
      rw [← take_two_cons found, take_two found foundNext] at operands
      have fine : env.machine.objection middle.scope node [left] = none := by
        rw [objects]
        cases left <;> rfl
      cases performs_body run with
      | halted next stopped =>
          apply ReadsFirst.refused
          rw [operands]
          exact .goOn head going fine (combines_single _) (.halt next stopped)
      | @went between right after last _ _ next goesOn lastRun =>
          have refused (objection : compareObjection [left, right] =
                some "comparison operands must be integers")
              (failRun : Performs (fail node "comparison operands must be integers") after last
                value reached) :
              ReadsFirst env eval node (Computes env node) state (front ++ (between ++ last)) value
                reached := by
            apply ReadsFirst.refused
            rw [operands]
            exact .goOn head going fine (combines_single _)
              (.objects next goesOn ((objects _ _).trans objection) failRun)
          cases left with
          | integer x =>
              cases right with
              | integer y =>
                  rcases performs_pure.mp lastRun with ⟨rfl, rfl, rfl⟩
                  rw [← List.append_assoc]
                  apply @ReadsFirst.read _ _ _ _ _ _ [.integer x, .integer y]
                  · rw [operands]
                    apply Gathers.goOn head going fine (combines_single _)
                    rw [← List.append_nil between]
                    exact .goOn next goesOn (objects _ _)
                      (combines_of_other (by rw [kind]; decide) _) .read
                  · refine ⟨?_, shows_nil, rfl⟩
                    rw [Machine.valueOf.eq_def, kind]
              | none => exact refused rfl lastRun
              | boolean _ => exact refused rfl lastRun
              | color _ => exact refused rfl lastRun
          | none => exact refused rfl lastRun
          | boolean _ => exact refused rfl lastRun
          | color _ => exact refused rfl lastRun

theorem arithmetic_reads (kind : node.kind = .arithmetic)
    (run : Performs (arithmeticLoop env eval node node.args [] 0) state trace value reached) :
    ReadsFirst env eval node (Computes env node) state trace value reached := by
  have operands : node.operands = node.args := by
    rw [Node.operands, kind]
  rcases arithmetic_gathers kind node.args [] rfl run with
    cut | ⟨first, ending, numbers, result, rfl, silent, sum, rfl, gathers⟩
  · apply ReadsFirst.refused
    rw [operands]
    exact cut
  · apply ReadsFirst.read
    · rw [operands]
      exact gathers
    · refine ⟨?_, silent, rfl⟩
      rw [Machine.valueOf.eq_def, kind]
      dsimp only
      rw [integersOf_map, Option.bind_some, sum, Option.map_some]

theorem not_reads (kind : node.kind = .booleanOp) (negates : node.op = "not")
    (run : Performs (evalBoolean eval node) state trace value reached) :
    ReadsFirst env eval node (Computes env node) state trace value reached := by
  rw [evalBoolean, if_pos negates] at run
  have operands : node.operands = node.args.take 1 := by
    rw [Node.operands, kind]
    exact if_pos negates
  apply operand_reads operands run
  intro operand middle more nextRun
  rcases performs_pure.mp nextRun with ⟨rfl, rfl, rfl⟩
  refine .inr ⟨?_, ?_, shows_nil, rfl⟩
  · rw [Machine.objection, kind]
  · rw [Machine.valueOf.eq_def, kind]

/-- An expression without operands. -/
theorem plain_reads (operands : node.operands = [])
    (computes : env.machine.valueOf state.scope node [] = some value)
    (quiet : trace = []) (still : reached = state) :
    ReadsFirst env eval node (Computes env node) state trace value reached := by
  rw [← List.nil_append trace]
  apply @ReadsFirst.read _ _ _ _ _ _ []
  · rw [operands]
    exact .read
  · rw [quiet]
    exact ⟨computes, shows_nil, still⟩

theorem value_reads {fuel : Nat} (form : node.form = .value)
    (fine : env.machine.objection state.scope node [] = none)
    (run : Performs (evalInner env eval fuel node) state trace value reached) :
    ReadsFirst env eval node (Computes env node) state trace value reached := by
  have literal {result : Value} (operands : node.operands = [])
      (computes : env.machine.valueOf state.scope node [] = some result)
      (literalRun : Performs (pure result : Exec Value) state trace value reached) :
      ReadsFirst env eval node (Computes env node) state trace value reached := by
    rcases performs_pure.mp literalRun with ⟨quiet, rfl, still⟩
    exact plain_reads operands computes quiet still
  rw [evalInner] at run
  cases kind : node.kind with
  | defineFunc =>
      rw [kind] at run
      exact literal (by rw [Node.operands, kind]) (by rw [Machine.valueOf.eq_def, kind]) run
  | varRef =>
      rw [kind] at run
      dsimp only at run
      rw [evalVarRef, performs_withState] at run
      rw [Machine.objection, kind] at fine
      dsimp only at fine
      rw [scope_find] at fine
      cases found : state.find node.op with
      | none =>
          rw [found] at fine
          cases fine
      | some held =>
          rw [found] at run
          apply literal (by rw [Node.operands, kind]) _ run
          simp only [Machine.valueOf.eq_def, kind, scope_find, found]
  | compare =>
      rw [kind] at run
      exact compare_reads kind run
  | arithmetic =>
      rw [kind] at run
      exact arithmetic_reads kind run
  | booleanOp =>
      rw [kind] at run
      rw [Node.form, kind] at form
      dsimp only at form
      split at form
      next negates => exact not_reads kind negates run
      next => cases form
  | integerLiteral =>
      rw [kind] at run
      exact literal (by rw [Node.operands, kind]) (by rw [Machine.valueOf.eq_def, kind]) run
  | booleanLiteral =>
      rw [kind] at run
      exact literal (by rw [Node.operands, kind]) (by rw [Machine.valueOf.eq_def, kind]) run
  | colorLiteral =>
      rw [kind] at run
      exact literal (by rw [Node.operands, kind]) (by rw [Machine.valueOf.eq_def, kind]) run
  | _ =>
      rw [Node.form, kind] at form
      cases form

/-- An expression that fails before it reads anything. -/
theorem inner_objects {fuel : Nat} {message : String}
    (objection : env.machine.objection state.scope node [] = some message)
    (run : Performs (evalInner env eval fuel node) state trace value reached) :
    Performs (fail node message) state trace value reached := by
  rw [evalInner] at run
  cases kind : node.kind with
  | varRef =>
      rw [kind] at run
      dsimp only at run
      rw [evalVarRef, performs_withState] at run
      rw [Machine.objection, kind] at objection
      dsimp only at objection
      rw [scope_find] at objection
      cases found : state.find node.op with
      | none =>
          rw [found] at objection run
          cases objection
          exact run
      | some held =>
          rw [found] at objection
          cases objection
  | call =>
      rw [kind] at run
      dsimp only at run
      rw [callFunction] at run
      rw [Machine.objection, kind] at objection
      dsimp only at objection
      split at objection
      next missing =>
        cases found : env.functions node.op with
        | none =>
            rw [found] at run
            cases objection
            exact run
        | some function =>
            rw [show env.machine.functions node.op = some function from found] at missing
            cases missing
      next => cases objection
  | _ =>
      rw [Machine.objection, kind] at objection
      cases objection

end Forms

end CardCode
