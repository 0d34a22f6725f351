import CardCode.Compilation.Elaboration
import CardCode.Semantics.Steps

/-! # Literal and computed numbers

The bounds of a command's numbers are written twice: the compiler checks a literal, the
interpreter what an argument is computed to. Both admit the same numbers, but for the
count of `repeat`, which the compiler holds against a constant and the interpreter
against the limit it is given.
-/

namespace CardCode

open Process

theorem engine_faithful (query : Query) : Function.Injective (engineInterface.record query) := by
  intro first second same
  cases query <;> cases same <;> rfl

/-! ## Places -/

/-- The argument positions that hold a number within bounds. -/
inductive NumericPlace where
  | driveSpeed
  | driveDuration
  | backwardSpeed
  | backwardDuration
  | turnLeft
  | turnRight
  | wait
  | repeatCount
  deriving Repr, DecidableEq

namespace NumericPlace

def op : NumericPlace → String
  | driveSpeed | driveDuration => "drive"
  | backwardSpeed | backwardDuration => "backward"
  | turnLeft => "turn-left"
  | turnRight => "turn-right"
  | wait => "wait"
  | repeatCount => "repeat"

def index : NumericPlace → Nat
  | driveDuration | backwardDuration => 1
  | _ => 0

/-- The kind of the node a form with this place becomes. -/
def kind : NumericPlace → NodeKind
  | driveSpeed | driveDuration => .drive
  | backwardSpeed | backwardDuration => .backward
  | turnLeft => .turnLeft
  | turnRight => .turnRight
  | wait => .wait
  | repeatCount => .repeatForm

/-- How many arguments that node has. -/
def count : NumericPlace → Nat
  | driveSpeed | driveDuration | backwardSpeed | backwardDuration => 2
  | _ => 1

/-- The messages of the compiler for a literal out of bounds. -/
def literalMessages : NumericPlace → List String
  | driveSpeed | backwardSpeed => ["speed must be between 0 and 100"]
  | driveDuration | backwardDuration | wait => ["duration_ms must be between 0 and 10000"]
  | turnLeft | turnRight => ["degrees must be between 0 and 3600"]
  | repeatCount =>
      ["repeat count must not be negative", "repeat count must be between 0 and 100"]

/-- The messages of the interpreter for a computed number out of bounds. -/
def computedMessages : NumericPlace → List String
  | repeatCount => ["repeat count must not be negative", "repeat count exceeds limit"]
  | place => place.literalMessages

/-- The greatest literal the compiler admits. -/
def literalMax : NumericPlace → Nat
  | driveSpeed | backwardSpeed | repeatCount => 100
  | driveDuration | backwardDuration | wait => 10000
  | turnLeft | turnRight => 3600

/-- The greatest computed number the interpreter admits. -/
def computedMax (limits : ExecutionLimits) : NumericPlace → Nat
  | repeatCount => limits.maxRepeatCount.toNat
  | place => place.literalMax

end NumericPlace

/-- The number is negative or above the bound. -/
def OutOfRange (bound : Nat) (number : Int64) : Prop :=
  number.toInt < 0 ∨ (bound : Int) < number.toInt

/-- A form of the source with a hole where a number belongs. -/
structure NumericForm where
  place : NumericPlace
  arity : ArityTable
  topLevel : Bool
  span : SourceSpan
  headSpan : SourceSpan
  before : List RawExpr
  after : List RawExpr
  positioned : before.length = place.index

namespace NumericForm

variable (form : NumericForm)

def raw (argument : RawExpr) : RawExpr :=
  .list form.span
    (.symbol form.headSpan form.place.op :: (form.before ++ argument :: form.after))

def compiled (argument : RawExpr) : Compile (Option Node) :=
  compileExpr form.arity (form.raw argument) form.topLevel

/-- With the literal in the hole, the compiler reports a number out of range there. -/
def Reports (span : SourceSpan) (number : Int64) : Prop :=
  ∃ message ∈ form.place.literalMessages,
    ⟨.error, span, message⟩ ∈ (form.compiled (.integer span number)).diagnostics

end NumericForm

/-! ## Literals -/

/-- The check of the compiler on a place. -/
def NumericPlace.check (place : NumericPlace) (operand : Operand) : Compile Unit :=
  match place with
  | .driveSpeed | .backwardSpeed =>
      litCheck operand speedMin speedMax "speed must be between 0 and 100"
  | .driveDuration | .backwardDuration =>
      litCheck operand 0 durationMax
        ("duration_ms must be between 0 and " ++ toString durationMax.toInt)
  | .turnLeft | .turnRight =>
      litCheck operand 0 turnMax ("degrees must be between 0 and " ++ toString turnMax.toInt)
  | .wait =>
      litCheck operand 0 waitMax ("duration_ms must be between 0 and " ++ toString waitMax.toInt)
  | .repeatCount => repeatCheck operand

theorem outside_iff {number high : Int64} {bound : Nat} (same : high.toInt = bound) :
    (number < 0 || number > high) = true ↔ OutOfRange bound number := by
  have zero : (0 : Int64).toInt = 0 := by decide
  rw [OutOfRange, Bool.or_eq_true, decide_eq_true_eq, decide_eq_true_eq, gt_iff_lt,
    Int64.lt_iff_toInt_lt, Int64.lt_iff_toInt_lt, zero, same]

theorem litCheck_reports {span : SourceSpan} {number : Int64} {compiled : Compile (Option Node)}
    {high : Int64} {bound : Nat} {message : String} (same : high.toInt = bound) :
    ⟨.error, span, message⟩ ∈
        (litCheck ⟨.integer span number, compiled⟩ 0 high message).diagnostics ↔
      OutOfRange bound number := by
  rw [litCheck, ← outside_iff same]
  dsimp only
  split
  next out => exact iff_of_true List.mem_cons_self out
  next inside => exact iff_of_false (fun member => nomatch member) inside

theorem check_reports (place : NumericPlace) {span : SourceSpan} {number : Int64}
    {compiled : Compile (Option Node)} :
    (∃ message ∈ place.literalMessages,
      ⟨.error, span, message⟩ ∈ (place.check ⟨.integer span number, compiled⟩).diagnostics) ↔
      OutOfRange place.literalMax number := by
  have single (message : String) {high : Int64} {bound : Nat} (same : high.toInt = bound) :
      (∃ listed ∈ [message], ⟨.error, span, listed⟩ ∈
        (litCheck ⟨.integer span number, compiled⟩ 0 high message).diagnostics) ↔
        OutOfRange bound number := by
    rw [← @litCheck_reports span number compiled high bound message same]
    simp
  cases place with
  | driveSpeed | backwardSpeed => exact single "speed must be between 0 and 100" (by decide)
  | driveDuration | backwardDuration | wait =>
      exact single "duration_ms must be between 0 and 10000" (by decide)
  | turnLeft | turnRight => exact single "degrees must be between 0 and 3600" (by decide)
  | repeatCount =>
      have most : repeatMax.toInt = 100 := by decide
      have zero : (0 : Int64).toInt = 0 := by decide
      rw [NumericPlace.check, repeatCheck, OutOfRange]
      dsimp only
      split
      next negative =>
        rw [Int64.lt_iff_toInt_lt, zero] at negative
        exact iff_of_true ⟨_, List.mem_cons_self, List.mem_cons_self⟩ (.inl negative)
      next natural =>
        rw [Int64.lt_iff_toInt_lt, zero] at natural
        split
        next large =>
          rw [gt_iff_lt, Int64.lt_iff_toInt_lt, most] at large
          refine iff_of_true ⟨"repeat count must be between 0 and 100", ?_, ?_⟩ (.inr large)
          · exact List.mem_cons_of_mem _ List.mem_cons_self
          · exact List.mem_singleton.mpr rfl
        next small =>
          rw [gt_iff_lt, Int64.lt_iff_toInt_lt, most] at small
          exact iff_of_false (by simp) (by simp [NumericPlace.literalMax]; omega)

theorem no_error {diagnostics : List Diagnostic} (clean : hasErrors diagnostics = false)
    {span : SourceSpan} {message : String} : ⟨.error, span, message⟩ ∉ diagnostics := by
  intro member
  have failed : hasErrors diagnostics = true :=
    List.any_eq_true.mpr ⟨_, member, rfl⟩
  rw [clean] at failed
  cases failed

theorem operandsOf_length (arity : ArityTable) (items : List RawExpr) :
    (operandsOf arity items).length = items.length := by
  rw [← List.length_map Operand.raw, map_raw_operandsOf]

theorem compileForm_command {arity : ArityTable} {span headSpan : SourceSpan} {op : String}
    {operands : List Operand} {topLevel : Bool} (command : isCommand op = true) :
    compileForm arity span headSpan op operands topLevel = compileCommand span op operands := by
  simp only [isCommand, Bool.or_eq_true, decide_eq_true_eq] at command
  rcases command with ((((((rfl | rfl) | rfl) | rfl) | rfl) | rfl) | rfl) | rfl
  all_goals simp [compileForm, isCommand]

/-- An accepted command has as many operands as it wants, and says nothing but what its
checks and its operands say. -/
theorem compileCommand_diagnostics {span : SourceSpan} {op : String} {operands : List Operand}
    (count : operands.length = (commandKind op).2) :
    (compileCommand span op operands).diagnostics =
      (commandChecks (commandKind op).1 operands).diagnostics ++
        (compileOperands operands).diagnostics := by
  rw [compileCommand, if_neg (not_not.mpr count)]
  simp [keepIf]

theorem compileCommand_count {span : SourceSpan} {op : String} {operands : List Operand}
    (clean : (compileCommand span op operands).Clean) :
    operands.length = (commandKind op).2 := by
  by_contra wrong
  rw [compileCommand, if_pos wrong] at clean
  exact clean_reject _ _ clean

/-- What an accepted form reports about a literal in its hole is what the check reports. -/
theorem NumericForm.literal_member {form : NumericForm} {argument : RawExpr}
    (accepted : (form.compiled argument).Clean) {span place : SourceSpan} {number : Int64}
    {message : String} :
    ⟨.error, place, message⟩ ∈ (form.compiled (.integer span number)).diagnostics ↔
      ⟨.error, place, message⟩ ∈ (form.place.check
        ⟨.integer span number, compileExpr form.arity (.integer span number) false⟩
        ).diagnostics := by
  rcases form with ⟨hole, arity, topLevel, formSpan, headSpan, before, after, positioned⟩
  by_cases block : hole = .repeatCount
  · subst block
    have first : before = [] := List.length_eq_zero_iff.mp positioned
    subst first
    simp [compiled, raw, NumericPlace.op, NumericPlace.check, compileExpr, operandsOf, compileForm,
      compileBlock, compileOperands, Compile.Clean, keepIf] at accepted ⊢
    intro member
    exact absurd member (no_error accepted.2.2)
  have command : isCommand hole.op = true := by
    cases hole <;> first | rfl | exact absurd rfl block
  have command_eq (filler : RawExpr) :
      compiled ⟨hole, arity, topLevel, formSpan, headSpan, before, after, positioned⟩ filler =
        compileCommand formSpan hole.op (operandsOf arity (before ++ filler :: after)) := by
    rw [compiled, raw, compileExpr, compileForm_command command]
  rw [command_eq] at accepted ⊢
  have count := compileCommand_count accepted
  have sameCount : (operandsOf arity (before ++ .integer span number :: after)).length =
      (operandsOf arity (before ++ argument :: after)).length := by
    simp [operandsOf_length]
  rw [compileCommand_diagnostics (sameCount.trans count)]
  rw [Compile.Clean, compileCommand_diagnostics count] at accepted
  rw [operandsOf_length, List.length_append, List.length_cons, positioned] at count
  have arguments : hole.index + (after.length + 1) = (commandKind hole.op).2 := count
  cases hole with
  | repeatCount => exact absurd rfl block
  | driveSpeed | backwardSpeed =>
      have first : before = [] := List.length_eq_zero_iff.mp positioned
      have single : after.length = 1 := Nat.succ.inj ((Nat.zero_add _).symm.trans arguments)
      rcases List.length_eq_one_iff.mp single with ⟨duration, rfl⟩
      subst first
      simp [NumericPlace.op, NumericPlace.check, commandKind, commandChecks, operandsOf,
        compileOperands, compileExpr] at accepted ⊢
      rcases accepted with ⟨_, checked, _, clean⟩
      simp [no_error checked, no_error clean]
  | driveDuration | backwardDuration =>
      have last : after = [] :=
        List.length_eq_zero_iff.mp (Nat.succ.inj (Nat.add_left_cancel arguments))
      rcases List.length_eq_one_iff.mp positioned with ⟨speed, rfl⟩
      subst last
      simp [NumericPlace.op, NumericPlace.check, commandKind, commandChecks, operandsOf,
        compileOperands, compileExpr] at accepted ⊢
      rcases accepted with ⟨checked, _, clean, _⟩
      simp [no_error checked, no_error clean]
  | turnLeft | turnRight | wait =>
      have first : before = [] := List.length_eq_zero_iff.mp positioned
      have last : after = [] :=
        List.length_eq_zero_iff.mp (Nat.succ.inj ((Nat.zero_add _).symm.trans arguments))
      subst first last
      simp [NumericPlace.op, NumericPlace.check, commandKind, commandChecks, operandsOf,
        compileOperands, compileExpr]

/-- An accepted form reports a literal in its hole exactly if it is out of range. -/
theorem NumericForm.reports_iff {form : NumericForm} {argument : RawExpr}
    (accepted : (form.compiled argument).Clean) {span : SourceSpan} {number : Int64} :
    form.Reports span number ↔ OutOfRange form.place.literalMax number := by
  rw [NumericForm.Reports, ← @check_reports form.place span number
    (compileExpr form.arity (.integer span number) false)]
  simp only [form.literal_member accepted]

/-! ## Computed numbers -/

/-- The operands give these numbers, one after another, and nothing stops. -/
inductive Numbers (eval : Eval) :
    List Node → ExecState → Trace → List Int64 → ExecState → Prop
  | nil {state} : Numbers eval [] state [] [] state
  | cons {operand rest state first number middle later numbers reached} :
      Performs (eval operand) state first (.integer number) middle → middle.stopping = false →
      Numbers eval rest middle later numbers reached →
      Numbers eval (operand :: rest) state (first ++ later) (number :: numbers) reached

/-- A run of an accepted form whose arguments are computed, the one in the hole to
`number`, and what is left of the run from there. -/
structure NumericForm.ComputedRun (form : NumericForm) (env : Env) (number : Int64) where
  argument : RawExpr
  built : Node
  accepted : (form.compiled argument).Clean
  compiles : (form.compiled argument).value = some built
  next : UInt32
  fuel : Nat
  state : ExecState
  computing : Trace
  numbers : List Int64
  middle : ExecState
  computed : Numbers (eval env fuel) (built.assignPreorder next).1.args state computing numbers
    middle
  given : numbers[form.place.index]? = some number
  left : Trace
  value : Value
  reached : ExecState
  performs : Performs (evalInner env (eval env fuel) fuel (built.assignPreorder next).1) state
    (computing ++ left) value reached

/-- The run has stopped with one of these messages. -/
def Rejects (node : Node) (messages : List String) (middle : ExecState) (left : Trace)
    (reached : ExecState) : Prop :=
  ∃ message ∈ messages,
    left = [.emit .nodeError node message] ∧ reached = middle.failed node message

namespace NumericForm.ComputedRun

variable {form : NumericForm} {env : Env} {number : Int64} (run : form.ComputedRun env number)

def node : Node :=
  (run.built.assignPreorder run.next).1

/-- The run fails at once, with a report of the number. -/
def Fails : Prop :=
  Rejects run.node form.place.computedMessages run.middle run.left run.reached

/-- A speed before the place is in range, so that its check is reached. -/
def CheckReached : Prop :=
  ∀ speed, form.place.index = 1 → run.numbers.head? = some speed → ¬OutOfRange 100 speed

end NumericForm.ComputedRun

variable {env : Env} {fuel : Nat} {node : Node} {state middle reached : ExecState}
variable {first left computing : Trace} {value : Value} {number : Int64}

/-- What is left of a run once an integer it asks for is known. -/
theorem evalInt_rest {eval : Eval} {arg context : Node} {what : String}
    {next : Option Int64 → Exec Value}
    (computed : Performs (eval arg) state first (.integer number) middle)
    (running : middle.stopping = false)
    (run : Performs (evalInt eval arg context what >>= next) state (first ++ left) value reached) :
    Performs (next (some number)) middle left value reached := by
  have given : Performs (evalInt eval arg context what) state first (some number) middle := by
    rw [evalInt, performs_bind]
    refine ⟨first, .integer number, middle, [], computed, ?_, (List.append_nil first).symm⟩
    rw [performs_unlessStopping]
    simp [running]
  exact performs_rest engine_faithful given run

/-- What is left of a command once its only number is known. -/
theorem integer_rest {eval : Eval} {what : String} {given : Int64 → Exec Value}
    (computed : Numbers eval node.args state computing [number] middle)
    (run : Performs (do
      let arg ← argAt node 0
      match ← evalInt eval arg node what with
      | none => pure Value.none
      | some number => given number) state (computing ++ left) value reached) :
    Performs (given number) middle left value reached := by
  rcases performs_withArg.mp run with ⟨arg, found, argRun⟩
  generalize node.args = args at computed found
  cases computed with
  | cons gives running rest =>
      cases rest
      cases found
      rw [List.append_nil] at argRun
      have given := evalInt_rest gives running argRun
      exact given

theorem drive_rest {eval : Eval} {speed duration : Int64}
    (computed : Numbers eval node.args state computing [speed, duration] middle)
    (run : Performs (evalDrive eval node) state (computing ++ left) value reached) :
    Performs
      (if speed < 0 || speed > 100 then fail node "speed must be between 0 and 100"
      else if duration < 0 || duration > 10000 then
        fail node "duration_ms must be between 0 and 10000"
      else if node.kind = .drive then
        issue node (.driveForward speed.toInt32 duration.toInt32)
      else issue node (.driveBackward speed.toInt32 duration.toInt32))
      middle left value reached := by
  rw [evalDrive] at run
  rcases performs_withArg.mp run with ⟨speedArg, speedFound, speedRun⟩
  generalize shape : node.args = args at computed
  cases computed with
  | cons speedGives speedRunning computed =>
  cases computed with
  | cons durationGives durationRunning computed =>
  cases computed
  rw [shape] at speedFound
  cases speedFound
  rw [List.append_nil, List.append_assoc] at speedRun
  have durationRun := evalInt_rest speedGives speedRunning speedRun
  rcases performs_withArg.mp durationRun with ⟨durationArg, durationFound, durationRun⟩
  rw [shape] at durationFound
  cases durationFound
  have given := evalInt_rest durationGives durationRunning durationRun
  exact given

theorem operation_shape {arity : ArityTable} {span headSpan : SourceSpan} {op : String}
    {items : List RawExpr} {topLevel : Bool}
    (command : isCommand op = true)
    (elaborates : Elaborates arity (.list span (.symbol headSpan op :: items)) topLevel node) :
    node.kind = (commandKind op).1 ∧ node.args.length = (commandKind op).2 := by
  generalize built : RawExpr.list span (.symbol headSpan op :: items) = raw at elaborates
  cases elaborates with
  | integer | symbol => cases built
  | sequence =>
      cases built
      cases command
  | block known =>
      cases built
      simp only [isCommand, Bool.or_eq_true, decide_eq_true_eq] at command
      rcases command with ((((((rfl | rfl) | rfl) | rfl) | rfl) | rfl) | rfl) | rfl
      all_goals cases known
  | defineVar | defineFunc | setVar =>
      cases built
      cases command
  | operation _ _ _ _ allowed count =>
      cases built
      have plain : op ≠ "if" := by
        intro conditional
        subst conditional
        cases command
      rw [operationKind?, if_neg plain, if_pos command] at allowed
      split at allowed
      next wanted =>
        cases allowed
        exact ⟨rfl, count.symm.trans wanted⟩
      next => cases allowed

theorem block_shape {arity : ArityTable} {span headSpan : SourceSpan} {op : String}
    {kind : NodeKind} {items : List RawExpr} {topLevel : Bool} (known : blockKind? op = some kind)
    (elaborates : Elaborates arity (.list span (.symbol headSpan op :: items)) topLevel node) :
    node.kind = kind ∧ node.args.length = 1 := by
  generalize built : RawExpr.list span (.symbol headSpan op :: items) = raw at elaborates
  cases elaborates with
  | integer | symbol => cases built
  | sequence | defineVar | defineFunc | setVar =>
      cases built
      cases known
  | block found =>
      cases built
      cases found.symm.trans known
      exact ⟨rfl, rfl⟩
  | operation _ block =>
      cases built
      cases block.symm.trans known

theorem Numbers.length {eval : Eval} {operands : List Node} {numbers : List Int64}
    (computed : Numbers eval operands state computing numbers middle) :
    numbers.length = operands.length := by
  induction computed with
  | nil => rfl
  | cons _ _ _ induction => rw [List.length_cons, List.length_cons, induction]

/-! ## What a node is left to do -/

theorem exceeds_iff {limit : UInt32} {number : Int64} (natural : ¬number < 0) :
    limit.toNat < number.toInt.toNat ↔ OutOfRange limit.toNat number := by
  have zero : (0 : Int64).toInt = 0 := by decide
  rw [Int64.lt_iff_toInt_lt, zero] at natural
  rw [OutOfRange]
  omega

theorem rejects_iff {messages : List String} {message : String} {bad : Prop} [Decidable bad]
    {otherwise : Exec Value} (listed : message ∈ messages)
    (accepts : Performs otherwise middle left value reached →
      ¬Rejects node messages middle left reached)
    (run : Performs (if bad then fail node message else otherwise) middle left value reached) :
    Rejects node messages middle left reached ↔ bad := by
  split at run
  next found =>
    rcases performs_fail.mp run with ⟨said, _, failed⟩
    exact iff_of_true ⟨message, listed, said, failed⟩ found
  next free => exact iff_of_false (accepts run) free

theorem fail_accepts {messages : List String} {message : String} (unlisted : message ∉ messages)
    (run : Performs (fail node message) middle left value reached) :
    ¬Rejects node messages middle left reached := by
  rcases performs_fail.mp run with ⟨rfl, _, _⟩
  intro rejected
  rcases rejected with ⟨_, listed, same, _⟩
  cases same
  exact unlisted listed

theorem issue_accepts {messages : List String} {call : RobotCommand}
    (run : Performs (issue node call) middle left value reached) :
    ¬Rejects node messages middle left reached := by
  rcases performs_issue.mp run with ⟨rfl, _, _⟩
  intro rejected
  rcases rejected with ⟨_, _, same, _⟩
  cases same

theorem either_accepts {messages : List String} {test : Prop} [Decidable test]
    {call other : RobotCommand}
    (run : Performs (if test then issue node call else issue node other) middle left value
      reached) :
    ¬Rejects node messages middle left reached := by
  split at run
  next => exact issue_accepts run
  next => exact issue_accepts run

theorem repeatLoop_accepts {eval : Eval} {messages : List String} {remaining index : Nat}
    (run : Performs (repeatLoop eval node remaining index) middle left value reached) :
    ¬Rejects node messages middle left reached := by
  intro rejected
  rcases rejected with ⟨message, _, rfl, _⟩
  cases remaining with
  | zero => cases (performs_pure.mp run).1
  | succ remaining =>
      rcases performs_afterMark.mp run with ⟨_, _, same⟩
      cases same

/-! ## Runs of the form -/

namespace NumericForm.ComputedRun

variable {form : NumericForm} (run : form.ComputedRun env number)

theorem shape :
    run.node.kind = form.place.kind ∧ run.node.args.length = form.place.count := by
  rcases compileExpr_elaborates form.arity _ form.topLevel run.accepted with
    ⟨built, compiles, elaborates⟩
  cases run.compiles.symm.trans compiles
  have numbered := elaborates.numbered run.next
  rw [NumericForm.raw] at numbered
  cases block : form.place with
  | repeatCount =>
      rw [block] at numbered
      exact block_shape (by rfl) numbered
  | driveSpeed | driveDuration | backwardSpeed | backwardDuration | turnLeft | turnRight | wait =>
      rw [block] at numbered
      exact operation_shape (by rfl) numbered

theorem single (one : form.place.count = 1) : run.numbers = [number] := by
  have length := run.computed.length.trans (run.shape.2.trans one)
  rcases List.length_eq_one_iff.mp length with ⟨only, equal⟩
  have first : form.place.index = 0 := by
    cases place : form.place with
    | driveDuration | backwardDuration => rw [place] at one; cases one
    | _ => rfl
  have given := run.given
  rw [equal, first] at given
  cases given
  exact equal

theorem pair (two : form.place.count = 2) :
    ∃ speed duration, run.numbers = [speed, duration] :=
  List.length_eq_two.mp (run.computed.length.trans (run.shape.2.trans two))

theorem checkReached (first : form.place.index = 0) : run.CheckReached := by
  intro speed second
  rw [first] at second
  cases second

/-- The interpreter reports a computed number exactly if its check is reached and the number
is out of range. -/
theorem fails_iff :
    run.Fails ↔ run.CheckReached ∧ OutOfRange (form.place.computedMax env.limits) number := by
  have performed := run.performs
  have computed := run.computed
  change Performs (evalInner env (eval env run.fuel) run.fuel run.node) run.state
    (run.computing ++ run.left) run.value run.reached at performed
  change Numbers (eval env run.fuel) run.node.args run.state run.computing run.numbers run.middle
    at computed
  change Rejects run.node form.place.computedMessages run.middle run.left run.reached ↔ _
  have kind := run.shape.1
  cases place : form.place with
  | repeatCount =>
      rw [run.single (by rw [place]; rfl)] at computed
      rw [evalInner, kind, place] at performed
      rw [and_iff_right (run.checkReached (by rw [place]; rfl))]
      have rest := integer_rest computed performed
      by_cases negative : number < 0
      · rw [if_pos negative] at rest
        rcases performs_fail.mp rest with ⟨said, _, failed⟩
        have below := Int64.lt_iff_toInt_lt.mp negative
        exact iff_of_true ⟨_, List.mem_cons_self, said, failed⟩ (.inl below)
      · rw [if_neg negative] at rest
        have listed : "repeat count exceeds limit" ∈ NumericPlace.repeatCount.computedMessages :=
          List.mem_cons_of_mem _ List.mem_cons_self
        exact (rejects_iff listed repeatLoop_accepts rest).trans (exceeds_iff negative)
  | turnLeft | turnRight =>
      rw [run.single (by rw [place]; rfl)] at computed
      rw [evalInner, kind, place] at performed
      rw [and_iff_right (run.checkReached (by rw [place]; rfl))]
      have rest := integer_rest computed performed
      exact (rejects_iff List.mem_cons_self either_accepts rest).trans (outside_iff rfl)
  | wait =>
      rw [run.single (by rw [place]; rfl)] at computed
      rw [evalInner, kind, place] at performed
      rw [and_iff_right (run.checkReached (by rw [place]; rfl))]
      have rest := integer_rest computed performed
      exact (rejects_iff List.mem_cons_self issue_accepts rest).trans (outside_iff rfl)
  | driveSpeed | backwardSpeed =>
      rcases run.pair (by rw [place]; rfl) with ⟨speed, duration, equal⟩
      rw [equal] at computed
      have given := run.given
      rw [equal, place] at given
      cases given
      rw [evalInner, kind, place] at performed
      rw [and_iff_right (run.checkReached (by rw [place]; rfl))]
      have rest := drive_rest computed performed
      refine (rejects_iff List.mem_cons_self ?_ rest).trans (outside_iff rfl)
      intro slow
      split at slow
      next => exact fail_accepts (by decide) slow
      next => exact either_accepts slow
  | driveDuration | backwardDuration =>
      rcases run.pair (by rw [place]; rfl) with ⟨speed, duration, equal⟩
      rw [equal] at computed
      have given := run.given
      rw [equal, place] at given
      cases given
      rw [evalInner, kind, place] at performed
      have rest := drive_rest computed performed
      by_cases slow : OutOfRange 100 speed
      · rw [if_pos ((outside_iff rfl).mpr slow)] at rest
        refine iff_of_false (fail_accepts (by decide) rest) fun both => ?_
        exact both.1 speed (by rw [place]; rfl) (by rw [equal]; rfl) slow
      · have reached : run.CheckReached := by
          intro first _ found
          rw [equal] at found
          cases found
          exact slow
        have moderate : ¬(speed < 0 || speed > 100) = true :=
          fun bad => slow ((outside_iff rfl).mp bad)
        rw [and_iff_right reached]
        rw [if_neg moderate] at rest
        exact (rejects_iff List.mem_cons_self either_accepts rest).trans (outside_iff rfl)

end NumericForm.ComputedRun

/-! ## Both checks -/

/-- A literal is refused where a computed number of the same value is, in every place but
the count of `repeat`. There the two bounds have to lie on the same side of the number. The
interpreter gets to a duration only if the speed before it is in range. -/
theorem literal_and_computed {form : NumericForm} (run : form.ComputedRun env number)
    (span : SourceSpan) :
    (form.Reports span number ↔ OutOfRange form.place.literalMax number) ∧
      (run.Fails ↔
        run.CheckReached ∧ OutOfRange (form.place.computedMax env.limits) number) ∧
      ((form.Reports span number ↔ run.Fails) ↔
        (OutOfRange form.place.literalMax number → run.CheckReached) ∧
        (form.place = .repeatCount → number.toInt < 0 ∨
          (number.toInt ≤ 100 ↔ number.toInt ≤ env.limits.maxRepeatCount.toNat))) := by
  have literal := @NumericForm.reports_iff form run.argument run.accepted span number
  have computed := run.fails_iff
  refine ⟨literal, computed, ?_⟩
  rw [literal, computed]
  cases place : form.place with
  | repeatCount =>
      have arrives := run.checkReached (by rw [place]; rfl)
      simp only [NumericPlace.literalMax, NumericPlace.computedMax, OutOfRange, arrives,
        implies_true, true_and, true_imp_iff]
      omega
  | _ =>
      simp only [NumericPlace.literalMax, NumericPlace.computedMax, reduceCtorEq, false_imp_iff,
        and_true]
      exact iff_and_self

/-- The form `(drive x y)`, with the duration in its hole. -/
def drivenFar : NumericForm where
  place := .driveDuration
  arity := []
  topLevel := true
  span := {}
  headSpan := {}
  before := [.symbol {} "x"]
  after := []
  positioned := rfl

/-- The variables of that form: a speed in range and a duration that is not. -/
def farVars : Vars :=
  fun name => some (.integer (if name = "x" then 50 else 20000))

/-- The form run with them. -/
def farRun : drivenFar.ComputedRun
    { functions := fun _ => none, limits := {}, cancellable := false,
      overflow := fun _ _ _ => none } 20000 where
  argument := .symbol {} "y"
  built := { kind := .drive, span := {}, op := "drive",
             args := [{ kind := .varRef, span := {}, op := "x" },
                      { kind := .varRef, span := {}, op := "y" }] }
  accepted := by rfl
  compiles := by rfl
  next := 1
  fuel := 1
  state := { globals := farVars }
  computing := []
  numbers := [50, 20000]
  middle := { globals := farVars }
  computed := @Numbers.cons _ _ _ _ [] _ _ [] _ _ .done rfl
    (@Numbers.cons _ _ _ _ [] _ _ [] _ _ .done rfl .nil)
  given := rfl
  left := _
  value := _
  reached := _
  performs := .act .done

theorem far_drive : drivenFar.Reports {} 20000 ∧ farRun.Fails := by
  have far : OutOfRange 10000 20000 := .inr (by decide)
  have slow : farRun.CheckReached := by
    intro speed _ first
    cases first
    exact not_or.mpr ⟨by decide, by decide⟩
  rcases literal_and_computed farRun {} with ⟨literal, computed, -⟩
  exact ⟨literal.mpr far, computed.mpr ⟨slow, far⟩⟩

/-- The form `(repeat x (beep))`, with the count in its hole. -/
def repeatedBeep : NumericForm where
  place := .repeatCount
  arity := []
  topLevel := true
  span := {}
  headSpan := {}
  before := []
  after := [.list {} [.symbol {} "beep"]]
  positioned := rfl

/-- The form run where `x` is 50 and five repetitions are allowed. -/
def repeatedFifty : repeatedBeep.ComputedRun
    { functions := fun _ => none, limits := { maxRepeatCount := 5 }, cancellable := false,
      overflow := fun _ _ _ => none } 50 where
  argument := .symbol {} "x"
  built := { kind := .repeatForm, span := {}, op := "repeat",
             args := [{ kind := .varRef, span := {}, op := "x" }],
             children := [{ kind := .beep, span := {}, op := "beep" }] }
  accepted := by rfl
  compiles := by rfl
  next := 1
  fuel := 1
  state := { globals := fun _ => some (.integer 50) }
  computing := []
  numbers := [50]
  middle := { globals := fun _ => some (.integer 50) }
  computed := @Numbers.cons _ _ _ _ [] _ _ [] _ _ .done rfl .nil
  given := rfl
  left := _
  value := _
  reached := _
  performs := .act .done

theorem fifty_beeps_differ :
    ¬∀ (form : NumericForm) (env : Env) (number : Int64) (run : form.ComputedRun env number)
      (span : SourceSpan), form.Reports span number ↔ run.Fails := by
  intro always
  have failed : repeatedFifty.Fails :=
    repeatedFifty.fails_iff.mpr ⟨repeatedFifty.checkReached rfl, .inr (by decide)⟩
  have reported := (always repeatedBeep _ 50 repeatedFifty {}).mpr failed
  have out := (NumericForm.reports_iff repeatedFifty.accepted).mp reported
  exact absurd out (not_or.mpr (by decide))

end CardCode
