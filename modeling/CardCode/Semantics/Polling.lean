import CardCode.Semantics.Steps

/-! # Polls between calls

The cancel flag is polled on entry to `eval` only, while a command calls the robot
after its arguments. An argument that is an integer or a color comes from a leaf
that was polled after every earlier call, so a poll stands between any two calls;
and the checks on the arguments bound what the robot is told.
-/

namespace CardCode

open Process

/-- The speeds, angles and durations the robot may be told. -/
def RobotCommand.InBounds : RobotCommand → Prop
  | .driveForward speed durationMs | .driveBackward speed durationMs =>
      (0 ≤ speed.toInt ∧ speed.toInt ≤ 100) ∧ 0 ≤ durationMs.toInt ∧ durationMs.toInt ≤ 10000
  | .turnLeft degrees | .turnRight degrees => 0 ≤ degrees.toInt ∧ degrees.toInt ≤ 3600
  | .waitMs durationMs => 0 ≤ durationMs.toInt ∧ durationMs.toInt ≤ 10000
  | .stop | .setLight _ | .beep => True

/-- Whether the flag has been polled since the last call of a node; nothing where a
call was made before the flag was polled again. -/
def polledSince : Bool → Trace → Option Bool
  | polled, [] => some polled
  | _, .poll _ :: rest => polledSince true rest
  | polled, .command _ (some _) :: rest => if polled then polledSince false rest else none
  | polled, _ :: rest => polledSince polled rest

theorem polledSince_append (polled : Bool) (first second : Trace) :
    polledSince polled (first ++ second) =
      (polledSince polled first).bind fun middle => polledSince middle second := by
  induction first generalizing polled with
  | nil => rfl
  | cons entry first induction =>
      cases entry with
      | poll seen => exact induction true
      | command call issuer =>
          cases issuer with
          | none => exact induction polled
          | some node =>
              rw [List.cons_append, polledSince, polledSince]
              cases polled with
              | true => exact induction false
              | false => rfl
      | emit | emitProgram | sensor | mark => exact induction polled

/-- From `polled` to `after` along the trace, every call on the way in its bounds. -/
structure Orderly (env : Env) (polled : Bool) (trace : Trace) (after : Bool) : Prop where
  bounds : ∀ call issuer, .command call (some issuer) ∈ trace → call.InBounds
  polls : env.cancellable = true → polledSince polled trace = some after

section Rules

variable {env : Env} {polled middle after : Bool} {first second trace : Trace}

theorem Orderly.nil : Orderly env polled [] polled :=
  ⟨fun _ _ member => absurd member List.not_mem_nil, fun _ => rfl⟩

theorem Orderly.append (head : Orderly env polled first middle)
    (tail : Orderly env middle second after) : Orderly env polled (first ++ second) after := by
  constructor
  · intro call issuer member
    rcases List.mem_append.mp member with member | member
    · exact head.bounds call issuer member
    · exact tail.bounds call issuer member
  · intro cancellable
    rw [polledSince_append, head.polls cancellable]
    exact tail.polls cancellable

/-- Entries that are neither polls nor calls of a node. -/
def Action.isQuiet : Action → Bool
  | .poll _ | .command _ (some _) => false
  | _ => true

theorem Orderly.quiet {entry : Action} (quiet : entry.isQuiet = true) :
    Orderly env polled [entry] polled := by
  constructor
  · intro call issuer member
    rw [← List.mem_singleton.mp member] at quiet
    cases quiet
  · intro _
    cases entry with
    | poll => cases quiet
    | command call issuer =>
        cases issuer with
        | none => rfl
        | some => cases quiet
    | emit | emitProgram | sensor | mark => rfl

theorem Orderly.cons {entry : Action} (quiet : entry.isQuiet = true)
    (rest : Orderly env polled trace after) : Orderly env polled (entry :: trace) after :=
  (Orderly.quiet quiet).append rest

theorem Orderly.command {call : RobotCommand} {issuer : Node} (bounds : call.InBounds) :
    Orderly env true [.command call (some issuer)] false := by
  constructor
  · intro other node member
    cases List.mem_singleton.mp member
    exact bounds
  · exact fun _ => rfl

end Rules

/-! ## Evaluators -/

/-- The values a command can take as an argument. -/
def Value.feeds : Value → Bool
  | .integer _ | .color _ => true
  | _ => false

/-- The trace is orderly from `polled` on and ends after a poll, if that is asked for. -/
def Tame (env : Env) (polled : Bool) (trace : Trace) (settled : Bool) : Prop :=
  ∃ after, Orderly env polled trace after ∧ (settled = true → after = true)

/-- An argument is settled by a poll. -/
def TameEval (env : Env) (eval : Eval) : Prop :=
  ∀ polled node state trace value reached,
    Performs (eval node) state trace value reached → Tame env polled trace value.feeds

section Work

variable {env : Env} {eval : Eval} {node : Node} {polled : Bool}
variable {state reached : ExecState} {trace : Trace} {value : Value}

theorem Orderly.tame {settled after : Bool} (orderly : Orderly env polled trace after)
    (ends : settled = true → after = true) : Tame env polled trace settled :=
  ⟨after, orderly, ends⟩

theorem Tame.prepend {settled middle : Bool} {first : Trace}
    (head : Orderly env polled first middle) (tame : Tame env middle trace settled) :
    Tame env polled (first ++ trace) settled := by
  rcases tame with ⟨after, orderly, ends⟩
  exact ⟨after, head.append orderly, ends⟩

/-- Two orderly pieces, the first of which settles nothing. -/
theorem Tame.follow {first rest : Trace} {settled : Bool} (head : Tame env polled first false)
    (tail : ∀ polled, Tame env polled rest settled) :
    Tame env polled (first ++ rest) settled := by
  rcases head with ⟨between, orderly, -⟩
  exact .prepend orderly (tail between)

theorem pure_tame {α : Type} {constant result : α} {settled : Bool}
    (run : Performs (pure constant : Exec α) state trace result reached)
    (ends : settled = true → polled = true) : Tame env polled trace settled := by
  rcases performs_pure.mp run with ⟨rfl, -, rfl⟩
  exact Orderly.nil.tame ends

/-- Values that are no arguments need no poll. -/
theorem plain_tame {constant : Value} (plain : constant.feeds = false)
    (run : Performs (pure constant : Exec Value) state trace value reached) :
    Tame env polled trace value.feeds := by
  rcases performs_pure.mp run with ⟨rfl, rfl, rfl⟩
  exact Orderly.nil.tame (by simp [plain])

theorem complaint_tame (message : String) :
    Tame env polled [.emit .nodeError node message] Value.none.feeds :=
  (Orderly.quiet rfl).tame (by simp [Value.feeds])

theorem fail_tame {message : String}
    (run : Performs (fail node message) state trace value reached) :
    Tame env polled trace value.feeds := by
  rcases performs_fail.mp run with ⟨rfl, rfl, rfl⟩
  exact complaint_tame message

theorem issue_tame {call : RobotCommand}
    (run : Performs (issue node call) state trace value reached) (bounds : call.InBounds) :
    Tame env true trace value.feeds := by
  rcases performs_issue.mp run with ⟨rfl, rfl, rfl⟩
  exact (Orderly.command bounds).tame (by simp [Value.feeds])

/-- Every evaluator shape `eval part; if stopping then ... else next`. What is returned
early is settled only where the value of the part is an argument. -/
theorem partThen_tame {part : Node} {α : Type} {halt : Value → α} {next : Value → Exec α}
    {result : α} (settles : α → Bool) (tame : TameEval env eval)
    (halts : ∀ value, settles (halt value) = true → value.feeds = true)
    (run : Performs (do
        let value ← eval part
        if ← stopping then pure (halt value) else next value)
      state trace result reached)
    (tail : ∀ polled value middle rest, (value.feeds = true → polled = true) →
      middle.stopping = false → Performs (next value) middle rest result reached →
      Tame env polled rest (settles result)) :
    Tame env polled trace (settles result) := by
  cases performs_body run with
  | halted headRun _ =>
      rcases tame polled _ _ _ _ _ headRun with ⟨between, head, ends⟩
      exact head.tame fun settled => ends (halts _ settled)
  | went headRun going restRun =>
      rcases tame polled _ _ _ _ _ headRun with ⟨between, head, ends⟩
      exact .prepend head (tail between _ _ _ ends going restRun)

/-- The same for evaluators that return no value early. -/
theorem valueThen_tame {part : Node} {next : Value → Exec Value} (tame : TameEval env eval)
    (run : Performs (do
        let value ← eval part
        if ← stopping then pure .none else next value)
      state trace value reached)
    (tail : ∀ polled held middle rest, (held.feeds = true → polled = true) →
      Performs (next held) middle rest value reached → Tame env polled rest value.feeds) :
    Tame env polled trace value.feeds := by
  apply partThen_tame Value.feeds tame (by simp [Value.feeds]) run
  intro polled held middle rest settled _ restRun
  exact tail polled held middle rest settled restRun

/-! ### Loops -/

theorem evalChildren_tame (tame : TameEval env eval) (nodes : List Node) {result : Unit}
    (run : Performs (evalChildren eval nodes) state trace result reached) :
    Tame env polled trace false := by
  induction nodes generalizing state trace polled with
  | nil => exact pure_tame run (by simp)
  | cons child rest induction =>
      apply partThen_tame (fun _ => false) tame (by simp) run
      intro _ _ _ _ _ _ restRun
      exact induction restRun

theorem evalSequence_tame (tame : TameEval env eval) (nodes : List Node) {last : Value}
    (settled : last.feeds = true → polled = true)
    (run : Performs (evalSequence eval nodes last) state trace value reached) :
    Tame env polled trace value.feeds := by
  induction nodes generalizing state trace last polled with
  | nil =>
      rcases performs_pure.mp run with ⟨rfl, rfl, rfl⟩
      exact Orderly.nil.tame settled
  | cons child rest induction =>
      apply valueThen_tame tame run
      intro _ _ _ _ settled restRun
      exact induction settled restRun

theorem evalBody_tame (tame : TameEval env eval) (nodes : List Node) {last : Value}
    (settled : last.feeds = true → polled = true)
    (run : Performs (evalBody eval nodes last) state trace value reached) :
    Tame env polled trace value.feeds := by
  induction nodes generalizing state trace last polled with
  | nil =>
      rcases performs_pure.mp run with ⟨rfl, rfl, rfl⟩
      exact Orderly.nil.tame settled
  | cons child rest induction =>
      apply partThen_tame Value.feeds tame (fun _ => id) run
      intro _ _ _ _ settled _ restRun
      exact induction settled restRun

theorem skipChildren_orderly (nodes : List Node) {result : Unit}
    (run : Performs (skipChildren nodes) state trace result reached) :
    Orderly env polled trace polled := by
  induction nodes generalizing trace with
  | nil =>
      rcases performs_pure.mp run with ⟨rfl, -, rfl⟩
      exact .nil
  | cons child rest induction =>
      rcases performs_afterSkipped.mp run with ⟨tail, restRun, rfl⟩
      exact .cons rfl (induction restRun)

theorem evalArguments_tame (tame : TameEval env eval) (nodes : List Node) {values : List Value}
    {result : Option (List Value)}
    (run : Performs (evalArguments eval nodes values) state trace result reached) :
    Tame env polled trace false := by
  induction nodes generalizing state trace values polled with
  | nil => exact pure_tame run (by simp)
  | cons arg rest induction =>
      apply partThen_tame (fun _ => false) tame (by simp) run
      intro _ _ _ _ _ _ restRun
      exact induction restRun

/-- The body of a loop, then what follows it unless the run is stopping. -/
theorem bodyThen_tame {next : Exec Value} (tame : TameEval env eval)
    (run : Performs (do
        evalChildren eval node.children
        if ← stopping then pure .none else next)
      state trace value reached)
    (tail : ∀ polled middle rest, Performs next middle rest value reached →
      Tame env polled rest value.feeds) :
    Tame env polled trace value.feeds := by
  cases performs_body run with
  | halted bodyRun _ =>
      rcases evalChildren_tame tame node.children bodyRun with ⟨between, body, -⟩
      exact body.tame (by simp [Value.feeds])
  | went bodyRun _ restRun =>
      have body : Tame env polled _ false := evalChildren_tame tame node.children bodyRun
      exact body.follow fun polled => tail polled _ _ restRun

theorem repeatLoop_tame (tame : TameEval env eval) (remaining index : Nat)
    (run : Performs (repeatLoop eval node remaining index) state trace value reached) :
    Tame env polled trace value.feeds := by
  induction remaining generalizing state trace index polled with
  | zero => exact plain_tame rfl run
  | succ remaining induction =>
      rcases performs_afterMark.mp run with ⟨tail, roundRun, rfl⟩
      apply Tame.prepend (.quiet rfl)
      exact bodyThen_tame tame roundRun fun _ _ _ againRun => induction (index + 1) againRun

theorem whileLoop_tame (tame : TameEval env eval) (fuel : Nat)
    (run : Performs (whileLoop env eval node fuel) state trace value reached) :
    Tame env polled trace value.feeds := by
  induction fuel generalizing state trace polled with
  | zero => exact absurd run performs_abort
  | succ fuel induction =>
      rw [whileLoop, performs_withState] at run
      split at run
      · exact fail_tame run
      · rw [performs_afterModify] at run
        rcases performs_afterMark.mp run with ⟨tail, iterationRun, rfl⟩
        rcases performs_withArg.mp iterationRun with ⟨condition, -, conditionRun⟩
        refine .prepend (.quiet rfl) (valueThen_tame tame conditionRun ?_)
        intro polled held middle rest _ bodyRun
        split at bodyRun
        · exact plain_tame rfl bodyRun
        · exact bodyThen_tame tame bodyRun fun _ _ _ againRun => induction againRun

theorem booleanLoop_tame (tame : TameEval env eval) (isAnd : Bool) (nodes : List Node)
    (run : Performs (booleanLoop eval isAnd nodes) state trace value reached) :
    Tame env polled trace value.feeds := by
  induction nodes generalizing state trace polled with
  | nil => exact plain_tame rfl run
  | cons arg rest induction =>
      apply valueThen_tame tame run
      intro _ held _ _ _ restRun
      split at restRun
      · exact plain_tame rfl restRun
      · split at restRun
        · exact plain_tame rfl restRun
        · exact induction restRun

theorem arithmeticLoop_tame (tame : TameEval env eval) (nodes : List Node)
    {operands : List Int64} {accumulator : Int64} (fresh : polled = true)
    (run : Performs (arithmeticLoop env eval node nodes operands accumulator)
      state trace value reached) :
    Tame env polled trace value.feeds := by
  induction nodes generalizing state trace operands accumulator polled with
  | nil =>
      rcases performs_afterMark.mp run with ⟨tail, endRun, rfl⟩
      exact .prepend (.quiet rfl) (pure_tame endRun fun _ => fresh)
  | cons arg rest induction =>
      apply valueThen_tame tame run
      intro polled held middle tail settled restRun
      cases held with
      | integer operand =>
          have fresh : polled = true := settled rfl
          dsimp only at restRun
          split at restRun
          · exact induction fresh restRun
          · split at restRun
            · exact fail_tame restRun
            · rcases performs_afterCombine.mp restRun with ⟨_, marked, -, markedRun, rfl⟩
              rcases performs_afterMark.mp markedRun with ⟨others, loopRun, rfl⟩
              exact .prepend (.quiet rfl) (.prepend (.quiet rfl) (induction fresh loopRun))
      | none => exact fail_tame restRun
      | boolean _ => exact fail_tame restRun
      | color _ => exact fail_tame restRun

/-! ### Node kinds -/

/-- An integer argument, then the rest of the node, with a poll after every call the
argument made. -/
theorem intThen_tame {part : Node} {what : String} {next : Int64 → Exec Value}
    (tame : TameEval env eval)
    (run : Performs (do
        match ← evalInt eval part node what with
        | none => pure .none
        | some number => next number)
      state trace value reached)
    (tail : ∀ number middle rest, Performs (next number) middle rest value reached →
      Tame env true rest value.feeds) :
    Tame env polled trace value.feeds := by
  cases performs_withInteger run with
  | halted headRun _ =>
      rcases tame polled _ _ _ _ _ headRun with ⟨between, head, -⟩
      exact head.tame (by simp [Value.feeds])
  | refused headRun _ =>
      rcases tame polled _ _ _ _ _ headRun with ⟨between, head, -⟩
      exact .prepend head (complaint_tame _)
  | read headRun _ restRun =>
      rcases tame polled _ _ _ _ _ headRun with ⟨between, head, ends⟩
      rw [ends rfl] at head
      exact .prepend head (tail _ _ _ restRun)

theorem callFunction_tame (tame : TameEval env eval)
    (run : Performs (callFunction env eval node) state trace value reached) :
    Tame env polled trace value.feeds := by
  rw [callFunction] at run
  split at run
  · exact fail_tame run
  · rcases performs_bind.mp run with ⟨first, found, middle, rest, argsRun, restRun, rfl⟩
    refine .follow (evalArguments_tame tame node.args argsRun) ?_
    intro polled
    cases found with
    | none => exact plain_tame rfl restRun
    | some values =>
        rw [performs_withState] at restRun
        split at restRun
        · exact fail_tame restRun
        · rcases performs_afterMark.mp restRun with ⟨tail, enteredRun, rfl⟩
          rw [performs_afterModify] at enteredRun
          rcases performs_bind.mp enteredRun with
            ⟨body, result, final, last, bodyRun, lastRun, rfl⟩
          rw [performs_afterModify] at lastRun
          rcases performs_afterMark.mp lastRun with ⟨nothing, endRun, rfl⟩
          rcases performs_pure.mp endRun with ⟨rfl, rfl, rfl⟩
          rcases evalBody_tame tame _ (by simp [Value.feeds]) bodyRun with ⟨after, orderly, ends⟩
          exact .prepend (.quiet rfl) ⟨after, orderly.append (.quiet rfl), ends⟩

theorem evalRepeat_tame (tame : TameEval env eval)
    (run : Performs (evalRepeat env eval node) state trace value reached) :
    Tame env polled trace value.feeds := by
  rcases performs_withArg.mp run with ⟨arg, -, argRun⟩
  apply intThen_tame tame argRun
  intro count middle rest countRun
  split at countRun
  · exact fail_tame countRun
  · split at countRun
    · exact fail_tame countRun
    · exact repeatLoop_tame tame _ 0 countRun

theorem evalWhen_tame (tame : TameEval env eval)
    (run : Performs (evalWhen eval node) state trace value reached) :
    Tame env polled trace value.feeds := by
  rcases performs_withArg.mp run with ⟨arg, -, argRun⟩
  apply valueThen_tame tame argRun
  intro polled condition middle rest _ restRun
  split at restRun
  · exact evalSequence_tame tame node.children (by simp [Value.feeds]) restRun
  · rcases performs_bind.mp restRun with ⟨skips, _, final, last, skipRun, endRun, rfl⟩
    exact .prepend (skipChildren_orderly node.children skipRun) (plain_tame rfl endRun)

theorem evalIf_tame (tame : TameEval env eval)
    (run : Performs (evalIf eval node) state trace value reached) :
    Tame env polled trace value.feeds := by
  rcases performs_withArg.mp run with ⟨arg, -, argRun⟩
  apply valueThen_tame tame argRun
  intro polled condition middle rest _ restRun
  rcases performs_withArg.mp restRun with ⟨skipped, -, skipRun⟩
  rcases performs_afterSkipped.mp skipRun with ⟨tail, takenRun, rfl⟩
  rcases performs_withArg.mp takenRun with ⟨taken, -, takenRun⟩
  exact .prepend (.quiet rfl) (tame _ _ _ _ _ _ takenRun)

theorem evalDefineVar_tame (tame : TameEval env eval)
    (run : Performs (evalDefineVar eval node) state trace value reached) :
    Tame env polled trace value.feeds := by
  rcases performs_withArg.mp run with ⟨arg, -, argRun⟩
  apply valueThen_tame tame argRun
  intro polled held middle rest settled restRun
  rw [performs_afterModify] at restRun
  rcases performs_pure.mp restRun with ⟨rfl, rfl, rfl⟩
  exact Orderly.nil.tame settled

theorem evalSetVar_tame (tame : TameEval env eval)
    (run : Performs (evalSetVar eval node) state trace value reached) :
    Tame env polled trace value.feeds := by
  rcases performs_withArg.mp run with ⟨arg, -, argRun⟩
  apply valueThen_tame tame argRun
  intro polled held middle rest settled restRun
  rw [performs_withState] at restRun
  split at restRun
  · exact fail_tame restRun
  · rw [performs_afterModify] at restRun
    rcases performs_pure.mp restRun with ⟨rfl, rfl, rfl⟩
    exact Orderly.nil.tame settled

theorem evalVarRef_tame (run : Performs (evalVarRef node) state trace value reached) :
    Tame env true trace value.feeds := by
  rw [evalVarRef, performs_withState] at run
  split at run
  · exact fail_tame run
  · exact pure_tame run fun _ => rfl

theorem evalCompare_tame (tame : TameEval env eval)
    (run : Performs (evalCompare eval node) state trace value reached) :
    Tame env polled trace value.feeds := by
  rcases performs_withArg.mp run with ⟨arg, -, argRun⟩
  apply valueThen_tame tame argRun
  intro polled left middle rest _ restRun
  rcases performs_withArg.mp restRun with ⟨arg, -, argRun⟩
  apply valueThen_tame tame argRun
  intro polled right final last _ lastRun
  split at lastRun
  · exact plain_tame rfl lastRun
  · exact fail_tame lastRun

theorem evalBoolean_tame (tame : TameEval env eval)
    (run : Performs (evalBoolean eval node) state trace value reached) :
    Tame env polled trace value.feeds := by
  rw [evalBoolean] at run
  split at run
  · rcases performs_withArg.mp run with ⟨arg, -, argRun⟩
    apply valueThen_tame tame argRun
    intro polled held middle rest _ restRun
    exact plain_tame rfl restRun
  · exact booleanLoop_tame tame _ node.args run

/-! ### Commands -/

/-- An argument in a small range keeps its value when it is narrowed. -/
theorem narrowed {number bound : Int64} (small : bound.toInt ≤ 10000)
    (inside : ¬(number < 0 || number > bound) = true) :
    0 ≤ number.toInt32.toInt ∧ number.toInt32.toInt ≤ bound.toInt := by
  simp only [Bool.or_eq_true, decide_eq_true_eq, not_or, Int64.lt_iff_toInt_lt, not_lt] at inside
  have low : 0 ≤ number.toInt := inside.1
  have high : number.toInt ≤ bound.toInt := inside.2
  have kept : number.toInt32.toInt = number.toInt := by
    rw [Int64.toInt_toInt32]
    exact Int.bmod_eq_of_le (by omega) (by omega)
  rw [kept]
  exact ⟨low, high⟩

theorem evalDrive_tame (tame : TameEval env eval)
    (run : Performs (evalDrive eval node) state trace value reached) :
    Tame env polled trace value.feeds := by
  rcases performs_withArg.mp run with ⟨arg, -, argRun⟩
  apply intThen_tame tame argRun
  intro speed middle rest restRun
  rcases performs_withArg.mp restRun with ⟨arg, -, argRun⟩
  apply intThen_tame tame argRun
  intro duration final last lastRun
  split at lastRun
  · exact fail_tame lastRun
  next slow =>
    split at lastRun
    · exact fail_tame lastRun
    next short =>
      have bounds := And.intro (narrowed (by decide) slow) (narrowed (by decide) short)
      split at lastRun
      · exact issue_tame lastRun bounds
      · exact issue_tame lastRun bounds

theorem evalTurn_tame (tame : TameEval env eval)
    (run : Performs (evalTurn eval node) state trace value reached) :
    Tame env polled trace value.feeds := by
  rcases performs_withArg.mp run with ⟨arg, -, argRun⟩
  apply intThen_tame tame argRun
  intro degrees middle rest restRun
  split at restRun
  · exact fail_tame restRun
  next inside =>
    have bounds := narrowed (by decide) inside
    split at restRun
    · exact issue_tame restRun bounds
    · exact issue_tame restRun bounds

theorem evalWait_tame (tame : TameEval env eval)
    (run : Performs (evalWait eval node) state trace value reached) :
    Tame env polled trace value.feeds := by
  rcases performs_withArg.mp run with ⟨arg, -, argRun⟩
  apply intThen_tame tame argRun
  intro duration middle rest restRun
  split at restRun
  · exact fail_tame restRun
  next inside => exact issue_tame restRun (narrowed (by decide) inside)

theorem evalLight_tame (tame : TameEval env eval)
    (run : Performs (evalLight eval node) state trace value reached) :
    Tame env polled trace value.feeds := by
  rcases performs_withArg.mp run with ⟨arg, -, argRun⟩
  apply valueThen_tame tame argRun
  intro polled held middle rest settled restRun
  cases held with
  | color shade =>
      rw [settled rfl]
      exact issue_tame restRun trivial
  | none => exact fail_tame restRun
  | integer _ => exact fail_tame restRun
  | boolean _ => exact fail_tame restRun

theorem readDistance_tame (run : Performs (readDistance node) state trace value reached) :
    Tame env true trace value.feeds := by
  rcases performs_readDistance.mp run with ⟨distance, rfl, -, rfl⟩
  exact (Orderly.quiet rfl).tame fun _ => rfl

theorem readFlag_tame {read : Exec Bool} (record : Bool → SensorReading)
    (reads : ∀ {before after trace flag}, Performs read before trace flag after ↔
      trace = [.sensor (record flag) node] ∧ after = before)
    (run : Performs (readFlag read) state trace value reached) :
    Tame env true trace value.feeds := by
  rcases (performs_readFlag reads).mp run with ⟨flag, rfl, -, rfl⟩
  exact (Orderly.quiet rfl).tame fun _ => rfl

/-- The work of a node that has just been polled for. -/
theorem evalInner_tame (tame : TameEval env eval) (fuel : Nat)
    (run : Performs (evalInner env eval fuel node) state trace value reached) :
    Tame env true trace value.feeds := by
  have constant {result : Value}
      (pureRun : Performs (pure result : Exec Value) state trace value reached) :
      Tame env true trace value.feeds := pure_tame pureRun fun _ => rfl
  rw [evalInner.eq_def] at run
  cases kind : node.kind <;> simp only [kind] at run
  case doForm => exact evalSequence_tame tame node.children (fun _ => rfl) run
  case repeatForm => exact evalRepeat_tame tame run
  case whenForm => exact evalWhen_tame tame run
  case ifForm => exact evalIf_tame tame run
  case whileForm => exact whileLoop_tame tame fuel run
  case defineVar => exact evalDefineVar_tame tame run
  case defineFunc => exact constant run
  case setVar => exact evalSetVar_tame tame run
  case varRef => exact evalVarRef_tame run
  case call => exact callFunction_tame tame run
  case drive => exact evalDrive_tame tame run
  case backward => exact evalDrive_tame tame run
  case turnLeft => exact evalTurn_tame tame run
  case turnRight => exact evalTurn_tame tame run
  case stop => exact issue_tame run trivial
  case wait => exact evalWait_tame tame run
  case light => exact evalLight_tame tame run
  case beep => exact issue_tame run trivial
  case distanceCm => exact readDistance_tame run
  case button => exact readFlag_tame .button performs_ask run
  case lineLeft => exact readFlag_tame .lineLeft performs_ask run
  case lineRight => exact readFlag_tame .lineRight performs_ask run
  case compare => exact evalCompare_tame tame run
  case booleanOp => exact evalBoolean_tame tame run
  case arithmetic => exact arithmeticLoop_tame tame node.args rfl run
  case integerLiteral => exact constant run
  case booleanLiteral => exact constant run
  case colorLiteral => exact constant run

end Work

theorem eval_tame (env : Env) (fuel : Nat) : TameEval env (eval env fuel) := by
  induction fuel with
  | zero => exact fun _ _ _ _ _ _ run => absurd run performs_abort
  | succ fuel induction =>
      intro polled node state trace value reached run
      rw [eval, performs_unlessStopping] at run
      split at run
      · exact plain_tame rfl run
      · rcases performs_bind.mp run with ⟨poll, flag, middle, rest, pollRun, restRun, rfl⟩
        rcases performs_pollCancel.mp pollRun with ⟨rfl, entries⟩
        -- Where no flag was passed, nothing is asked about polls.
        have fresh : Orderly env polled poll true := by
          split at entries
          next cancellable =>
            rw [entries]
            refine ⟨?_, fun _ => rfl⟩
            intro call issuer member
            cases List.mem_singleton.mp member
          next fixed =>
            rw [entries.1]
            exact ⟨fun _ _ member => absurd member List.not_mem_nil,
              fun cancellable => absurd cancellable fixed⟩
        refine .prepend fresh ?_
        split at restRun
        · rw [performs_afterModify] at restRun
          exact plain_tame rfl restRun
        · split at restRun
          · rw [performs_withState] at restRun
            split at restRun
            · exact fail_tame restRun
            · rw [performs_afterModify] at restRun
              rcases performs_afterEmit.mp restRun with ⟨tail, startedRun, rfl⟩
              rcases performs_bind.mp startedRun with
                ⟨inner, result, final, last, innerRun, lastRun, rfl⟩
              rcases evalInner_tame induction fuel innerRun with ⟨after, orderly, ends⟩
              refine .prepend (.quiet rfl) (.prepend orderly ?_)
              rw [performs_unlessStopping] at lastRun
              split at lastRun
              · rcases performs_pure.mp lastRun with ⟨rfl, rfl, rfl⟩
                exact Orderly.nil.tame ends
              · rcases performs_afterEmit.mp lastRun with ⟨nothing, endRun, rfl⟩
                rcases performs_pure.mp endRun with ⟨rfl, rfl, rfl⟩
                exact (Orderly.quiet rfl).tame ends
          · exact evalInner_tame induction fuel restRun

end CardCode
