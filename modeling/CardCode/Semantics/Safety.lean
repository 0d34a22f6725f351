import CardCode.Semantics.NodeEvents
import CardCode.Semantics.Polling

/-! # What the robot is spared

However the arguments of a command are computed, the robot is told nothing out of
bounds, no more often than there are steps, and nothing more than one last call and
a stop once a cancellation is asked for.
-/

namespace CardCode

open Process

/-! ## Calls -/

/-- A call on the robot, the safety stop included. -/
def Action.isCall : Action → Bool
  | .command _ _ => true
  | _ => false

/-- A call that a command node makes. -/
def Action.isNodeCall : Action → Bool
  | .command _ (some _) => true
  | _ => false

def callsMade (trace : Trace) : Nat :=
  trace.countP Action.isCall

@[simp] theorem callsMade_append (first second : Trace) :
    callsMade (first ++ second) = callsMade first + callsMade second :=
  List.countP_append

theorem callsMade_polled (env : Env) : callsMade env.polled = 0 := by
  rw [Env.polled]
  split
  · rfl
  · rfl

theorem Issues.callsMade_le {node : Node} {calls : Trace} (issues : Issues node calls) :
    callsMade calls ≤ 1 := by
  cases issues with
  | nothing => exact Nat.zero_le 1
  | command => exact Nat.le_refl 1
  | sensor => exact Nat.zero_le 1

/-- Every call is paid for with the step of the node that makes it. -/
theorem Activity.callsMade_le {env : Env} {task : Task} {state reached : ExecState}
    {trace : Trace} (activity : Activity env task state trace reached) :
    callsMade trace ≤ stepsTaken trace := by
  have entered (node : Node) (trace : Trace) :
      stepsTaken (.emit .nodeStart node node.op :: trace) = stepsTaken trace + 1 ∧
        callsMade (.emit .nodeStart node node.op :: trace) = callsMade trace :=
    ⟨List.countP_cons_of_pos rfl, List.countP_cons_of_neg (by simp [Action.isCall])⟩
  have marked (point : Mark) (trace : Trace) :
      stepsTaken trace ≤ stepsTaken (.mark point :: trace) ∧
        callsMade (.mark point :: trace) = callsMade trace :=
    ⟨(List.sublist_cons_self _ _).countP_le, List.countP_cons_of_neg (by simp [Action.isCall])⟩
  induction activity with
  | stopped | cancelled | idle | store => exact Nat.zero_le _
  | complain | undefined | skip | iterate | round | prepare | combine | compute =>
      exact Nat.zero_le _
  | exhausted =>
      rw [callsMade_append, callsMade_polled]
      exact Nat.zero_le _
  | silent _ _ _ induction =>
      rw [callsMade_append, callsMade_polled, stepsTaken_append]
      omega
  | @interrupted node _ trace _ _ _ _ _ _ induction =>
      have start := entered node trace
      rw [callsMade_append, callsMade_polled, stepsTaken_append]
      omega
  | @completed node _ trace calls _ _ _ _ _ _ issues induction =>
      have start := entered node trace
      have issued := issues.callsMade_le
      have done : callsMade [.emit .nodeDone node node.op] = 0 := rfl
      simp only [callsMade_append, callsMade_polled, stepsTaken_append]
      omega
  | follow _ _ _ firstInduction restInduction =>
      rw [callsMade_append, stepsTaken_append]
      exact Nat.add_le_add firstInduction restInduction
  | part _ _ induction => exact induction
  | @call _ _ function values trace _ _ _ _ _ _ _ induction =>
      have into := marked (.enterCall function values) (trace ++ [.mark .exitCall])
      have left : callsMade [.mark .exitCall] = 0 := rfl
      rw [List.cons_append, into.2, callsMade_append, left]
      rw [stepsTaken_append] at into
      omega

/-! ## Rounds of a repeat -/

/-- `count` evaluations of a repeat's body, one after the other. -/
inductive Rounds (eval : Eval) (node : Node) : Nat → Nat → ExecState → Trace → ExecState → Prop
  | nil {index state} : Rounds eval node index 0 state [] state
  | cons {index count state body middle rest reached} :
      Performs (evalChildren eval node.children) state body () middle →
      Rounds eval node (index + 1) count middle rest reached →
      Rounds eval node index (count + 1) state
        (.mark (.repeatIteration index) :: body ++ rest) reached

/-- An evaluation of a repeat within a limit: the count, then a complaint about it
or that many rounds at most. -/
inductive Repeats (eval : Eval) (limit : Nat) (node : Node) :
    ExecState → Trace → ExecState → Prop
  | halted {state arg trace value reached} :
      node.args[0]? = some arg → Performs (eval arg) state trace value reached →
      reached.stopping = true → Repeats eval limit node state trace reached
  | refused {state arg first value middle message} :
      node.args[0]? = some arg → Performs (eval arg) state first value middle →
      Repeats eval limit node state (first ++ [.emit .nodeError node message])
        (middle.failed node message)
  | ran {state arg first number middle count rest reached} :
      node.args[0]? = some arg →
      Performs (eval arg) state first (.integer number) middle →
      count ≤ number.toInt.toNat → count ≤ limit →
      Rounds eval node 0 count middle rest reached →
      Repeats eval limit node state (first ++ rest) reached

section Work

variable {env : Env} {eval : Eval} {node : Node}
variable {state reached : ExecState} {trace : Trace} {value : Value}

theorem repeatLoop_rounds (remaining index : Nat)
    (run : Performs (repeatLoop eval node remaining index) state trace value reached) :
    ∃ count ≤ remaining, Rounds eval node index count state trace reached := by
  induction remaining generalizing state trace index with
  | zero =>
      rcases performs_pure.mp run with ⟨rfl, -, rfl⟩
      exact ⟨0, Nat.le_refl 0, .nil⟩
  | succ remaining induction =>
      rcases performs_afterMark.mp run with ⟨tail, roundRun, rfl⟩
      cases performs_body roundRun with
      | halted bodyRun _ =>
          have once := Rounds.cons bodyRun (@Rounds.nil eval node (index + 1) reached)
          rw [List.append_nil] at once
          exact ⟨1, Nat.succ_le_succ (Nat.zero_le _), once⟩
      | went bodyRun _ restRun =>
          rcases induction (index + 1) restRun with ⟨count, bounded, rounds⟩
          exact ⟨count + 1, Nat.succ_le_succ bounded, .cons bodyRun rounds⟩

theorem evalRepeat_repeats (run : Performs (evalRepeat env eval node) state trace value reached) :
    Repeats eval env.limits.maxRepeatCount.toNat node state trace reached := by
  rcases performs_withArg.mp run with ⟨arg, found, argRun⟩
  cases performs_withInteger argRun with
  | halted headRun stopped => exact .halted found headRun stopped
  | refused headRun _ => exact .refused found headRun
  | read headRun _ restRun =>
      split at restRun
      · rcases performs_fail.mp restRun with ⟨rfl, -, rfl⟩
        exact .refused found headRun
      · split at restRun
        · rcases performs_fail.mp restRun with ⟨rfl, -, rfl⟩
          exact .refused found headRun
        next within =>
          rcases repeatLoop_rounds _ 0 restRun with ⟨rounds, bounded, repeated⟩
          exact .ran found headRun bounded (by omega) repeated

end Work

/-! ## Colors -/

/-- A color literal holds the ordinal of one of the colors. -/
def Node.Tinted (node : Node) : Prop :=
  node.kind = .colorLiteral → ∃ color : Color, node.nums = [color.ordinal]

theorem kind_ne_colorLiteral_of_operationKind {arity : ArityTable} {op : String} {count : Nat}
    {kind : NodeKind} (allowed : operationKind? arity op count = some kind) :
    kind ≠ .colorLiteral := by
  rcases operationKind?_cases allowed with ⟨rfl, -⟩ | ⟨rfl, -⟩ | ⟨rfl, -⟩ | operator | ⟨rfl, -⟩
  · exact NodeKind.noConfusion
  · rw [commandKind]
    split_ifs <;> exact NodeKind.noConfusion
  · rw [sensorKind]
    split_ifs <;> exact NodeKind.noConfusion
  · rcases operatorKind?_cases operator with ⟨rfl, -⟩ | ⟨rfl, -⟩ | ⟨rfl, -⟩ <;>
      exact NodeKind.noConfusion
  · exact NodeKind.noConfusion

theorem Elaborates.tinted {arity : ArityTable} {raw : RawExpr} {topLevel : Bool} {node : Node}
    (elaborates : Elaborates arity raw topLevel node) : node.Tinted := by
  intro kind
  cases elaborates with
  | @symbol id span name =>
      rcases compileSymbol_cases span name with ⟨-, node⟩ | ⟨color, -, node⟩ | ⟨-, node⟩
      · rw [node] at kind
        cases kind
      · rw [node]
        exact ⟨color, rfl⟩
      · rw [node] at kind
        cases kind
  | block known =>
      rcases blockKind?_cases known with ⟨-, rfl⟩ | ⟨-, rfl⟩ | ⟨-, rfl⟩ <;> cases kind
  | operation _ _ _ _ allowed =>
      exact absurd kind (kind_ne_colorLiteral_of_operationKind allowed)
  | integer | sequence | defineVar | defineFunc | setVar => cases kind

theorem ElaboratesProgram.tinted {arity : ArityTable} {exprs : List RawExpr}
    {root node : Node} (elaborates : ElaboratesProgram arity exprs root)
    (within : Node.Within node root) : node.Tinted := by
  have below {raw : RawExpr} {top : Node} (elaborates : Elaborates arity raw true top)
      (within : Node.Within node top) : node.Tinted := by
    rcases elaborates.inner within with equal | ⟨other, inner⟩
    · rw [equal]
      exact elaborates.tinted
    · exact inner.tinted
  have sequence {id span items children} (all : ElaboratesAll arity true items children)
      (within : Node.Within node { id, kind := .doForm, span, op := "do", children }) :
      node.Tinted := by
    cases within with
    | self => exact fun kind => NodeKind.noConfusion kind
    | part member within =>
        rcases all.of_mem member with ⟨item, -, top⟩
        exact below top within
  cases elaborates with
  | explicit all => exact sequence all within
  | single _ top => exact below top within
  | implicit all => exact sequence all within

/-- In an accepted program the interpreter casts nothing else to a color. -/
theorem Program.tinted (program : Program) {node : Node}
    (within : Node.Within node program.root) : node.Tinted := by
  rcases program.elaborates with ⟨parsed, -, -, elaborates⟩
  exact elaborates.tinted within

/-! ## Bounds on a whole run -/

theorem Closes.callsMade_le {root : Node} {state : ExecState} {ending : Trace}
    {result : ExecutionResult} (closes : Closes root state ending result) :
    callsMade ending ≤ 1 := by
  cases closes with
  | cancelled => exact Nat.le_refl 1
  | errored => exact Nat.le_refl 1
  | done => exact Nat.zero_le 1

theorem executeBody_commands {env : Env} {fuel : Nat} {root : Node} {trace : Trace}
    {result : ExecutionResult} {state : ExecState}
    (run : Performs (executeBody env fuel root) {} trace result state) :
    (∀ call issuer, Action.command call issuer ∈ trace → call.InBounds) ∧
      callsMade trace ≤ env.limits.maxTotalSteps.toNat + 1 := by
  rcases executeBody_performs run with ⟨body, value, ending, bodyRun, closes, rfl⟩
  refine ⟨?_, ?_⟩
  · intro call issuer member
    cases issuer with
    | none =>
        rcases executeBody_leaves (inherited_true env) trivial run _ member with
          report | ⟨node, -, leaves⟩
        · cases report
          trivial
        · cases leaves with
          | issued issues issued => cases issues <;> simp at issued
    | some node =>
        rcases eval_tame _ _ false _ _ _ _ _ bodyRun with ⟨after, orderly, -⟩
        apply orderly.bounds call node
        rcases List.mem_append.mp member with member | member
        · rcases List.mem_cons.mp member with equal | member
          · cases equal
          · exact member
        · cases closes.isReport _ member
  · have activity := eval_activity _ _ _ _ _ _ _ bodyRun
    have steps : stepsTaken body ≤ env.limits.maxTotalSteps.toNat := by
      have counts := activity.counts
      have bounded := counts.bounded (Nat.zero_le _)
      have counted := counts.counted
      have zero : ({} : ExecState).steps.toNat = 0 := rfl
      omega
    have body := activity.callsMade_le
    have ending := closes.callsMade_le
    have start : callsMade [.emitProgram .programStart ""] = 0 := rfl
    rw [List.cons_append, ← List.singleton_append, callsMade_append, callsMade_append, start]
    omega

/-- What the robot is told over any run: speeds, angles and durations in their
bounds, colors that exist, one call a step and one stop at most, and no repeat that
goes round more often than the limit allows. -/
theorem Program.commands_bounded (program : Program) (setting : Setting) {trace : Trace}
    {outcome : Except Fault ExecutionResult}
    (run : Run (execute setting program.root) trace outcome) :
    (∀ call issuer, Action.command call issuer ∈ trace → call.InBounds) ∧
    (∀ node, Node.Within node program.root → node.Tinted) ∧
    callsMade trace ≤ setting.limits.maxTotalSteps.toNat + 1 ∧
    ∀ fuel node before inner value after, node.kind = .repeatForm →
      Performs (evalInner (program.env setting) (eval (program.env setting) fuel) fuel node)
        before inner value after →
      Repeats (eval (program.env setting) fuel) setting.limits.maxRepeatCount.toNat node
        before inner after := by
  rcases program.run_extends setting run with ⟨rest, result, state, performs, -⟩
  rcases executeBody_commands performs with ⟨inBounds, calls⟩
  refine ⟨?_, fun node within => program.tinted within, ?_, ?_⟩
  · exact fun call issuer member => inBounds call issuer (List.mem_append_left rest member)
  · rw [callsMade_append] at calls
    exact Nat.le_trans (Nat.le_add_right _ _) calls
  · intro fuel node before inner value after kind innerRun
    rw [evalInner.eq_def, kind] at innerRun
    exact evalRepeat_repeats innerRun

theorem dance_commands_bounded :
    (∀ call issuer, Action.command call issuer ∈ danceRun.1 → call.InBounds) ∧
    (∀ node, Node.Within node danceProgram.root → node.Tinted) ∧
    callsMade danceRun.1 ≤ calmSetting.limits.maxTotalSteps.toNat + 1 ∧
    ∀ fuel node before inner value after, node.kind = .repeatForm →
      Performs (evalInner (danceProgram.env calmSetting)
        (eval (danceProgram.env calmSetting) fuel) fuel node) before inner value after →
      Repeats (eval (danceProgram.env calmSetting) fuel)
        calmSetting.limits.maxRepeatCount.toNat node before inner after :=
  danceProgram.commands_bounded calmSetting (run_respond _ _ 0)

/-! ## Cancellation -/

/-- Between two calls of command nodes the flag was polled. -/
theorem polledSince_between {polled after : Bool} {before middle rest : Trace}
    {first second : RobotCommand} {firstNode secondNode : Node}
    (orderly : polledSince polled (before ++ .command first (some firstNode) :: middle ++
      .command second (some secondNode) :: rest) = some after) :
    ∃ seen, Action.poll seen ∈ middle := by
  have quiet (trace : Trace) (none : ∀ seen, Action.poll seen ∉ trace) (ended : Bool)
      (kept : polledSince false trace = some ended) : ended = false := by
    induction trace with
    | nil =>
        cases kept
        rfl
    | cons entry trace induction =>
        have tail : ∀ seen, Action.poll seen ∉ trace :=
          fun seen member => none seen (List.mem_cons_of_mem _ member)
        cases entry with
        | poll seen => exact absurd List.mem_cons_self (none seen)
        | command call issuer =>
            cases issuer with
            | none => exact induction tail kept
            | some node => cases kept
        | emit | emitProgram | sensor | mark => exact induction tail kept
  by_contra absent
  have none : ∀ seen, Action.poll seen ∉ middle :=
    fun seen member => absent ⟨seen, member⟩
  rw [polledSince_append, polledSince_append] at orderly
  rcases Option.bind_eq_some_iff.mp orderly with ⟨between, reached, last⟩
  rcases Option.bind_eq_some_iff.mp reached with ⟨start, -, called⟩
  rw [polledSince] at called
  split at called
  · rw [quiet middle none between called] at last
    cases last
  · cases called

/-- Where the flag is not polled there is room for one call at most. -/
theorem nodeCalls_le_one {polled after : Bool} {trace : Trace}
    (orderly : polledSince polled trace = some after)
    (none : ∀ seen, Action.poll seen ∉ trace) :
    trace.countP Action.isNodeCall ≤ if polled then 1 else 0 := by
  induction trace generalizing polled with
  | nil => exact Nat.zero_le _
  | cons entry trace induction =>
      have tail : ∀ seen, Action.poll seen ∉ trace :=
        fun seen member => none seen (List.mem_cons_of_mem _ member)
      cases entry with
      | poll seen => exact absurd List.mem_cons_self (none seen)
      | command call issuer =>
          cases issuer with
          | none => exact induction orderly tail
          | some node =>
              rw [polledSince] at orderly
              split at orderly
              next fresh =>
                have rest := induction orderly tail
                rw [List.countP_cons_of_pos rfl, fresh]
                exact Nat.succ_le_succ rest
              · cases orderly
      | emit | emitProgram | sensor | mark => exact induction orderly tail

theorem Trace.Calm.not_mem {trace : Trace} (calm : Trace.Calm trace) :
    Action.poll true ∉ trace := by
  intro member
  cases calm _ member

theorem Trace.Unwinds.not_mem {trace : Trace} (unwinds : Trace.Unwinds trace) :
    Action.poll true ∉ trace := by
  intro member
  cases unwinds _ member

/-- After a poll that saw the flag there is a stop and an error to report, and
nothing else. -/
theorem executeBody_after_cancel {env : Env} {fuel : Nat} {root : Node} {before after : Trace}
    {result : ExecutionResult} {state : ExecState}
    (run : Performs (executeBody env fuel root) {} (before ++ .poll true :: after) result state) :
    Trace.visible after =
        [.command .stop none, .emitProgram .programError "execution cancelled"] ∧
      result = ⟨false, some ⟨.error, root.span, "execution cancelled"⟩⟩ ∧
      ∀ entry ∈ after, ¬ entry.Traps := by
  rcases executeBody_activity run with ⟨body, ending, activity, closes, equal⟩
  have ended : Action.poll true ∉ ending := fun member => nomatch closes.isReport _ member
  have present : Action.poll true ∈ .emitProgram .programStart "" :: body ++ ending :=
    equal ▸ List.mem_append_right before List.mem_cons_self
  have inside : Action.poll true ∈ body := by
    rcases List.mem_append.mp present with member | member
    · rcases List.mem_cons.mp member with equal | member
      · cases equal
      · exact member
    · exact absurd member ended
  cases activity.outcome rfl with
  | going _ _ calm => exact absurd inside calm.not_mem
  | @stopped first alarm last _ raises calm _ unwinds =>
      cases raises with
      | error =>
          rcases List.mem_append.mp inside with member | member
          · exact absurd member calm.not_mem
          · rcases List.mem_cons.mp member with equal | member
            · cases equal
            · exact absurd member unwinds.not_mem
      | cancel cancelled =>
          have split : .emitProgram .programStart "" :: first ++ .poll true :: (last ++ ending) =
              before ++ .poll true :: after := by
            rw [equal]
            simp
          have early : Action.poll true ∉ .emitProgram .programStart "" :: first := by
            intro member
            rcases List.mem_cons.mp member with equal | member
            · cases equal
            · exact calm.not_mem member
          have late : Action.poll true ∉ last ++ ending := by
            intro member
            rcases List.mem_append.mp member with member | member
            · exact unwinds.not_mem member
            · exact ended member
          rw [List.append_cons_inj_of_notMem early late] at split
          have untrapped : ∀ entry ∈ last ++ ending, ¬ entry.Traps := by
            intro entry member
            rcases List.mem_append.mp member with member | member
            · rw [unwinds entry member]
              exact id
            · cases closes.isReport entry member <;> exact id
          rw [← split.2.2, visible_append, unwinds.visible, List.nil_append]
          cases closes with
          | cancelled => exact ⟨rfl, rfl, untrapped⟩
          | errored uncancelled => rw [cancelled] at uncancelled; cases uncancelled
          | done uncancelled => rw [cancelled] at uncancelled; cases uncancelled

/-- A run whose poll saw the flag is cancelled; no operation traps after that. -/
theorem Program.run_after_cancel (program : Program) (setting : Setting) {before after : Trace}
    {outcome : Except Fault ExecutionResult}
    (run : Run (execute setting program.root) (before ++ .poll true :: after) outcome) :
    Trace.visible after =
        [.command .stop none, .emitProgram .programError "execution cancelled"] ∧
      outcome = .ok ⟨false, some ⟨.error, program.root.span, "execution cancelled"⟩⟩ := by
  rcases program.run_extends setting run with ⟨rest, result, state, performs, ends⟩
  rw [List.append_assoc, List.cons_append] at performs
  rcases executeBody_after_cancel performs with ⟨silent, same, untrapped⟩
  rcases ends with ⟨rfl, rfl⟩ | ⟨-, front, entry, split, traps⟩
  · rw [List.append_nil] at silent
    exact ⟨silent, congrArg Except.ok same⟩
  · rcases List.eq_nil_or_concat after with rfl | ⟨early, last, rfl⟩
    · have same : [Action.poll true] = [entry] := (List.append_inj' split rfl).2
      cases same
      exact absurd traps id
    · rw [List.concat_eq_append, ← List.cons_append, ← List.append_assoc] at split
      have same : [last] = [entry] := (List.append_inj' split rfl).2
      cases same
      exact absurd traps (untrapped entry (by simp))

theorem countP_isNodeCall_visible (trace : Trace) :
    (Trace.visible trace).countP Action.isNodeCall = trace.countP Action.isNodeCall := by
  rw [Trace.visible, List.countP_filter]
  apply List.countP_congr
  intro entry _
  cases entry <;> simp [Action.isNodeCall, Action.isVisible]

/-- Cancellation of any run: between two calls of command nodes the flag is polled;
after the first poll that sees it the robot is stopped, the cancellation reported
and nothing else done; and once every poll sees it, one call is left at most. -/
theorem Program.cancelled_promptly (program : Program) (setting : Setting)
    (cancellable : setting.cancellable = true) {trace : Trace}
    {outcome : Except Fault ExecutionResult}
    (run : Run (execute setting program.root) trace outcome) :
    (∀ before middle after first second firstNode secondNode,
      trace = before ++ .command first (some firstNode) :: middle ++
        .command second (some secondNode) :: after →
      ∃ seen, Action.poll seen ∈ middle) ∧
    (∀ before after, trace = before ++ .poll true :: after →
      Trace.visible after =
          [.command .stop none, .emitProgram .programError "execution cancelled"] ∧
        outcome =
          .ok ⟨false, some ⟨.error, program.root.span, "execution cancelled"⟩⟩) ∧
    ∀ before after, trace = before ++ after →
      (∀ seen, Action.poll seen ∈ after → seen = true) →
      after.countP Action.isNodeCall ≤ 1 := by
  have polls : ∃ after, polledSince false trace = some after := by
    rcases program.run_extends setting run with ⟨rest, result, state, performs, -⟩
    rcases executeBody_performs performs with ⟨body, value, ending, bodyRun, closes, split⟩
    rcases eval_tame _ _ false _ _ _ _ _ bodyRun with ⟨after, orderly, -⟩
    have kept : polledSince after ending = some after := by
      cases closes <;> rfl
    have whole : polledSince false (trace ++ rest) = some after := by
      rw [split]
      change polledSince false (body ++ ending) = some after
      rw [polledSince_append, orderly.polls cancellable]
      exact kept
    rw [polledSince_append] at whole
    rcases Option.bind_eq_some_iff.mp whole with ⟨between, reached, -⟩
    exact ⟨between, reached⟩
  rcases polls with ⟨last, orderly⟩
  refine ⟨?_, ?_, ?_⟩
  · intro before middle after first second firstNode secondNode equal
    rw [equal] at orderly
    exact polledSince_between orderly
  · intro before after equal
    rw [equal] at run
    exact program.run_after_cancel setting run
  · intro before after equal late
    rw [equal, polledSince_append] at orderly
    rcases Option.bind_eq_some_iff.mp orderly with ⟨polled, -, rest⟩
    by_cases seen : Action.poll true ∈ after
    · rcases List.eq_append_cons_of_mem seen with ⟨quiet, tail, split, first⟩
      have none : ∀ seen, Action.poll seen ∉ quiet := by
        intro seen member
        have set := late seen (split ▸ List.mem_append_left _ member)
        exact first (set ▸ member)
      rw [split, polledSince_append] at rest
      rcases Option.bind_eq_some_iff.mp rest with ⟨between, start, -⟩
      have early := nodeCalls_le_one start none
      rw [equal, split, ← List.append_assoc] at run
      have stopped : tail.countP Action.isNodeCall = 0 := by
        rw [← countP_isNodeCall_visible, (program.run_after_cancel setting run).1]
        rfl
      rw [split, List.countP_append, List.countP_cons_of_neg (by simp [Action.isNodeCall]),
        stopped]
      split at early <;> omega
    · have none : ∀ seen, Action.poll seen ∉ after := by
        intro flag member
        exact seen (late flag member ▸ member)
      have bounded := nodeCalls_le_one rest none
      split at bounded <;> omega

/-- The replies of a host where nothing happens, with a flag that is set from one
poll on. -/
def cancelFrom (poll : Nat) (asked : Nat) : (query : Query) → query.Reply
  | .poll => decide (poll ≤ asked)
  | query => query.still

/-- Two beeps, the second of which is cancelled. -/
def twoBeeps : Program :=
  (Program.ofSource? (bytes "(beep) (beep)")).get (by decide +kernel)

def cancelledRun : Trace × Except Fault ExecutionResult :=
  respond (cancelFrom 2) 0 (execute calmSetting twoBeeps.root)

theorem twoBeeps_cancelled_promptly :
    (∀ before middle after first second firstNode secondNode,
      cancelledRun.1 = before ++ .command first (some firstNode) :: middle ++
        .command second (some secondNode) :: after →
      ∃ seen, Action.poll seen ∈ middle) ∧
    (∀ before after, cancelledRun.1 = before ++ .poll true :: after →
      Trace.visible after =
          [.command .stop none, .emitProgram .programError "execution cancelled"] ∧
        cancelledRun.2 =
          .ok ⟨false, some ⟨.error, twoBeeps.root.span, "execution cancelled"⟩⟩) ∧
    ∀ before after, cancelledRun.1 = before ++ after →
      (∀ seen, Action.poll seen ∈ after → seen = true) →
      after.countP Action.isNodeCall ≤ 1 :=
  twoBeeps.cancelled_promptly calmSetting rfl (run_respond _ _ 0)

example : cancelledRun.1.countP Action.isNodeCall = 1 := by decide +kernel

end CardCode
