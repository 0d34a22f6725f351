import CardCode.Semantics.Calls
import CardCode.Semantics.Lockstep
import CardCode.Semantics.Nesting
import CardCode.Semantics.Termination

/-! # What every run of an accepted program keeps -/

namespace CardCode

open Process

variable (program : Program) (setting : Setting)

/-- The environment in which an accepted program runs. -/
def Program.env : Env :=
  setting.env program.root

theorem Program.sound : ∃ arity, program.root.Sound arity ∧
    CallTable arity (program.env setting) ∧
    SoundTable arity program.root.height (program.env setting) := by
  rcases program.elaborates with ⟨parsed, -, clean, elaborates⟩
  have sound := elaborates.sound
  have within : ∀ name function, collectFunctions program.root name = some function →
      function.Sound (programArity parsed.exprs) ∧
        function.height ≤ program.root.height := by
    intro name function found
    rcases collected_some found with absent | ⟨member, -, -⟩
    · cases absent
    · rcases List.mem_cons.mp member with equal | member
      · rw [equal]
        exact ⟨sound, Nat.le_refl _⟩
      · have part := mem_parts_of_child member
        exact ⟨sound.part part, Nat.le_of_lt (height_lt_of_part part)⟩
  refine ⟨programArity parsed.exprs, sound, ⟨?_, ?_⟩, ⟨?_, ?_⟩⟩
  · exact fun name function found => (within name function found).1
  · exact elaborates.functions_agree clean
  · exact fun name function found => (within name function found).1
  · exact fun name function found => (within name function found).2

theorem executeBody_faultless {env : Env} {fuel : Nat} {root : Node} {state : ExecState}
    (safe : Faultless (eval env fuel root) state) :
    Faultless (executeBody env fuel root) state := by
  apply faultless_afterPerform
  apply faultless_bind safe
  intro trace value reached run
  apply faultless_withState
  apply faultless_ite
  · exact faultless_afterPerform (faultless_afterPerform (faultless_pure _ _))
  · apply faultless_ite
    · exact faultless_afterPerform (faultless_afterPerform (faultless_pure _ _))
    · exact faultless_afterPerform (faultless_pure _ _)

/-- Where no operation traps, no run of an accepted program runs out of fuel or reads an
argument that is not there. -/
theorem Program.untrapped_faultless :
    Faultless (executeBody (program.env setting).untrapped (fuelBound setting.limits program.root)
      program.root) {} := by
  rcases program.sound setting with ⟨arity, sound, -, table⟩
  have deliveringTable : SoundTable arity program.root.height (program.env setting).untrapped :=
    ⟨table.sound, table.height⟩
  have enough : fuelNeeded (program.env setting).untrapped program.root.height 0 program.root ≤
      fuelBound setting.limits program.root := by
    rw [fuelNeeded, fuelBound]
    have limits : (program.env setting).untrapped.limits = setting.limits := rfl
    have zero : (0 : UInt32).toNat = 0 := rfl
    rw [limits, zero, Nat.sub_zero, Nat.succ_mul]
    omega
  exact executeBody_faultless
    (eval_faultless (Env.untrapped_delivers _) deliveringTable _ _ 0 sound enough {}
      ⟨rfl, Nat.zero_le _⟩)

/-! ## Traps -/

/-- The end of a run is excused where it is a trap. -/
def trapExcuse : EngineExcuse where
  last entry reason := entry.Traps ∧ reason = .trapped

/-- Where an operation delivers something in place of a trap, the interpreter does the same
until it would trap. -/
theorem lockstep_untrapped :
    Lockstep .keep trapExcuse (program.env setting) (program.env setting).untrapped where
  functions := by
    intro name
    rw [funext Node.relabel_keep, Option.map_id']
    rfl
  cancellable := rfl
  operates := by
    intro op left right
    cases operates : (program.env setting).operate op left right with
    | none =>
        have traps := (setting.operate_eq_none_iff program.root op left right).mp operates
        exact .last fun _ => ⟨traps, rfl⟩
    | some result =>
        rw [Env.untrapped_operate _ operates]
        exact .same
  steps := weakens_refl _
  rounds := weakens_refl _
  depth := weakens_refl _

/-- Every run of an accepted program is a run without traps, or the first part of one and
ends at an operation that traps. -/
theorem Program.run_extends {trace : Trace} {outcome : Except Fault ExecutionResult}
    (run : Run (execute setting program.root) trace outcome) :
    ∃ rest result state,
      Performs (executeBody (program.env setting).untrapped
        (fuelBound setting.limits program.root) program.root) {} (trace ++ rest) result state ∧
      (rest = [] ∧ outcome = .ok result ∨
        outcome = .error .trapped ∧ ∃ front entry, trace = front ++ [entry] ∧ entry.Traps) := by
  rcases run_map_iff.mp run with ⟨ending, bodyRun, rfl⟩
  have follows := executeBody_follows (lockstep_untrapped program setting)
    (.refl (fuelBound setting.limits program.root)) program.root {}
  rw [ExecState.relabel_initial, Node.relabel_keep] at follows
  rcases follows.run bodyRun fun _ _ => id with ⟨rest, last, goes, ends⟩
  have same : trace.map (Action.relabel .keep) = trace := by
    rw [List.map_congr_left fun entry _ => entry.relabel_keep, List.map_id']
  have extended : Run (executeBody (program.env setting).untrapped
      (fuelBound setting.limits program.root) program.root {}) (trace ++ rest) last := by
    rw [← same]
    exact goes
  cases last with
  | error reason => exact absurd extended (program.untrapped_faultless setting _ _)
  | ok final =>
      refine ⟨rest, final.1, final.2, extended, ?_⟩
      rcases ends with ⟨none, equal⟩ | ⟨reason, rfl, excused⟩
      · refine .inl ⟨none, ?_⟩
        cases ending with
        | error reason => cases equal
        | ok found =>
            cases equal
            exact congrArg Except.ok found.1.relabel_keep.symm
      · rcases excused with impossible | ⟨front, entry, split, traps, rfl⟩
        · exact absurd impossible id
        · exact .inr ⟨rfl, front, entry, split, traps⟩

/-- A run that ends with a result comes to no operation that traps. -/
theorem Program.not_traps {trace : Trace} {result : ExecutionResult}
    (run : Run (execute setting program.root) trace (.ok result)) : ¬ Trace.Traps trace := by
  intro traps
  rcases traps with ⟨entry, member, traps⟩
  rcases execute_run run with ⟨state, performs⟩
  rcases executeBody_leaves (inherited_true _) trivial performs entry member with
    report | ⟨node, -, leaves⟩
  · cases report <;> exact traps
  · cases leaves with
    | combining folds nonempty divisor operates =>
        rw [(setting.operate_eq_none_iff program.root _ _ _).mpr traps] at operates
        cases operates
    | issued issues member =>
        cases issues with
        | nothing => cases member
        | command => rw [List.mem_singleton.mp member] at traps; exact traps
        | sensor => rw [List.mem_singleton.mp member] at traps; exact traps
    | _ => exact traps

/-- A run of an accepted program runs neither out of fuel nor into an argument that is not
there: it ends with a result unless it comes to an operation that traps. -/
theorem Program.run_ends {trace : Trace} {outcome : Except Fault ExecutionResult}
    (run : Run (execute setting program.root) trace outcome) :
    (∃ result, outcome = .ok result) ∧ ¬ Trace.Traps trace ∨
      outcome = .error .trapped ∧ Trace.Traps trace := by
  rcases program.run_extends setting run with ⟨rest, result, state, -, ⟨-, rfl⟩ | trapped⟩
  · exact .inl ⟨⟨result, rfl⟩, program.not_traps setting run⟩
  · rcases trapped with ⟨rfl, front, entry, rfl, traps⟩
    exact .inr ⟨rfl, entry, List.mem_append_right front List.mem_cons_self, traps⟩

/-- Every entry of a run is a report of the run itself or left by a node. -/
theorem Program.run_leaves {trace : Trace} {outcome : Except Fault ExecutionResult}
    (run : Run (execute setting program.root) trace outcome) {Property : Node → Prop}
    (inherited : Inherited (program.env setting) Property) (holds : Property program.root) :
    ∀ entry ∈ trace, entry.IsReport ∨
      ∃ node, Property node ∧ Leaves (program.env setting).untrapped node entry := by
  rcases program.run_extends setting run with ⟨rest, result, state, performs, -⟩
  intro entry member
  exact executeBody_leaves inherited.untrapped holds performs entry
    (List.mem_append_left rest member)

/-- A run that traps does so within its evaluation. -/
theorem Program.run_trapped {trace : Trace}
    (run : Run (execute setting program.root) trace (.error .trapped)) :
    ∃ body rest reached, trace = .emitProgram .programStart "" :: body ∧
      Activity (program.env setting).untrapped (.eval program.root) {} (body ++ rest) reached := by
  rcases program.run_extends setting run with ⟨rest, result, state, performs, ends⟩
  rcases executeBody_activity performs with ⟨body, ending, activity, closes, equal⟩
  rcases ends with ⟨-, same⟩ | ⟨-, front, entry, rfl, traps⟩
  · cases same
  · cases front with
    | nil =>
        cases (List.cons.inj equal).1
        exact absurd traps id
    | cons start more =>
        rw [List.cons_append, List.cons_append, List.cons_append] at equal
        rcases List.cons.inj equal with ⟨rfl, parts⟩
        rcases List.append_eq_append_iff.mp parts with ⟨left, same, -⟩ | ⟨left, same, behind⟩
        · exact ⟨more ++ [entry], left, state, rfl, same ▸ activity⟩
        · rcases List.eq_nil_or_concat left with rfl | ⟨others, last, rfl⟩
          · rw [List.append_nil] at same
            refine ⟨more ++ [entry], [], state, rfl, ?_⟩
            rw [same, List.append_nil]
            exact activity
          · rw [List.concat_eq_append, ← List.append_assoc] at same
            cases (List.append_inj' same rfl).2
            have member : entry ∈ ending := by
              rw [behind]
              simp
            cases closes.isReport entry member <;> exact absurd traps id

/-! ## Nesting -/

/-- The trace of events and host calls has the shape `RunShape` describes exactly where the
run comes to no operation that traps. -/
theorem Program.trace_shape_iff {trace : Trace} {outcome : Except Fault ExecutionResult}
    (run : Run (execute setting program.root) trace outcome) :
    (∃ result, outcome = .ok result ∧ RunShape (Trace.visible trace) result) ↔
      ¬ Trace.Traps trace := by
  rcases program.run_ends setting run with ⟨⟨result, rfl⟩, calm⟩ | ⟨rfl, traps⟩
  · rcases execute_run run with ⟨state, performs⟩
    exact iff_of_true ⟨result, rfl, executeBody_shape performs⟩ calm
  · refine iff_of_false ?_ fun calm => calm traps
    intro shaped
    rcases shaped with ⟨result, equal, -⟩
    cases equal

theorem ok_of_toOption {α ε : Type} {outcome : Except ε α} {value : α}
    (found : outcome.toOption = some value) : outcome = .ok value := by
  cases outcome with
  | ok other => exact congrArg Except.ok (Option.some.inj found)
  | error _ => cases found

/-- A machine on which what overflows becomes 0. -/
def calmSetting : Setting where
  overflow := fun _ _ _ => 0

/-- A program that sounds the beeper. -/
def beepProgram : Program :=
  (Program.ofSource? (bytes "(beep)")).get (by decide +kernel)

/-- A program that calls a function with arguments in a loop and goes round another until a
variable it changes is large enough. -/
def danceText : String :=
  "(define n 0) (define (dance speed time) (drive speed (* time 10)) (beep)) " ++
    "(repeat 2 (dance 50 (+ n 1))) (while (< n 2) (set! n (+ n 1)) (wait n))"

def danceProgram : Program :=
  (Program.ofSource? (bytes danceText)).get (by decide +kernel)

/-- Its run with a cancel flag that stays clear. -/
def danceRun : Trace × Except Fault ExecutionResult :=
  respond (fun _ => Query.still) 0 (execute calmSetting danceProgram.root)

theorem dance_trace_shape :
    ((∃ result, danceRun.2 = .ok result ∧ RunShape (Trace.visible danceRun.1) result) ↔
      ¬ Trace.Traps danceRun.1) ∧ ¬ Trace.Traps danceRun.1 :=
  ⟨danceProgram.trace_shape_iff calmSetting (run_respond _ _ 0), by decide +kernel⟩

/-- The program `(/ (- -9223372036854775807 1) -1)`. -/
def trappingProgram : Program :=
  (Program.ofSource? (bytes "(/ (- -9223372036854775807 1) -1)")).get (by decide +kernel)

def trappingRun : Trace × Except Fault ExecutionResult :=
  respond (fun _ => Query.still) 0 (execute calmSetting trappingProgram.root)

/-- After its start the run neither stops the robot nor reports its end. -/
theorem trapping_not_shaped :
    ¬ ∀ (program : Program) (setting : Setting) (trace : Trace)
        (outcome : Except Fault ExecutionResult),
      Run (execute setting program.root) trace outcome →
      ∃ result, outcome = .ok result ∧ RunShape (Trace.visible trace) result := by
  intro always
  have traps : trappingRun.2 = .error .trapped := by decide +kernel
  rcases always trappingProgram calmSetting _ _ (run_respond _ _ 0) with ⟨result, equal, -⟩
  exact absurd (traps.symm.trans equal) (by simp)

/-! ## Bounds -/

theorem callFunction_callDepth {env : Env} {fuel : Nat} {call : Node}
    {state reached : ExecState} {trace : Trace} {value : Value}
    (run : Performs (callFunction env (eval env fuel) call) state trace value reached) :
    reached.callDepth = state.callDepth := by
  have refines := eval_activity env fuel
  rw [callFunction] at run
  split at run
  · rcases performs_fail.mp run with ⟨-, -, rfl⟩
    rfl
  next function known =>
    rcases performs_bind.mp run with ⟨first, found, middle, rest, argsRun, restRun, rfl⟩
    have arguments := (evalArguments_activity refines call.args
      (fun arg member => List.mem_append_left _ member) argsRun).callDepth_eq
    cases found with
    | none =>
        rcases performs_pure.mp restRun with ⟨-, -, rfl⟩
        exact arguments
    | some values =>
        rw [performs_withState] at restRun
        split at restRun
        · rcases performs_fail.mp restRun with ⟨-, -, rfl⟩
          exact arguments
        · rcases performs_afterMark.mp restRun with ⟨tail, enteredRun, rfl⟩
          rw [performs_afterModify] at enteredRun
          rcases performs_bind.mp enteredRun with
            ⟨body, result, final, last, bodyRun, lastRun, rfl⟩
          rw [performs_afterModify] at lastRun
          rcases performs_afterMark.mp lastRun with ⟨nothing, endRun, rfl⟩
          rcases performs_pure.mp endRun with ⟨-, -, rfl⟩
          have inside : Activity env (.work function) _ body final :=
            evalBody_activity refines function.children
              (fun child member => mem_parts_of_child member) bodyRun
          rw [ExecState.leave, inside.callDepth_eq, ← arguments]
          exact UInt32.add_sub_cancel _ _

theorem Closes.stepsTaken {root : Node} {state : ExecState} {ending : Trace}
    {result : ExecutionResult} (closes : Closes root state ending result) :
    stepsTaken ending = 0 := by
  cases closes <;> rfl

theorem Closes.nests {root : Node} {state : ExecState} {ending : Trace}
    {result : ExecutionResult} (closes : Closes root state ending result) (limit : Nat) :
    Nests limit 0 ending := by
  have entry {other : Action} (flat : other.frame = 0) : Nests limit 0 [other] :=
    .entry (Nat.zero_le _) flat
  cases closes with
  | cancelled => exact (entry rfl).append (entry rfl)
  | errored => exact (entry rfl).append (entry rfl)
  | done => exact entry rfl

/-- What the counters are at the end of a run, and what bounds them up to any point of it. -/
structure Metered (limits : ExecutionLimits) (trace : Trace) (state : ExecState) : Prop where
  counted : state.steps.toNat = stepsTaken trace
  returned : state.callDepth = 0
  bounded : ∀ start, start <+: trace →
    stepsTaken start ≤ limits.maxTotalSteps.toNat ∧
      liveFrames start ≤ limits.maxCallDepth.toNat

theorem executeBody_metered {env : Env} {fuel : Nat} {root : Node} {trace : Trace}
    {result : ExecutionResult} {state : ExecState}
    (run : Performs (executeBody env fuel root) {} trace result state) :
    Metered env.limits trace state := by
  rcases executeBody_activity run with ⟨body, ending, activity, closes, rfl⟩
  have counts := activity.counts
  have counted : stepsTaken (.emitProgram .programStart "" :: body ++ ending) =
      stepsTaken body := by
    rw [stepsTaken_append, closes.stepsTaken]
    rfl
  have total : state.steps.toNat = stepsTaken body := by
    rw [counts.counted]
    exact Nat.zero_add _
  have bounded : state.steps.toNat ≤ env.limits.maxTotalSteps.toNat :=
    counts.bounded (Nat.zero_le _)
  have nests : Nests env.limits.maxCallDepth.toNat 0
      (.emitProgram .programStart "" :: body ++ ending) := by
    have first : Nests env.limits.maxCallDepth.toNat 0
        [.emitProgram .programStart ""] := .entry (Nat.zero_le _) rfl
    exact (first.append (activity.nests (Nat.zero_le _))).append (closes.nests _)
  refine ⟨?_, activity.callDepth_eq, ?_⟩
  · rw [counted, total]
  · intro start isPrefix
    have steps := stepsTaken_le_of_prefix isPrefix
    have frames := nests.bounded start isPrefix
    rw [counted] at steps
    exact ⟨by omega, by omega⟩

/-- Every run ends. Unless it traps, its step counter is equal to the steps in its trace and
its call depth back at zero; up to any point of it the steps and the live call frames stay
within their limits; and every function call, completed or cut short, leaves the call depth as
it found it. -/
theorem Program.run_bounded {trace : Trace} {outcome : Except Fault ExecutionResult}
    (run : Run (execute setting program.root) trace outcome) :
    ((∃ result state, outcome = .ok result ∧
        Performs (executeBody (program.env setting)
          (fuelBound setting.limits program.root) program.root) {} trace result state ∧
        state.steps.toNat = stepsTaken trace ∧ state.callDepth = 0) ∨
      outcome = .error .trapped ∧ Trace.Traps trace) ∧
    (∀ start, start <+: trace →
      stepsTaken start ≤ setting.limits.maxTotalSteps.toNat ∧
        liveFrames start ≤ setting.limits.maxCallDepth.toNat) ∧
    ∀ fuel call before callTrace value after,
      Performs (callFunction (program.env setting) (eval (program.env setting) fuel) call)
        before callTrace value after →
      after.callDepth = before.callDepth := by
  refine ⟨?_, ?_, fun _ _ _ _ _ _ call => callFunction_callDepth call⟩
  · rcases program.run_ends setting run with ⟨⟨result, rfl⟩, -⟩ | trapped
    · rcases execute_run run with ⟨state, performs⟩
      have metered := executeBody_metered performs
      exact .inl ⟨result, state, rfl, performs, metered.counted, metered.returned⟩
    · exact .inr trapped
  · intro start isPrefix
    rcases program.run_extends setting run with ⟨rest, result, state, performs, -⟩
    exact (executeBody_metered performs).bounded start
      (isPrefix.trans (List.prefix_append trace rest))

theorem dance_run_bounded :
    ((∃ result state, danceRun.2 = .ok result ∧
        Performs (executeBody (danceProgram.env calmSetting)
          (fuelBound calmSetting.limits danceProgram.root) danceProgram.root)
          {} danceRun.1 result state ∧
        state.steps.toNat = stepsTaken danceRun.1 ∧ state.callDepth = 0) ∨
      danceRun.2 = .error .trapped ∧ Trace.Traps danceRun.1) ∧
    (∀ start, start <+: danceRun.1 →
      stepsTaken start ≤ calmSetting.limits.maxTotalSteps.toNat ∧
        liveFrames start ≤ calmSetting.limits.maxCallDepth.toNat) ∧
    ∀ fuel call before callTrace value after,
      Performs (callFunction (danceProgram.env calmSetting)
        (eval (danceProgram.env calmSetting) fuel) call) before callTrace value after →
      after.callDepth = before.callDepth :=
  danceProgram.run_bounded calmSetting (run_respond _ _ 0)

/-! ## Arguments and calls -/

/-- The interpreter reads no argument that is not there, finds every function it
calls and hands it as many values as it has parameters; functions are defined at
the top only, and the table collected from the tree is the compiler's own. -/
theorem Program.calls_match :
    (∀ trace outcome, Run (execute setting program.root) trace outcome →
      outcome ≠ .error .outOfBounds ∧ Trace.Matches trace) ∧
    (∀ node, Node.Within node program.root → node.kind = .defineFunc →
      node = program.root ∨ node ∈ program.root.children) ∧
    ∃ parsed, parse program.source = some parsed ∧
      ∀ name, (collectFunctions program.root name).map
          (fun function => function.params.length) =
        (programArity parsed.exprs).lookup name := by
  refine ⟨?_, ?_⟩
  · intro trace outcome run
    refine ⟨?_, ?_⟩
    · rcases program.run_ends setting run with ⟨⟨result, rfl⟩, -⟩ | ⟨rfl, -⟩
      · simp
      · simp
    · rcases program.sound setting with ⟨arity, sound, table, -⟩
      have delivering : CallTable arity (program.env setting).untrapped :=
        ⟨table.sound, table.arity⟩
      intro entry member
      rcases program.run_leaves setting run table.inherited sound entry member with
        report | ⟨node, holds, leaves⟩
      · cases report <;> trivial
      · exact leaves.matches delivering holds
  · rcases program.elaborates with ⟨parsed, parses, clean, elaborates⟩
    exact ⟨fun node => elaborates.defineFunc_at_top, parsed, parses,
      elaborates.functions_agree clean⟩

end CardCode
