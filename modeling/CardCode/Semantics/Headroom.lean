import CardCode.Semantics.Guarantees
import CardCode.Semantics.Lockstep

/-! # Larger limits

A run that does not end at one of its limits is the same under larger ones.
-/

namespace CardCode

open Process

/-- The complaints about the three limits. -/
def limitMessages : List String :=
  [ "execution exceeded maximum step limit",
    "repeat count exceeds limit",
    "maximum call depth exceeded" ]

/-- The run failed at one of its limits. -/
def ExecutionResult.HitsLimit (result : ExecutionResult) : Prop :=
  ∃ error ∈ result.error, error.message ∈ limitMessages

/-- Each limit is no smaller. -/
instance : LE ExecutionLimits where
  le limits larger :=
    limits.maxRepeatCount ≤ larger.maxRepeatCount ∧
      limits.maxTotalSteps ≤ larger.maxTotalSteps ∧
      limits.maxCallDepth ≤ larger.maxCallDepth

/-- The interpreter complains about a limit. -/
def Action.IsLimitComplaint (action : Action) : Prop :=
  ∃ node message, message ∈ limitMessages ∧ action = .emit .nodeError node message

/-- A complaint about a limit is excused, and so is running out of the fuel that the limits give. -/
def limitExcuse : EngineExcuse where
  action := Action.IsLimitComplaint
  fault reason := reason = .outOfFuel

theorem weakens_of_le {message : String} {limit larger : UInt32} (listed : message ∈ limitMessages)
    (le : limit ≤ larger) : Weakens limitExcuse message limit larger where
  le := le
  alarm := fun _ node => ⟨node, message, listed, rfl⟩

/-- An error in the trace of a run is the error it ends with. -/
theorem RunShape.error_eq {trace : Trace} {result : ExecutionResult} (shape : RunShape trace result)
    {node : Node} {message : String} (member : .emit .nodeError node message ∈ trace) :
    ∃ error ∈ result.error, error.message = message := by
  have clear {body ending : Trace} {first : Action} (calm : Trace.Calm body)
      (firstCalm : first.isAlarm = false)
      (inside : .emit .nodeError node message ∈ first :: body ++ ending) :
      .emit .nodeError node message ∈ ending := by
    rcases List.mem_append.mp inside with inside | inside
    · rcases List.mem_cons.mp inside with equal | inside
      · rw [← equal] at firstCalm
        cases firstCalm
      · cases calm _ inside
    · exact inside
  cases shape with
  | done _ calm =>
      have last := clear calm rfl member
      simp at last
  | failed _ calm =>
      have last := clear calm rfl member
      simp only [List.mem_cons, Action.emit.injEq, reduceCtorEq, List.not_mem_nil, or_false,
        true_and] at last
      rw [last.2]
      exact ⟨_, rfl, rfl⟩
  | cancelled _ calm =>
      have last := clear calm rfl member
      simp at last

theorem Program.noComplaint (program : Program) {setting : Setting} {trace : Trace}
    {result : ExecutionResult} (run : Run (execute setting program.root) trace (.ok result))
    (within : ¬ result.HitsLimit) : ∀ action ∈ trace, ¬ action.IsLimitComplaint := by
  intro action member complaint
  rcases complaint with ⟨node, message, listed, rfl⟩
  rcases execute_run run with ⟨_, performs⟩
  have shape := executeBody_shape performs
  have visible : .emit .nodeError node message ∈ Trace.visible trace :=
    List.mem_filter.mpr ⟨member, rfl⟩
  rcases shape.error_eq visible with ⟨error, found, same⟩
  exact within ⟨error, found, same ▸ listed⟩

/-- A run that succeeds, or fails for a reason other than a limit, is the same under
larger limits: the same events, calls on the robot and reads, and the same result. -/
theorem Program.limits_only_limit (program : Program) (setting : Setting)
    {larger : ExecutionLimits} (le : setting.limits ≤ larger) (schedule : Schedule)
    {result : ExecutionResult} (ends : (schedule.run setting program.root).2 = .ok result)
    (within : ¬ result.HitsLimit) :
    schedule.run { setting with limits := larger } program.root =
      schedule.run setting program.root := by
  rcases le with ⟨rounds, steps, depth⟩
  have lockstep : Lockstep .keep limitExcuse (setting.env program.root)
      ({ setting with limits := larger }.env (program.root.relabel .keep)) :=
    lockstep_of_limits program.root (weakens_of_le (by decide) steps)
      (weakens_of_le (by decide) rounds) (weakens_of_le (by decide) depth)
  have run := run_attend schedule.world {} (execute setting program.root)
  change Run _ _ (schedule.run setting program.root).2 at run
  rw [ends] at run
  have unexcused : ∀ reason, (schedule.run setting program.root).2 = .error reason →
      ¬ limitExcuse.AtEnd (schedule.run setting program.root).1 reason := by
    intro reason failed
    rw [ends] at failed
    cases failed
  have repeated := schedule.run_relabel lockstep (fun _ => rfl) unexcused
    (program.noComplaint run within)
  have traces : (schedule.run setting program.root).1.map (Action.relabel .keep) =
      (schedule.run setting program.root).1 := by
    rw [List.map_congr_left fun action _ => action.relabel_keep, List.map_id']
  have outcome : (schedule.run setting program.root).2.map (ExecutionResult.relabel .keep) =
      (schedule.run setting program.root).2 := by
    rw [ends]
    exact congrArg Except.ok result.relabel_keep
  rw [Node.relabel_keep, traces, outcome] at repeated
  exact repeated

/-- Surroundings in which nothing happens. -/
def calmSchedule : Schedule where
  cancelled := fun _ => false
  distanceCm := fun _ => 0
  button := fun _ => false
  lineLeft := fun _ => false
  lineRight := fun _ => false

/-- With room for exactly the one step of its run. -/
def tightSetting : Setting :=
  { calmSetting with limits := { maxTotalSteps := 1 } }

theorem beep_limits_only_limit :
    calmSchedule.run { tightSetting with limits := { maxTotalSteps := 2 } } beepProgram.root =
      calmSchedule.run tightSetting beepProgram.root := by
  have ends : (calmSchedule.run tightSetting beepProgram.root).2 = .ok ⟨true, none⟩ := by
    decide +kernel
  apply beepProgram.limits_only_limit tightSetting ⟨by decide, by decide, by decide⟩ calmSchedule
    ends
  intro hits
  rcases hits with ⟨error, found, -⟩
  cases found

end CardCode
