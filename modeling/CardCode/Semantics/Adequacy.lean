import CardCode.Semantics.Completeness
import CardCode.Semantics.Initiative

/-! # Adequacy

What a program can do without being cancelled or stopped by a limit is exactly what it
means.
-/

namespace CardCode

open Process

/-! ## Complaints -/

/-- No objection is about a limit. -/
theorem objection_message {machine : Machine} {scope : Scope} {node : Node}
    {values : List Value} {message : String}
    (objected : machine.objection scope node values = some message) :
    message ∉ limitMessages := by
  intro listed
  have start : message.toList.take 11 ∈ limitMessages.map fun text => text.toList.take 11 :=
    List.mem_map_of_mem listed
  rcases objection_text objected with plain | rfl | ⟨-, rfl | rfl⟩
  · have apart : ∀ text ∈ valueObjections, text ∉ limitMessages := by
      decide
    exact apart message plain listed
  · rw [take_accusation (by decide)] at start
    exact absurd start (by decide)
  · rw [take_accusation (by decide)] at start
    exact absurd start (by decide)
  · rw [take_accusation (by decide)] at start
    exact absurd start (by decide)

/-- What a program complains about of itself is no limit. -/
theorem Means.complaint_message {machine : Machine} {phrase : Phrase} {scope left : Scope}
    {cost : Cost} {effects : List Effect} {outcome : Verdict}
    (means : Means machine phrase scope cost effects outcome left) {complaint : Complaint}
    (fails : outcome = .error complaint) : complaint.message ∉ limitMessages := by
  have mapped {verdict : Verdict} {change : List Value → List Value}
      (fails : verdict.map change = .error complaint) : verdict = .error complaint := by
    cases verdict with
    | ok => cases fails
    | error => exact fails
  induction means with
  | readObject _ objection => cases fails; exact objection_message objection
  | object objection => cases fails; exact objection_message objection
  | rowNext _ _ _ tail => exact tail (mapped fails)
  | call _ _ _ _ _ body => exact body (mapped fails)
  | block _ _ row => exact row (mapped fails)
  | enter _ _ _ _ _ row => exact row (mapped fails)
  | counted _ _ _ _ rounds => exact rounds (mapped fails)
  | expr _ work => exact work fails
  | rowStop _ head | readStop _ head | junctionStop _ head => exact head fails
  | readNext _ _ _ _ _ tail | junctionNext _ _ _ _ tail => exact tail fails
  | refuse _ _ _ operands | loopRefuse _ _ operands => exact operands fails
  | branch _ _ _ _ _ _ taken => exact taken fails
  | roundsStop _ row | loopStop _ _ _ _ _ row => exact row fails
  | roundsNext _ _ _ rounds => exact rounds fails
  | loopNext _ _ _ _ _ _ _ rest => exact rest fails
  | junction _ _ joins => exact joins fails
  | _ => cases fails

/-! ## Programs -/

def Verdict.result : Verdict → ExecutionResult
  | .ok _ => ⟨true, none⟩
  | .error complaint => ⟨false, some complaint.diagnostic⟩

/-- The stop after a failure. -/
def Verdict.closing : Verdict → List Effect
  | .ok _ => []
  | .error _ => [.command .stop]

/-- A run that is not cancelled and does not end at a limit does this to the robot and has
this result. -/
def Does (setting : Setting) (root : Node) (effects : List Effect) (result : ExecutionResult) :
    Prop :=
  ∃ trace : Trace, Run (execute setting root) trace (.ok result) ∧ trace.effects = effects ∧
    .poll true ∉ trace ∧ ¬ result.HitsLimit

theorem effects_ending {root : Node} {state : ExecState} {ending : Trace}
    {result : ExecutionResult} (closes : Closes root state ending result) :
    readingsOf ending.effects = [] := by
  cases closes <;> rfl

/-- A run that saw no cancellation was not cancelled. -/
theorem uncancelled_of_run {env : Env} {root : Node} {body : Trace} {value : Value}
    {reached : ExecState} {fuel : Nat} (run : Performs (eval env fuel root) {} body value reached)
    (unseen : .poll true ∉ body) : reached.cancelled = false := by
  cases (eval_activity _ _ _ _ _ _ _ run).outcome rfl with
  | going _ cancelled => exact cancelled
  | stopped raises =>
      cases raises with
      | error cancelled => exact cancelled
      | cancel => exact absurd (List.mem_append_right _ List.mem_cons_self) unseen

theorem Closes.tells {root : Node} {state : ExecState} {ending : Trace}
    {result : ExecutionResult} {outcome : Verdict} {found : Option (List Value)}
    (closes : Closes root state ending result) (tells : Tells state outcome found) :
    result = outcome.result ∧ ending.effects = outcome.closing := by
  cases tells with
  | done going =>
      rcases Bool.or_eq_false_iff.mp going with ⟨calm, uncancelled⟩
      cases closes with
      | cancelled flag => cases flag.symm.trans uncancelled
      | errored _ flag => cases flag.symm.trans calm
      | done => exact ⟨rfl, rfl⟩
  | failed fails =>
      cases closes with
      | cancelled flag => cases flag.symm.trans fails.cancelled
      | errored =>
          rw [fails.error]
          exact ⟨rfl, rfl⟩
      | done _ calm => cases calm.symm.trans fails.errored

theorem readings_eq (trace : Trace) :
    readingsOf trace.effects =
      trace.filterMap fun action => action.effect?.bind Effect.reading? := by
  rw [readingsOf, Trace.effects, List.filterMap_filterMap]

/-- The reply that is wanted, where it is one to the question. -/
def Query.wantedReply (query : Query) (wanted : Option SensorReading) : query.Reply :=
  match query, wanted with
  | .distanceCm _, some (.distanceCm distance) => distance
  | .button _, some (.button pressed) => pressed
  | .lineLeft _, some (.lineLeft seen) => seen
  | .lineRight _, some (.lineRight seen) => seen
  | query, _ => query.still

/-- There is a run that sees no cancellation and reads what it is wanted to read, as long as
it reads from the sensors it is wanted to. -/
theorem exists_calm_run (env : Env) (fuel : Nat) (root : Node) (wanted : List SensorReading) :
    ∃ (trace : Trace) (ended : Except Fault (ExecutionResult × ExecState)),
      Run (executeBody env fuel root {}) trace ended ∧ .poll true ∉ trace ∧
        Agree SensorReading.kind (readingsOf trace.effects) wanted := by
  have owns : Owns (fun action : Action => action ≠ .poll true ∧
      (action.effect?.bind Effect.reading?) = none) (executeBody env fuel root {}) := by
    apply (acts_executeBody env fuel root {}).mono
    intro action own
    cases action with
    | sensor | poll => cases own
    | emit | emitProgram | command | mark => exact ⟨nofun, rfl⟩
  have replies (query : Query) (wanted : Option SensorReading) :
      ∃ reply : query.Reply, engineInterface.record query reply ≠ .poll true ∧
        ∀ found, (engineInterface.record query reply).effect?.bind Effect.reading? = some found →
          ∀ want ∈ wanted, found.kind = want.kind → found = want := by
    refine ⟨query.wantedReply wanted, ?_⟩
    cases query with
    | poll => exact ⟨nofun, nofun⟩
    | distanceCm | button | lineLeft | lineRight =>
        refine ⟨nofun, ?_⟩
        intro found given want isWanted asked
        cases isWanted
        cases given
        cases want <;> first
          | rfl
          | cases asked
  rcases owns.exists_run replies wanted with ⟨trace, ended, run, calm, agree⟩
  refine ⟨trace, ended, run, fun member => calm _ member rfl, ?_⟩
  rw [readings_eq]
  exact agree

/-! ## Runs without traps -/

/-- Coming to an operation that traps is excused. -/
def alarmExcuse : EngineExcuse where
  action := Action.Traps

/-- Until it would trap, the interpreter does what it does where every operation delivers
something. -/
theorem lockstep_retrapped (setting : Setting) (root : Node) :
    Lockstep .keep alarmExcuse (setting.env root).untrapped (setting.env root) where
  functions := by
    intro name
    rw [funext Node.relabel_keep, Option.map_id']
    rfl
  cancellable := rfl
  operates := by
    intro op left right
    cases operates : (setting.env root).operate op left right with
    | none =>
        exact .alarm fun _ => (setting.operate_eq_none_iff root op left right).mp operates
    | some result =>
        rw [Env.untrapped_operate _ operates]
        exact .same
  steps := weakens_refl _
  rounds := weakens_refl _
  depth := weakens_refl _

/-- A run that comes to no operation that traps is the same where operations trap. -/
theorem run_of_untrapped {setting : Setting} {root : Node} {trace : Trace}
    {result : ExecutionResult} {state : ExecState}
    (performs : Performs (executeBody (setting.env root).untrapped
      (fuelBound setting.limits root) root) {} trace result state)
    (untrapped : ¬ trace.Traps) : Run (execute setting root) trace (.ok result) := by
  have follows := executeBody_follows (lockstep_retrapped setting root)
    (.refl (fuelBound setting.limits root)) root {}
  rw [ExecState.relabel_initial, Node.relabel_keep] at follows
  rcases follows.run performs fun entry member traps => untrapped ⟨entry, member, traps⟩ with
    ⟨rest, last, goes, ⟨rfl, rfl⟩ | ⟨reason, failed, -⟩⟩
  · have same : trace.map (Action.relabel .keep) = trace := by
      rw [List.map_congr_left fun entry _ => entry.relabel_keep, List.map_id']
    change Run _ (trace.map (Action.relabel .keep) ++ []) _ at goes
    rw [same, List.append_nil] at goes
    refine run_map_iff.mpr ⟨_, goes, ?_⟩
    exact congrArg Except.ok result.relabel_keep.symm
  · cases failed

theorem untrapped_implements (setting : Setting) (root : Node) :
    (setting.env root).untrapped.Implements (setting.env root).machine where
  functions := rfl
  operate := Env.untrapped_operate _
  traps := (setting.operate_eq_none_iff root _ _ _).mpr

section Programs

variable {program : Program} {setting : Setting}

/-- What a program does it means. -/
theorem Does.means {effects : List Effect} {result : ExecutionResult}
    (does : Does setting program.root effects result) :
    ∃ cost body outcome left,
      Means (program.env setting).machine (.expr program.root) {} cost body outcome left ∧
        cost.Within setting.limits ∧ effects = body ++ outcome.closing ∧
        result = outcome.result := by
  rcases does with ⟨trace, run, rfl, unseen, within⟩
  rcases execute_run run with ⟨final, performs⟩
  rcases executeBody_performs performs with ⟨body, value, ending, bodyRun, closes, rfl⟩
  have uncancelled := uncancelled_of_run bodyRun fun member =>
    unseen (List.mem_append_left _ (List.mem_cons_of_mem _ member))
  cases eval_sound _ _ _ _ _ _ _ rfl bodyRun with
  | @meant cost outcome means spends tells =>
      rcases closes.tells tells with ⟨rfl, ends⟩
      have steps := spends.bounded (Nat.zero_le _)
      rw [spends.steps, show ({} : ExecState).steps.toNat = 0 from rfl, Nat.zero_add] at steps
      refine ⟨cost, Trace.effects body, outcome, _, means, ⟨steps, spends.rounds, spends.depth⟩,
        ?_, rfl⟩
      rw [effects_append, effects_emitProgram, ends]
  | limited listed fails =>
      have tells : Tells final (.error _) none := .failed fails
      rw [(closes.tells tells).1] at within
      exact absurd ⟨_, rfl, listed⟩ within
  | cancelled flag => cases flag.symm.trans uncancelled

/-- What a program means within the limits it does, in a setting that reads the sensors so. -/
theorem Means.does {cost : Cost} {effects : List Effect} {outcome : Verdict} {left : Scope}
    (means : Means (program.env setting).machine (.expr program.root) {} cost effects outcome left)
    (within : cost.Within setting.limits) :
    Does setting program.root (effects ++ outcome.closing) outcome.result := by
  rcases exists_calm_run (program.env setting).untrapped
    (fuelBound setting.limits program.root) program.root (readingsOf effects) with
    ⟨trace, ended, run, unseen, agree⟩
  cases ended with
  | error reason => exact absurd run (program.untrapped_faultless setting _ _)
  | ok pair =>
  rcases pair with ⟨result, final⟩
  rcases executeBody_performs run with ⟨body, value, ending, bodyRun, closes, rfl⟩
  have uncancelled := uncancelled_of_run bodyRun fun member =>
    unseen (List.mem_append_left _ (List.mem_cons_of_mem _ member))
  have fair : Fair (program.env setting).untrapped {} {} cost effects body final := by
    refine ⟨rfl, rfl, ⟨?_, within.2.1, ?_⟩, uncancelled, ?_⟩
    · rw [show ({} : ExecState).steps.toNat = 0 from rfl, Nat.zero_add]
      exact within.1
    · rw [show ({} : ExecState).callDepth.toNat = 0 from rfl, Nat.zero_add]
      exact within.2.2
    · rw [effects_append, effects_emitProgram, readingsOf_append, effects_ending closes,
        List.append_nil] at agree
      exact agree
  have all := means.complies (untrapped_implements setting program.root) ⟨_, value, rfl, bodyRun⟩
    fair
  rcases closes.tells all.tells with ⟨same, ends⟩
  have untrapped : ¬ Trace.Traps (.emitProgram .programStart "" :: body ++ ending) := by
    have silent : ¬ ending.Traps := by
      cases closes <;> simp [Action.Traps]
    simp [all.shows.untrapped, silent, Action.Traps]
  refine ⟨_, same ▸ run_of_untrapped run untrapped, ?_, unseen, ?_⟩
  · rw [effects_append, effects_emitProgram, all.shows.effects, ends]
  · intro hits
    rcases hits with ⟨error, reported, listed⟩
    cases outcome with
    | ok => cases reported
    | error complaint =>
        cases reported
        exact means.complaint_message rfl listed

end Programs

/-- What a program can do without being cancelled or stopped by a limit is what it means
within the limits. -/
theorem Program.does_iff_means (program : Program) (setting : Setting) (effects : List Effect)
    (result : ExecutionResult) :
    Does setting program.root effects result ↔
      ∃ cost body outcome left,
        Means (program.env setting).machine (.expr program.root) {} cost body outcome left ∧
          cost.Within setting.limits ∧ effects = body ++ outcome.closing ∧
          result = outcome.result := by
  constructor
  · exact Does.means
  · intro meant
    rcases meant with ⟨cost, body, outcome, left, means, within, rfl, rfl⟩
    exact means.does within

end CardCode
