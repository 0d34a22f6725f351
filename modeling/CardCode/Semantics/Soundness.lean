import CardCode.Semantics.Control
import CardCode.Semantics.Headroom

/-! # Runs have a meaning

What the interpreter does is what the program means, unless it is cancelled or stops at one
of its limits.
-/

namespace CardCode

open Process

/-! ## What is spent -/

/-- Between two states this much was spent, within the limits. -/
structure Spends (env : Env) (state : ExecState) (cost : Cost) (reached : ExecState) : Prop where
  steps : reached.steps.toNat = state.steps.toNat + cost.steps
  bounded : state.steps.toNat ≤ env.limits.maxTotalSteps.toNat →
    reached.steps.toNat ≤ env.limits.maxTotalSteps.toNat
  rounds : cost.rounds ≤ env.limits.maxRepeatCount.toNat
  callDepth : reached.callDepth = state.callDepth
  depth : cost.depth ≤ env.limits.maxCallDepth.toNat - state.callDepth.toNat

section Spends

variable {env : Env} {state middle reached : ExecState} {cost more : Cost}

theorem Spends.nothing (state : ExecState) : Spends env state {} state where
  steps := rfl
  bounded := id
  rounds := Nat.zero_le _
  callDepth := rfl
  depth := Nat.zero_le _

theorem Spends.andThen (first : Spends env state cost middle)
    (second : Spends env middle more reached) : Spends env state (cost.andThen more) reached where
  steps := by
    rw [second.steps, first.steps, Cost.andThen, Nat.add_assoc]
  bounded := fun within => second.bounded (first.bounded within)
  rounds := Nat.max_le.mpr ⟨first.rounds, second.rounds⟩
  callDepth := second.callDepth.trans first.callDepth
  depth := by
    have below := second.depth
    rw [first.callDepth] at below
    exact Nat.max_le.mpr ⟨first.depth, below⟩

/-- Other variables and a failure cost nothing. -/
theorem Spends.keeps (spends : Spends env state cost middle) (steps : reached.steps = middle.steps)
    (callDepth : reached.callDepth = middle.callDepth) : Spends env state cost reached where
  steps := by rw [steps, spends.steps]
  bounded := by
    rw [steps]
    exact spends.bounded
  rounds := spends.rounds
  callDepth := callDepth.trans spends.callDepth
  depth := spends.depth

theorem toNat_tick (room : state.steps < env.limits.maxTotalSteps) :
    state.tick.steps.toNat = state.steps.toNat + 1 := by
  have less : state.steps.toNat < env.limits.maxTotalSteps.toNat := room
  have fits := env.limits.maxTotalSteps.toNat_lt
  rw [ExecState.tick, UInt32.toNat_add]
  exact Nat.mod_eq_of_lt (by simp; omega)

theorem Spends.tick (room : state.steps < env.limits.maxTotalSteps) :
    Spends env state .step state.tick where
  steps := toNat_tick room
  bounded := by
    intro within
    rw [toNat_tick room]
    exact room
  rounds := Nat.zero_le _
  callDepth := rfl
  depth := Nat.zero_le _

theorem toNat_enter {vars : Vars} (shallow : state.callDepth < env.limits.maxCallDepth) :
    (state.enter vars).callDepth.toNat = state.callDepth.toNat + 1 := by
  have less : state.callDepth.toNat < env.limits.maxCallDepth.toNat := shallow
  have fits := env.limits.maxCallDepth.toNat_lt
  rw [ExecState.enter, UInt32.toNat_add]
  exact Nat.mod_eq_of_lt (by simp; omega)

theorem Spends.called {vars : Vars} {caller : Option Vars}
    (shallow : state.callDepth < env.limits.maxCallDepth)
    (body : Spends env (state.enter vars) cost reached) :
    Spends env state cost.called (reached.leave caller) where
  steps := body.steps
  bounded := body.bounded
  rounds := body.rounds
  callDepth := by
    rw [ExecState.leave]
    dsimp only
    rw [body.callDepth, ExecState.enter]
    simp
  depth := by
    have less : state.callDepth.toNat < env.limits.maxCallDepth.toNat := shallow
    have below := body.depth
    rw [toNat_enter shallow] at below
    rw [Cost.called]
    dsimp only
    omega

theorem Spends.repeated {count : Nat} (spends : Spends env state cost reached)
    (few : count ≤ env.limits.maxRepeatCount.toNat) :
    Spends env state (cost.repeated count) reached where
  steps := spends.steps
  bounded := spends.bounded
  rounds := Nat.max_le.mpr ⟨few, spends.rounds⟩
  callDepth := spends.callDepth
  depth := spends.depth

end Spends

/-! ## How a run may end -/

def Complaint.diagnostic (complaint : Complaint) : Diagnostic where
  severity := .error
  span := complaint.node.span
  message := complaint.message

/-- The run has failed with a complaint. -/
structure ExecState.FailsAs (state : ExecState) (complaint : Complaint) : Prop where
  errored : state.errored = true
  cancelled : state.cancelled = false
  error : state.error = complaint.diagnostic

/-- A state tells of an outcome, and so do the values at hand. -/
inductive Tells (state : ExecState) : Verdict → Option (List Value) → Prop
  | done {values} : state.stopping = false → Tells state (.ok values) (some values)
  | failed {complaint found} : state.FailsAs complaint → Tells state (.error complaint) found

/-- What becomes of a phrase. -/
inductive Becomes (env : Env) (phrase : Phrase) (state : ExecState) (trace : Trace)
    (found : Option (List Value)) (reached : ExecState) : Prop
  | meant {cost outcome} :
      Means env.machine phrase state.scope cost trace.effects outcome reached.scope →
      Spends env state cost reached → Tells reached outcome found →
      Becomes env phrase state trace found reached
  | limited {complaint} :
      complaint.message ∈ limitMessages → reached.FailsAs complaint →
      Becomes env phrase state trace found reached
  | cancelled : reached.cancelled = true → Becomes env phrase state trace found reached

theorem ExecState.FailsAs.stopping {state : ExecState} {complaint : Complaint}
    (fails : state.FailsAs complaint) : state.stopping = true := by
  rw [ExecState.stopping, fails.errored, Bool.true_or]

theorem failsAs_failed {state : ExecState} (going : state.stopping = false) (node : Node)
    (message : String) : (state.failed node message).FailsAs ⟨node, message⟩ where
  errored := rfl
  cancelled := (Bool.or_eq_false_iff.mp going).2
  error := rfl

/-- What ends is the same. -/
structure SameEnd (state other : ExecState) : Prop where
  errored : other.errored = state.errored
  cancelled : other.cancelled = state.cancelled
  error : other.error = state.error

theorem SameEnd.refl (state : ExecState) : SameEnd state state := ⟨rfl, rfl, rfl⟩

section Becomes

variable {env : Env} {phrase outer : Phrase} {state middle reached : ExecState}
variable {trace rest : Trace} {found result : Option (List Value)}

theorem Tells.going {outcome : Verdict} (tells : Tells reached outcome found)
    (going : reached.stopping = false) : ∃ values, outcome = .ok values ∧ found = some values := by
  cases tells with
  | done _ => exact ⟨_, rfl, rfl⟩
  | failed fails => cases fails.stopping.symm.trans going

theorem Tells.stopped {outcome : Verdict} (tells : Tells reached outcome found)
    (stopped : reached.stopping = true) :
    ∃ complaint, outcome = .error complaint ∧ reached.FailsAs complaint := by
  cases tells with
  | done going => cases going.symm.trans stopped
  | failed fails => exact ⟨_, rfl, fails⟩

theorem Tells.map {outcome : Verdict} (tells : Tells reached outcome found)
    (change : List Value → List Value) : Tells reached (outcome.map change) (found.map change) := by
  cases tells with
  | done going => exact .done going
  | failed fails => exact .failed fails

theorem Tells.sameEnd {outcome : Verdict} (tells : Tells middle outcome found)
    (same : SameEnd middle reached) : Tells reached outcome found := by
  cases tells with
  | done going =>
      apply Tells.done
      rw [ExecState.stopping, same.errored, same.cancelled]
      exact going
  | failed fails =>
      exact .failed ⟨same.errored.trans fails.errored, same.cancelled.trans fails.cancelled,
        same.error.trans fails.error⟩

/-- What did not stop has values and a meaning. -/
theorem Becomes.going (becomes : Becomes env phrase state trace found reached)
    (going : reached.stopping = false) :
    ∃ cost values, found = some values ∧
      Means env.machine phrase state.scope cost trace.effects (.ok values) reached.scope ∧
      Spends env state cost reached := by
  cases becomes with
  | meant means spends tells =>
      rcases tells.going going with ⟨values, rfl, rfl⟩
      exact ⟨_, values, rfl, means, spends⟩
  | limited _ fails => cases fails.stopping.symm.trans going
  | cancelled flag =>
      rw [ExecState.stopping, flag, Bool.or_true] at going
      cases going

/-- Where a part stops, the whole stops in the same way. -/
theorem Becomes.halts (becomes : Becomes env phrase middle rest found reached)
    (stopped : reached.stopping = true)
    (rule : ∀ more complaint,
      Means env.machine phrase middle.scope more rest.effects (.error complaint) reached.scope →
      Spends env middle more reached →
      ∃ cost, Means env.machine outer state.scope cost trace.effects (.error complaint)
          reached.scope ∧
        Spends env state cost reached) :
    Becomes env outer state trace result reached := by
  cases becomes with
  | meant means spends tells =>
      rcases tells.stopped stopped with ⟨complaint, rfl, fails⟩
      rcases rule _ _ means spends with ⟨cost, meansAll, spendsAll⟩
      exact .meant meansAll spendsAll (.failed fails)
  | limited listed fails => exact .limited listed fails
  | cancelled flag => exact .cancelled flag

/-- As above, for the first part. -/
theorem Becomes.halt (becomes : Becomes env phrase state trace found reached)
    (stopped : reached.stopping = true)
    (rule : ∀ cost complaint,
      Means env.machine phrase state.scope cost trace.effects (.error complaint) reached.scope →
      Means env.machine outer state.scope cost trace.effects (.error complaint) reached.scope) :
    Becomes env outer state trace result reached :=
  becomes.halts stopped fun _ _ means spends => ⟨_, rule _ _ means, spends⟩

/-- The last part of a phrase decides what becomes of it. -/
theorem Becomes.conclude {change : List Value → List Value}
    (becomes : Becomes env phrase middle rest found reached) {final : ExecState}
    (same : SameEnd reached final)
    (rule : ∀ more outcome,
      Means env.machine phrase middle.scope more rest.effects outcome reached.scope →
      Spends env middle more reached →
      ∃ cost, Means env.machine outer state.scope cost trace.effects (outcome.map change)
          final.scope ∧
        Spends env state cost final) :
    Becomes env outer state trace (found.map change) final := by
  cases becomes with
  | meant means spends tells =>
      rcases rule _ _ means spends with ⟨cost, meansAll, spendsAll⟩
      exact .meant meansAll spendsAll ((tells.map change).sameEnd same)
  | limited listed fails =>
      exact .limited listed ⟨same.errored.trans fails.errored, same.cancelled.trans fails.cancelled,
        same.error.trans fails.error⟩
  | cancelled flag => exact .cancelled (same.cancelled.trans flag)

/-- As above, for values that are those of the last part. -/
theorem Becomes.finish (becomes : Becomes env phrase middle rest found reached)
    (rule : ∀ more outcome,
      Means env.machine phrase middle.scope more rest.effects outcome reached.scope →
      Spends env middle more reached →
      ∃ cost, Means env.machine outer state.scope cost trace.effects outcome reached.scope ∧
        Spends env state cost reached) :
    Becomes env outer state trace found reached := by
  have all : Becomes env outer state trace (found.map id) reached := by
    apply becomes.conclude (.refl _)
    intro more outcome means spends
    rw [show outcome.map id = outcome by cases outcome <;> rfl]
    exact rule more outcome means spends
  rwa [Option.map_id] at all

end Becomes

/-! ## Operands and rows -/

/-- Every evaluation by `eval` that starts has a meaning, a limit or is cancelled. -/
def Sound (env : Env) (eval : Eval) : Prop :=
  ∀ node state trace value reached, state.stopping = false →
    Performs (eval node) state trace value reached →
    Becomes env (.expr node) state trace (some [value]) reached

section Parts

variable {env : Env} {eval : Eval} {node : Node}
variable {state reached : ExecState} {trace : Trace} {value : Value}

theorem Sound.goes (sound : Sound env eval) (going : state.stopping = false)
    (run : Performs (eval node) state trace value reached) (goes : reached.stopping = false) :
    ∃ cost, Means env.machine (.expr node) state.scope cost trace.effects (.ok [value])
        reached.scope ∧
      Spends env state cost reached := by
  rcases (sound _ _ _ _ _ going run).going goes with ⟨cost, values, equal, means, spends⟩
  cases equal
  exact ⟨cost, means, spends⟩

theorem Gathers.goes {values found : List Value} {rest : List Node}
    (going : state.stopping = false)
    (gathers : Gathers env eval node values rest state trace (some found) reached) :
    reached.stopping = false := by
  generalize wanted : some found = result at gathers
  induction gathers with
  | read => exact going
  | next marks _ goes _ _ _ _ induction => exact induction goes wanted
  | _ => cases wanted

theorem Gathers.stops {values : List Value} {rest : List Node}
    (gathers : Gathers env eval node values rest state trace none reached) :
    reached.stopping = true := by
  generalize wanted : none = result at gathers
  induction gathers with
  | read => cases wanted
  | halt _ stopped => exact stopped
  | object => rfl
  | next marks _ _ _ _ _ _ induction => exact induction wanted

theorem Gathers.becomes (sound : Sound env eval) {values : List Value} {rest : List Node}
    {found : Option (List Value)} (going : state.stopping = false)
    (gathers : Gathers env eval node values rest state trace found reached) :
    Becomes env (.operands node values rest) state trace found reached := by
  induction gathers with
  | read => exact .meant .read (.nothing _) (.done going)
  | halt head stopped =>
      exact (sound _ _ _ _ _ going head).halt stopped fun _ _ means => .readStop means
  | object head goes objection =>
      rcases sound.goes going head goes with ⟨cost, means, spends⟩
      refine .meant ?_ (spends.keeps rfl rfl) (.failed (failsAs_failed goes _ _))
      rw [effects_append, effects_emit, effects_nil, List.append_nil, scope_failed]
      exact .readObject means objection
  | next marks head goes objection combines _ _ induction =>
      rcases sound.goes going head goes with ⟨cost, means, spends⟩
      apply (induction goes).finish
      intro more outcome next nextSpends
      refine ⟨_, ?_, spends.andThen nextSpends⟩
      rw [effects_append, effects_append, effects_marks, List.append_nil]
      exact .readNext means objection combines next

theorem RowRuns.becomes (sound : Sound env eval) {nodes : List Node}
    {found : Option (List Value)} (going : state.stopping = false)
    (row : RowRuns eval nodes state trace found reached) :
    Becomes env (.row nodes) state trace found reached := by
  induction row with
  | finish => exact .meant .rowEnd (.nothing _) (.done going)
  | halt head stopped =>
      exact (sound _ _ _ _ _ going head).halt stopped fun _ _ means => .rowStop means
  | next head goes _ induction =>
      rcases sound.goes going head goes with ⟨cost, means, spends⟩
      apply (induction goes).conclude (.refl _)
      intro more outcome next nextSpends
      refine ⟨_, ?_, spends.andThen nextSpends⟩
      rw [effects_append]
      exact .rowNext means next

/-- A failure at a limit. -/
theorem becomes_limited {phrase : Phrase} {found : Option (List Value)} {message : String}
    {middle : ExecState} {rest : Trace} (listed : message ∈ limitMessages)
    (going : middle.stopping = false)
    (run : Performs (fail node message) middle rest value reached) :
    Becomes env phrase state trace found reached := by
  rcases performs_fail.mp run with ⟨-, -, rfl⟩
  exact .limited listed (failsAs_failed going _ _)

/-- The operands are read, and what comes then becomes of the whole. -/
theorem ReadsFirst.becomes
    {finish : List Value → ExecState → Trace → Value → ExecState → Prop}
    (sound : Sound env eval) (going : state.stopping = false) (form : node.form ≠ .loop)
    (fine : env.machine.objection state.scope node [] = none)
    (reads : ReadsFirst env eval node finish state trace value reached)
    (ends : ∀ {first values middle rest cost}, middle.stopping = false →
      Means env.machine (.operands node [] node.operands) state.scope cost (Trace.effects first)
        (.ok values) middle.scope →
      Spends env state cost middle → finish values middle rest value reached →
      Becomes env (.work node) state (first ++ rest) (some [value]) reached) :
    Becomes env (.work node) state trace (some [value]) reached := by
  cases reads with
  | refused gathers =>
      exact (gathers.becomes sound going).halt gathers.stops fun _ _ means =>
        .refuse fine form means
  | read gathers last =>
      have goes := gathers.goes going
      rcases (gathers.becomes sound going).going goes with ⟨cost, found, equal, means, spends⟩
      cases equal
      exact ends goes means spends last

/-! ## Forms -/

theorem objection_nil (scope : Scope) (values : node.form ≠ .value) (call : node.form ≠ .call) :
    env.machine.objection scope node [] = none := by
  rw [Node.form] at values call
  rw [Machine.objection]
  cases kind : node.kind <;> rw [kind] at values call <;> first
    | rfl
    | exact absurd rfl values
    | exact absurd rfl call

theorem command_becomes (sound : Sound env eval) {fuel : Nat} (going : state.stopping = false)
    (form : node.form = .command)
    (run : Performs (evalInner env eval fuel node) state trace value reached) :
    Becomes env (.work node) state trace (some [value]) reached := by
  have fine := @objection_nil env node state.scope (by rw [form]; decide) (by rw [form]; decide)
  apply (command_reads form run).becomes sound going (by rw [form]; decide) fine
  intro first values middle rest cost goes means spends calls
  rcases calls with ⟨call, makes, rfl, rfl, rfl⟩
  refine .meant ?_ spends (.done goes)
  rw [effects_append, effects_command, effects_nil]
  exact .command form means makes

theorem value_becomes (sound : Sound env eval) {fuel : Nat} (going : state.stopping = false)
    (form : node.form = .value) (fine : env.machine.objection state.scope node [] = none)
    (run : Performs (evalInner env eval fuel node) state trace value reached) :
    Becomes env (.work node) state trace (some [value]) reached := by
  apply (value_reads form fine run).becomes sound going (by rw [form]; decide) fine
  intro first values middle rest cost goes means spends computes
  rcases computes with ⟨computed, silent, rfl⟩
  refine .meant ?_ spends (.done goes)
  rw [effects_append, silent.effects, List.append_nil]
  exact .value fine form means computed

theorem define_keeps (state : ExecState) (name : String) (value : Value) :
    (state.define name value).stopping = state.stopping ∧
      (state.define name value).steps = state.steps ∧
      (state.define name value).callDepth = state.callDepth := by
  rw [ExecState.define]
  split <;> exact ⟨rfl, rfl, rfl⟩

theorem assign_keeps (state : ExecState) (name : String) (value : Value) :
    (state.assign name value).stopping = state.stopping ∧
      (state.assign name value).steps = state.steps ∧
      (state.assign name value).callDepth = state.callDepth := by
  rw [ExecState.assign]
  split
  · exact ⟨rfl, rfl, rfl⟩
  · split <;> exact ⟨rfl, rfl, rfl⟩

theorem definition_becomes (sound : Sound env eval) (going : state.stopping = false)
    (kind : node.kind = .defineVar)
    (run : Performs (evalDefineVar eval node) state trace value reached) :
    Becomes env (.work node) state trace (some [value]) reached := by
  have form : node.form = .definition := by
    rw [Node.form, kind]
  have fine := @objection_nil env node state.scope (by rw [form]; decide) (by rw [form]; decide)
  apply (definition_reads kind run).becomes sound going (by rw [form]; decide) fine
  intro first values middle rest cost goes means spends stores
  rcases stores with ⟨rfl, rfl, rfl⟩
  rcases define_keeps middle node.op value with ⟨flags, steps, callDepth⟩
  refine .meant ?_ (spends.keeps steps callDepth) (.done (flags.trans goes))
  rw [List.append_nil, scope_define]
  exact .define form means

theorem assignment_becomes (sound : Sound env eval) (going : state.stopping = false)
    (kind : node.kind = .setVar)
    (run : Performs (evalSetVar eval node) state trace value reached) :
    Becomes env (.work node) state trace (some [value]) reached := by
  have form : node.form = .assignment := by
    rw [Node.form, kind]
  have fine := @objection_nil env node state.scope (by rw [form]; decide) (by rw [form]; decide)
  apply (assignment_reads kind run).becomes sound going (by rw [form]; decide) fine
  intro first values middle rest cost goes means spends stores
  rcases stores with ⟨rfl, rfl, rfl⟩
  rcases assign_keeps middle node.op value with ⟨flags, steps, callDepth⟩
  refine .meant ?_ (spends.keeps steps callDepth) (.done (flags.trans goes))
  rw [List.append_nil, scope_assign]
  exact .assign form means

/-- A form that ends with a row yields the value of its last expression. -/
theorem RowRuns.decides {nodes : List Node} {found : Option (List Value)} {outer : Phrase}
    {middle final : ExecState} {rest : Trace} (sound : Sound env eval)
    (going : middle.stopping = false) (row : RowRuns eval nodes middle rest found reached)
    (last : ∀ values, found = some values → [value] = lastValue values)
    (same : SameEnd reached final)
    (rule : ∀ more outcome,
      Means env.machine (.row nodes) middle.scope more rest.effects outcome reached.scope →
      Spends env middle more reached →
      ∃ cost, Means env.machine outer state.scope cost trace.effects (outcome.map lastValue)
          final.scope ∧
        Spends env state cost final) :
    Becomes env outer state trace (some [value]) final := by
  have all : Becomes env outer state trace (found.map lastValue) final :=
    (row.becomes sound going).conclude same rule
  cases all with
  | meant means spends tells =>
      refine .meant means spends ?_
      generalize told : found.map lastValue = result at tells
      cases tells with
      | done goes =>
          cases found with
          | none => cases told
          | some values =>
              cases told
              rw [← last values rfl]
              exact .done goes
      | failed fails => exact .failed fails
  | limited listed fails => exact .limited listed fails
  | cancelled flag => exact .cancelled flag

theorem call_becomes (sound : Sound env eval) (going : state.stopping = false)
    (kind : node.kind = .call) {function : Node} (defined : env.functions node.op = some function)
    (run : Performs (callFunction env eval node) state trace value reached) :
    Becomes env (.work node) state trace (some [value]) reached := by
  have form : node.form = .call := by
    rw [Node.form, kind]
  have fine : env.machine.objection state.scope node [] = none := by
    rw [Machine.objection, kind]
    dsimp only
    rw [show env.machine.functions node.op = some function from defined]
    rfl
  apply (call_reads kind defined run).becomes sound going (by rw [form]; decide) fine
  intro first values middle rest cost goes means spends enters
  rcases enters with ⟨-, failRun⟩ | ⟨shallow, body, last, bodyRun, rfl, rfl⟩
  · exact becomes_limited (by decide) goes failRun
  · rcases evalBody_row _ bodyRun with ⟨found, row, lastOf⟩
    have same : SameEnd last (last.leave middle.locals) := ⟨rfl, rfl, rfl⟩
    apply row.decides sound (by exact goes) lastOf same
    intro more outcome inner innerSpends
    refine ⟨_, ?_, spends.andThen (innerSpends.called shallow)⟩
    have effects : Trace.effects (first ++ (.mark (.enterCall function values) :: body ++
        [.mark .exitCall])) = Trace.effects first ++ Trace.effects body := by
      simp
    rw [effects]
    exact .call form defined means inner

theorem block_becomes (sound : Sound env eval) (going : state.stopping = false)
    (kind : node.kind = .doForm)
    (run : Performs (evalSequence eval node.children .none) state trace value reached) :
    Becomes env (.work node) state trace (some [value]) reached := by
  have form : node.form = .block := by
    rw [Node.form, kind]
  rcases evalSequence_row _ run with ⟨found, row, lastOf⟩
  apply row.decides sound going lastOf (.refl _)
  intro more outcome inner innerSpends
  exact ⟨_, .block form inner, innerSpends⟩

theorem skipChildren_run (nodes : List Node) {nothing : Unit}
    (run : Performs (skipChildren nodes) state trace nothing reached) :
    trace.Shows [] ∧ reached = state := by
  induction nodes generalizing trace with
  | nil =>
      rcases performs_pure.mp run with ⟨rfl, -, rfl⟩
      exact ⟨shows_nil, rfl⟩
  | cons child rest induction =>
      rcases performs_afterSkipped.mp run with ⟨tail, tailRun, rfl⟩
      rcases induction tailRun with ⟨silent, same⟩
      exact ⟨((shows_emit _ _ _).alike tail).showing silent, same⟩

theorem conditional_becomes (sound : Sound env eval) (going : state.stopping = false)
    (kind : node.kind = .whenForm)
    (run : Performs (evalWhen eval node) state trace value reached) :
    Becomes env (.work node) state trace (some [value]) reached := by
  have form : node.form = .conditional := by
    rw [Node.form, kind]
  have fine := @objection_nil env node state.scope (by rw [form]; decide) (by rw [form]; decide)
  apply (conditional_reads kind run).becomes sound going (by rw [form]; decide) fine
  intro first values middle rest cost goes means spends passes
  rcases passes with ⟨condition, rfl, nextRun⟩
  rw [whenNext] at nextRun
  split at nextRun
  next holds =>
    rcases evalSequence_row _ nextRun with ⟨found, row, lastOf⟩
    apply row.decides sound goes lastOf (.refl _)
    intro more outcome inner innerSpends
    refine ⟨_, ?_, spends.andThen innerSpends⟩
    rw [effects_append]
    exact .enter form means holds inner
  next fails =>
    rcases performs_bind.mp nextRun with ⟨skips, nothing, after, last, skipRun, endRun, rfl⟩
    rcases performs_pure.mp endRun with ⟨rfl, rfl, rfl⟩
    rcases skipChildren_run _ skipRun with ⟨silent, rfl⟩
    refine .meant ?_ spends (.done goes)
    rw [List.append_nil, effects_append, silent.effects, List.append_nil]
    exact .skip form means (Bool.eq_false_iff.mpr fails)

theorem branch_becomes (sound : Sound env eval) (going : state.stopping = false)
    (kind : node.kind = .ifForm)
    (run : Performs (evalIf eval node) state trace value reached) :
    Becomes env (.work node) state trace (some [value]) reached := by
  have form : node.form = .branch := by
    rw [Node.form, kind]
  have fine := @objection_nil env node state.scope (by rw [form]; decide) (by rw [form]; decide)
  apply (branch_reads kind run).becomes sound going (by rw [form]; decide) fine
  intro first values middle rest cost goes means spends passes
  rcases passes with ⟨condition, rfl, nextRun⟩
  rw [ifNext, performs_withArg] at nextRun
  rcases nextRun with ⟨skipped, other, nextRun⟩
  rw [performs_afterSkipped] at nextRun
  rcases nextRun with ⟨tail, nextRun, rfl⟩
  rw [performs_withArg] at nextRun
  rcases nextRun with ⟨taken, chosen, takenRun⟩
  have becomes := sound _ _ _ _ _ goes takenRun
  apply becomes.finish
  intro more outcome inner innerSpends
  refine ⟨_, ?_, spends.andThen innerSpends⟩
  rw [effects_append, effects_emit]
  cases holds : condition.truthy with
  | true =>
      rw [holds] at other chosen
      apply Means.branch form chosen other means
      rw [holds]
      exact inner
  | false =>
      rw [holds] at other chosen
      apply Means.branch form other chosen means
      rw [holds]
      exact inner

/-! ## Loops -/

theorem junctionLoop_becomes (sound : Sound env eval) (rest : List Node)
    (going : state.stopping = false)
    (run : Performs (booleanLoop eval (node.op = "and") rest) state trace value reached) :
    Becomes env (.junction node rest) state trace (some [value]) reached := by
  induction rest generalizing state trace with
  | nil =>
      rcases performs_pure.mp run with ⟨rfl, rfl, rfl⟩
      exact .meant .junctionEnd (.nothing _) (.done going)
  | cons arg rest induction =>
      rw [booleanLoop_cons] at run
      cases performs_body run with
      | halted head stopped =>
          exact (sound _ _ _ _ _ going head).halt stopped fun _ _ means => .junctionStop means
      | @went first held middle more _ _ head goes nextRun =>
          rcases sound.goes going head goes with ⟨cost, means, spends⟩
          split at nextRun
          next decides =>
            rcases performs_pure.mp nextRun with ⟨rfl, rfl, rfl⟩
            rw [List.append_nil]
            exact .meant (.junctionDecide means decides) spends (.done goes)
          next undecided =>
            apply (induction goes nextRun).finish
            intro tail outcome inner innerSpends
            rw [effects_append]
            exact ⟨_, .junctionNext means (Bool.eq_false_iff.mpr undecided) inner,
              spends.andThen innerSpends⟩

theorem repeatLoop_becomes (sound : Sound env eval) (count : Nat) {index : Nat}
    (going : state.stopping = false)
    (run : Performs (repeatLoop eval node count index) state trace value reached) :
    Becomes env (.rounds node count) state trace (some []) reached ∧ value = .none := by
  induction count generalizing state trace index with
  | zero =>
      cases repeatLoop_round run with
      | ended => exact ⟨.meant .roundsEnd (.nothing _) (.done going), rfl⟩
  | succ count induction =>
      cases repeatLoop_round run with
      | cut row stopped =>
          refine ⟨?_, rfl⟩
          apply (row.becomes sound going).halts stopped
          intro cost complaint means spends
          rw [effects_mark]
          exact ⟨_, .roundsStop means, spends⟩
      | again row goes restRun =>
          rcases induction goes restRun with ⟨becomes, same⟩
          refine ⟨?_, same⟩
          rcases (row.becomes sound going).going goes with ⟨cost, values, rfl, means, spends⟩
          apply becomes.finish
          intro more outcome inner innerSpends
          rw [List.cons_append, effects_mark, effects_append]
          exact ⟨_, .roundsNext means inner, spends.andThen innerSpends⟩

theorem counted_becomes (sound : Sound env eval) (going : state.stopping = false)
    (kind : node.kind = .repeatForm)
    (run : Performs (evalRepeat env eval node) state trace value reached) :
    Becomes env (.work node) state trace (some [value]) reached := by
  have form : node.form = .counted := by
    rw [Node.form, kind]
  have fine := @objection_nil env node state.scope (by rw [form]; decide) (by rw [form]; decide)
  apply (counted_reads kind run).becomes sound going (by rw [form]; decide) fine
  intro first values middle rest cost goes means spends counting
  rcases counting with ⟨count, rfl, nextRun⟩
  split at nextRun
  next => exact becomes_limited (by decide) goes nextRun
  next few =>
    rcases repeatLoop_becomes sound _ goes nextRun with ⟨becomes, rfl⟩
    have all : Becomes env (.work node) state (first ++ rest)
        ((some ([] : List Value)).map fun _ => [.none]) reached := by
      apply becomes.conclude (.refl _)
      intro more outcome inner innerSpends
      rw [effects_append]
      exact ⟨_, .counted form means inner,
        spends.andThen (innerSpends.repeated (Nat.not_lt.mp few))⟩
    exact all

theorem whileLoop_becomes (sound : Sound env eval) (fuel : Nat) (going : state.stopping = false)
    (kind : node.kind = .whileForm)
    (run : Performs (whileLoop env eval node fuel) state trace value reached) :
    Becomes env (.work node) state trace (some [value]) reached := by
  have form : node.form = .loop := by
    rw [Node.form, kind]
  induction fuel generalizing state trace with
  | zero => cases run
  | succ fuel induction =>
      cases whileLoop_round kind run with
      | limited _ failRun => exact becomes_limited (by decide) going failRun
      | refused room gathers =>
          apply (gathers.becomes sound (by exact going)).halts gathers.stops
          intro cost complaint means spends
          rw [effects_mark]
          exact ⟨_, .loopRefuse form means, (Spends.tick room).andThen spends⟩
      | left room gathers fails =>
          have goes := gathers.goes (by exact going)
          rcases (gathers.becomes sound (by exact going)).going goes with
            ⟨cost, _, equal, means, spends⟩
          cases equal
          exact .meant (.loopEnd form means fails) ((Spends.tick room).andThen spends) (.done goes)
      | cut room gathers holds row stopped =>
          have goes := gathers.goes (by exact going)
          rcases (gathers.becomes sound (by exact going)).going goes with
            ⟨cost, _, equal, means, spends⟩
          cases equal
          apply (row.becomes sound goes).halts stopped
          intro more complaint body bodySpends
          rw [List.cons_append, effects_mark, effects_append]
          exact ⟨_, .loopStop form means holds body,
            (Spends.tick room).andThen (spends.andThen bodySpends)⟩
      | again room gathers holds row goesOn restRun =>
          have goes := gathers.goes (by exact going)
          rcases (gathers.becomes sound (by exact going)).going goes with
            ⟨cost, _, equal, means, spends⟩
          cases equal
          rcases (row.becomes sound goes).going goesOn with ⟨more, values, rfl, body, bodySpends⟩
          apply (induction goesOn restRun).finish
          intro last outcome inner innerSpends
          refine ⟨_, ?_, (Spends.tick room).andThen
            ((spends.andThen bodySpends).andThen innerSpends)⟩
          rw [List.cons_append, List.cons_append, effects_mark, effects_append, effects_append]
          exact .loopNext form means holds body inner

/-! ## Evaluation -/

theorem work_becomes (sound : Sound env eval) {fuel : Nat} (going : state.stopping = false)
    (run : Performs (evalInner env eval fuel node) state trace value reached) :
    Becomes env (.work node) state trace (some [value]) reached := by
  cases objection : env.machine.objection state.scope node [] with
  | some message =>
      rcases performs_fail.mp (inner_objects objection run) with ⟨rfl, -, rfl⟩
      refine .meant ?_ ((Spends.nothing state).keeps rfl rfl) (.failed (failsAs_failed going _ _))
      exact .object objection
  | none =>
      have isCommand (form : node.form = .command) := command_becomes sound going form run
      have isValue (form : node.form = .value) := value_becomes sound going form objection run
      have isSensor (form : node.form = .sensor) :
          Becomes env (.work node) state trace (some [value]) reached := by
        rcases sensor_run form run with ⟨reading, kind, rfl, rfl, rfl⟩
        exact .meant (.sense form kind) (.nothing _) (.done going)
      rw [evalInner] at run
      cases kind : node.kind with
      | doForm =>
          rw [kind] at run
          exact block_becomes sound going kind run
      | repeatForm =>
          rw [kind] at run
          exact counted_becomes sound going kind run
      | whenForm =>
          rw [kind] at run
          exact conditional_becomes sound going kind run
      | ifForm =>
          rw [kind] at run
          exact branch_becomes sound going kind run
      | whileForm =>
          rw [kind] at run
          exact whileLoop_becomes sound fuel going kind run
      | defineVar =>
          rw [kind] at run
          exact definition_becomes sound going kind run
      | setVar =>
          rw [kind] at run
          exact assignment_becomes sound going kind run
      | call =>
          rw [kind] at run
          cases defined : env.functions node.op with
          | none =>
              rw [Machine.objection, kind] at objection
              dsimp only at objection
              rw [show env.machine.functions node.op = none from defined] at objection
              cases objection
          | some function => exact call_becomes sound going kind defined run
      | booleanOp =>
          rw [Node.form, kind] at isValue
          dsimp only at isValue
          split at isValue
          next => exact isValue rfl
          next joins =>
            have form : node.form = .junction := by
              rw [Node.form, kind]
              exact if_neg joins
            rw [kind] at run
            dsimp only at run
            rw [evalBoolean, if_neg joins] at run
            apply (junctionLoop_becomes sound node.args going run).finish
            exact fun more outcome means spends => ⟨_, .junction form means, spends⟩
      | defineFunc | varRef | compare | arithmetic | integerLiteral | booleanLiteral
        | colorLiteral =>
          apply isValue
          rw [Node.form, kind]
      | drive | backward | turnLeft | turnRight | stop | wait | light | beep =>
          apply isCommand
          rw [Node.form, kind]
      | distanceCm | button | lineLeft | lineRight =>
          apply isSensor
          rw [Node.form, kind]

end Parts

theorem eval_sound (env : Env) (fuel : Nat) : Sound env (eval env fuel) := by
  induction fuel with
  | zero =>
      intro node state trace value reached going run
      cases run
  | succ fuel induction =>
      intro node state trace value reached going run
      cases eval_run going run with
      | cancelled flag => exact .cancelled flag
      | exhausted lit full failRun => exact becomes_limited (by decide) going failRun
      | lit lit room workRun seen =>
          apply (work_becomes induction (by exact going) workRun).finish
          intro more outcome means spends
          rw [seen.effects]
          refine ⟨_, .expr means, ?_⟩
          rw [show node.charge = .step from if_pos lit]
          exact (Spends.tick room).andThen spends
      | plain unlit workRun seen =>
          apply (work_becomes induction going workRun).finish
          intro more outcome means spends
          rw [seen.effects]
          refine ⟨_, .expr means, ?_⟩
          rw [show node.charge = {} from if_neg unlit]
          exact (Spends.nothing _).andThen spends

end CardCode
