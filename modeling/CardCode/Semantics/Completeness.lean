import CardCode.Foundation.Answers
import CardCode.Semantics.Soundness

/-! # Meanings are run

Whatever an expression means, it does, if the limits leave room for it, whenever the sensors
say what it means them to say.
-/

namespace CardCode

open Process

def Effect.reading? : Effect → Option SensorReading
  | .command _ => none
  | .reading found => some found

/-- What the sensors have said. -/
def readingsOf (effects : List Effect) : List SensorReading :=
  effects.filterMap Effect.reading?

@[simp] theorem readingsOf_append (first second : List Effect) :
    readingsOf (first ++ second) = readingsOf first ++ readingsOf second :=
  List.filterMap_append

/-- A run of what a phrase is about, with any fuel. -/
def PhraseRuns (env : Env) (phrase : Phrase) (state : ExecState) (trace : Trace)
    (found : Option (List Value)) (reached : ExecState) : Prop :=
  match phrase with
  | .expr node =>
      ∃ fuel value, found = some [value] ∧ Performs (eval env fuel node) state trace value reached
  | .work node =>
      ∃ fuel rounds value, found = some [value] ∧
        Performs (evalInner env (eval env fuel) rounds node) state trace value reached
  | .row nodes => ∃ fuel, RowRuns (eval env fuel) nodes state trace found reached
  | .operands node values rest =>
      ∃ fuel, Gathers env (eval env fuel) node values rest state trace found reached
  | .rounds node count =>
      found = some [] ∧ ∃ fuel index value,
        Performs (repeatLoop (eval env fuel) node count index) state trace value reached
  | .junction node rest =>
      ∃ fuel value, found = some [value] ∧
        Performs (booleanLoop (eval env fuel) (node.op = "and") rest) state trace value reached

/-- The limits leave room for what is to be spent. -/
structure Affords (env : Env) (state : ExecState) (cost : Cost) : Prop where
  steps : state.steps.toNat + cost.steps ≤ env.limits.maxTotalSteps.toNat
  rounds : cost.rounds ≤ env.limits.maxRepeatCount.toNat
  depth : state.callDepth.toNat + cost.depth ≤ env.limits.maxCallDepth.toNat

/-- The run did just this. -/
structure Delivers (env : Env) (state : ExecState) (cost : Cost) (effects : List Effect)
    (outcome : Verdict) (scope : Scope) (trace : Trace) (found : Option (List Value))
    (reached : ExecState) : Prop where
  shows : trace.Shows effects
  scope : reached.scope = scope
  spends : Spends env state cost reached
  tells : Tells reached outcome found

/-- A run that starts unhindered, with room enough, is not cancelled and has the readings
it is to have. -/
structure Fair (env : Env) (state : ExecState) (scope : Scope) (cost : Cost)
    (effects : List Effect) (trace : Trace) (reached : ExecState) : Prop where
  scope : state.scope = scope
  going : state.stopping = false
  affords : Affords env state cost
  uncancelled : reached.cancelled = false
  agree : Agree SensorReading.kind (readingsOf trace.effects) (readingsOf effects)

/-- Every fair run does just this. -/
def Complies (env : Env) (phrase : Phrase) (scope : Scope) (cost : Cost) (effects : List Effect)
    (outcome : Verdict) (left : Scope) : Prop :=
  ∀ {state trace found reached}, PhraseRuns env phrase state trace found reached →
    Fair env state scope cost effects trace reached →
    Delivers env state cost effects outcome left trace found reached

section Parts

variable {env : Env} {phrase : Phrase} {state middle reached : ExecState} {scope left : Scope}
variable {cost more : Cost} {effects others : List Effect} {first rest trace : Trace}
variable {found : Option (List Value)} {values : List Value} {outcome : Verdict}

theorem Affords.before (affords : Affords env state (cost.andThen more)) :
    Affords env state cost where
  steps := by
    have below := affords.steps
    rw [Cost.andThen] at below
    dsimp only at below
    omega
  rounds := (Nat.max_le.mp affords.rounds).1
  depth := by
    have below := affords.depth
    rw [Cost.andThen] at below
    dsimp only at below
    omega

theorem Affords.after (affords : Affords env state (cost.andThen more))
    (spends : Spends env state cost middle) : Affords env middle more where
  steps := by
    have below := affords.steps
    rw [Cost.andThen] at below
    dsimp only at below
    rw [spends.steps]
    omega
  rounds := (Nat.max_le.mp affords.rounds).2
  depth := by
    have below := affords.depth
    rw [Cost.andThen] at below
    dsimp only at below
    rw [spends.callDepth]
    omega

theorem Affords.room (affords : Affords env state (Cost.step.andThen cost)) :
    state.steps < env.limits.maxTotalSteps := by
  have below := affords.before.steps
  rw [Cost.step] at below
  dsimp only at below
  rw [UInt32.lt_iff_toNat_lt]
  omega

theorem cancelled_of_going (going : state.stopping = false) : state.cancelled = false :=
  (Bool.or_eq_false_iff.mp going).2

/-- A part of a fair run is fair. -/
theorem Fair.front (fair : Fair env state scope (cost.andThen more) (effects ++ others)
      (first ++ rest) reached)
    (uncancelled : middle.cancelled = false) : Fair env state scope cost effects first middle where
  scope := fair.scope
  going := fair.going
  affords := fair.affords.before
  uncancelled := uncancelled
  agree := by
    have agree := fair.agree
    rw [effects_append, readingsOf_append, readingsOf_append] at agree
    exact agree.fronts

theorem Fair.only (fair : Fair env state scope (cost.andThen more) (effects ++ others) trace
      reached) : Fair env state scope cost effects trace reached := by
  rw [← List.append_nil trace] at fair
  exact fair.front fair.uncancelled

theorem Fair.cut (fair : Fair env state scope cost effects (first ++ rest) reached)
    (uncancelled : middle.cancelled = false) : Fair env state scope cost effects first middle where
  scope := fair.scope
  going := fair.going
  affords := fair.affords
  uncancelled := uncancelled
  agree := by
    have agree := fair.agree
    rw [effects_append, readingsOf_append, ← List.append_nil (readingsOf effects)] at agree
    exact agree.fronts

/-- The first part of a run did what it was meant to, so the rest is fair. -/
theorem Fair.back (fair : Fair env state scope (cost.andThen more) (effects ++ others)
      (first ++ rest) reached)
    (delivers : Delivers env state cost effects outcome left first found middle)
    (going : middle.stopping = false) : Fair env middle left more others rest reached where
  scope := delivers.scope
  going := going
  affords := fair.affords.after delivers.spends
  uncancelled := fair.uncancelled
  agree := by
    have agree := fair.agree
    rw [effects_append, delivers.shows.effects, readingsOf_append, readingsOf_append] at agree
    exact agree.backs

theorem Delivers.yields (delivers : Delivers env state cost effects (.ok values) left first found
      middle) : found = some values ∧ middle.stopping = false := by
  rcases delivers with ⟨_, _, _, tells⟩
  cases tells with
  | done going => exact ⟨rfl, going⟩

theorem Delivers.stops {complaint : Complaint}
    (delivers : Delivers env state cost effects (.error complaint) left first found middle) :
    middle.stopping = true := by
  rcases delivers with ⟨_, _, _, tells⟩
  cases tells with
  | failed fails => exact fails.stopping

/-- What failed has failed, whatever values are at hand. -/
theorem Delivers.failure {complaint : Complaint} {result : Option (List Value)}
    (delivers : Delivers env state cost effects (.error complaint) left first found middle) :
    Delivers env state cost effects (.error complaint) left first result middle := by
  rcases delivers with ⟨did, scope, spends, tells⟩
  cases tells with
  | failed fails => exact ⟨did, scope, spends, .failed fails⟩

/-- Two parts one after the other. -/
theorem Delivers.andThen {change : List Value → List Value} {between : Verdict}
    {result : Option (List Value)} {reach : Scope}
    (delivers : Delivers env state cost effects between reach first found middle)
    (last : Delivers env middle more others outcome left rest result reached) :
    Delivers env state (cost.andThen more) (effects ++ others) (outcome.map change) left
      (first ++ rest) (result.map change) reached where
  shows := delivers.shows.append last.shows
  scope := last.scope
  spends := delivers.spends.andThen last.spends
  tells := last.tells.map change

/-- As above, for the values of the last part. -/
theorem Delivers.follow {between : Verdict} {result : Option (List Value)} {reach : Scope}
    (delivers : Delivers env state cost effects between reach first found middle)
    (last : Delivers env middle more others outcome left rest result reached) :
    Delivers env state (cost.andThen more) (effects ++ others) outcome left (first ++ rest) result
      reached where
  shows := delivers.shows.append last.shows
  scope := last.scope
  spends := delivers.spends.andThen last.spends
  tells := last.tells

theorem Delivers.same (delivers : Delivers env state cost effects outcome left first found reached)
    (alike : trace.Alike first) :
    Delivers env state cost effects outcome left trace found reached :=
  { delivers with shows := alike.showing delivers.shows }

theorem Fair.same (fair : Fair env state scope cost effects trace reached)
    (alike : trace.Alike first) : Fair env state scope cost effects first reached :=
  { fair with agree := alike.effects ▸ fair.agree }

end Parts

/-! ## Rows and operands -/

section Cases

variable {env : Env} {scope left after : Scope} {cost more : Cost}
variable {effects others : List Effect} {outcome : Verdict} {node arg : Node}
variable {nodes rest : List Node} {value : Value} {values : List Value} {complaint : Complaint}

theorem complies_rowStop
    (head : Complies env (.expr node) scope cost effects (.error complaint) left) :
    Complies env (.row (node :: rest)) scope cost effects (.error complaint) left := by
  intro state trace found reached run fair
  rcases run with ⟨fuel, row⟩
  cases row with
  | halt run stopped => exact (head ⟨fuel, _, rfl, run⟩ fair).failure
  | next run goes tail =>
      have early := head ⟨fuel, _, rfl, run⟩ (fair.cut (cancelled_of_going goes))
      cases early.stops.symm.trans goes

theorem complies_rowNext
    (head : Complies env (.expr node) scope cost effects (.ok [value]) after)
    (tail : Complies env (.row rest) after more others outcome left) :
    Complies env (.row (node :: rest)) scope (cost.andThen more) (effects ++ others)
      (outcome.map (value :: ·)) left := by
  intro state trace found reached run fair
  rcases run with ⟨fuel, row⟩
  cases row with
  | halt run stopped =>
      have early := head ⟨fuel, _, rfl, run⟩ fair.only
      cases stopped.symm.trans early.yields.2
  | next run goes tailRun =>
      have first := head ⟨fuel, _, rfl, run⟩ (fair.front (cancelled_of_going goes))
      have equal := first.yields.1
      cases equal
      have last := tail ⟨fuel, tailRun⟩ (fair.back first goes)
      exact first.andThen last

theorem complies_readStop
    (head : Complies env (.expr arg) scope cost effects (.error complaint) left) :
    Complies env (.operands node values (arg :: rest)) scope cost effects (.error complaint)
      left := by
  intro state trace found reached run fair
  rcases run with ⟨fuel, gathers⟩
  cases gathers with
  | halt run stopped => exact (head ⟨fuel, _, rfl, run⟩ fair).failure
  | object run goes objection =>
      have early := head ⟨fuel, _, rfl, run⟩ (fair.cut (cancelled_of_going goes))
      cases early.stops.symm.trans goes
  | next marks run goes =>
      rw [List.append_assoc] at fair
      have early := head ⟨fuel, _, rfl, run⟩ (fair.cut (cancelled_of_going goes))
      cases early.stops.symm.trans goes

theorem complies_readObject {message : String}
    (head : Complies env (.expr arg) scope cost effects (.ok [value]) left)
    (objection : env.machine.objection left node (values ++ [value]) = some message) :
    Complies env (.operands node values (arg :: rest)) scope cost effects
      (.error ⟨node, message⟩) left := by
  intro state trace found reached run fair
  rcases run with ⟨fuel, gathers⟩
  cases gathers with
  | halt run stopped =>
      have early := head ⟨fuel, _, rfl, run⟩ fair
      cases stopped.symm.trans early.yields.2
  | object run goes objected =>
      have first := head ⟨fuel, _, rfl, run⟩ (fair.cut (cancelled_of_going goes))
      have equal := first.yields.1
      cases equal
      rw [first.scope, objection] at objected
      cases objected
      exact ⟨first.shows.followed (shows_emit _ _ _), first.scope, first.spends.keeps rfl rfl,
        .failed (failsAs_failed goes _ _)⟩
  | next marks run goes fine =>
      rw [List.append_assoc] at fair
      have first := head ⟨fuel, _, rfl, run⟩ (fair.cut (cancelled_of_going goes))
      have equal := first.yields.1
      cases equal
      rw [first.scope, objection] at fine
      cases fine

theorem complies_readNext
    (head : Complies env (.expr arg) scope cost effects (.ok [value]) after)
    (fine : env.machine.objection after node (values ++ [value]) = none)
    (untrapped : ¬ env.machine.TrapsAt node (values ++ [value]))
    (tail : Complies env (.operands node (values ++ [value]) rest) after more others outcome left) :
    Complies env (.operands node values (arg :: rest)) scope (cost.andThen more)
      (effects ++ others) outcome left := by
  intro state trace found reached run fair
  rcases run with ⟨fuel, gathers⟩
  cases gathers with
  | halt run stopped =>
      have early := head ⟨fuel, _, rfl, run⟩ fair.only
      cases stopped.symm.trans early.yields.2
  | object run goes objected =>
      have first := head ⟨fuel, _, rfl, run⟩ (fair.front (cancelled_of_going goes))
      have equal := first.yields.1
      cases equal
      rw [first.scope, fine] at objected
      cases objected
  | next marks run goes _ _ traps tailRun =>
      rw [List.append_assoc] at fair ⊢
      have first := head ⟨fuel, _, rfl, run⟩ (fair.front (cancelled_of_going goes))
      have equal := first.yields.1
      cases equal
      have silent : Trace.Shows (marks.map .mark) [] :=
        ⟨effects_marks marks, fun marked => untrapped (traps marked)⟩
      have last := tail ⟨fuel, tailRun⟩ ((fair.back first goes).same (silent.alike _))
      exact first.follow (last.same (silent.alike _))

/-! ## Forms -/

theorem Cost.andThen_nothing (cost : Cost) : cost.andThen {} = cost := by
  cases cost
  simp [Cost.andThen]

theorem Cost.andThen_assoc (first second third : Cost) :
    (first.andThen second).andThen third = first.andThen (second.andThen third) := by
  simp only [Cost.andThen, Nat.add_assoc, Nat.max_assoc]

/-- Where the operands are meant to have these values, they are read and have them. -/
theorem complies_reads {fuel : Nat}
    {finish : List Value → ExecState → Trace → Value → ExecState → Prop}
    {state reached : ExecState} {trace : Trace}
    (operands : Complies env (.operands node [] node.operands) scope cost effects (.ok values)
      after)
    (reads : ReadsFirst env (eval env fuel) node finish state trace value reached)
    (fair : Fair env state scope (cost.andThen more) (effects ++ others) trace reached) :
    ∃ first middle rest, trace = first ++ rest ∧ finish values middle rest value reached ∧
      Delivers env state cost effects (.ok values) after first (some values) middle ∧
      Fair env middle after more others rest reached := by
  cases reads with
  | refused gathers =>
      have early := operands ⟨fuel, gathers⟩ fair.only
      cases early.yields.1
  | read gathers ends =>
      have goes := gathers.goes fair.going
      have first := operands ⟨fuel, gathers⟩ (fair.front (cancelled_of_going goes))
      have equal := first.yields.1
      cases equal
      exact ⟨_, _, _, rfl, ends, first, fair.back first goes⟩

theorem complies_expr (work : Complies env (.work node) scope cost effects outcome left) :
    Complies env (.expr node) scope (node.charge.andThen cost) effects outcome left := by
  intro state trace found reached run fair
  rcases run with ⟨fuel, value, rfl, run⟩
  cases fuel with
  | zero => cases run
  | succ fuel =>
      cases eval_run fair.going run with
      | cancelled flag => cases flag.symm.trans fair.uncancelled
      | exhausted lit full =>
          have fair := fair.affords
          rw [show node.charge = .step from if_pos lit] at fair
          exact absurd full (UInt32.not_le.mpr fair.room)
      | lit lit room workRun seen =>
          have charge : node.charge = .step := if_pos lit
          have ticked : Spends env state node.charge state.tick := by
            rw [charge]
            exact .tick room
          have inner := work ⟨fuel, fuel, value, rfl, workRun⟩
            ⟨fair.scope, fair.going, fair.affords.after ticked, fair.uncancelled,
              seen.effects ▸ fair.agree⟩
          exact ⟨seen.showing inner.shows, inner.scope, ticked.andThen inner.spends, inner.tells⟩
      | plain unlit workRun seen =>
          have charge : node.charge = {} := if_neg unlit
          have still : Spends env state node.charge state := by
            rw [charge]
            exact .nothing _
          have inner := work ⟨fuel, fuel, value, rfl, workRun⟩
            ⟨fair.scope, fair.going, fair.affords.after still, fair.uncancelled,
              seen.effects ▸ fair.agree⟩
          exact ⟨seen.showing inner.shows, inner.scope, still.andThen inner.spends, inner.tells⟩

theorem complies_object {message : String}
    (objection : env.machine.objection scope node [] = some message) :
    Complies env (.work node) scope {} [] (.error ⟨node, message⟩) scope := by
  intro state trace found reached run fair
  rcases run with ⟨fuel, rounds, value, rfl, run⟩
  rw [← fair.scope] at objection
  rcases performs_fail.mp (inner_objects objection run) with ⟨rfl, -, rfl⟩
  exact ⟨shows_emit _ _ _, fair.scope, (Spends.nothing state).keeps rfl rfl,
    .failed (failsAs_failed fair.going _ _)⟩

/-- What comes after the operands, if anything, costs nothing. -/
theorem Fair.pad {state reached : ExecState} {trace : Trace}
    (fair : Fair env state scope cost (effects ++ others) trace reached) :
    Fair env state scope (cost.andThen {}) (effects ++ others) trace reached := by
  rw [Cost.andThen_nothing]
  exact fair

/-- Every form but `while` reads its operands first. -/
theorem inner_reads {eval : Eval} {fuel : Nat} {state reached : ExecState} {trace : Trace}
    (fine : env.machine.objection state.scope node [] = none) (form : node.form ≠ .loop)
    (run : Performs (evalInner env eval fuel node) state trace value reached) :
    node.operands = [] ∨
      ∃ finish, ReadsFirst env eval node finish state trace value reached := by
  have isCommand (form : node.form = .command) := command_reads form run
  have isValue (form : node.form = .value) := value_reads form fine run
  rw [evalInner] at run
  cases kind : node.kind with
  | repeatForm =>
      rw [kind] at run
      exact .inr ⟨_, counted_reads kind run⟩
  | whenForm =>
      rw [kind] at run
      exact .inr ⟨_, conditional_reads kind run⟩
  | ifForm =>
      rw [kind] at run
      exact .inr ⟨_, branch_reads kind run⟩
  | whileForm =>
      rw [Node.form, kind] at form
      exact absurd rfl form
  | defineVar =>
      rw [kind] at run
      exact .inr ⟨_, definition_reads kind run⟩
  | setVar =>
      rw [kind] at run
      exact .inr ⟨_, assignment_reads kind run⟩
  | call =>
      rw [kind] at run
      cases defined : env.functions node.op with
      | none =>
          rw [Machine.objection, kind] at fine
          dsimp only at fine
          rw [show env.machine.functions node.op = none from defined] at fine
          cases fine
      | some function => exact .inr ⟨_, call_reads kind defined run⟩
  | booleanOp =>
      by_cases negates : node.op = "not"
      · refine .inr ⟨_, isValue ?_⟩
        rw [Node.form, kind]
        exact if_pos negates
      · left
        rw [Node.operands, kind]
        exact if_neg negates
  | drive | backward | turnLeft | turnRight | stop | wait | light | beep =>
      refine .inr ⟨_, isCommand ?_⟩
      rw [Node.form, kind]
  | defineFunc | varRef | compare | arithmetic | integerLiteral | booleanLiteral | colorLiteral =>
      refine .inr ⟨_, isValue ?_⟩
      rw [Node.form, kind]
  | doForm | distanceCm | button | lineLeft | lineRight =>
      left
      rw [Node.operands, kind]

theorem complies_refuse (fine : env.machine.objection scope node [] = none)
    (form : node.form ≠ .loop)
    (operands : Complies env (.operands node [] node.operands) scope cost effects
      (.error complaint) left) :
    Complies env (.work node) scope cost effects (.error complaint) left := by
  intro state trace found reached run fair
  rcases run with ⟨fuel, rounds, value, rfl, run⟩
  rw [← fair.scope] at fine
  rcases inner_reads fine form run with none | ⟨finish, reads⟩
  · -- Without operands nothing is read, so nothing fails there.
    rw [none] at operands
    have early := operands ⟨fuel, .read⟩ ⟨fair.scope, fair.going, fair.affords,
      cancelled_of_going fair.going, .shorter⟩
    cases early.stops.symm.trans fair.going
  · cases reads with
    | refused gathers => exact (operands ⟨fuel, gathers⟩ fair).failure
    | read gathers =>
        have goes := gathers.goes fair.going
        have early := operands ⟨fuel, gathers⟩ (fair.cut (cancelled_of_going goes))
        cases early.stops.symm.trans goes

theorem complies_value (fine : env.machine.objection scope node [] = none)
    (form : node.form = .value)
    (operands : Complies env (.operands node [] node.operands) scope cost effects (.ok values)
      left)
    (computes : env.machine.valueOf left node values = some value) :
    Complies env (.work node) scope cost effects (.ok [value]) left := by
  intro state trace found reached run fair
  rcases run with ⟨fuel, rounds, result, rfl, run⟩
  rw [← fair.scope] at fine
  rw [← List.append_nil effects] at fair
  rcases complies_reads operands (value_reads form fine run) fair.pad with
    ⟨first, middle, rest, rfl, ends, done, next⟩
  rcases ends with ⟨computed, silent, rfl⟩
  rw [done.scope, computes] at computed
  cases computed
  exact ⟨done.shows.followed silent, done.scope, done.spends, .done next.going⟩

theorem complies_command {call : RobotCommand} (form : node.form = .command)
    (operands : Complies env (.operands node [] node.operands) scope cost effects (.ok values)
      left)
    (makes : node.robotCall values = some call) :
    Complies env (.work node) scope cost (effects ++ [.command call]) (.ok [.none]) left := by
  intro state trace found reached run fair
  rcases run with ⟨fuel, rounds, result, rfl, run⟩
  rcases complies_reads operands (command_reads form run) fair.pad with
    ⟨first, middle, rest, rfl, ends, done, next⟩
  rcases ends with ⟨made, makesToo, rfl, rfl, rfl⟩
  cases makes.symm.trans makesToo
  exact ⟨done.shows.append (shows_command _ _), done.scope, done.spends, .done next.going⟩

theorem complies_sense {reading : SensorReading} (form : node.form = .sensor)
    (kind : reading.kind = node.kind) :
    Complies env (.work node) scope {} [.reading reading] (.ok [reading.value]) scope := by
  intro state trace found reached run fair
  rcases run with ⟨fuel, rounds, result, rfl, run⟩
  rcases sensor_run form run with ⟨given, asked, rfl, rfl, rfl⟩
  have equal : given = reading := fair.agree.single (asked.trans kind.symm)
  cases equal
  exact ⟨shows_sensor _ _, fair.scope, .nothing _, .done fair.going⟩

theorem complies_define (form : node.form = .definition)
    (operands : Complies env (.operands node [] node.operands) scope cost effects (.ok [value])
      left) :
    Complies env (.work node) scope cost effects (.ok [value]) (left.define node.op value) := by
  intro state trace found reached run fair
  have kind : node.kind = .defineVar := kind_of_form form rfl
  rcases run with ⟨fuel, rounds, result, rfl, run⟩
  rw [evalInner, kind] at run
  rw [← List.append_nil effects] at fair
  rcases complies_reads operands (definition_reads kind run) fair.pad with
    ⟨first, middle, rest, rfl, ends, done, next⟩
  rcases ends with ⟨equal, rfl, rfl⟩
  cases equal
  rcases define_keeps middle node.op value with ⟨flags, steps, callDepth⟩
  refine ⟨done.shows.followed shows_nil, ?_, done.spends.keeps steps callDepth,
    .done (flags.trans next.going)⟩
  rw [scope_define, done.scope]

theorem complies_assign (form : node.form = .assignment)
    (operands : Complies env (.operands node [] node.operands) scope cost effects (.ok [value])
      left) :
    Complies env (.work node) scope cost effects (.ok [value]) (left.assign node.op value) := by
  intro state trace found reached run fair
  have kind : node.kind = .setVar := kind_of_form form rfl
  rcases run with ⟨fuel, rounds, result, rfl, run⟩
  rw [evalInner, kind] at run
  rw [← List.append_nil effects] at fair
  rcases complies_reads operands (assignment_reads kind run) fair.pad with
    ⟨first, middle, rest, rfl, ends, done, next⟩
  rcases ends with ⟨equal, rfl, rfl⟩
  cases equal
  rcases assign_keeps middle node.op value with ⟨flags, steps, callDepth⟩
  refine ⟨done.shows.followed shows_nil, ?_, done.spends.keeps steps callDepth,
    .done (flags.trans next.going)⟩
  rw [scope_assign, done.scope]

/-- A row whose last value is the value of the whole. -/
theorem complies_last {fuel : Nat} {state reached : ExecState} {trace : Trace}
    (row : Complies env (.row nodes) scope cost effects outcome left)
    (run : ∃ found, RowRuns (eval env fuel) nodes state trace found reached ∧
      ∀ values, found = some values → [value] = lastValue values)
    (fair : Fair env state scope cost effects trace reached) :
    Delivers env state cost effects (outcome.map lastValue) left trace (some [value]) reached := by
  rcases run with ⟨found, rowRun, last⟩
  have all := row ⟨fuel, rowRun⟩ fair
  cases outcome with
  | error complaint => exact all.failure
  | ok values =>
      rw [last values all.yields.1]
      exact ⟨all.shows, all.scope, all.spends, .done all.yields.2⟩

theorem complies_call {function : Node} (form : node.form = .call)
    (defined : env.functions node.op = some function)
    (operands : Complies env (.operands node [] node.operands) scope cost effects (.ok values)
      after)
    (body : Complies env (.row function.children) (after.callee function values) more others
      outcome left) :
    Complies env (.work node) scope (cost.andThen more.called) (effects ++ others)
      (outcome.map lastValue) (left.leave after) := by
  intro state trace found reached run fair
  have kind : node.kind = .call := kind_of_form form rfl
  rcases run with ⟨fuel, rounds, result, rfl, run⟩
  rw [evalInner, kind] at run
  rcases complies_reads operands (call_reads kind defined run) fair with
    ⟨first, middle, rest, rfl, ends, done, next⟩
  have shallow : middle.callDepth < env.limits.maxCallDepth := by
    have below := next.affords.depth
    rw [Cost.called] at below
    dsimp only at below
    rw [UInt32.lt_iff_toNat_lt]
    omega
  rcases ends with ⟨deep, -⟩ | ⟨-, inside, last, bodyRun, rfl, rfl⟩
  · exact absurd shallow (UInt32.not_lt.mpr deep)
  · have same : Trace.Alike (.mark (.enterCall function values) :: inside ++ [.mark .exitCall])
        inside := by
      constructor
      · simp
      · simp [Action.Traps]
    have entered : Fair env (middle.enter (bindParams function.params values fun _ => none))
        (after.callee function values) more others inside last := by
      refine ⟨?_, next.going, ⟨next.affords.steps, next.affords.rounds, ?_⟩, next.uncancelled,
        (next.same same).agree⟩
      · rw [← done.scope]
        rfl
      · have below := next.affords.depth
        rw [Cost.called] at below
        dsimp only at below
        rw [toNat_enter shallow]
        omega
    have all := complies_last body (evalBody_row _ bodyRun) entered
    have whole : Delivers env middle more.called others (outcome.map lastValue)
        (left.leave after) (.mark (.enterCall function values) :: inside ++ [.mark .exitCall])
        (some [result]) (last.leave middle.locals) := by
      refine ⟨same.showing all.shows, ?_, all.spends.called shallow, all.tells.sameEnd
        ⟨rfl, rfl, rfl⟩⟩
      rw [← all.scope, ← done.scope]
      rfl
    exact done.follow whole

theorem complies_block (form : node.form = .block)
    (row : Complies env (.row node.children) scope cost effects outcome left) :
    Complies env (.work node) scope cost effects (outcome.map lastValue) left := by
  intro state trace found reached run fair
  have kind : node.kind = .doForm := kind_of_form form rfl
  rcases run with ⟨fuel, rounds, result, rfl, run⟩
  rw [evalInner, kind] at run
  exact complies_last row (evalSequence_row _ run) fair

theorem complies_skip (form : node.form = .conditional)
    (operands : Complies env (.operands node [] node.operands) scope cost effects (.ok [value])
      left)
    (fails : value.truthy = false) :
    Complies env (.work node) scope cost effects (.ok [.none]) left := by
  intro state trace found reached run fair
  have kind : node.kind = .whenForm := kind_of_form form rfl
  rcases run with ⟨fuel, rounds, result, rfl, run⟩
  rw [evalInner, kind] at run
  rw [← List.append_nil effects] at fair
  rcases complies_reads operands (conditional_reads kind run) fair.pad with
    ⟨first, middle, rest, rfl, ends, done, next⟩
  rcases ends with ⟨condition, equal, nextRun⟩
  cases equal
  rw [whenNext, if_neg (by rw [fails]; decide)] at nextRun
  rcases performs_bind.mp nextRun with ⟨skips, nothing, last, ending, skipRun, endRun, rfl⟩
  rcases performs_pure.mp endRun with ⟨rfl, rfl, rfl⟩
  rcases skipChildren_run _ skipRun with ⟨silent, rfl⟩
  rw [List.append_nil]
  exact ⟨done.shows.followed silent, done.scope, done.spends, .done next.going⟩

theorem complies_enter (form : node.form = .conditional)
    (operands : Complies env (.operands node [] node.operands) scope cost effects (.ok [value])
      after)
    (holds : value.truthy = true)
    (row : Complies env (.row node.children) after more others outcome left) :
    Complies env (.work node) scope (cost.andThen more) (effects ++ others)
      (outcome.map lastValue) left := by
  intro state trace found reached run fair
  have kind : node.kind = .whenForm := kind_of_form form rfl
  rcases run with ⟨fuel, rounds, result, rfl, run⟩
  rw [evalInner, kind] at run
  rcases complies_reads operands (conditional_reads kind run) fair with
    ⟨first, middle, rest, rfl, ends, done, next⟩
  rcases ends with ⟨condition, equal, nextRun⟩
  cases equal
  rw [whenNext, if_pos holds] at nextRun
  exact done.follow (complies_last row (evalSequence_row _ nextRun) next)

theorem complies_branch {yes no : Node} (form : node.form = .branch)
    (foundYes : node.args[1]? = some yes) (foundNo : node.args[2]? = some no)
    (operands : Complies env (.operands node [] node.operands) scope cost effects (.ok [value])
      after)
    (taken : Complies env (.expr (if value.truthy then yes else no)) after more others outcome
      left) :
    Complies env (.work node) scope (cost.andThen more) (effects ++ others) outcome left := by
  intro state trace found reached run fair
  have kind : node.kind = .ifForm := kind_of_form form rfl
  rcases run with ⟨fuel, rounds, result, rfl, run⟩
  rw [evalInner, kind] at run
  rcases complies_reads operands (branch_reads kind run) fair with
    ⟨first, middle, rest, rfl, ends, done, next⟩
  rcases ends with ⟨condition, equal, nextRun⟩
  cases equal
  rw [ifNext, performs_withArg] at nextRun
  rcases nextRun with ⟨skipped, _, nextRun⟩
  rw [performs_afterSkipped] at nextRun
  rcases nextRun with ⟨tail, nextRun, rfl⟩
  rw [performs_withArg] at nextRun
  rcases nextRun with ⟨chosen, isChosen, takenRun⟩
  have equal : (if value.truthy then yes else no) = chosen := by
    split
    next holds =>
      rw [if_pos holds, foundYes] at isChosen
      exact Option.some.inj isChosen
    next fails =>
      rw [if_neg fails, foundNo] at isChosen
      exact Option.some.inj isChosen
  rw [equal] at taken
  have quiet := (shows_emit .nodeSkipped skipped skipped.op).alike tail
  have all := taken ⟨fuel, result, rfl, takenRun⟩ (next.same quiet)
  exact done.follow (all.same quiet)

/-! ## Loops -/

theorem complies_roundsEnd : Complies env (.rounds node 0) scope {} [] (.ok []) scope := by
  intro state trace found reached run fair
  rcases run with ⟨rfl, fuel, index, value, run⟩
  cases repeatLoop_round run with
  | ended => exact ⟨shows_nil, fair.scope, .nothing _, .done fair.going⟩

theorem complies_roundsStop {count : Nat}
    (row : Complies env (.row node.children) scope cost effects (.error complaint) left) :
    Complies env (.rounds node (count + 1)) scope cost effects (.error complaint) left := by
  intro state trace found reached run fair
  rcases run with ⟨rfl, fuel, index, value, run⟩
  cases repeatLoop_round run with
  | cut rowRun stopped =>
      have inner := row ⟨fuel, rowRun⟩ (fair.same ((shows_round _).alike _))
      exact (inner.same ((shows_round _).alike _)).failure
  | again rowRun goes restRun =>
      have inner := row ⟨fuel, rowRun⟩
        ((fair.same ((shows_round _).alike _)).cut (cancelled_of_going goes))
      cases inner.stops.symm.trans goes

theorem complies_roundsNext {count : Nat}
    (row : Complies env (.row node.children) scope cost effects (.ok values) after)
    (rounds : Complies env (.rounds node count) after more others outcome left) :
    Complies env (.rounds node (count + 1)) scope (cost.andThen more) (effects ++ others) outcome
      left := by
  intro state trace found reached run fair
  rcases run with ⟨rfl, fuel, index, value, run⟩
  cases repeatLoop_round run with
  | cut rowRun stopped =>
      have inner := row ⟨fuel, rowRun⟩ (fair.same ((shows_round _).alike _)).only
      cases stopped.symm.trans inner.yields.2
  | again rowRun goes restRun =>
      have fair := fair.same ((shows_round _).alike _)
      have first := row ⟨fuel, rowRun⟩ (fair.front (cancelled_of_going goes))
      have last := rounds ⟨rfl, fuel, _, value, restRun⟩ (fair.back first goes)
      exact (first.follow last).same ((shows_round _).alike _)

theorem repeatLoop_value {eval : Eval} {state reached : ExecState} {trace : Trace} (count : Nat)
    {index : Nat} (run : Performs (repeatLoop eval node count index) state trace value reached) :
    value = .none := by
  induction count generalizing state trace index with
  | zero =>
      cases repeatLoop_round run with
      | ended => rfl
  | succ count induction =>
      cases repeatLoop_round run with
      | cut => rfl
      | again _ _ restRun => exact induction restRun

theorem complies_repeat {count : Int64} (form : node.form = .counted)
    (operands : Complies env (.operands node [] node.operands) scope cost effects
      (.ok [.integer count]) after)
    (rounds : Complies env (.rounds node count.toInt.toNat) after more others outcome left) :
    Complies env (.work node) scope (cost.andThen (more.repeated count.toInt.toNat))
      (effects ++ others) (outcome.map fun _ => [.none]) left := by
  intro state trace found reached run fair
  have kind : node.kind = .repeatForm := kind_of_form form rfl
  rcases run with ⟨fuel, iterations, result, rfl, run⟩
  rw [evalInner, kind] at run
  rcases complies_reads operands (counted_reads kind run) fair with
    ⟨first, middle, rest, rfl, ends, done, next⟩
  rcases ends with ⟨number, equal, nextRun⟩
  cases equal
  have room := next.affords
  have few : count.toInt.toNat ≤ env.limits.maxRepeatCount.toNat := (Nat.max_le.mp room.rounds).1
  rw [if_neg (Nat.not_lt.mpr few)] at nextRun
  have inner : Fair env middle after more others rest reached :=
    { next with affords := ⟨room.steps, (Nat.max_le.mp room.rounds).2, room.depth⟩ }
  have all := rounds ⟨rfl, fuel, 0, result, nextRun⟩ inner
  have still : result = .none := repeatLoop_value _ nextRun
  have whole : Delivers env middle (more.repeated count.toInt.toNat) others
      (outcome.map fun _ => [.none]) left rest (some [result]) reached := by
    refine ⟨all.shows, all.scope, all.spends.repeated few, ?_⟩
    rw [still]
    exact all.tells.map fun _ => [.none]
  exact done.follow whole

/-- What is left of an iteration once a step has been taken. -/
theorem Fair.tick {state reached : ExecState} {trace : Trace}
    (fair : Fair env state scope (Cost.step.andThen cost) effects (.mark .whileIteration :: trace)
      reached)
    (room : state.steps < env.limits.maxTotalSteps) :
    Fair env state.tick scope cost effects trace reached where
  scope := fair.scope
  going := fair.going
  affords := fair.affords.after (.tick room)
  uncancelled := fair.uncancelled
  agree := fair.agree

theorem Delivers.tick {state reached : ExecState} {trace : Trace} {found : Option (List Value)}
    (room : state.steps < env.limits.maxTotalSteps)
    (delivers : Delivers env state.tick cost effects outcome left trace found reached) :
    Delivers env state (Cost.step.andThen cost) effects outcome left
      (.mark .whileIteration :: trace) found reached where
  shows := (shows_iteration.alike trace).showing delivers.shows
  scope := delivers.scope
  spends := (Spends.tick room).andThen delivers.spends
  tells := delivers.tells

/-- A run of `while` is one of its loop, with any number of iterations. -/
theorem loop_work {fuel : Nat} {eval : Eval} {state reached : ExecState} {trace : Trace}
    {result : Value} (form : node.form = .loop)
    (run : Performs (evalInner env eval fuel node) state trace result reached) :
    ∃ rounds, fuel = rounds + 1 ∧ LoopRun env eval node rounds state trace result reached := by
  have kind : node.kind = .whileForm := kind_of_form form rfl
  rw [evalInner, kind] at run
  cases fuel with
  | zero => cases run
  | succ rounds => exact ⟨rounds, rfl, whileLoop_round kind run⟩

theorem loop_runs {fuel rounds : Nat} {state reached : ExecState} {trace : Trace} {result : Value}
    (form : node.form = .loop)
    (run : Performs (whileLoop env (eval env fuel) node rounds) state trace result reached) :
    PhraseRuns env (.work node) state trace (some [result]) reached := by
  have kind : node.kind = .whileForm := kind_of_form form rfl
  refine ⟨fuel, rounds, result, rfl, ?_⟩
  rw [evalInner, kind]
  exact run

theorem complies_loopRefuse (form : node.form = .loop)
    (operands : Complies env (.operands node [] node.operands) scope cost effects
      (.error complaint) left) :
    Complies env (.work node) scope (Cost.step.andThen cost) effects (.error complaint) left := by
  intro state trace found reached run fair
  rcases run with ⟨fuel, rounds, result, rfl, run⟩
  rcases loop_work form run with ⟨rounds, rfl, loop⟩
  have goesOn {first tail : Trace} {middle : ExecState} {condition : Value}
      (room : state.steps < env.limits.maxTotalSteps)
      (gathers : Gathers env (eval env fuel) node [] node.operands state.tick first
        (some [condition]) middle)
      (fair : Fair env state scope (Cost.step.andThen cost) effects
        (.mark .whileIteration :: first ++ tail) reached) : False := by
    have goes := gathers.goes (by exact fair.going)
    have early := operands ⟨fuel, gathers⟩ ((fair.tick room).cut (cancelled_of_going goes))
    cases early.stops.symm.trans goes
  cases loop with
  | limited full => exact absurd full (UInt32.not_le.mpr fair.affords.room)
  | refused room gathers =>
      exact ((operands ⟨fuel, gathers⟩ (fair.tick room)).tick room).failure
  | left room gathers fails =>
      rw [← List.append_nil (Action.mark _ :: _)] at fair
      exact (goesOn room gathers fair).elim
  | cut room gathers => exact (goesOn room gathers fair).elim
  | again room gathers =>
      rw [List.append_assoc] at fair
      exact (goesOn room gathers fair).elim

/-- The condition of a loop is read, and has the value it is meant to have. -/
theorem loop_first {fuel : Nat} {state middle reached : ExecState} {first tail : Trace}
    {found : Option (List Value)}
    (operands : Complies env (.operands node [] node.operands) scope cost effects (.ok [value])
      after)
    (room : state.steps < env.limits.maxTotalSteps)
    (gathers : Gathers env (eval env fuel) node [] node.operands state.tick first found middle)
    (fair : Fair env state scope (Cost.step.andThen (cost.andThen more)) (effects ++ others)
      (.mark .whileIteration :: first ++ tail) reached)
    (uncancelled : middle.cancelled = false) :
    found = some [value] ∧
      Delivers env state.tick cost effects (.ok [value]) after first (some [value]) middle ∧
      Fair env middle after more others tail reached := by
  have started : Fair env state.tick scope (cost.andThen more) (effects ++ others) (first ++ tail)
      reached := fair.tick room
  have done := operands ⟨fuel, gathers⟩ (started.front uncancelled)
  rcases done.yields with ⟨rfl, goes⟩
  exact ⟨rfl, done, started.back done goes⟩

theorem complies_loopEnd (form : node.form = .loop)
    (operands : Complies env (.operands node [] node.operands) scope cost effects (.ok [value])
      left)
    (fails : value.truthy = false) :
    Complies env (.work node) scope (Cost.step.andThen cost) effects (.ok [.none]) left := by
  intro state trace found reached run fair
  rcases run with ⟨fuel, rounds, result, rfl, run⟩
  rcases loop_work form run with ⟨rounds, rfl, loop⟩
  rw [← Cost.andThen_nothing cost, ← List.append_nil effects] at fair
  have going : state.tick.stopping = false := fair.going
  cases loop with
  | limited full => exact absurd full (UInt32.not_le.mpr fair.affords.room)
  | refused room gathers =>
      rw [← List.append_nil (Action.mark _ :: _)] at fair
      cases (loop_first operands room gathers fair fair.uncancelled).1
  | left room gathers _ =>
      rw [← List.append_nil (Action.mark _ :: _)] at fair
      rcases loop_first operands room gathers fair fair.uncancelled with ⟨-, done, next⟩
      exact Delivers.tick room ⟨done.shows, done.scope, done.spends, .done next.going⟩
  | cut room gathers holds =>
      have uncancelled := cancelled_of_going (gathers.goes going)
      cases (loop_first operands room gathers fair uncancelled).1
      cases fails.symm.trans holds
  | again room gathers holds =>
      rw [List.append_assoc] at fair
      have uncancelled := cancelled_of_going (gathers.goes going)
      cases (loop_first operands room gathers fair uncancelled).1
      cases fails.symm.trans holds

theorem complies_loopStop (form : node.form = .loop)
    (operands : Complies env (.operands node [] node.operands) scope cost effects (.ok [value])
      after)
    (holds : value.truthy = true)
    (row : Complies env (.row node.children) after more others (.error complaint) left) :
    Complies env (.work node) scope (Cost.step.andThen (cost.andThen more)) (effects ++ others)
      (.error complaint) left := by
  intro state trace found reached run fair
  rcases run with ⟨fuel, rounds, result, rfl, run⟩
  rcases loop_work form run with ⟨rounds, rfl, loop⟩
  have going : state.tick.stopping = false := fair.going
  cases loop with
  | limited full => exact absurd full (UInt32.not_le.mpr fair.affords.room)
  | refused room gathers =>
      rw [← List.append_nil (Action.mark _ :: _)] at fair
      cases (loop_first operands room gathers fair fair.uncancelled).1
  | left room gathers fails =>
      rw [← List.append_nil (Action.mark _ :: _)] at fair
      cases (loop_first operands room gathers fair fair.uncancelled).1
      cases fails.symm.trans holds
  | cut room gathers _ rowRun stopped =>
      have uncancelled := cancelled_of_going (gathers.goes going)
      rcases loop_first operands room gathers fair uncancelled with ⟨-, done, next⟩
      exact (Delivers.tick room (done.follow (row ⟨fuel, rowRun⟩ next))).failure
  | again room gathers _ rowRun goes =>
      rw [List.append_assoc] at fair
      have uncancelled := cancelled_of_going (gathers.goes going)
      rcases loop_first operands room gathers fair uncancelled with ⟨-, done, next⟩
      have early := row ⟨fuel, rowRun⟩ (next.cut (cancelled_of_going goes))
      cases early.stops.symm.trans goes

theorem complies_loopNext {again : Scope} {last : Cost} {most : List Effect}
    (form : node.form = .loop)
    (operands : Complies env (.operands node [] node.operands) scope cost effects (.ok [value])
      after)
    (holds : value.truthy = true)
    (row : Complies env (.row node.children) after more others (.ok values) again)
    (rest : Complies env (.work node) again last most outcome left) :
    Complies env (.work node) scope (Cost.step.andThen ((cost.andThen more).andThen last))
      (effects ++ others ++ most) outcome left := by
  intro state trace found reached run fair
  rcases run with ⟨fuel, rounds, result, rfl, run⟩
  rcases loop_work form run with ⟨rounds, rfl, loop⟩
  have going : state.tick.stopping = false := fair.going
  rw [Cost.andThen_assoc, List.append_assoc] at fair ⊢
  cases loop with
  | limited full => exact absurd full (UInt32.not_le.mpr fair.affords.room)
  | refused room gathers =>
      rw [← List.append_nil (Action.mark _ :: _)] at fair
      cases (loop_first operands room gathers fair fair.uncancelled).1
  | left room gathers fails =>
      rw [← List.append_nil (Action.mark _ :: _)] at fair
      cases (loop_first operands room gathers fair fair.uncancelled).1
      cases fails.symm.trans holds
  | cut room gathers _ rowRun stopped =>
      have uncancelled := cancelled_of_going (gathers.goes going)
      rcases loop_first operands room gathers fair uncancelled with ⟨-, done, next⟩
      have early := row ⟨fuel, rowRun⟩ next.only
      cases stopped.symm.trans early.yields.2
  | again room gathers _ rowRun goes restRun =>
      rw [List.append_assoc] at fair
      have uncancelled := cancelled_of_going (gathers.goes going)
      rcases loop_first operands room gathers fair uncancelled with ⟨-, done, next⟩
      have body := row ⟨fuel, rowRun⟩ (next.front (cancelled_of_going goes))
      have all := rest (loop_runs form restRun) (next.back body goes)
      rw [List.append_assoc]
      exact Delivers.tick room (done.follow (body.follow all))

theorem complies_junctionEnd :
    Complies env (.junction node []) scope {} [] (.ok [.boolean (node.op = "and")]) scope := by
  intro state trace found reached run fair
  rcases run with ⟨fuel, value, rfl, run⟩
  rcases performs_pure.mp run with ⟨rfl, rfl, rfl⟩
  exact ⟨shows_nil, fair.scope, .nothing _, .done fair.going⟩

theorem complies_junctionStop
    (head : Complies env (.expr arg) scope cost effects (.error complaint) left) :
    Complies env (.junction node (arg :: rest)) scope cost effects (.error complaint) left := by
  intro state trace found reached run fair
  rcases run with ⟨fuel, value, rfl, run⟩
  rw [booleanLoop_cons] at run
  cases performs_body run with
  | halted headRun stopped => exact (head ⟨fuel, _, rfl, headRun⟩ fair).failure
  | went headRun goes nextRun =>
      have early := head ⟨fuel, _, rfl, headRun⟩ (fair.cut (cancelled_of_going goes))
      cases early.stops.symm.trans goes

theorem complies_junctionDecide
    (head : Complies env (.expr arg) scope cost effects (.ok [value]) left)
    (decides : node.isDecided value = true) :
    Complies env (.junction node (arg :: rest)) scope cost effects
      (.ok [.boolean (node.op ≠ "and")]) left := by
  intro state trace found reached run fair
  rcases run with ⟨fuel, value, rfl, run⟩
  rw [booleanLoop_cons] at run
  cases performs_body run with
  | halted headRun stopped =>
      have early := head ⟨fuel, _, rfl, headRun⟩ fair
      cases stopped.symm.trans early.yields.2
  | went headRun goes nextRun =>
      have first := head ⟨fuel, _, rfl, headRun⟩ (fair.cut (cancelled_of_going goes))
      have equal := first.yields.1
      cases equal
      rw [if_pos decides] at nextRun
      rcases performs_pure.mp nextRun with ⟨rfl, rfl, rfl⟩
      rw [List.append_nil]
      exact ⟨first.shows, first.scope, first.spends, .done goes⟩

theorem complies_junctionNext
    (head : Complies env (.expr arg) scope cost effects (.ok [value]) after)
    (undecided : node.isDecided value = false)
    (tail : Complies env (.junction node rest) after more others outcome left) :
    Complies env (.junction node (arg :: rest)) scope (cost.andThen more) (effects ++ others)
      outcome left := by
  intro state trace found reached run fair
  rcases run with ⟨fuel, value, rfl, run⟩
  rw [booleanLoop_cons] at run
  cases performs_body run with
  | halted headRun stopped =>
      have early := head ⟨fuel, _, rfl, headRun⟩ fair.only
      cases stopped.symm.trans early.yields.2
  | went headRun goes nextRun =>
      have first := head ⟨fuel, _, rfl, headRun⟩ (fair.front (cancelled_of_going goes))
      have equal := first.yields.1
      cases equal
      rw [if_neg (by rw [undecided]; decide)] at nextRun
      exact first.follow (tail ⟨fuel, _, rfl, nextRun⟩ (fair.back first goes))

theorem complies_junction (form : node.form = .junction)
    (joins : Complies env (.junction node node.args) scope cost effects outcome left) :
    Complies env (.work node) scope cost effects outcome left := by
  intro state trace found reached run fair
  have kind : node.kind = .booleanOp := kind_of_form form rfl
  rcases run with ⟨fuel, rounds, result, rfl, run⟩
  rw [evalInner, kind] at run
  have binary : node.op ≠ "not" := by
    intro negates
    rw [Node.form, kind] at form
    dsimp only at form
    rw [if_pos negates] at form
    cases form
  dsimp only at run
  rw [evalBoolean, if_neg binary] at run
  exact joins ⟨fuel, result, rfl, run⟩ fair

end Cases

/-! ## Machines -/

/-- The environment operates as the machine does, and delivers something where an operation of
the machine traps. -/
structure Env.Implements (env : Env) (machine : Machine) : Prop where
  functions : env.functions = machine.functions
  operate : ∀ {op left right result},
    machine.operate op left right = some result → env.operate op left right = some result
  traps : ∀ {op left right}, TrapsOn op left right → machine.operate op left right = none

section Implements

variable {env : Env} {machine : Machine} {node : Node} {scope : Scope} {values : List Value}

theorem Env.Implements.objection (implements : env.Implements machine) :
    env.machine.objection scope node values = machine.objection scope node values := by
  rw [Machine.objection, Machine.objection,
    show env.machine.functions = machine.functions from implements.functions]

theorem Env.Implements.fold (implements : env.Implements machine) {op : String}
    (operands : List Int64) {result : Int64} (folds : machine.fold op operands = some result) :
    env.machine.fold op operands = some result := by
  cases operands with
  | nil => exact folds
  | cons first rest =>
      change rest.foldlM (machine.operate op) first = some result at folds
      change rest.foldlM (env.operate op) first = some result
      induction rest generalizing first with
      | nil => exact folds
      | cons operand rest induction =>
          rw [List.foldlM_cons] at folds ⊢
          rcases Option.bind_eq_some_iff.mp folds with ⟨accumulator, operates, folds⟩
          rw [implements.operate operates]
          exact induction accumulator folds

theorem Env.Implements.valueOf (implements : env.Implements machine) {value : Value}
    (computes : machine.valueOf scope node values = some value) :
    env.machine.valueOf scope node values = some value := by
  rw [Machine.valueOf.eq_def] at computes ⊢
  cases kind : node.kind with
  | arithmetic =>
      rw [kind] at computes
      rcases Option.map_eq_some_iff.mp computes with ⟨result, folds, rfl⟩
      rcases Option.bind_eq_some_iff.mp folds with ⟨operands, integers, folds⟩
      dsimp only
      rw [integers, Option.bind_some, implements.fold operands folds, Option.map_some]
  | compare =>
      rw [kind] at computes
      rcases values with _ | ⟨first, _ | ⟨second, _ | ⟨third, rest⟩⟩⟩
      · exact computes
      · cases first <;> exact computes
      · cases first <;> cases second <;> exact computes
      · cases first <;> cases second <;> exact computes
  | _ =>
      rw [kind] at computes
      rcases values with _ | ⟨first, _ | ⟨second, rest⟩⟩ <;> exact computes

/-- Values that are combined without a trap end with none that an operation traps on. -/
theorem Env.Implements.untrapped (implements : env.Implements machine)
    (combines : machine.Combines node values) : ¬ env.machine.TrapsAt node values := by
  intro traps
  rcases traps with ⟨kind, operands, accumulator, operand, nonempty, rfl, folds, traps⟩
  rcases Option.isSome_iff_exists.mp (combines kind _ (integersOf_map _)) with ⟨result, total⟩
  rw [fold_snoc nonempty] at total
  rcases Option.bind_eq_some_iff.mp total with ⟨other, before, operates⟩
  rw [implements.fold operands before] at folds
  cases folds
  rw [implements.traps traps] at operates
  cases operates

end Implements

/-- Whatever is meant is done, and nothing traps. -/
theorem Means.complies {env : Env} {machine : Machine} (implements : env.Implements machine)
    {phrase : Phrase} {scope left : Scope} {cost : Cost} {effects : List Effect}
    {outcome : Verdict} (means : Means machine phrase scope cost effects outcome left) :
    Complies env phrase scope cost effects outcome left := by
  induction means with
  | expr _ work => exact complies_expr work
  | rowEnd =>
      intro state trace found reached run fair
      rcases run with ⟨fuel, row⟩
      cases row
      exact ⟨shows_nil, fair.scope, .nothing _, .done fair.going⟩
  | rowStop _ head => exact complies_rowStop head
  | rowNext _ _ head tail => exact complies_rowNext head tail
  | read =>
      intro state trace found reached run fair
      rcases run with ⟨fuel, gathers⟩
      cases gathers
      exact ⟨shows_nil, fair.scope, .nothing _, .done fair.going⟩
  | readStop _ head => exact complies_readStop head
  | readObject _ objection head =>
      rw [← implements.objection] at objection
      exact complies_readObject head objection
  | readNext _ fine combines _ head tail =>
      rw [← implements.objection] at fine
      exact complies_readNext head fine (implements.untrapped combines) tail
  | object objection =>
      rw [← implements.objection] at objection
      exact complies_object objection
  | refuse fine form _ operands =>
      rw [← implements.objection] at fine
      exact complies_refuse fine form operands
  | value fine form _ computes operands =>
      rw [← implements.objection] at fine
      exact complies_value fine form operands (implements.valueOf computes)
  | command form _ makes operands => exact complies_command form operands makes
  | sense form kind => exact complies_sense form kind
  | define form _ operands => exact complies_define form operands
  | assign form _ operands => exact complies_assign form operands
  | call form defined _ _ operands body =>
      rw [← implements.functions] at defined
      exact complies_call form defined operands body
  | block form _ row => exact complies_block form row
  | skip form _ fails operands => exact complies_skip form operands fails
  | enter form _ holds _ operands row => exact complies_enter form operands holds row
  | branch form yes no _ _ operands taken => exact complies_branch form yes no operands taken
  | counted form _ _ operands rounds => exact complies_repeat form operands rounds
  | roundsEnd => exact complies_roundsEnd
  | roundsStop _ row => exact complies_roundsStop row
  | roundsNext _ _ row rounds => exact complies_roundsNext row rounds
  | loopRefuse form _ operands => exact complies_loopRefuse form operands
  | loopEnd form _ fails operands => exact complies_loopEnd form operands fails
  | loopStop form _ holds _ operands row => exact complies_loopStop form operands holds row
  | loopNext form _ holds _ _ operands row rest =>
      exact complies_loopNext form operands holds row rest
  | junction form _ joins => exact complies_junction form joins
  | junctionEnd => exact complies_junctionEnd
  | junctionStop _ head => exact complies_junctionStop head
  | junctionDecide _ decides head => exact complies_junctionDecide head decides
  | junctionNext _ undecided _ head tail => exact complies_junctionNext head undecided tail

end CardCode
