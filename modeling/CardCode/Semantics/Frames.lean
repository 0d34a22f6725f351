import CardCode.Semantics.Adequacy
import CardCode.Semantics.Failures

/-! # Which variables there are

An evaluation never takes a variable away, and what a function does is seen outside only in
the values of global variables that were there before.
-/

namespace CardCode

open Process

/-- Every name bound before is bound after. -/
def Vars.Within (vars others : Vars) : Prop :=
  ∀ name, (vars name).isSome = true → (others name).isSome = true

theorem Vars.Within.refl (vars : Vars) : vars.Within vars :=
  fun _ bound => bound

theorem Vars.Within.trans {vars others last : Vars} (first : vars.Within others)
    (second : others.Within last) : vars.Within last :=
  fun name bound => second name (first name bound)

theorem Vars.Within.set (vars : Vars) (name : String) (value : Value) :
    vars.Within (vars.set name value) := by
  intro other bound
  rw [Vars.set]
  split
  · rfl
  · exact bound

/-- Assigning to what is bound binds nothing. -/
theorem Vars.set_within {vars : Vars} {name : String} (bound : (vars name).isSome = true)
    (value : Value) : (vars.set name value).Within vars := by
  intro other set
  rw [Vars.set] at set
  split at set
  next same => exact same ▸ bound
  next => exact set

/-- What an evaluation does to the variables in sight. -/
inductive Scope.Keeps : Scope → Scope → Prop
  | outside {globals others : Vars} :
      globals.Within others → Keeps ⟨globals, none⟩ ⟨others, none⟩
  | inside {globals others vars kept : Vars} :
      globals.Within others → others.Within globals → vars.Within kept →
      Keeps ⟨globals, some vars⟩ ⟨others, some kept⟩

namespace Scope

theorem Keeps.refl (scope : Scope) : scope.Keeps scope := by
  rcases scope with ⟨globals, vars⟩
  cases vars with
  | none => exact .outside (.refl _)
  | some vars => exact .inside (.refl _) (.refl _) (.refl _)

theorem Keeps.trans {scope middle last : Scope} (first : scope.Keeps middle)
    (second : middle.Keeps last) : scope.Keeps last := by
  cases first with
  | outside grow =>
      cases second with
      | outside more => exact .outside (grow.trans more)
  | inside grow shrink kept =>
      cases second with
      | inside more less still =>
          exact .inside (grow.trans more) (less.trans shrink) (kept.trans still)

theorem Keeps.globals {scope last : Scope} (keeps : scope.Keeps last) :
    scope.globals.Within last.globals := by
  cases keeps with
  | outside grow => exact grow
  | inside grow => exact grow

theorem keeps_define (scope : Scope) (name : String) (value : Value) :
    scope.Keeps (scope.define name value) := by
  rcases scope with ⟨globals, vars⟩
  cases vars with
  | none => exact .outside (.set _ _ _)
  | some vars => exact .inside (.refl _) (.refl _) (.set _ _ _)

theorem keeps_assign {scope : Scope} {name : String} (bound : (scope.find name).isSome = true)
    (value : Value) : scope.Keeps (scope.assign name value) := by
  rcases scope with ⟨globals, vars⟩
  cases vars with
  | none => exact .outside (.set _ _ _)
  | some vars =>
      rw [assign]
      dsimp only
      split
      next isLocal => exact .inside (.refl _) (.refl _) (.set _ _ _)
      next isGlobal =>
        rw [find] at bound
        dsimp only at bound
        rw [Option.not_isSome_iff_eq_none] at isGlobal
        rw [isGlobal, Option.none_or] at bound
        exact .inside (.set _ _ _) (Vars.set_within bound value) (.refl _)

/-- A call is over: the caller's variables are those it had. -/
theorem keeps_leave {scope last : Scope} {function : Node} {values : List Value}
    (body : (scope.callee function values).Keeps last) :
    scope.Keeps (last.leave scope) ∧ (last.leave scope).locals = scope.locals ∧
      (last.leave scope).globals.Within scope.globals := by
  rcases scope with ⟨globals, vars⟩
  rcases last with ⟨others, kept⟩
  cases body with
  | inside grow shrink =>
      refine ⟨?_, rfl, shrink⟩
      cases vars with
      | none => exact .outside grow
      | some vars => exact .inside grow shrink (.refl _)

end Scope

section Means

variable {machine : Machine} {phrase : Phrase} {scope left : Scope} {cost : Cost}
variable {effects : List Effect} {outcome : Verdict} {node : Node}

/-- Operands that are read to the end are in order. -/
theorem Means.operands_fine {values found : List Value} {rest : List Node}
    (means : Means machine (.operands node values rest) scope cost effects (.ok found) left) :
    (rest = [] ∧ found = values) ∨ machine.objection left node found = none := by
  induction rest generalizing values scope cost effects with
  | nil =>
      cases means
      exact .inl ⟨rfl, rfl⟩
  | cons arg rest induction =>
      cases means with
      | readNext _ fine _ tail =>
          rcases induction tail with ⟨rfl, rfl⟩ | fineAll
          · cases tail
            exact .inr fine
          · exact .inr fineAll

/-- Where a variable is assigned to, it is bound. -/
theorem bound_of_assigned {value : Value} (form : node.form = .assignment)
    (means : Means machine (.operands node [] node.operands) scope cost effects (.ok [value])
      left) : (left.find node.op).isSome = true := by
  have kind : node.kind = .setVar := kind_of_form form rfl
  rcases means.operands_fine with ⟨-, none⟩ | fine
  · cases none
  · rw [Machine.objection, kind] at fine
    dsimp only at fine
    rw [unbound, List.isEmpty_cons, if_neg (by decide)] at fine
    split at fine
    · cases fine
    next bound =>
      rw [Option.isSome_iff_ne_none]
      intro missing
      exact bound (by rw [missing]; rfl)

/-- An evaluation takes no variable away, and one inside a function adds no global one. -/
theorem Means.keeps (means : Means machine phrase scope cost effects outcome left) :
    scope.Keeps left := by
  induction means with
  | expr _ work => exact work
  | rowEnd | read | object | sense | roundsEnd | junctionEnd => exact .refl _
  | rowStop _ head | readStop _ head | readObject _ _ head | junctionStop _ head
    | junctionDecide _ _ head => exact head
  | rowNext _ _ head tail | readNext _ _ _ _ head tail | junctionNext _ _ _ head tail =>
      exact head.trans tail
  | refuse _ _ _ operands | value _ _ _ _ operands | command _ _ _ operands
    | skip _ _ _ operands | loopRefuse _ _ operands | loopEnd _ _ _ operands => exact operands
  | define _ _ operands => exact operands.trans (Scope.keeps_define _ _ _)
  | assign form means operands =>
      exact operands.trans (Scope.keeps_assign (bound_of_assigned form means) _)
  | call _ _ _ _ operands body => exact operands.trans (Scope.keeps_leave body).1
  | block _ _ row => exact row
  | enter _ _ _ _ operands row => exact operands.trans row
  | branch _ _ _ _ _ operands taken => exact operands.trans taken
  | counted _ _ _ operands rounds => exact operands.trans rounds
  | roundsStop _ row => exact row
  | roundsNext _ _ row rounds => exact row.trans rounds
  | loopStop _ _ _ _ operands row => exact operands.trans row
  | loopNext _ _ _ _ _ operands row rest => exact (operands.trans row).trans rest
  | junction _ _ joins => exact joins

/-- What is objected to a name that is bound. -/
theorem objection_bound {values : List Value} {message name : String}
    (objected : machine.objection scope node values = some message)
    (bound : (scope.find name).isSome = true) :
    message ≠ "undefined variable '" ++ name ++ "'" ∧
      message ≠ "set! of undefined variable '" ++ name ++ "'" := by
  have accuses : "undefined variable '" ++ name ++ "'" ∉ valueObjections ∧
      "set! of undefined variable '" ++ name ++ "'" ∉ valueObjections := by
    constructor
    all_goals
      intro listed
      have start : _ ∈ valueObjections.map fun text => text.toList.take 11 :=
        List.mem_map_of_mem listed
      rw [take_accusation (by decide)] at start
      exact absurd start (by decide)
  have apart {start other : String} {first second : String}
      (same : start ++ first ++ "'" = other ++ second ++ "'")
      (short : 11 ≤ start.toList.length) (shortToo : 11 ≤ other.toList.length) :
      start.toList.take 11 = other.toList.take 11 := by
    rw [← @take_accusation start first 11 short, same, take_accusation shortToo]
  have named {start first second : String} (same : start ++ first ++ "'" = start ++ second ++ "'") :
      first = second := by
    have lists := congrArg String.toList same
    simp only [String.toList_append] at lists
    exact String.toList_inj.mp (List.append_cancel_left (List.append_cancel_right lists))
  rcases objection_text objected with plain | rfl | ⟨missing, rfl | rfl⟩
  · exact ⟨fun equal => accuses.1 (equal ▸ plain), fun equal => accuses.2 (equal ▸ plain)⟩
  · exact ⟨fun equal => absurd (apart equal (by decide) (by decide)) (by decide),
      fun equal => absurd (apart equal (by decide) (by decide)) (by decide)⟩
  · refine ⟨?_, fun equal => absurd (apart equal (by decide) (by decide)) (by decide)⟩
    intro equal
    rw [named equal] at missing
    rw [missing] at bound
    cases bound
  · refine ⟨fun equal => absurd (apart equal (by decide) (by decide)) (by decide), ?_⟩
    intro equal
    rw [named equal] at missing
    rw [missing] at bound
    cases bound

/-- No function and no later part of a program finds a global variable unbound that was bound
when it started. -/
theorem Means.not_undefined (means : Means machine phrase scope cost effects outcome left)
    {complaint : Complaint} (fails : outcome = .error complaint) {name : String}
    (bound : (scope.globals name).isSome = true) :
    complaint.message ≠ "undefined variable '" ++ name ++ "'" ∧
      complaint.message ≠ "set! of undefined variable '" ++ name ++ "'" := by
  have mapped {verdict : Verdict} {change : List Value → List Value}
      (fails : verdict.map change = .error complaint) : verdict = .error complaint := by
    cases verdict with
    | ok => cases fails
    | error => exact fails
  have inSight {scope : Scope} (bound : (scope.globals name).isSome = true) :
      (scope.find name).isSome = true := by
    rw [Scope.find]
    split
    · exact bound
    · rw [Option.isSome_or, bound, Bool.or_true]
  induction means with
  | readObject means objection =>
      cases fails
      exact objection_bound objection (inSight (means.keeps.globals name bound))
  | object objection =>
      cases fails
      exact objection_bound objection (inSight bound)
  | rowNext means _ _ tail => exact tail (mapped fails) (means.keeps.globals name bound)
  | call _ _ means _ _ body => exact body (mapped fails) (means.keeps.globals name bound)
  | block _ _ row => exact row (mapped fails) bound
  | enter _ means _ _ _ row => exact row (mapped fails) (means.keeps.globals name bound)
  | counted _ means _ _ rounds => exact rounds (mapped fails) (means.keeps.globals name bound)
  | expr _ work => exact work fails bound
  | rowStop _ head | readStop _ head | junctionStop _ head => exact head fails bound
  | readNext means _ _ _ _ tail | junctionNext means _ _ _ tail =>
      exact tail fails (means.keeps.globals name bound)
  | refuse _ _ _ operands | loopRefuse _ _ operands => exact operands fails bound
  | branch _ _ _ means _ _ taken => exact taken fails (means.keeps.globals name bound)
  | roundsStop _ row => exact row fails bound
  | loopStop _ means _ _ _ row => exact row fails (means.keeps.globals name bound)
  | roundsNext means _ _ rounds => exact rounds fails (means.keeps.globals name bound)
  | loopNext _ means _ body _ _ _ rest =>
      exact rest fails (body.keeps.globals name (means.keeps.globals name bound))
  | junction _ _ joins => exact joins fails bound
  | _ => cases fails

end Means

/-! ## Runs -/

/-- What an assignment, a definition and a call do to the variables once their operands are
read. -/
inductive Node.Binds (node : Node) (value : Value) (middle : Scope) : Scope → Prop
  | assigned :
      node.kind = .setVar → (middle.find node.op).isSome = true →
      Binds node value middle (middle.assign node.op value)
  | defined : node.kind = .defineVar → Binds node value middle (middle.define node.op value)
  | called {reached : Scope} :
      node.kind = .call → reached.locals = middle.locals →
      middle.globals.Within reached.globals → reached.globals.Within middle.globals →
      Binds node value middle reached

/-- The operands of a node are read from these variables, which leaves those of the state. -/
def OperandsRead (env : Env) (node : Node) (scope : Scope) (middle : ExecState) : Prop :=
  ∃ fuel start trace values, start.scope = scope ∧ start.stopping = false ∧
    Gathers env (eval env fuel) node [] node.operands start trace (some values) middle

/-- The nodes that bind. -/
def Node.isBinding (node : Node) : Bool :=
  match node.kind with
  | .setVar | .defineVar | .call => true
  | _ => false

section Runs

variable {env : Env} {fuel : Nat} {node : Node} {state reached : ExecState}
variable {trace : Trace} {value : Value}

theorem OperandsRead.keeps {scope : Scope} {middle : ExecState}
    (operands : OperandsRead env node scope middle) : scope.Keeps middle.scope := by
  rcases operands with ⟨fuel, start, trace, values, rfl, going, gathers⟩
  rcases (gathers.becomes (eval_sound env fuel) going).going (gathers.goes going) with
    ⟨cost, found, -, means, -⟩
  exact means.keeps

theorem enters_binds {function : Node} {values : List Value} {middle : ExecState}
    (kind : node.kind = .call) (going : middle.stopping = false)
    (enters : Enters env (eval env fuel) node function values middle trace value reached)
    (completed : reached.stopping = false) : node.Binds value middle.scope reached.scope := by
  rcases enters with ⟨-, failRun⟩ | ⟨-, body, last, bodyRun, -, rfl⟩
  · rcases performs_fail.mp failRun with ⟨-, -, rfl⟩
    cases completed
  · rcases evalBody_row _ bodyRun with ⟨found, row, -⟩
    have ended : last.stopping = false := completed
    rcases (row.becomes (eval_sound env fuel) (by exact going)).going ended with
      ⟨cost, results, -, means, -⟩
    have entered : (middle.scope.callee function values).Keeps last.scope := means.keeps
    have restored : (last.leave middle.locals).scope = last.scope.leave middle.scope := rfl
    rw [restored]
    rcases Scope.keeps_leave entered with ⟨keeps, frame, shrink⟩
    exact .called kind frame keeps.globals shrink

theorem inner_binds (binds : node.isBinding = true) (going : state.stopping = false)
    (run : Performs (evalInner env (eval env fuel) fuel node) state trace value reached)
    (completed : reached.stopping = false) :
    ∃ middle : ExecState, OperandsRead env node state.scope middle ∧
      node.Binds value middle.scope reached.scope := by
  have read {finish : List Value → ExecState → Trace → Value → ExecState → Prop}
      (reads : ReadsFirst env (eval env fuel) node finish state trace value reached) :
      ∃ first values middle rest, finish values middle rest value reached ∧
        Gathers env (eval env fuel) node [] node.operands state first (some values) middle := by
    cases reads with
    | refused gathers => cases gathers.stops.symm.trans completed
    | read gathers ends => exact ⟨_, _, _, _, ends, gathers⟩
  rw [evalInner] at run
  cases kind : node.kind with
  | setVar =>
      rw [kind] at run
      rcases read (assignment_reads kind run) with ⟨first, values, middle, rest, ends, gathers⟩
      rcases ends with ⟨rfl, -, rfl⟩
      refine ⟨middle, ⟨fuel, state, first, _, rfl, going, gathers⟩, ?_⟩
      rcases (gathers.becomes (eval_sound env fuel) going).going (gathers.goes going) with
        ⟨cost, found, equal, means, -⟩
      cases equal
      rw [scope_assign]
      exact .assigned kind (bound_of_assigned (by rw [Node.form, kind]) means)
  | defineVar =>
      rw [kind] at run
      rcases read (definition_reads kind run) with ⟨first, values, middle, rest, ends, gathers⟩
      rcases ends with ⟨rfl, -, rfl⟩
      refine ⟨middle, ⟨fuel, state, first, _, rfl, going, gathers⟩, ?_⟩
      rw [scope_define]
      exact .defined kind
  | call =>
      rw [kind] at run
      dsimp only at run
      cases defined : env.functions node.op with
      | none =>
          rw [callFunction, defined] at run
          rcases performs_fail.mp run with ⟨-, -, rfl⟩
          cases completed
      | some function =>
          rcases read (call_reads kind defined run) with
            ⟨first, values, middle, rest, ends, gathers⟩
          exact ⟨middle, ⟨fuel, state, first, _, rfl, going, gathers⟩,
            enters_binds kind (gathers.goes going) ends completed⟩
  | _ =>
      rw [Node.isBinding, kind] at binds
      cases binds

/-- No evaluation that completes takes a variable away, and none inside a function adds a
global one: an assignment overwrites what is bound, a definition binds in the frame at hand,
and a call gives that frame back and binds no other global variable. -/
theorem eval_keeps (going : state.stopping = false)
    (run : Performs (eval env fuel node) state trace value reached)
    (completed : reached.stopping = false) :
    state.scope.Keeps reached.scope ∧
      (node.isBinding = true →
        ∃ middle : ExecState, OperandsRead env node state.scope middle ∧
          state.scope.Keeps middle.scope ∧ node.Binds value middle.scope reached.scope) := by
  rcases (eval_sound env fuel).goes going run completed with ⟨cost, means, -⟩
  refine ⟨means.keeps, ?_⟩
  intro binds
  cases fuel with
  | zero => cases run
  | succ fuel =>
      have bound {start : ExecState} {work : Trace} (same : start.scope = state.scope)
          (goes : start.stopping = false)
          (workRun : Performs (evalInner env (eval env fuel) fuel node) start work value reached) :
          ∃ middle : ExecState, OperandsRead env node state.scope middle ∧
            state.scope.Keeps middle.scope ∧ node.Binds value middle.scope reached.scope := by
        rcases inner_binds binds goes workRun completed with ⟨middle, operands, ends⟩
        rw [same] at operands
        exact ⟨middle, operands, operands.keeps, ends⟩
      cases eval_run going run with
      | cancelled flag =>
          rw [ExecState.stopping, flag, Bool.or_true] at completed
          cases completed
      | exhausted _ _ failRun =>
          rcases performs_fail.mp failRun with ⟨-, -, rfl⟩
          cases completed
      | lit _ _ workRun => exact bound (scope_tick state) going workRun
      | plain _ workRun => exact bound rfl going workRun

end Runs

/-- A program whose function assigns to a global variable. -/
def assigningProgram : Program :=
  (Program.ofSource? (bytes "(define x 1) (define (f y) (set! x y)) (f 2)")).get
    (by decide +kernel)

/-- The variables of a caller of that function. -/
def assigningStart : ExecState where
  globals := ({} : ExecState).globals.set "x" (.integer 1)
  locals := some (({} : ExecState).globals.set "z" (.integer 3))

def assigningCall : Node :=
  assigningProgram.root.children[2]?.getD assigningProgram.root

/-- The call of the function, from there. -/
def assigningRun : Trace × Except Fault (Value × ExecState) :=
  respond (fun _ => Query.still) 0
    (eval (assigningProgram.env calmSetting) 10 assigningCall assigningStart)

theorem assigning_keeps : ∃ (value : Value) (reached middle : ExecState),
    (reached.scope.globals "x", reached.scope.find "z") =
      (some (.integer 2), some (.integer 3)) ∧
    assigningStart.scope.Keeps reached.scope ∧ assigningStart.scope.Keeps middle.scope ∧
    assigningCall.Binds value middle.scope reached.scope := by
  have ends : assigningRun.2.toOption.map (fun pair =>
      (pair.2.stopping, pair.2.globals "x", pair.2.find "z")) =
        some (false, some (.integer 2), some (.integer 3)) := by
    decide +kernel
  rcases Option.map_eq_some_iff.mp ends with ⟨⟨value, reached⟩, found, facts⟩
  rcases Prod.mk.inj facts with ⟨completed, bindings⟩
  have run : Run (eval (assigningProgram.env calmSetting) 10 assigningCall assigningStart)
      assigningRun.1 (.ok (value, reached)) := by
    rw [← ok_of_toOption found]
    exact run_respond _ _ 0
  rcases eval_keeps rfl run completed with ⟨keeps, binding⟩
  rcases binding (by decide +kernel) with ⟨middle, -, kept, binds⟩
  refine ⟨value, reached, middle, ?_, keeps, kept, binds⟩
  rw [scope_find]
  exact bindings

section Inversion

variable {machine : Machine} {scope left : Scope} {cost : Cost} {effects : List Effect}
variable {outcome : Verdict} {node : Node}

/-- The first expressions of a row fail, or are over when the others start. -/
theorem Means.row_split {first rest : List Node}
    (means : Means machine (.row (first ++ rest)) scope cost effects outcome left) :
    (∃ complaint, outcome = .error complaint ∧
      Means machine (.row first) scope cost effects (.error complaint) left) ∨
    ∃ spent more early late values middle verdict,
      Means machine (.row first) scope spent early (.ok values) middle ∧
        Means machine (.row rest) middle more late verdict left ∧
        cost = spent.andThen more ∧ effects = early ++ late ∧
        outcome = verdict.map (values ++ ·) := by
  induction first generalizing scope cost effects outcome with
  | nil =>
      refine .inr ⟨{}, cost, [], effects, [], scope, outcome, .rowEnd, means, ?_, rfl, ?_⟩
      · cases cost
        simp [Cost.andThen]
      · cases outcome <;> rfl
  | cons node first induction =>
      cases means with
      | rowStop head => exact .inl ⟨_, rfl, .rowStop head⟩
      | rowNext head tail =>
          rcases induction tail with ⟨complaint, rfl, stops⟩ |
            ⟨spent, more, early, late, values, middle, verdict, goes, last, rfl, rfl, rfl⟩
          · exact .inl ⟨complaint, rfl, .rowNext head stops⟩
          · refine .inr ⟨_, more, _, late, _, middle, verdict, .rowNext head goes, last,
              (Cost.andThen_assoc _ _ _).symm, (List.append_assoc _ _ _).symm, ?_⟩
            cases verdict <;> rfl

/-- A sequence of forms does what they do. -/
theorem Means.block_row (form : node.form = .block) (operands : node.operands = [])
    (fine : ∀ scope, machine.objection scope node [] = none)
    (means : Means machine (.expr node) scope cost effects outcome left) :
    ∃ more verdict, Means machine (.row node.children) scope more effects verdict left ∧
      cost = node.charge.andThen more ∧ outcome = verdict.map lastValue := by
  cases means with
  | expr work =>
      have contradiction {other : Form} (is : node.form = other) (differs : other ≠ .block) :
          False := differs (is.symm.trans form)
      cases work with
      | object objection => rw [fine] at objection; cases objection
      | refuse _ _ means =>
          rw [operands] at means
          cases means
      | block _ row => exact ⟨_, _, row, rfl, rfl⟩
      | value _ is | command is | sense is | define is | assign is | call is | skip is
        | enter is | branch is | counted is | loopRefuse is | loopEnd is | loopStop is
        | loopNext is | junction is => exact (contradiction is (by decide)).elim

/-- A definition fails, or defines the value of its operand. -/
theorem Means.definition_work (form : node.form = .definition)
    (means : Means machine (.work node) scope cost effects outcome left) :
    (∃ complaint, outcome = .error complaint) ∨
      ∃ middle value, Means machine (.operands node [] node.operands) scope cost effects
          (.ok [value]) middle ∧
        left = middle.define node.op value := by
  have contradiction {other : Form} (is : node.form = other) (differs : other ≠ .definition) :
      False := differs (is.symm.trans form)
  cases means with
  | object | refuse => exact .inl ⟨_, rfl⟩
  | define _ operands => exact .inr ⟨_, _, operands, rfl⟩
  | value _ is | command is | sense is | block is | assign is | call is | skip is | enter is
    | branch is | counted is | loopRefuse is | loopEnd is | loopStop is | loopNext is
    | junction is => exact (contradiction is (by decide)).elim

end Inversion

/-- After its definition at the top level a variable is bound, wherever it is looked up. -/
theorem Means.defined {machine : Machine} {globals : Vars} {left : Scope} {cost : Cost}
    {effects : List Effect} {before : List Node} {definition : Node} {values : List Value}
    (kind : definition.kind = .defineVar)
    (means : Means machine (.row (before ++ [definition])) ⟨globals, none⟩ cost effects (.ok values)
      left) : (left.globals definition.op).isSome = true := by
  have form : definition.form = .definition := by
    rw [Node.form, kind]
  rcases means.row_split with ⟨complaint, failed, -⟩ |
    ⟨_, _, _, _, _, middle, verdict, first, last, -, -, same⟩
  · cases failed
  · have outside : middle.locals = none := by
      cases first.keeps with
      | outside => rfl
    cases last with
    | rowStop => cases same
    | rowNext head tail =>
        cases tail
        cases head with
        | expr work =>
            rcases work.definition_work form with ⟨complaint, failed⟩ |
              ⟨reach, value, operands, rfl⟩
            · cases failed
            · have kept := operands.keeps
              rcases middle with ⟨others, vars⟩
              cases outside
              cases kept with
              | outside => simp [Scope.define, Vars.set]

/-- A run that finds a variable undefined found it so before the variable was defined at the
top level: the forms up to its definition already fail in this way. -/
theorem Program.undefined_early (program : Program) (setting : Setting)
    {before after : List Node} {definition : Node} (root : program.root.kind = .doForm)
    (children : program.root.children = before ++ definition :: after)
    (kind : definition.kind = .defineVar) {effects : List Effect} {result : ExecutionResult}
    (does : Does setting program.root effects result) {error : Diagnostic}
    (reported : result.error = some error)
    (undefined : error.message = "undefined variable '" ++ definition.op ++ "'" ∨
      error.message = "set! of undefined variable '" ++ definition.op ++ "'") :
    ∃ cost body complaint left,
      Means (program.env setting).machine (.row (before ++ [definition])) {} cost body
          (.error complaint) left ∧
        error = complaint.diagnostic ∧ effects = body ++ [.command .stop] := by
  rcases does.means with ⟨cost, body, outcome, left, means, -, rfl, rfl⟩
  have fine (scope : Scope) : (program.env setting).machine.objection scope program.root [] =
      none := by
    rw [Machine.objection, root]
  rcases means.block_row (by rw [Node.form, root]) (by rw [Node.operands, root]) fine with
    ⟨more, verdict, row, rfl, rfl⟩
  rw [children, List.append_cons] at row
  cases verdict with
  | ok => cases reported
  | error complaint =>
      cases reported
      rcases row.row_split with ⟨_, same, stops⟩ |
        ⟨_, _, _, _, _, middle, verdict, first, last, -, -, same⟩
      · cases same
        exact ⟨_, body, complaint, left, stops, rfl, rfl⟩
      · have bound := first.defined kind
        cases verdict with
        | ok => cases same
        | error =>
            cases same
            rcases last.not_undefined rfl bound with ⟨apart, apartToo⟩
            rcases undefined with text | text
            · exact absurd text apart
            · exact absurd text apartToo

/-- A program that uses a variable above its definition. -/
def earlyProgram : Program :=
  (Program.ofSource? (bytes "(wait x) (define x 1)")).get (by decide +kernel)

def earlyRun : Trace × Except Fault ExecutionResult :=
  respond (fun _ => Query.still) 0 (execute calmSetting earlyProgram.root)

theorem early_does : ∃ result,
    Does calmSetting earlyProgram.root (Trace.effects earlyRun.1) result ∧
    ∃ error, result.error = some error ∧ error.message = "undefined variable 'x'" := by
  have ends : earlyRun.2.toOption.bind (fun result => result.error.map Diagnostic.message) =
      some "undefined variable 'x'" := by
    decide +kernel
  have calm : earlyRun.1.all (fun entry => !entry.seesCancel) = true := by decide +kernel
  rcases Option.bind_eq_some_iff.mp ends with ⟨result, found, told⟩
  rcases Option.map_eq_some_iff.mp told with ⟨error, reported, message⟩
  refine ⟨result, ⟨earlyRun.1, ?_, rfl, ?_, ?_⟩, error, reported, message⟩
  · rw [← ok_of_toOption found]
    exact run_respond _ _ 0
  · intro member
    exact Bool.false_ne_true (List.all_eq_true.mp calm (.poll true) member)
  · intro hits
    rcases hits with ⟨other, given, listed⟩
    cases reported.symm.trans given
    rw [message] at listed
    exact absurd listed (by decide)

theorem early_undefined_early :
    ∃ effects cost body complaint left,
      Means (earlyProgram.env calmSetting).machine (.row earlyProgram.root.children) {} cost body
          (.error complaint) left ∧
        effects = body ++ [.command .stop] := by
  rcases early_does with ⟨result, does, error, reported, message⟩
  have two : earlyProgram.root.children.length = 2 := by decide +kernel
  rcases List.length_eq_two.mp two with ⟨first, definition, children⟩
  have facts : (earlyProgram.root.children[1]?.map fun node => (node.kind, node.op)) =
      some (.defineVar, "x") := by
    decide +kernel
  rw [children] at facts
  have kind : definition.kind = .defineVar := congrArg Prod.fst (Option.some.inj facts)
  have name : definition.op = "x" := congrArg Prod.snd (Option.some.inj facts)
  rcases @Program.undefined_early earlyProgram calmSetting [first] [] definition
      (by decide +kernel) children kind _ _ does _ reported (.inl (by rw [message, name]; rfl)) with
    ⟨cost, body, complaint, left, means, -, equal⟩
  rw [children]
  exact ⟨_, cost, body, complaint, left, means, equal⟩

end CardCode
