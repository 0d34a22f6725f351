import CardCode.Compilation.WellFormed
import CardCode.Semantics.Counters
import CardCode.Semantics.Traps

/-! # Evaluation always ends

Where no operation traps, no evaluation on a sound tree runs out of fuel or reads an argument
that is not there. The fuel an evaluation needs is the height of its node, a whole tree for
each call still allowed, and an iteration for each step still allowed.
-/

namespace CardCode

open Process

/-! ## Sequencing -/

section Sequencing

variable {state : ExecState} {α : Type}

theorem faultless_ite {condition : Prop} [Decidable condition] {first second : Exec α}
    (firstSafe : Faultless first state) (secondSafe : Faultless second state) :
    Faultless (if condition then first else second) state := by
  by_cases holds : condition
  · rw [if_pos holds]
    exact firstSafe
  · rw [if_neg holds]
    exact secondSafe

theorem faultless_fail (node : Node) (message : String) :
    Faultless (fail node message) state := by
  intro trace reason run
  cases run with
  | act run => cases run

theorem faultless_issue (node : Node) (call : RobotCommand) :
    Faultless (issue node call) state := by
  intro trace reason run
  cases run with
  | act run => cases run

theorem faultless_ask (question : Query) : Faultless (ask question) state :=
  @faultless_query engineInterface Fault ExecState question state

/-- A sensor read, whatever is made of the reply. -/
theorem faultless_read (question : Query) (use : question.Reply → Value) :
    Faultless (do let reply ← ask question; pure (use reply)) state :=
  faultless_bind (faultless_ask question) fun _ reply reached _ =>
    faultless_pure (use reply) reached

theorem faultless_pollCancel (env : Env) : Faultless (pollCancel env) state := by
  apply faultless_ite
  · exact faultless_ask .poll
  · exact faultless_pure _ _

theorem faultless_stopping : Faultless stopping state := by
  intro trace reason run
  cases run

theorem faultless_unlessStopping {halt next : Exec α} (haltSafe : Faultless halt state)
    (nextSafe : Faultless next state) :
    Faultless (do if ← stopping then halt else next) state := by
  apply faultless_bind faultless_stopping
  intro first flag reached run
  rcases performs_stopping.mp run with ⟨-, rfl, rfl⟩
  split
  · exact haltSafe
  · exact nextSafe

theorem faultless_withState {next : ExecState → Exec α}
    (safe : Faultless (next state) state) :
    Faultless (do let state ← get; next state) state := by
  apply faultless_bind (faultless_get state)
  intro first value reached run
  rcases performs_get.mp run with ⟨-, rfl, rfl⟩
  exact safe

theorem faultless_afterModify {update : ExecState → ExecState} {next : Exec α}
    (safe : Faultless next (update state)) :
    Faultless (do modify update; next) state := by
  apply faultless_bind (faultless_modify update state)
  intro first value reached run
  rcases performs_modify.mp run with ⟨-, rfl⟩
  exact safe

theorem faultless_afterPerform {action : Action} {next : Exec α}
    (safe : Faultless next state) :
    Faultless (do (perform action : Exec Unit); next) state := by
  have head : Faultless (perform action : Exec Unit) state :=
    @faultless_perform engineInterface Fault ExecState action state
  apply faultless_bind head
  intro first value reached run
  rcases performs_perform.mp run with ⟨-, rfl⟩
  exact safe

theorem faultless_withArg {node arg : Node} {index : Nat} {next : Node → Exec α}
    (found : node.args[index]? = some arg) (safe : Faultless (next arg) state) :
    Faultless (do let arg ← argAt node index; next arg) state := by
  apply faultless_bind
  · rw [argAt, found]
    exact faultless_pure arg state
  · intro first value reached run
    rcases performs_argAt.mp run with ⟨same, -, rfl⟩
    rw [found] at same
    cases same
    exact safe

end Sequencing

/-! ## Parts -/

/-- A state within its limits, `depth` calls deep. -/
structure AtDepth (env : Env) (depth : UInt32) (state : ExecState) : Prop where
  callDepth : state.callDepth = depth
  steps : state.steps.toNat ≤ env.limits.maxTotalSteps.toNat

/-- Evaluating `part` is safe at this call depth, whatever else the state holds. -/
def SafeAt (env : Env) (eval : Eval) (depth : UInt32) (part : Node) : Prop :=
  ∀ state, AtDepth env depth state → Faultless (eval part) state

theorem Activity.atDepth {env : Env} {task : Task} {depth : UInt32}
    {state reached : ExecState} {trace : Trace}
    (activity : Activity env task state trace reached) (start : AtDepth env depth state) :
    AtDepth env depth reached ∧ state.steps.toNat ≤ reached.steps.toNat := by
  have counts := activity.counts
  refine ⟨⟨activity.callDepth_eq.trans start.callDepth, counts.bounded start.steps⟩, ?_⟩
  rw [counts.counted]
  exact Nat.le_add_right _ _

section Parts

variable {env : Env} {eval : Eval} {node : Node} {depth : UInt32} {state : ExecState}

/-- Evaluate a part and go on, unless stopping. -/
theorem partThen_faultless {part : Node} {α : Type} {halt : Value → α}
    {next : Value → Exec α} (refines : Refines env eval)
    (safe : SafeAt env eval depth part) (start : AtDepth env depth state)
    (tail : ∀ value middle, AtDepth env depth middle →
      state.steps.toNat ≤ middle.steps.toNat → Faultless (next value) middle) :
    Faultless (do
      let value ← eval part
      if ← stopping then pure (halt value) else next value) state := by
  apply faultless_bind (safe state start)
  intro first value middle run
  have kept := (refines _ _ _ _ _ run).atDepth start
  exact faultless_unlessStopping (faultless_pure _ _) (tail value middle kept.1 kept.2)

theorem evalChildren_faultless (refines : Refines env eval) {nodes : List Node}
    (safe : ∀ child ∈ nodes, SafeAt env eval depth child) (start : AtDepth env depth state) :
    Faultless (evalChildren eval nodes) state := by
  induction nodes generalizing state with
  | nil => exact faultless_pure _ _
  | cons child rest induction =>
      apply partThen_faultless refines (safe child (by simp)) start
      intro _ middle kept _
      exact induction (fun other member => safe other (by simp [member])) kept

theorem evalSequence_faultless (refines : Refines env eval) {nodes : List Node}
    (safe : ∀ child ∈ nodes, SafeAt env eval depth child) (start : AtDepth env depth state)
    (last : Value) : Faultless (evalSequence eval nodes last) state := by
  induction nodes generalizing state last with
  | nil => exact faultless_pure _ _
  | cons child rest induction =>
      apply partThen_faultless refines (safe child (by simp)) start
      intro value middle kept _
      exact induction (fun other member => safe other (by simp [member])) kept value

theorem evalBody_faultless (refines : Refines env eval) {nodes : List Node}
    (safe : ∀ child ∈ nodes, SafeAt env eval depth child) (start : AtDepth env depth state)
    (last : Value) : Faultless (evalBody eval nodes last) state := by
  induction nodes generalizing state last with
  | nil => exact faultless_pure _ _
  | cons child rest induction =>
      apply partThen_faultless refines (safe child (by simp)) start
      intro value middle kept _
      exact induction (fun other member => safe other (by simp [member])) kept value

theorem evalArguments_faultless (refines : Refines env eval) {nodes : List Node}
    (safe : ∀ arg ∈ nodes, SafeAt env eval depth arg) (start : AtDepth env depth state)
    (values : List Value) : Faultless (evalArguments eval nodes values) state := by
  induction nodes generalizing state values with
  | nil => exact faultless_pure _ _
  | cons arg rest induction =>
      apply partThen_faultless refines (safe arg (by simp)) start
      intro value middle kept _
      exact induction (fun other member => safe other (by simp [member])) kept _

theorem skipChildren_faultless (nodes : List Node) : Faultless (skipChildren nodes) state := by
  induction nodes with
  | nil => exact faultless_pure _ _
  | cons child rest induction => exact faultless_afterPerform induction

theorem repeatLoop_faultless (refines : Refines env eval)
    (safe : ∀ child ∈ node.children, SafeAt env eval depth child) (remaining index : Nat)
    (start : AtDepth env depth state) :
    Faultless (repeatLoop eval node remaining index) state := by
  induction remaining generalizing state index with
  | zero => exact faultless_pure _ _
  | succ remaining induction =>
      apply faultless_afterPerform
      apply faultless_bind (evalChildren_faultless refines safe start)
      intro first _ middle run
      have activity := evalChildren_activity refines node.children
        (fun child member => mem_parts_of_child member) run
      apply faultless_unlessStopping (faultless_pure _ _)
      exact induction (index + 1) (activity.atDepth start).1

/-- Each iteration takes a step, so the steps that are left bound the iterations. -/
theorem whileLoop_faultless (refines : Refines env eval) {condition : Node}
    (found : node.args[0]? = some condition)
    (conditionSafe : SafeAt env eval depth condition)
    (safe : ∀ child ∈ node.children, SafeAt env eval depth child) {fuel : Nat}
    (start : AtDepth env depth state)
    (enough : env.limits.maxTotalSteps.toNat + 1 ≤ fuel + state.steps.toNat) :
    Faultless (whileLoop env eval node fuel) state := by
  induction fuel generalizing state with
  | zero =>
      have bounded := start.steps
      omega
  | succ fuel induction =>
      rw [whileLoop]
      apply faultless_withState
      split
      · exact faultless_fail _ _
      next room =>
        have iterate : Activity env (.work node) state [.mark .whileIteration] state.tick :=
          .iterate (UInt32.not_le.mp room)
        have ticked : state.tick.steps.toNat = state.steps.toNat + 1 := iterate.counts.counted
        apply faultless_afterModify
        apply faultless_afterPerform
        apply faultless_withArg found
        apply partThen_faultless refines conditionSafe (iterate.atDepth start).1
        intro value middle kept later
        split
        · exact faultless_pure _ _
        · apply faultless_bind (evalChildren_faultless refines safe kept)
          intro first _ final run
          have activity := evalChildren_activity refines node.children
            (fun child member => mem_parts_of_child member) run
          have after := activity.atDepth kept
          apply faultless_unlessStopping (faultless_pure _ _)
          exact induction after.1 (by omega)

theorem booleanLoop_faultless (refines : Refines env eval) (isAnd : Bool) {nodes : List Node}
    (safe : ∀ arg ∈ nodes, SafeAt env eval depth arg) (start : AtDepth env depth state) :
    Faultless (booleanLoop eval isAnd nodes) state := by
  induction nodes generalizing state with
  | nil => exact faultless_pure _ _
  | cons arg rest induction =>
      apply partThen_faultless refines (safe arg (by simp)) start
      intro value middle kept _
      split
      · exact faultless_pure _ _
      · split
        · exact faultless_pure _ _
        · exact induction (fun other member => safe other (by simp [member])) kept

theorem combine_faultless (delivers : env.Delivers) (op : String) (operands : List Int64)
    (accumulator operand : Int64) :
    Faultless (combine env op operands accumulator operand) state := by
  apply faultless_afterPerform
  rcases delivers op accumulator operand with ⟨result, operates⟩
  rw [operates]
  exact faultless_pure result state

theorem arithmeticLoop_faultless (delivers : env.Delivers) (refines : Refines env eval)
    {nodes : List Node} (safe : ∀ arg ∈ nodes, SafeAt env eval depth arg)
    (start : AtDepth env depth state) (operands : List Int64) (accumulator : Int64) :
    Faultless (arithmeticLoop env eval node nodes operands accumulator) state := by
  induction nodes generalizing state operands accumulator with
  | nil => exact faultless_afterPerform (faultless_pure _ _)
  | cons arg rest induction =>
      have later : ∀ other ∈ rest, SafeAt env eval depth other :=
        fun other member => safe other (by simp [member])
      apply partThen_faultless refines (safe arg (by simp)) start
      intro value middle kept _
      split
      · split
        · exact induction later kept _ _
        · split
          · exact faultless_fail _ _
          · apply faultless_bind (combine_faultless delivers _ _ _ _)
            intro first result reached run
            rcases performs_combine.mp run with ⟨-, -, rfl⟩
            exact faultless_afterPerform (induction later kept _ _)
      · exact faultless_fail _ _

/-! ## Node kinds -/

/-- An integer argument, then the rest of the node. -/
theorem intThen_faultless {part : Node} {what : String} {next : Int64 → Exec Value}
    (refines : Refines env eval) (safe : SafeAt env eval depth part)
    (start : AtDepth env depth state)
    (tail : ∀ number middle, AtDepth env depth middle → Faultless (next number) middle) :
    Faultless (do
      match ← evalInt eval part node what with
      | none => pure .none
      | some number => next number) state := by
  have intSafe : Faultless (evalInt eval part node what) state := by
    apply partThen_faultless refines safe start
    intro value middle kept _
    split
    · exact faultless_pure _ _
    · exact faultless_bind (faultless_fail _ _) fun _ _ _ _ => faultless_pure _ _
  apply faultless_bind intSafe
  intro first found middle run
  cases performs_body run with
  | halted _ _ => exact faultless_pure _ _
  | went headRun _ lastRun =>
      have kept := (refines _ _ _ _ _ headRun).atDepth start
      split at lastRun
      · rcases performs_pure.mp lastRun with ⟨-, rfl, rfl⟩
        exact tail _ _ kept.1
      · rcases performs_bind.mp lastRun with ⟨text, _, failed, rest, -, endRun, rfl⟩
        rcases performs_pure.mp endRun with ⟨-, rfl, rfl⟩
        exact faultless_pure _ _

theorem arg_of_fits {arity : ArityTable} {index : Nat} (fits : node.Fits arity)
    (indexed : index < node.indexedArgs) : ∃ arg, node.args[index]? = some arg :=
  ⟨_, List.getElem?_eq_getElem (Nat.lt_of_lt_of_le indexed fits.args)⟩

/-- What is safe about the surroundings of a node: its parts here, the bodies of
functions one call deeper. -/
structure SafeAround (env : Env) (eval : Eval) (depth : UInt32) (node : Node) : Prop where
  parts : ∀ part ∈ node.parts, SafeAt env eval depth part
  bodies : depth < env.limits.maxCallDepth → ∀ name function,
    env.functions name = some function →
    ∀ child ∈ function.children, SafeAt env eval (depth + 1) child

theorem SafeAround.arg {index : Nat} {arg : Node} (safe : SafeAround env eval depth node)
    (found : node.args[index]? = some arg) : SafeAt env eval depth arg :=
  safe.parts arg (mem_parts_of_arg found)

theorem SafeAround.children (safe : SafeAround env eval depth node) :
    ∀ child ∈ node.children, SafeAt env eval depth child :=
  fun child member => safe.parts child (mem_parts_of_child member)

theorem SafeAround.args (safe : SafeAround env eval depth node) :
    ∀ arg ∈ node.args, SafeAt env eval depth arg :=
  fun arg member => safe.parts arg (List.mem_append_left _ member)

theorem callFunction_faultless (refines : Refines env eval)
    (safe : SafeAround env eval depth node) (start : AtDepth env depth state) :
    Faultless (callFunction env eval node) state := by
  rw [callFunction]
  split
  · exact faultless_fail _ _
  next function known =>
    apply faultless_bind (evalArguments_faultless refines safe.args start [])
    intro first found middle run
    have activity := evalArguments_activity refines node.args
      (fun arg member => List.mem_append_left _ member) run
    have kept := (activity.atDepth start).1
    cases found with
    | none => exact faultless_pure _ _
    | some values =>
        apply faultless_withState
        split
        · exact faultless_fail _ _
        next shallow =>
          have below : depth < env.limits.maxCallDepth := by
            rw [kept.callDepth] at shallow
            exact UInt32.not_le.mp shallow
          apply faultless_afterPerform
          apply faultless_afterModify
          have entered (vars : Vars) : AtDepth env (depth + 1) (middle.enter vars) :=
            ⟨by rw [ExecState.enter, kept.callDepth], kept.steps⟩
          apply faultless_bind
          · exact evalBody_faultless refines (safe.bodies below _ function known)
              (entered _) _
          · intro body result final bodyRun
            exact faultless_afterModify (faultless_afterPerform (faultless_pure _ _))

theorem evalInner_faultless {arity : ArityTable} (delivers : env.Delivers)
    (refines : Refines env eval) (fits : node.Fits arity)
    (safe : SafeAround env eval depth node) {fuel : Nat}
    (start : AtDepth env depth state) (enough : env.limits.maxTotalSteps.toNat + 1 ≤ fuel) :
    Faultless (evalInner env eval fuel node) state := by
  have first (indexed : 0 < node.indexedArgs) : ∃ arg, node.args[0]? = some arg :=
    arg_of_fits fits indexed
  have second (indexed : 1 < node.indexedArgs) : ∃ arg, node.args[1]? = some arg :=
    arg_of_fits fits indexed
  rw [evalInner]
  cases kind : node.kind
  case doForm => exact evalSequence_faultless refines safe.children start _
  case repeatForm =>
    rcases first (by simp [Node.indexedArgs, kind]) with ⟨arg, found⟩
    apply faultless_withArg found
    apply intThen_faultless refines (safe.arg found) start
    intro count middle kept
    split
    · exact faultless_fail _ _
    · split
      · exact faultless_fail _ _
      · exact repeatLoop_faultless refines safe.children _ _ kept
  case whenForm =>
    rcases first (by simp [Node.indexedArgs, kind]) with ⟨arg, found⟩
    apply faultless_withArg found
    apply partThen_faultless refines (safe.arg found) start
    intro condition middle kept _
    split
    · exact evalSequence_faultless refines safe.children kept _
    · exact faultless_bind (skipChildren_faultless _) fun _ _ _ _ => faultless_pure _ _
  case ifForm =>
    rcases first (by simp [Node.indexedArgs, kind]) with ⟨arg, found⟩
    apply faultless_withArg found
    apply partThen_faultless refines (safe.arg found) start
    intro condition middle kept _
    have branch (index : Nat) (bounded : index < 3) : ∃ arg, node.args[index]? = some arg :=
      arg_of_fits fits (by simpa [Node.indexedArgs, kind] using bounded)
    rcases branch (if condition.truthy then 2 else 1) (by split <;> omega) with
      ⟨skipped, skippedFound⟩
    rcases branch (if condition.truthy then 1 else 2) (by split <;> omega) with
      ⟨taken, takenFound⟩
    apply faultless_withArg skippedFound
    apply faultless_afterPerform
    apply faultless_withArg takenFound
    exact safe.arg takenFound middle kept
  case whileForm =>
    rcases first (by simp [Node.indexedArgs, kind]) with ⟨arg, found⟩
    exact whileLoop_faultless refines found (safe.arg found) safe.children start (by omega)
  case defineVar =>
    rcases first (by simp [Node.indexedArgs, kind]) with ⟨arg, found⟩
    apply faultless_withArg found
    apply partThen_faultless refines (safe.arg found) start
    intro value middle _ _
    exact faultless_afterModify (faultless_pure _ _)
  case defineFunc => exact faultless_pure _ _
  case setVar =>
    rcases first (by simp [Node.indexedArgs, kind]) with ⟨arg, found⟩
    apply faultless_withArg found
    apply partThen_faultless refines (safe.arg found) start
    intro value middle _ _
    apply faultless_withState
    split
    · exact faultless_fail _ _
    · exact faultless_afterModify (faultless_pure _ _)
  case varRef =>
    apply faultless_withState
    split
    · exact faultless_fail _ _
    · exact faultless_pure _ _
  case call => exact callFunction_faultless refines safe start
  case drive | backward =>
    rcases first (by simp [Node.indexedArgs, kind]) with ⟨speedArg, speedFound⟩
    rcases second (by simp [Node.indexedArgs, kind]) with ⟨durationArg, durationFound⟩
    apply faultless_withArg speedFound
    apply intThen_faultless refines (safe.arg speedFound) start
    intro speed middle kept
    apply faultless_withArg durationFound
    apply intThen_faultless refines (safe.arg durationFound) kept
    intro duration final _
    apply faultless_ite (faultless_fail _ _)
    apply faultless_ite (faultless_fail _ _)
    exact faultless_ite (faultless_issue _ _) (faultless_issue _ _)
  case turnLeft | turnRight =>
    rcases first (by simp [Node.indexedArgs, kind]) with ⟨arg, found⟩
    apply faultless_withArg found
    apply intThen_faultless refines (safe.arg found) start
    intro degrees middle _
    apply faultless_ite (faultless_fail _ _)
    exact faultless_ite (faultless_issue _ _) (faultless_issue _ _)
  case stop => exact faultless_issue _ _
  case wait =>
    rcases first (by simp [Node.indexedArgs, kind]) with ⟨arg, found⟩
    apply faultless_withArg found
    apply intThen_faultless refines (safe.arg found) start
    intro duration middle _
    split
    · exact faultless_fail _ _
    · exact faultless_issue _ _
  case light =>
    rcases first (by simp [Node.indexedArgs, kind]) with ⟨arg, found⟩
    apply faultless_withArg found
    apply partThen_faultless refines (safe.arg found) start
    intro value middle _ _
    split
    · exact faultless_issue _ _
    · exact faultless_fail _ _
  case beep => exact faultless_issue _ _
  case distanceCm => exact faultless_read _ _
  case button => exact faultless_read _ _
  case lineLeft => exact faultless_read _ _
  case lineRight => exact faultless_read _ _
  case compare =>
    rcases first (by simp [Node.indexedArgs, kind]) with ⟨leftArg, leftFound⟩
    rcases second (by simp [Node.indexedArgs, kind]) with ⟨rightArg, rightFound⟩
    apply faultless_withArg leftFound
    apply partThen_faultless refines (safe.arg leftFound) start
    intro left middle kept _
    apply faultless_withArg rightFound
    apply partThen_faultless refines (safe.arg rightFound) kept
    intro right final _ _
    split
    · exact faultless_pure _ _
    · exact faultless_fail _ _
  case booleanOp =>
    change Faultless (evalBoolean eval node) state
    rw [evalBoolean]
    split
    next negation =>
      rcases first (by simp [Node.indexedArgs, kind, negation]) with ⟨arg, found⟩
      apply faultless_withArg found
      apply partThen_faultless refines (safe.arg found) start
      intro value middle _ _
      exact faultless_pure _ _
    next => exact booleanLoop_faultless refines _ safe.args start
  case arithmetic => exact arithmeticLoop_faultless delivers refines safe.args start _ _
  case integerLiteral | booleanLiteral | colorLiteral => exact faultless_pure _ _

end Parts

/-! ## The evaluator -/

/-- The fuel an evaluation needs: the height of its node, a whole tree for each
call it may still make, and an iteration for each step. -/
def fuelNeeded (env : Env) (treeHeight : Nat) (depth : UInt32) (node : Node) : Nat :=
  node.height + (env.limits.maxCallDepth.toNat - depth.toNat) * treeHeight +
    env.limits.maxTotalSteps.toNat + 1

theorem height_all_le {nodes : List Node} {node : Node} (member : node ∈ nodes) :
    node.height ≤ Node.heightAll nodes := by
  induction nodes with
  | nil => cases member
  | cons head rest induction =>
      rw [Node.heightAll]
      rcases List.mem_cons.mp member with equal | member
      · rw [equal]
        exact Nat.le_max_left _ _
      · exact Nat.le_trans (induction member) (Nat.le_max_right _ _)

theorem height_lt_of_part {node part : Node} (member : part ∈ node.parts) :
    part.height < node.height := by
  cases node with
  | mk id kind span op args children nums params =>
      rw [Node.height]
      rcases List.mem_append.mp member with member | member
      · have below := height_all_le member
        dsimp only at below
        omega
      · have below := height_all_le member
        dsimp only at below
        omega

/-- The functions of a table are sound trees of bounded height. -/
structure SoundTable (arity : ArityTable) (treeHeight : Nat) (env : Env) : Prop where
  sound : ∀ name function, env.functions name = some function → function.Sound arity
  height : ∀ name function, env.functions name = some function →
    function.height ≤ treeHeight

/-- With the fuel it needs, the evaluation of a sound node ends. -/
theorem eval_faultless {env : Env} {arity : ArityTable} {treeHeight : Nat}
    (delivers : env.Delivers) (table : SoundTable arity treeHeight env) (fuel : Nat)
    (node : Node) (depth : UInt32) (sound : node.Sound arity)
    (enough : fuelNeeded env treeHeight depth node ≤ fuel) :
    SafeAt env (eval env fuel) depth node := by
  induction fuel generalizing node depth with
  | zero =>
      rw [fuelNeeded] at enough
      omega
  | succ fuel induction =>
      intro state start
      have refines := eval_activity env fuel
      have positive : 0 < node.height := by
        cases node with
        | mk => rw [Node.height]; omega
      have around : SafeAround env (eval env fuel) depth node := by
        refine ⟨?_, ?_⟩
        · intro part member
          have lower := height_lt_of_part member
          apply induction part depth (sound.part member)
          rw [fuelNeeded] at enough ⊢
          omega
        · intro below name function known child member
          have less : depth.toNat < env.limits.maxCallDepth.toNat := below
          have lower := height_lt_of_part (mem_parts_of_child member)
          have bounded := table.height name function known
          apply induction child (depth + 1)
            ((table.sound name function known).part (mem_parts_of_child member))
          have deeper : (depth + 1).toNat = depth.toNat + 1 := by
            have fits : env.limits.maxCallDepth.toNat < 2 ^ 32 := UInt32.toNat_lt _
            rw [UInt32.toNat_add]
            exact Nat.mod_eq_of_lt (by simp; omega)
          rw [fuelNeeded] at enough ⊢
          rw [deeper]
          have split : (env.limits.maxCallDepth.toNat - depth.toNat) * treeHeight =
              (env.limits.maxCallDepth.toNat - (depth.toNat + 1)) * treeHeight +
                treeHeight := by
            rw [← Nat.succ_mul]
            congr 1
            omega
          omega
      have inner (reached : ExecState) (within : AtDepth env depth reached) :
          Faultless (evalInner env (eval env fuel) fuel node) reached := by
        apply evalInner_faultless delivers refines sound.fits around within
        rw [fuelNeeded] at enough
        omega
      rw [eval]
      apply faultless_unlessStopping (faultless_pure _ _)
      apply faultless_bind (faultless_pollCancel env)
      intro polled flag middle pollRun
      rcases performs_pollCancel.mp pollRun with ⟨rfl, -⟩
      split
      · exact faultless_afterModify (faultless_pure _ _)
      · split
        · apply faultless_withState
          split
          · exact faultless_fail _ _
          next room =>
            have tick : Activity env (.work node) middle [.mark .whileIteration] middle.tick :=
              .iterate (UInt32.not_le.mp room)
            apply faultless_afterModify
            apply faultless_afterPerform
            apply faultless_bind (inner _ (tick.atDepth start).1)
            intro trace value reached run
            apply faultless_unlessStopping (faultless_pure _ _)
            exact faultless_afterPerform (faultless_pure _ _)
        · exact inner _ start

end CardCode
