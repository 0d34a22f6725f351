import CardCode.Compilation.Reordering
import CardCode.Foundation.Projection
import CardCode.Semantics.Layout

/-! # Where functions are defined

What is seen of an uncancelled run, but for node ids and spans, does not depend on
where among the top-level forms the functions are defined.
-/

namespace CardCode

open Process

/-! ## What is seen of a run -/

/-- What a run shows, but for node ids and spans. -/
inductive Happening where
  | event (type : ExecutionEventType) (message : String)
  | call (call : RobotCommand)
  | read (reading : SensorReading)
  deriving DecidableEq

def Action.happening? : Action → Option Happening
  | .emit type _ message => some (.event type message)
  | .emitProgram type message => some (.event type message)
  | .command call _ => some (.call call)
  | .sensor reading _ => some (.read reading)
  | .poll _ => none
  | .mark _ => none

def happenings (trace : Trace) : List Happening :=
  trace.filterMap Action.happening?

inductive Sensor where
  | distanceCm
  | button
  | lineLeft
  | lineRight

def Sensor.Reading : Sensor → Type
  | .distanceCm => Int32
  | _ => Bool

/-- The vocabulary of an uncancelled run as it is seen. -/
@[reducible] def observable : Interface where
  Action := Happening
  Query := Sensor
  Reply := Sensor.Reading
  record
    | .distanceCm, value => .read (.distanceCm value)
    | .button, pressed => .read (.button pressed)
    | .lineLeft, seen => .read (.lineLeft seen)
    | .lineRight, seen => .read (.lineRight seen)

/-- Every poll finds the flag clear. -/
def observation : Projection engineInterface observable where
  action := Action.happening?
  query
    | .poll => .granted false
    | .distanceCm _ => .asked .distanceCm fun value => value
    | .button _ => .asked .button fun pressed => pressed
    | .lineLeft _ => .asked .lineLeft fun seen => seen
    | .lineRight _ => .asked .lineRight fun seen => seen

def Schedule.readings (schedule : Schedule) : World observable Nat where
  reply reads
    | .distanceCm => schedule.distanceCm reads
    | .button => schedule.button reads
    | .lineLeft => schedule.lineLeft reads
    | .lineRight => schedule.lineRight reads
  next reads _ := reads + 1

/-- Nobody cancels. -/
def Schedule.Uncancelled (schedule : Schedule) : Prop :=
  ∀ poll, schedule.cancelled poll = false

theorem Schedule.Uncancelled.fits {schedule : Schedule} (uncancelled : schedule.Uncancelled) :
    observation.Fits schedule.world schedule.readings Progress.reads where
  granted := by
    intro progress question reply known
    cases question with
    | poll =>
        cases known
        exact ⟨uncancelled progress.polls, rfl, rfl⟩
    | distanceCm | button | lineLeft | lineRight => cases known
  asked := by
    intro progress question other back known
    cases question with
    | poll => cases known
    | distanceCm | button | lineLeft | lineRight =>
        cases known
        exact ⟨rfl, rfl, fun _ => rfl⟩

/-- What is seen of a process started in a state. -/
def seen (body : Exec α) (state : ExecState) : Process observable Fault (α × ExecState) :=
  (body state).project observation

theorem Schedule.Uncancelled.observed {schedule : Schedule} (uncancelled : schedule.Uncancelled)
    (setting : Setting) (root : Node) :
    attend schedule.readings 0 ((execute setting root).project observation) =
      (happenings (schedule.run setting root).1, (schedule.run setting root).2) :=
  uncancelled.fits.attend_project (execute setting root) {}

/-! ## Evaluations that are seen alike -/

section Alike

variable {α β : Type} {state : ExecState}

/-- From `state` on the two show the same and reach the same states; what they return
may differ. -/
def Alike (state : ExecState) (body other : Exec α) : Prop :=
  ∀ (Result : Type) (rest : ExecState → Process observable Fault Result),
    (seen body state >>= fun pair => rest pair.2) = seen other state >>= fun pair => rest pair.2

theorem Alike.refl (body : Exec α) : Alike state body body :=
  fun _ _ => rfl

theorem Alike.symm {first second : Exec α} (alike : Alike state first second) :
    Alike state second first :=
  fun Result rest => (alike Result rest).symm

theorem Alike.trans {first second third : Exec α} (left : Alike state first second)
    (right : Alike state second third) : Alike state first third :=
  fun Result rest => (left Result rest).trans (right Result rest)

theorem seen_bind (body : Exec α) (next : α → Exec β) :
    seen (body >>= next) state = seen body state >>= fun pair => seen (next pair.1) pair.2 :=
  project_bind (body state) fun pair => next pair.1 pair.2

/-- After the same beginning. -/
theorem alike_after (body : Exec α) {next following : α → Exec β}
    (tail : ∀ value reached, Alike reached (next value) (following value)) :
    Alike state (body >>= next) (body >>= following) := by
  intro Result rest
  rw [seen_bind, seen_bind, bind_assoc, bind_assoc]
  congr 1
  funext pair
  exact tail pair.1 pair.2 Result rest

/-- After a beginning whose value makes no difference. -/
theorem alike_bind {body other : Exec α} {next following : α → Exec β} (sample : α)
    (head : Alike state body other)
    (tail : ∀ value value' reached, Alike reached (next value) (following value')) :
    Alike state (body >>= next) (other >>= following) := by
  intro Result rest
  let common := fun reached => seen (next sample) reached >>= fun pair => rest pair.2
  have left (pair : α × ExecState) :
      (seen (next pair.1) pair.2 >>= fun pair => rest pair.2) = common pair.2 :=
    (tail pair.1 sample pair.2 Result rest).trans (tail sample sample pair.2 Result rest).symm
  have right (pair : α × ExecState) :
      (seen (following pair.1) pair.2 >>= fun pair => rest pair.2) = common pair.2 :=
    (tail sample pair.1 pair.2 Result rest).symm
  rw [seen_bind, seen_bind, bind_assoc, bind_assoc, funext left, funext right]
  exact head Result common

theorem alike_ite {condition : Prop} [Decidable condition] {yes no otherYes otherNo : Exec α}
    (whenYes : condition → Alike state yes otherYes)
    (whenNo : ¬ condition → Alike state no otherNo) :
    Alike state (if condition then yes else no) (if condition then otherYes else otherNo) := by
  split
  next holds => exact whenYes holds
  next fails => exact whenNo fails

theorem alike_pure (value value' : α) : Alike state (pure value) (pure value') :=
  fun _ _ => rfl

theorem alike_perform {action other : Action} (same : action.happening? = other.happening?) :
    Alike state (perform action) (perform other) := by
  intro Result rest
  have shown : observation.action action = observation.action other := same
  change (project observation (.act action (.done ((), state))) >>= _) =
    project observation (.act other (.done ((), state))) >>= _
  rw [project, shown]
  rfl

theorem alike_emit (type : ExecutionEventType) (node other : Node) (message : String) :
    Alike state (emit type node message) (emit type other message) :=
  alike_perform rfl

/-- What comes later is seen alike where it uses no value. -/
theorem Alike.seen_then {body other : Exec α} (alike : Alike state body other) (rest : Exec β) :
    seen (do let _ ← body; rest) state = seen (do let _ ← other; rest) state := by
  rw [seen_bind, seen_bind]
  exact alike _ (seen rest)

/-- A test of the state as it is. -/
theorem seen_unlessStopping (halt next : Exec α) :
    seen (do if ← stopping then halt else next) state =
      if state.stopping then seen halt state else seen next state := by
  rw [seen_bind]
  change seen (if state.stopping = true then halt else next) state = _
  split
  · rfl
  · rfl

theorem alike_unlessStopping {halt next otherHalt following : Exec α}
    (halts : state.stopping = true → Alike state halt otherHalt)
    (proceeds : state.stopping = false → Alike state next following) :
    Alike state (do if ← stopping then halt else next)
      (do if ← stopping then otherHalt else following) := by
  intro Result rest
  rw [seen_unlessStopping, seen_unlessStopping]
  cases flag : state.stopping with
  | true => exact halts flag Result rest
  | false => exact proceeds flag Result rest

/-! ## Definitions -/

variable (env : Env) (fuel : Nat)

theorem seen_pollCancel : seen (pollCancel env) state = .done (false, state) := by
  rw [pollCancel]
  cases env.cancellable with
  | true => rfl
  | false => rfl

/-- To come to a definition is to do nothing that is seen. -/
theorem seen_definition {node : Node} (kind : node.kind = .defineFunc)
    (going : state.stopping = false) :
    seen (eval env (fuel + 1) node) state = .done (.none, state) := by
  have inner (inside : Eval) (fuel : Nat) : evalInner env inside fuel node = pure .none := by
    rw [evalInner.eq_def, kind]
  rw [eval, seen_unlessStopping, going, kind, inner]
  change seen (pollCancel env >>= _) state = _
  rw [seen_bind, seen_pollCancel]
  rfl

theorem seen_stopped (node : Node) (stopped : state.stopping = true) :
    seen (eval env (fuel + 1) node) state = .done (.none, state) := by
  rw [eval, seen_unlessStopping, stopped]
  rfl

/-- Nothing is done when stopping. -/
theorem evalSequence_stopped (nodes : List Node) (last value : Value)
    (stopped : state.stopping = true) :
    Alike state (evalSequence (eval env (fuel + 1)) nodes last) (pure value) := by
  cases nodes with
  | nil => exact alike_pure last value
  | cons node rest =>
      intro Result after
      rw [evalSequence, seen_bind, seen_stopped env fuel node stopped]
      change (seen (do
          if ← stopping then pure Value.none
          else evalSequence (eval env (fuel + 1)) rest .none) state >>= _) = _
      rw [seen_unlessStopping, stopped]
      rfl

/-- A sequence does what its statements do. -/
theorem evalSequence_statements (nodes : List Node) (last last' : Value) :
    Alike state (evalSequence (eval env (fuel + 1)) nodes last)
      (evalSequence (eval env (fuel + 1)) (statements nodes) last') := by
  induction nodes generalizing state last last' with
  | nil => exact alike_pure last last'
  | cons node rest induction =>
      by_cases kind : node.kind = .defineFunc
      · rw [statements, List.filter_cons_of_neg (by simpa using kind), ← statements]
        cases going : state.stopping with
        | true =>
            exact (evalSequence_stopped env fuel _ last .none going).trans
              (evalSequence_stopped env fuel _ last' .none going).symm
        | false =>
            intro Result after
            rw [evalSequence, seen_bind, seen_definition env fuel kind going]
            change (seen (do
                if ← stopping then pure Value.none
                else evalSequence (eval env (fuel + 1)) rest .none) state >>= _) = _
            rw [seen_unlessStopping, going]
            exact induction .none last' Result after
      · rw [statements, List.filter_cons_of_pos (by simpa using kind), ← statements]
        apply alike_after
        intro value reached
        exact alike_unlessStopping (fun _ => .refl _) fun _ => induction value value

/-- Two sequences of forms that differ in their definitions alone. -/
structure SameStatements (root other : Node) : Prop where
  kind : root.kind = .doForm
  otherKind : other.kind = .doForm
  op : other.op = root.op
  span : other.span = root.span
  statements : statements other.children = statements root.children

theorem fail_alike {root other : Node} (same : SameStatements root other) (message : String) :
    Alike state (fail root message) (fail other message) := by
  have failed : (fun state : ExecState => state.failed other message) =
      fun state => state.failed root message := by
    funext state
    rw [ExecState.failed, same.span]
    rfl
  rw [fail, fail, failed]
  apply alike_after
  intro _ _
  exact alike_bind () (alike_emit _ _ _ _) fun _ _ _ => alike_pure _ _

theorem eval_alike {root other : Node} (same : SameStatements root other) :
    Alike state (eval env (fuel + 2) root) (eval env (fuel + 2) other) := by
  have inner (reached : ExecState) :
      Alike reached (evalInner env (eval env (fuel + 1)) (fuel + 1) root)
        (evalInner env (eval env (fuel + 1)) (fuel + 1) other) := by
    rw [evalInner.eq_def, evalInner.eq_def, same.kind, same.otherKind]
    have rootStatements := @evalSequence_statements reached env fuel root.children .none .none
    have otherStatements := @evalSequence_statements reached env fuel other.children .none .none
    rw [same.statements] at otherStatements
    exact rootStatements.trans otherStatements.symm
  rw [eval, eval, same.kind, same.otherKind, same.op]
  apply alike_unlessStopping fun _ => .refl _
  intro _
  apply alike_after
  intro cancelled _
  apply alike_ite fun _ => .refl _
  intro _
  apply alike_ite
  · intro _
    apply alike_after
    intro before _
    apply alike_ite fun _ => fail_alike same _
    intro _
    apply alike_after
    intro _ _
    apply alike_bind () (alike_emit _ _ _ _)
    intro _ _ reached
    apply alike_bind .none (inner reached)
    intro value value' reached
    apply alike_unlessStopping fun _ => alike_pure value value'
    intro _
    exact alike_bind () (alike_emit _ _ _ _) fun _ _ _ => alike_pure value value'
  · exact fun _ => inner _

end Alike

/-! ## Whole runs -/

theorem executeBody_seen {env : Env} {fuel : Nat} {root other : Node}
    (same : SameStatements root other) (state : ExecState) :
    seen (executeBody env (fuel + 2) root) state =
      seen (executeBody env (fuel + 2) other) state := by
  rw [executeBody, executeBody, seen_bind, seen_bind, same.span]
  congr 1
  funext pair
  exact (eval_alike env fuel same).seen_then _

/-- Programs that differ in their definitions alone are seen to run alike, where they
have the same functions. -/
theorem execute_seen {setting : Setting} {root other : Node} (same : SameStatements root other)
    (functions : collectFunctions other = collectFunctions root)
    (height : other.height = root.height) :
    (execute setting root).project observation = (execute setting other).project observation := by
  rw [execute, execute, project_bind, project_bind, Setting.env, Setting.env, functions, fuelBound,
    fuelBound, height]
  congr 1
  exact executeBody_seen same {}

theorem bareRoot_seen (setting : Setting) {forms other : List RawExpr}
    (tops : SameTops (bareRoot forms).children (bareRoot other).children) :
    (execute setting (bareRoot forms)).project observation =
      (execute setting (bareRoot other)).project observation := by
  have same : SameStatements (bareRoot forms) (bareRoot other) :=
    ⟨rfl, rfl, rfl, rfl, tops.statements⟩
  apply execute_seen same
  · exact (collected_perm tops.perm tops.functions fun _ => none).symm
  · have heights := heightAll_perm tops.perm
    rw [bareRoot, bareRoot, Node.height, Node.height]
    exact congrArg (fun height => max (Node.heightAll []) height + 1) heights.symm

/-- What a result says, wherever the error stands. -/
def ExecutionResult.report (result : ExecutionResult) : Bool × Option String :=
  (result.success, result.error.map Diagnostic.message)

theorem happening_relabel (labels : Relabelling) (action : Action) :
    (action.relabel labels).happening? = action.happening? := by
  cases action <;> rfl

theorem report_relabel (labels : Relabelling) (result : ExecutionResult) :
    (result.relabel labels).report = result.report := by
  rcases result with ⟨success, error⟩
  cases error with
  | none => rfl
  | some error => rfl

/-- What a run of a program shows and how it ends does not depend on labels. -/
theorem Program.seen_relabel (program : Program) (labels : Relabelling) (setting : Setting)
    (schedule : Schedule) :
    happenings (schedule.run setting (program.root.relabel labels)).1 =
        happenings (schedule.run setting program.root).1 ∧
      (schedule.run setting (program.root.relabel labels)).2.map ExecutionResult.report =
        (schedule.run setting program.root).2.map ExecutionResult.report := by
  rw [run_relabel, relabelRun]
  constructor
  · rw [happenings, List.filterMap_map, happenings]
    congr 1
    funext action
    exact happening_relabel labels action
  · cases (schedule.run setting program.root).2 with
    | error reason => rfl
    | ok result => exact congrArg Except.ok (report_relabel labels result)

/-- A program of several forms, at the top or in a single explicit `do`, whose function
definitions are moved, and whose other forms keep their order, is still accepted, and an
uncancelled run of it under the same limits and readings makes the same calls on the robot
and the same sensor reads, emits the same events up to node ids and spans, and ends with the
same success flag and error message. -/
theorem definitions_may_move {other : Bytes} {parsed otherParsed : ParseResult}
    (program : Program) (parses : parse program.source = some parsed)
    (several : 2 ≤ (topForms parsed.exprs).length) (otherParses : parse other = some otherParsed)
    (otherClean : hasErrors otherParsed.diagnostics = false)
    (reorders : Reorders (bareForms (topForms parsed.exprs))
      (bareForms (topForms otherParsed.exprs))) :
    ∃ otherProgram : Program, otherProgram.source = other ∧
      ∀ (setting : Setting) (schedule : Schedule), schedule.Uncancelled →
        happenings (schedule.run setting otherProgram.root).1 =
            happenings (schedule.run setting program.root).1 ∧
          (schedule.run setting otherProgram.root).2.map ExecutionResult.report =
            (schedule.run setting program.root).2.map ExecutionResult.report := by
  rcases program.root_bare parses several with ⟨arityClean, topsClean, root⟩
  rcases reorders.tops arityClean topsClean with ⟨otherArityClean, otherTopsClean, tops⟩
  have otherSeveral : 2 ≤ (topForms otherParsed.exprs).length := by
    have lengths := reorders.perm.length_eq
    rw [bareForms, bareForms, List.length_map, List.length_map] at lengths
    omega
  rcases exists_program otherParses otherClean otherSeveral otherArityClean otherTopsClean with
    ⟨otherProgram, rfl⟩
  refine ⟨otherProgram, rfl, ?_⟩
  intro setting schedule uncancelled
  rcases otherProgram.root_bare otherParses otherSeveral with ⟨-, -, otherRoot⟩
  have observed := uncancelled.observed setting (bareRoot (bareForms (topForms parsed.exprs)))
  rw [bareRoot_seen setting tops, uncancelled.observed] at observed
  rcases Prod.mk.inj observed with ⟨shown, ended⟩
  have own := program.seen_relabel .withoutLabels setting schedule
  have others := otherProgram.seen_relabel .withoutLabels setting schedule
  rw [root] at own
  rw [otherRoot] at others
  constructor
  · rw [← others.1, ← own.1, shown]
  · rw [← others.2, ← own.2, ended]

/-- A call of a function, and its definition, as forms and as words. -/
def callForm : RawExpr :=
  .list {} [.symbol {} "blink"]

def defineForm : RawExpr :=
  .list {} [.symbol {} "define", callForm, .list {} [.symbol {} "beep"]]

def callWords : List (TokenKind × String) :=
  [(.lParen, "("), (.symbol, "blink"), (.rParen, ")")]

def defineWords : List (TokenKind × String) :=
  (.lParen, "(") :: (.symbol, "define") :: callWords ++
    [(.lParen, "("), (.symbol, "beep"), (.rParen, ")"), (.rParen, ")")]

/-- The words of an explicit `do` around these. -/
def doWords (words : List (TokenKind × String)) : List (TokenKind × String) :=
  (.lParen, "(") :: (.symbol, "do") :: words ++ [(.rParen, ")")]

def callFirst : Bytes := bytes "(blink) (define (blink) (beep))"

def defineFirst : Bytes := bytes "(do (define (blink) (beep)) (blink))"

def callFirstParsed : ParseResult := (parse callFirst).get (by decide +kernel)

def defineFirstParsed : ParseResult := (parse defineFirst).get (by decide +kernel)

def callFirstProgram : Program := (Program.ofSource? callFirst).get (by decide +kernel)

/-- The forms of a text, from the words of its tokens. -/
theorem bareForms_of_words {source : Bytes} {parsed : ParseResult} {exprs : List RawExpr}
    (words : List (TokenKind × String)) (parses : parse source = some parsed)
    (read : (lex source).map (fun lexed => (lexed.tokens.map Token.word, lexed.diagnostics)) =
      some (words, []))
    (means : parseTokens (words.map tokenOf) = some ⟨exprs, []⟩) :
    bareForms (topForms parsed.exprs) = topForms exprs := by
  rcases Option.map_eq_some_iff.mp read with ⟨lexed, lexes, equal⟩
  rcases Prod.mk.inj equal with ⟨rfl, clean⟩
  rw [@parse_words .withoutLabels (fun _ => rfl) _ _ _ lexes clean parses] at means
  rw [bareForms_topForms]
  exact congrArg (fun parsed => topForms parsed.exprs) (Option.some.inj means)

theorem blink_definition_may_move :
    ∃ otherProgram : Program, otherProgram.source = defineFirst ∧
      ∀ (setting : Setting) (schedule : Schedule), schedule.Uncancelled →
        happenings (schedule.run setting otherProgram.root).1 =
            happenings (schedule.run setting callFirstProgram.root).1 ∧
          (schedule.run setting otherProgram.root).2.map ExecutionResult.report =
            (schedule.run setting callFirstProgram.root).2.map ExecutionResult.report := by
  have source : callFirstProgram.source = callFirst := by decide +kernel
  have parses : parse callFirst = some callFirstParsed := (Option.some_get _).symm
  have otherParses : parse defineFirst = some defineFirstParsed := (Option.some_get _).symm
  have forms : bareForms (topForms callFirstParsed.exprs) = [callForm, defineForm] :=
    bareForms_of_words (callWords ++ defineWords ++ [(TokenKind.end, "")]) parses
      (by decide +kernel) rfl
  have otherForms : bareForms (topForms defineFirstParsed.exprs) = [defineForm, callForm] :=
    bareForms_of_words (doWords (defineWords ++ callWords) ++ [(TokenKind.end, "")]) otherParses
      (by decide +kernel) rfl
  apply definitions_may_move callFirstProgram (source ▸ parses) (by decide +kernel) otherParses
    (by decide +kernel)
  rw [forms, otherForms]
  exact ⟨List.Perm.swap _ _ _, rfl⟩

end CardCode
