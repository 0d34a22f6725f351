import CardCode.Foundation.Brackets
import CardCode.Semantics.Activity

/-! # The shape of a run's trace

A reader of the trace keeps the nodes that are open, innermost first, with the
number of calls each has made on the robot host. A node closes only as the
innermost one, and only the innermost one calls the host.
-/

namespace CardCode

open Process

structure OpenNode where
  node : Node
  calls : Nat := 0

/-- Whether an event or call belongs to the open node. -/
def OpenNode.owns (top : OpenNode) (node : Node) : Bool :=
  top.node.id = node.id && top.node.span = node.span && top.node.kind = node.kind

/-- A command node closes after exactly one call. -/
def OpenNode.fulfilled (top : OpenNode) : Bool :=
  !top.node.kind.isCommand || top.calls = 1

def OpenNode.called (top : OpenNode) : OpenNode :=
  { top with calls := top.calls + 1 }

/-- The open nodes after one entry, or nothing where the entry is out of place. -/
def advance : List OpenNode → Action → Option (List OpenNode)
  | stack, .emit .nodeStart node _ => some (⟨node, 0⟩ :: stack)
  | top :: stack, .emit .nodeDone node _ =>
      if top.owns node && top.fulfilled then some stack else none
  | stack, .emit .nodeSkipped _ _ => some stack
  | stack, .emit .nodeError _ _ => some stack
  | top :: stack, .command call (some issuer) =>
      if top.owns issuer && issuer.kind = call.kind then some (top.called :: stack)
      else none
  | top :: stack, .sensor reading issuer =>
      if top.owns issuer && issuer.kind = reading.kind then some (top.called :: stack)
      else none
  | stack, .poll _ => some stack
  | stack, .mark _ => some stack
  | _, _ => none

/-- The open nodes after a whole trace. -/
def openNodes (stack : List OpenNode) (trace : Trace) : Option (List OpenNode) :=
  trace.foldlM advance stack

/-- An entry only the interpreter itself can see. -/
def Action.isVisible : Action → Bool
  | .mark _ => false
  | _ => true

def Trace.visible (trace : Trace) : Trace :=
  trace.filter Action.isVisible

/-- A runtime error, or a poll that saw the cancel flag. -/
def Action.isAlarm : Action → Bool
  | .emit .nodeError _ _ => true
  | .poll cancelled => cancelled
  | _ => false

/-- Nothing went wrong and no cancellation was seen. -/
def Trace.Calm (trace : Trace) : Prop :=
  ∀ entry ∈ trace, entry.isAlarm = false

/-- The start and done events of a trace as brackets. -/
def Action.bracket? : Action → Option (Bracket (UInt32 × SourceSpan))
  | .emit .nodeStart node _ => some (.opening (node.id, node.span))
  | .emit .nodeDone node _ => some (.closing (node.id, node.span))
  | _ => none

def Trace.brackets (trace : Trace) : List (Bracket (UInt32 × SourceSpan)) :=
  trace.filterMap Action.bracket?

/-- The three ways in which the visible trace of a run can look. -/
inductive RunShape : Trace → ExecutionResult → Prop
  | done {body} :
      openNodes [] body = some [] → Trace.Calm body →
      Balanced (Trace.brackets body) →
      RunShape (.emitProgram .programStart "" :: body ++ [.emitProgram .programDone ""])
        ⟨true, none⟩
  | failed {body opened node message closing} :
      openNodes [] body = some opened → Trace.Calm body →
      Balanced (Trace.brackets body ++ closing) →
      RunShape
        (.emitProgram .programStart "" :: body ++
          [.emit .nodeError node message, .command .stop none,
            .emitProgram .programError message])
        ⟨false, some ⟨.error, node.span, message⟩⟩
  | cancelled {body opened span closing} :
      openNodes [] body = some opened → Trace.Calm body →
      Balanced (Trace.brackets body ++ closing) →
      RunShape
        (.emitProgram .programStart "" :: body ++
          [.poll true, .command .stop none,
            .emitProgram .programError "execution cancelled"])
        ⟨false, some ⟨.error, span, "execution cancelled"⟩⟩

/-! ## Reading a trace -/

@[simp] theorem openNodes_nil (stack : List OpenNode) : openNodes stack [] = some stack :=
  rfl

@[simp] theorem openNodes_cons (stack : List OpenNode) (entry : Action) (trace : Trace) :
    openNodes stack (entry :: trace) =
      (advance stack entry).bind fun next => openNodes next trace :=
  List.foldlM_cons

@[simp] theorem openNodes_append (stack : List OpenNode) (first second : Trace) :
    openNodes stack (first ++ second) =
      (openNodes stack first).bind fun next => openNodes next second :=
  List.foldlM_append

@[simp] theorem owns_self (node : Node) (calls : Nat) :
    OpenNode.owns ⟨node, calls⟩ node = true := by
  simp [OpenNode.owns]

/-- Invisible entries change nothing. -/
theorem openNodes_visible (stack : List OpenNode) (trace : Trace) :
    openNodes stack (Trace.visible trace) = openNodes stack trace := by
  induction trace generalizing stack with
  | nil => rfl
  | cons entry trace induction =>
      cases visible : entry.isVisible with
      | true =>
          rw [Trace.visible, List.filter_cons_of_pos visible, openNodes_cons,
            openNodes_cons]
          exact congrArg _ (funext induction)
      | false =>
          rw [Trace.visible, List.filter_cons_of_neg (by simp [visible])]
          cases entry with
          | mark point => exact induction stack
          | _ => cases visible

def OpenNode.label (top : OpenNode) : UInt32 × SourceSpan :=
  (top.node.id, top.node.span)

/-- One entry, as the reader of brackets sees it. -/
theorem reads_of_advance {stack next : List OpenNode} {entry : Action}
    {word : List (Bracket (UInt32 × SourceSpan))} {result : List (UInt32 × SourceSpan)}
    (advances : advance stack entry = some next)
    (reads : Reads (next.map OpenNode.label) word result) :
    Reads (stack.map OpenNode.label) (entry.bracket?.toList ++ word) result := by
  unfold advance at advances
  split at advances
  · cases advances
    exact .opening reads
  · split at advances
    next owned =>
      cases advances
      simp only [OpenNode.owns, Bool.and_eq_true, decide_eq_true_eq] at owned
      rw [List.map_cons, OpenNode.label, owned.1.1.1, owned.1.1.2]
      exact .closing reads
    next => cases advances
  · cases advances
    exact reads
  · cases advances
    exact reads
  · split at advances
    · cases advances
      exact reads
    · cases advances
  · split at advances
    · cases advances
      exact reads
    · cases advances
  · cases advances
    exact reads
  · cases advances
    exact reads
  · cases advances

theorem reads_of_openNodes {stack opened : List OpenNode} {trace : Trace}
    (reaches : openNodes stack trace = some opened) :
    Reads (stack.map OpenNode.label) (Trace.brackets trace) (opened.map OpenNode.label) := by
  induction trace generalizing stack with
  | nil =>
      cases reaches
      exact .nil
  | cons entry trace induction =>
      rw [openNodes_cons] at reaches
      rcases Option.bind_eq_some_iff.mp reaches with ⟨next, advances, rest⟩
      have reads := reads_of_advance advances (induction rest)
      have split : Trace.brackets (entry :: trace) =
          entry.bracket?.toList ++ Trace.brackets trace := by
        unfold Trace.brackets
        cases bracket : entry.bracket? with
        | none => rw [List.filterMap_cons_none bracket]; rfl
        | some value => rw [List.filterMap_cons_some bracket]; rfl
      rw [split]
      exact reads

/-! ## Activities are nested -/

/-- Whatever is open stays open, with nothing more. -/
def Trace.Level (trace : Trace) : Prop :=
  ∀ stack, openNodes stack trace = some stack

/-- Whatever is open stays open, perhaps under further nodes. -/
def Trace.Opens (trace : Trace) : Prop :=
  ∀ stack, ∃ opened, openNodes stack trace = some (opened ++ stack)

/-- Nothing is done any more but to return from calls. -/
def Trace.Unwinds (trace : Trace) : Prop :=
  ∀ entry ∈ trace, entry = .mark .exitCall

theorem Trace.Unwinds.visible {trace : Trace} (unwinds : Trace.Unwinds trace) :
    Trace.visible trace = [] := by
  apply List.filter_eq_nil_iff.mpr
  intro entry member
  rw [unwinds entry member]
  exact Bool.false_ne_true

/-- The entry that set the flag for which a state stopped. -/
inductive Raises : Action → ExecState → Prop
  | error {node message state} :
      state.cancelled = false → state.errored = true →
      state.error = ⟨.error, node.span, message⟩ →
      Raises (.emit .nodeError node message) state
  | cancel {state} :
      state.cancelled = true → Raises (.poll true) state

/-- How an activity that started unhindered ends. -/
inductive Outcome : Trace → ExecState → Prop
  | going {trace reached} :
      reached.errored = false → reached.cancelled = false →
      Trace.Calm trace → Trace.Level trace → Outcome trace reached
  | stopped {before alarm after reached} :
      Raises alarm reached → Trace.Calm before → Trace.Opens before →
      Trace.Unwinds after → Outcome (before ++ alarm :: after) reached

theorem calm_append {first second : Trace} (firstCalm : Trace.Calm first)
    (secondCalm : Trace.Calm second) : Trace.Calm (first ++ second) := by
  intro entry member
  rcases List.mem_append.mp member with member | member
  · exact firstCalm entry member
  · exact secondCalm entry member

theorem calm_singleton {entry : Action} (calm : entry.isAlarm = false) :
    Trace.Calm [entry] := by
  intro other member
  rw [List.mem_singleton.mp member]
  exact calm

theorem level_append {first second : Trace} (firstLevel : Trace.Level first)
    (secondLevel : Trace.Level second) : Trace.Level (first ++ second) := by
  intro stack
  rw [openNodes_append, firstLevel stack]
  exact secondLevel stack

theorem level_singleton {entry : Action} (level : ∀ stack, advance stack entry = some stack) :
    Trace.Level [entry] := by
  intro stack
  rw [openNodes_cons, level stack]
  rfl

theorem Raises.stopping {alarm : Action} {state : ExecState} (raises : Raises alarm state) :
    state.stopping = true := by
  cases raises with
  | error _ errored _ => simp [ExecState.stopping, errored]
  | cancel cancelled => simp [ExecState.stopping, cancelled]

theorem Outcome.after {first rest : Trace} {reached : ExecState}
    (calm : Trace.Calm first) (level : Trace.Level first) (outcome : Outcome rest reached) :
    Outcome (first ++ rest) reached := by
  cases outcome with
  | going errored cancelled restCalm restLevel =>
      exact .going errored cancelled (calm_append calm restCalm)
        (level_append level restLevel)
  | @stopped before alarm after _ raises beforeCalm opens unwinds =>
      rw [← List.append_assoc]
      refine .stopped raises (calm_append calm beforeCalm) ?_ unwinds
      intro stack
      rw [openNodes_append, level stack]
      exact opens stack

theorem Outcome.of_going {trace : Trace} {reached : ExecState}
    (outcome : Outcome trace reached) (going : reached.stopping = false) :
    reached.errored = false ∧ reached.cancelled = false ∧ Trace.Calm trace ∧
      Trace.Level trace := by
  cases outcome with
  | going errored cancelled calm level => exact ⟨errored, cancelled, calm, level⟩
  | stopped raises => rw [raises.stopping] at going; cases going

theorem Outcome.of_stopping {trace : Trace} {reached : ExecState}
    (outcome : Outcome trace reached) (stop : reached.stopping = true) :
    ∃ before alarm after, trace = before ++ alarm :: after ∧ Raises alarm reached ∧
      Trace.Calm before ∧ Trace.Opens before ∧ Trace.Unwinds after := by
  cases outcome with
  | going errored cancelled _ _ =>
      rw [ExecState.stopping, errored, cancelled] at stop
      cases stop
  | stopped raises calm opens unwinds =>
      exact ⟨_, _, _, rfl, raises, calm, opens, unwinds⟩

theorem flags_of_not_stopping {state : ExecState} (going : state.stopping = false) :
    state.errored = false ∧ state.cancelled = false :=
  Bool.or_eq_false_iff.mp going

/-- An entry that passes unnoticed, in a state that keeps its flags. -/
theorem Outcome.entry {entry : Action} {state : ExecState} (going : state.stopping = false)
    (calm : entry.isAlarm = false) (level : ∀ stack, advance stack entry = some stack) :
    Outcome [entry] state := by
  have flags := flags_of_not_stopping going
  exact .going flags.1 flags.2 (calm_singleton calm) (level_singleton level)

theorem Outcome.alarm {alarm : Action} {state : ExecState} (raises : Raises alarm state) :
    Outcome [alarm] state := by
  have outcome : Outcome ([] ++ alarm :: []) state :=
    .stopped raises (fun _ member => nomatch member) (fun stack => ⟨[], rfl⟩)
      fun _ member => nomatch member
  exact outcome

theorem Outcome.complaint {node : Node} {message : String} {state : ExecState}
    (going : state.stopping = false) :
    Outcome [.emit .nodeError node message] (state.failed node message) :=
  .alarm (.error (flags_of_not_stopping going).2 rfl rfl)

theorem polled_calm (env : Env) : Trace.Calm env.polled := by
  unfold Env.polled
  split
  · exact calm_singleton rfl
  · exact fun _ member => nomatch member

theorem polled_level (env : Env) : Trace.Level env.polled := by
  unfold Env.polled
  split
  · exact level_singleton fun _ => rfl
  · exact fun _ => rfl

/-- What a node issues leaves it ready to close. -/
theorem Issues.openNodes {node : Node} {calls : Trace} (issues : Issues node calls)
    (stack : List OpenNode) :
    ∃ top : OpenNode, openNodes (⟨node, 0⟩ :: stack) calls = some (top :: stack) ∧
      top.owns node = true ∧ top.fulfilled = true := by
  cases issues with
  | nothing command _ =>
      exact ⟨⟨node, 0⟩, rfl, owns_self node 0, by simp [OpenNode.fulfilled, command]⟩
  | command kind =>
      refine ⟨⟨node, 1⟩, ?_, owns_self node 1, by simp [OpenNode.fulfilled]⟩
      simp [advance, kind, OpenNode.called]
  | @sensor reading kind =>
      have quiet : node.kind.isCommand = false := by
        rw [← kind]
        cases reading <;> rfl
      refine ⟨⟨node, 1⟩, ?_, owns_self node 1, by simp [OpenNode.fulfilled, quiet]⟩
      simp [advance, kind, OpenNode.called]

theorem Issues.calm {node : Node} {calls : Trace} (issues : Issues node calls) :
    Trace.Calm calls := by
  cases issues with
  | nothing => exact fun _ member => nomatch member
  | command => exact calm_singleton rfl
  | sensor => exact calm_singleton rfl

/-- A node that runs to its end opens, works, calls the host and closes. -/
theorem completed_level {env : Env} {node : Node} {trace calls : Trace}
    (level : Trace.Level trace) (issues : Issues node calls) :
    Trace.Level
      (env.polled ++ .emit .nodeStart node node.op :: trace ++ calls ++
        [.emit .nodeDone node node.op]) := by
  intro stack
  rcases issues.openNodes stack with ⟨top, reaches, owned, fulfilled⟩
  rw [List.append_assoc, List.append_assoc, openNodes_append, polled_level env stack]
  change openNodes (⟨node, 0⟩ :: stack) (trace ++ (calls ++ _)) = _
  rw [openNodes_append, level, Option.bind_some, openNodes_append, reaches,
    Option.bind_some]
  simp [advance, owned, fulfilled]

/-- A node cut short leaves itself open below whatever else is. -/
theorem Outcome.interrupted {env : Env} {node : Node} {trace : Trace} {reached : ExecState}
    (outcome : Outcome trace reached) (stop : reached.stopping = true) :
    Outcome (env.polled ++ .emit .nodeStart node node.op :: trace) reached := by
  rcases outcome.of_stopping stop with ⟨before, alarm, after, rfl, raises, calm, opens, unwinds⟩
  apply Outcome.after (polled_calm env) (polled_level env)
  change Outcome ((_ :: before) ++ alarm :: after) reached
  refine .stopped raises (calm_append (calm_singleton rfl) calm) ?_ unwinds
  intro stack
  rcases opens (⟨node, 0⟩ :: stack) with ⟨opened, reaches⟩
  exact ⟨opened ++ [⟨node, 0⟩], by simpa [advance] using reaches⟩

/-- Marks around an activity go unseen. -/
theorem Outcome.marked {first : Mark} {trace : Trace} {state reached : ExecState}
    (outcome : Outcome trace state) (errored : reached.errored = state.errored)
    (cancelled : reached.cancelled = state.cancelled)
    (error : reached.error = state.error) :
    Outcome (.mark first :: trace ++ [.mark .exitCall]) reached := by
  change Outcome ([.mark first] ++ (trace ++ [.mark .exitCall])) reached
  apply Outcome.after (calm_singleton rfl) (level_singleton fun _ => rfl)
  cases outcome with
  | going clear uncancelled calm level =>
      exact .going (errored.trans clear) (cancelled.trans uncancelled)
        (calm_append calm (calm_singleton rfl))
        (level_append level (level_singleton fun _ => rfl))
  | stopped raises calm opens unwinds =>
      rw [List.append_assoc]
      refine .stopped ?_ calm opens ?_
      · cases raises with
        | error uncancelled set found =>
            exact .error (cancelled.trans uncancelled) (errored.trans set)
              (error.trans found)
        | cancel set => exact .cancel (cancelled.trans set)
      · intro entry member
        rcases List.mem_append.mp member with member | member
        · exact unwinds entry member
        · exact List.mem_singleton.mp member

/-- Every activity that starts unhindered either stays level and calm or ends
with the entry that stopped it. -/
theorem Activity.outcome {env : Env} {task : Task} {state reached : ExecState}
    {trace : Trace} (activity : Activity env task state trace reached) :
    state.stopping = false → Outcome trace reached := by
  induction activity with
  | stopped stop => exact fun going => absurd (stop.symm.trans going) (by simp)
  | cancelled => exact fun _ => .alarm (.cancel rfl)
  | exhausted going =>
      exact fun _ => .after (polled_calm env) (polled_level env) (.complaint going)
  | silent going _ _ induction =>
      exact fun _ => .after (polled_calm env) (polled_level env) (induction going)
  | interrupted going _ _ _ stop induction =>
      exact fun _ => (induction going).interrupted stop
  | completed going _ _ _ continuing issues induction =>
      intro _
      rcases (induction going).of_going continuing with ⟨errored, cancelled, calm, level⟩
      refine .going errored cancelled ?_ (completed_level level issues)
      rw [List.append_assoc, List.append_assoc]
      apply calm_append (polled_calm env)
      change Trace.Calm ([_] ++ (_ ++ _))
      apply calm_append (calm_singleton rfl)
      exact calm_append calm (calm_append issues.calm (calm_singleton rfl))
  | idle =>
      intro going
      have flags := flags_of_not_stopping going
      exact .going flags.1 flags.2 (fun _ member => nomatch member) fun _ => rfl
  | follow _ continuing _ firstInduction restInduction =>
      intro going
      rcases (firstInduction going).of_going continuing with ⟨-, -, calm, level⟩
      exact .after calm level (restInduction continuing)
  | part _ _ induction => exact induction
  | complain => exact .complaint
  | undefined => exact .complaint
  | skip => exact fun going => .entry going rfl fun _ => rfl
  | store globals locals =>
      intro going
      have flags := flags_of_not_stopping going
      exact .going flags.1 flags.2 (fun _ member => nomatch member) fun _ => rfl
  | iterate => exact fun going => .entry going rfl fun _ => rfl
  | round => exact fun going => .entry going rfl fun _ => rfl
  | prepare => exact fun going => .entry going rfl fun _ => rfl
  | combine => exact fun going => .entry going rfl fun _ => rfl
  | compute => exact fun going => .entry going rfl fun _ => rfl
  | call vars _ _ _ _ _ induction =>
      exact fun going => (induction going).marked rfl rfl rfl

/-! ## Whole runs -/

theorem calm_visible {trace : Trace} (calm : Trace.Calm trace) :
    Trace.Calm (Trace.visible trace) :=
  fun entry member => calm entry (List.mem_of_mem_filter member)

theorem visible_append (first second : Trace) :
    Trace.visible (first ++ second) = Trace.visible first ++ Trace.visible second :=
  List.filter_append _ _

theorem Raises.isVisible {alarm : Action} {state : ExecState} (raises : Raises alarm state) :
    alarm.isVisible = true := by
  cases raises <;> rfl

/-- What is visible of an activity that was cut short: a part that leaves some
nodes open, and the entry that stopped it. -/
theorem Outcome.visible_of_stopped {before after : Trace} {alarm : Action}
    {state : ExecState} (raises : Raises alarm state) (opens : Trace.Opens before)
    (unwinds : Trace.Unwinds after) :
    Trace.visible (before ++ alarm :: after) = Trace.visible before ++ [alarm] ∧
      ∃ opened, openNodes [] (Trace.visible before) = some opened ∧
        Balanced (Trace.brackets (Trace.visible before) ++
          closings (opened.map OpenNode.label)) := by
  refine ⟨?_, ?_⟩
  · have after_eq : Trace.visible (alarm :: after) = [alarm] := by
      rw [Trace.visible, List.filter_cons_of_pos raises.isVisible]
      exact congrArg (List.cons alarm) unwinds.visible
    rw [visible_append, after_eq]
  · rcases opens [] with ⟨opened, reaches⟩
    rw [List.append_nil, ← openNodes_visible] at reaches
    exact ⟨opened, reaches, (reads_of_openNodes reaches).balanced⟩

/-- The visible trace of a run that ends has one of the three shapes. -/
theorem executeBody_shape {env : Env} {fuel : Nat} {root : Node} {trace : Trace}
    {result : ExecutionResult} {state : ExecState}
    (run : Performs (executeBody env fuel root) {} trace result state) :
    RunShape (Trace.visible trace) result := by
  rcases executeBody_activity run with ⟨body, ending, activity, closes, rfl⟩
  have split : Trace.visible (.emitProgram .programStart "" :: body ++ ending) =
      .emitProgram .programStart "" :: Trace.visible body ++ Trace.visible ending :=
    visible_append (.emitProgram .programStart "" :: body) ending
  rw [split]
  cases activity.outcome rfl with
  | going errored cancelled calm level =>
      have reaches := level []
      rw [← openNodes_visible] at reaches
      have balanced := (reads_of_openNodes reaches).balanced
      cases closes with
      | cancelled set => rw [cancelled] at set; cases set
      | errored _ set => rw [errored] at set; cases set
      | done =>
          refine .done reaches (calm_visible calm) ?_
          rwa [List.map_nil, closings, List.map_nil, List.append_nil] at balanced
  | stopped raises calm opens unwinds =>
      rcases Outcome.visible_of_stopped raises opens unwinds with
        ⟨equal, opened, reaches, balanced⟩
      rw [equal]
      cases raises with
      | @error node message _ uncancelled errored found =>
          cases closes with
          | cancelled set => rw [uncancelled] at set; cases set
          | done _ clear => rw [errored] at clear; cases clear
          | errored =>
              rw [found, ← List.cons_append, List.append_assoc]
              exact .failed reaches (calm_visible calm) balanced
      | cancel cancelled =>
          cases closes with
          | errored clear => rw [cancelled] at clear; cases clear
          | done clear => rw [cancelled] at clear; cases clear
          | cancelled =>
              rw [← List.cons_append, List.append_assoc]
              exact .cancelled reaches (calm_visible calm) balanced

end CardCode
