import CardCode.Harness.ProtocolBridge
import CardCode.Semantics.NodeEvents

/-! # What the thread of a run emits -/

namespace CardCode.Harness

open Process

/-! ## The messages of a run -/

/-- The messages a program sends between its start and its end. -/
def isStepMessage : HostMessage → Bool
  | .node _ | .robotCommand _ | .sensorRead _ => true
  | _ => false

def isEndMessage : HostMessage → Bool
  | .programDone | .programError _ _ => true
  | _ => false

/-- All that an accepted run emits: the diagnostics and, only where the program is
accepted, what one execution of it shows from its start to its end. -/
inductive IsBlock (overflow : String → Int64 → Int64 → Int64) (job : Job) :
    List HostMessage → Prop
  | rejected {result} :
      compile job.source = some result → result.ok = false →
      IsBlock overflow job [.diagnostics false result.diagnostics]
  | ran {root diagnostics trace result middle last} :
      compile job.source = some ⟨some root, diagnostics⟩ → hasErrors diagnostics = false →
      Run (execute { limits := job.limits, overflow } root) trace (.ok result) →
      Trace.messages trace = .programStart :: middle ++ [last] →
      (∀ message ∈ middle, isStepMessage message = true) → isEndMessage last = true →
      IsBlock overflow job (.diagnostics true diagnostics :: .programStart :: middle ++ [last])

/-- All that an accepted run emits that comes to an operation that traps, which ends the
process. -/
inductive IsTornBlock (overflow : String → Int64 → Int64 → Int64) (job : Job) :
    List HostMessage → Prop
  | trapped {root diagnostics trace middle} :
      compile job.source = some ⟨some root, diagnostics⟩ → hasErrors diagnostics = false →
      Run (execute { limits := job.limits, overflow } root) trace (.error .trapped) →
      Trace.messages trace = .programStart :: middle →
      (∀ message ∈ middle, isStepMessage message = true) →
      IsTornBlock overflow job (.diagnostics true diagnostics :: .programStart :: middle)

theorem leaves_message {env : Env} {node : Node} {entry : Action} (leaves : Leaves env node entry)
    {message : HostMessage} (found : entry.message? = some message) :
    isStepMessage message = true := by
  cases leaves with
  | polled | iterated | repeated | combining | combined | computed | entered | left => cases found
  | started | done | complained | undefined | skipped =>
      cases found
      rfl
  | issued issues member =>
      cases issues with
      | nothing => cases member
      | command | sensor =>
          rw [List.mem_singleton.mp member] at found
          cases found
          rfl

theorem messages_append (first second : Trace) :
    Trace.messages (first ++ second) = Trace.messages first ++ Trace.messages second :=
  List.filterMap_append

theorem closes_messages {root : Node} {state : ExecState} {ending : Trace}
    {result : ExecutionResult} (closes : Closes root state ending result) :
    ∃ front last, Trace.messages ending = front ++ [last] ∧
      (∀ message ∈ front, isStepMessage message = true) ∧ isEndMessage last = true := by
  have stop : ∀ message ∈ [HostMessage.robotCommand .stop], isStepMessage message = true :=
    List.forall_mem_singleton.mpr rfl
  cases closes with
  | done => exact ⟨[], .programDone, rfl, by simp, rfl⟩
  | cancelled => exact ⟨[.robotCommand .stop], .programError _ {}, rfl, stop, rfl⟩
  | errored => exact ⟨[.robotCommand .stop], .programError _ {}, rfl, stop, rfl⟩

theorem start_messages (body : Trace) :
    Trace.messages (.emitProgram .programStart "" :: body) =
      .programStart :: Trace.messages body :=
  List.filterMap_cons_some rfl

theorem activity_messages {env : Env} {root : Node} {state reached : ExecState} {body : Trace}
    (activity : Activity env (.eval root) state body reached) :
    ∀ message ∈ Trace.messages body, isStepMessage message = true := by
  intro message member
  rcases List.mem_filterMap.mp member with ⟨entry, present, found⟩
  rcases activity.leaves (inherited_true env) trivial entry present with ⟨node, -, leaves⟩
  exact leaves_message leaves found

/-- A run shows its start, then steps, then its end. -/
theorem executeBody_messages {env : Env} {fuel : Nat} {root : Node} {trace : Trace}
    {result : ExecutionResult} {state : ExecState}
    (run : Performs (executeBody env fuel root) {} trace result state) :
    ∃ middle last, Trace.messages trace = .programStart :: middle ++ [last] ∧
      (∀ message ∈ middle, isStepMessage message = true) ∧ isEndMessage last = true := by
  rcases executeBody_activity run with ⟨body, ending, activity, closes, rfl⟩
  rcases closes_messages closes with ⟨front, last, endMessages, stops, isEnd⟩
  refine ⟨Trace.messages body ++ front, last, ?_,
    List.forall_mem_append.mpr ⟨activity_messages activity, stops⟩, isEnd⟩
  rw [messages_append, start_messages, endMessages]
  simp

section Blocks

variable {overflow : String → Int64 → Int64 → Int64} {job : Job} {root : Node}
variable {diagnostics : List Diagnostic} {trace : Trace}

theorem isBlock_of_run {result : ExecutionResult}
    (compiled : compile job.source = some ⟨some root, diagnostics⟩)
    (clean : hasErrors diagnostics = false)
    (run : Run (execute { limits := job.limits, overflow } root) trace (.ok result)) :
    IsBlock overflow job (.diagnostics true diagnostics :: Trace.messages trace) := by
  rcases execute_run run with ⟨state, performs⟩
  rcases executeBody_messages performs with ⟨middle, last, messages, steps, isEnd⟩
  rw [messages]
  exact .ran compiled clean run messages steps isEnd

theorem isTornBlock_of_run
    (compiled : compile job.source = some ⟨some root, diagnostics⟩)
    (clean : hasErrors diagnostics = false)
    (run : Run (execute { limits := job.limits, overflow } root) trace (.error .trapped)) :
    IsTornBlock overflow job (.diagnostics true diagnostics :: Trace.messages trace) := by
  let program : Program := ⟨job.source, root, diagnostics, compiled, clean⟩
  rcases program.run_trapped _ run with ⟨body, rest, reached, same, activity⟩
  have messages : Trace.messages trace = .programStart :: Trace.messages body := by
    rw [same, start_messages]
  rw [messages]
  refine .trapped compiled clean run messages ?_
  intro message member
  apply activity_messages activity
  rw [messages_append]
  exact List.mem_append_left _ member

end Blocks

/-! ## The thread of a run -/

/-- What the thread of a job has emitted when it stands at a certain point. -/
inductive Progress (overflow : String → Int64 → Int64 → Int64) (job : Job) :
    Worker → List HostMessage → Prop
  | compiling : Progress overflow job (.compiling job) []
  | executing {root diagnostics trace execution} :
      compile job.source = some ⟨some root, diagnostics⟩ → hasErrors diagnostics = false →
      After (execute { limits := job.limits, overflow } root) trace execution →
      Progress overflow job (.executing execution)
        (.diagnostics true diagnostics :: Trace.messages trace)
  | reporting {root diagnostics trace entry message execution} :
      compile job.source = some ⟨some root, diagnostics⟩ → hasErrors diagnostics = false →
      After (execute { limits := job.limits, overflow } root) (trace ++ [entry]) execution →
      entry.message? = some message →
      Progress overflow job (.reporting message execution)
        (.diagnostics true diagnostics :: Trace.messages trace)
  | finishing {block} : IsBlock overflow job block → Progress overflow job .finishing block

section Threads

variable {overflow : String → Int64 → Int64 → Int64} {job : Job} {worker : Worker}
variable {block : List HostMessage}

/-- An execution that has begun can be completed to a block, or to what is left of one. -/
theorem exists_block {root : Node} {diagnostics : List Diagnostic} {trace : Trace}
    {execution : Execution} (compiled : compile job.source = some ⟨some root, diagnostics⟩)
    (clean : hasErrors diagnostics = false)
    (reached : After (execute { limits := job.limits, overflow } root) trace execution) :
    ∃ rest,
      IsBlock overflow job (.diagnostics true diagnostics :: Trace.messages trace ++ rest) ∨
      IsTornBlock overflow job
        (.diagnostics true diagnostics :: Trace.messages trace ++ rest) := by
  rcases reached.exists_run with ⟨after, outcome, run⟩
  let program : Program := ⟨job.source, root, diagnostics, compiled, clean⟩
  refine ⟨Trace.messages after, ?_⟩
  rw [List.cons_append, ← messages_append]
  rcases program.run_ends _ run with ⟨⟨result, rfl⟩, -⟩ | ⟨rfl, -⟩
  · exact .inl (isBlock_of_run compiled clean run)
  · exact .inr (isTornBlock_of_run compiled clean run)

/-- What a thread has emitted so far is nothing or the beginning of a block. -/
theorem Progress.begun (progress : Progress overflow job worker block) :
    block = [] ∨ ∃ rest, IsBlock overflow job (block ++ rest) ∨
      IsTornBlock overflow job (block ++ rest) := by
  cases progress with
  | compiling => exact .inl rfl
  | executing compiled clean reached => exact .inr (exists_block compiled clean reached)
  | reporting compiled clean reached =>
      rcases exists_block compiled clean reached with ⟨rest, whole⟩
      rw [messages_append, ← List.cons_append, List.append_assoc] at whole
      exact .inr ⟨_, whole⟩
  | finishing isBlock =>
      refine .inr ⟨[], .inl ?_⟩
      rw [List.append_nil]
      exact isBlock

end Threads

end CardCode.Harness
