import Mathlib.Algebra.Order.Ring.Int
import Mathlib.Data.List.Basic

/-! # Interactive processes

A process performs actions of its own and asks its surroundings for replies.
The replies are left open, so one process stands for all of its runs; a run
fixes every reply and leaves a trace. Nothing here names a particular program.
-/

namespace CardCode

/-- The vocabulary of a process: what it does on its own, what it may ask, and
how a reply is recorded in the trace. -/
structure Interface where
  Action : Type
  Query : Type
  Reply : Query → Type
  record : (query : Query) → Reply query → Action

inductive Process (interface : Interface) (Fault α : Type) where
  | done (value : α)
  | fault (reason : Fault)
  | act (action : interface.Action) (next : Process interface Fault α)
  | ask (query : interface.Query)
      (next : interface.Reply query → Process interface Fault α)

namespace Process

variable {interface : Interface} {Fault α β σ : Type}

def bind : Process interface Fault α →
    (α → Process interface Fault β) → Process interface Fault β
  | .done value, continuation => continuation value
  | .fault reason, _ => .fault reason
  | .act action next, continuation => .act action (next.bind continuation)
  | .ask query next, continuation =>
      .ask query fun reply => (next reply).bind continuation

instance : Monad (Process interface Fault) where
  pure := .done
  bind := bind

/-! ## Runs -/

/-- One complete run: the trace it leaves and how it ends. -/
inductive Run : Process interface Fault α → List interface.Action →
    Except Fault α → Prop
  | done {value} : Run (.done value) [] (.ok value)
  | fault {reason} : Run (.fault reason) [] (.error reason)
  | act {action next trace result} :
      Run next trace result → Run (.act action next) (action :: trace) result
  | ask {query next trace result} (reply : interface.Reply query) :
      Run (next reply) trace result →
      Run (.ask query next) (interface.record query reply :: trace) result

/-- A process run against a fixed sequence of replies, numbered by query. -/
def respond (replies : Nat → (query : interface.Query) → interface.Reply query) :
    Nat → Process interface Fault α → List interface.Action × Except Fault α
  | _, .done value => ([], .ok value)
  | _, .fault reason => ([], .error reason)
  | asked, .act action next =>
      let rest := respond replies asked next
      (action :: rest.1, rest.2)
  | asked, .ask query next =>
      let reply := replies asked query
      let rest := respond replies (asked + 1) (next reply)
      (interface.record query reply :: rest.1, rest.2)

theorem run_respond
    (replies : Nat → (query : interface.Query) → interface.Reply query)
    (process : Process interface Fault α) (asked : Nat) :
    Run process (respond replies asked process).1 (respond replies asked process).2 := by
  induction process generalizing asked with
  | done value => exact .done
  | fault reason => exact .fault
  | act action next induction => exact .act (induction asked)
  | ask query next induction =>
      exact .ask (replies asked query) (induction (replies asked query) (asked + 1))

/-- Where a process stands after part of a run. -/
inductive After : Process interface Fault α → List interface.Action →
    Process interface Fault α → Prop
  | start {process} : After process [] process
  | act {process trace action next} :
      After process trace (.act action next) → After process (trace ++ [action]) next
  | ask {process trace query next} (reply : interface.Reply query) :
      After process trace (.ask query next) →
      After process (trace ++ [interface.record query reply]) (next reply)

/-- What is done before a stop and what is done after it make one run. -/
theorem After.run_append {process rest : Process interface Fault α}
    {before after : List interface.Action} {result : Except Fault α}
    (reached : After process before rest) (run : Run rest after result) :
    Run process (before ++ after) result := by
  induction reached generalizing after with
  | start => exact run
  | act _ induction => simpa using induction (.act run)
  | ask reply _ induction => simpa using induction (.ask reply run)

/-- Every partial run can be completed once every query has some reply. -/
theorem After.exists_run [inhabited : ∀ query, Nonempty (interface.Reply query)]
    {process rest : Process interface Fault α} {before : List interface.Action}
    (reached : After process before rest) :
    ∃ after result, Run process (before ++ after) result := by
  have run := run_respond (fun _ query => Classical.choice (inhabited query)) rest 0
  exact ⟨_, _, reached.run_append run⟩

@[simp] theorem run_done_iff {value : α} {trace : List interface.Action}
    {result : Except Fault α} :
    Run (.done value) trace result ↔ trace = [] ∧ result = .ok value := by
  constructor
  · intro run
    cases run with
    | done => exact ⟨rfl, rfl⟩
  · intro run
    rcases run with ⟨rfl, rfl⟩
    exact .done

@[simp] theorem run_fault_iff {reason : Fault} {trace : List interface.Action}
    {result : Except Fault α} :
    Run (.fault reason) trace result ↔ trace = [] ∧ result = .error reason := by
  constructor
  · intro run
    cases run with
    | fault => exact ⟨rfl, rfl⟩
  · intro run
    rcases run with ⟨rfl, rfl⟩
    exact .fault

theorem run_act_iff {action : interface.Action} {next : Process interface Fault α}
    {trace : List interface.Action} {result : Except Fault α} :
    Run (.act action next) trace result ↔
      ∃ rest, Run next rest result ∧ trace = action :: rest := by
  constructor
  · intro run
    cases run with
    | act run => exact ⟨_, run, rfl⟩
  · intro run
    rcases run with ⟨rest, run, rfl⟩
    exact .act run

theorem run_ask_iff {query : interface.Query}
    {next : interface.Reply query → Process interface Fault α}
    {trace : List interface.Action} {result : Except Fault α} :
    Run (.ask query next) trace result ↔
      ∃ reply rest, Run (next reply) rest result ∧
        trace = interface.record query reply :: rest := by
  constructor
  · intro run
    cases run with
    | ask reply run => exact ⟨reply, _, run, rfl⟩
  · intro run
    rcases run with ⟨reply, rest, run, rfl⟩
    exact .ask reply run

theorem run_bind_ok_iff {process : Process interface Fault α}
    {continuation : α → Process interface Fault β}
    {trace : List interface.Action} {value : β} :
    Run (process >>= continuation) trace (.ok value) ↔
      ∃ first middle rest, Run process first (.ok middle) ∧
        Run (continuation middle) rest (.ok value) ∧ trace = first ++ rest := by
  constructor
  · intro run
    induction process generalizing trace with
    | done middle => exact ⟨[], middle, trace, .done, run, rfl⟩
    | fault reason => cases run
    | act action next induction =>
        rcases run_act_iff.mp run with ⟨tail, tailRun, rfl⟩
        rcases induction tailRun with ⟨first, middle, rest, firstRun, restRun, rfl⟩
        exact ⟨action :: first, middle, rest, .act firstRun, restRun, rfl⟩
    | ask query next induction =>
        rcases run_ask_iff.mp run with ⟨reply, tail, tailRun, rfl⟩
        rcases induction reply tailRun with
          ⟨first, middle, rest, firstRun, restRun, rfl⟩
        exact ⟨_ :: first, middle, rest, .ask reply firstRun, restRun, rfl⟩
  · intro run
    rcases run with ⟨first, middle, rest, firstRun, restRun, rfl⟩
    induction process generalizing first with
    | done _ =>
        rcases run_done_iff.mp firstRun with ⟨rfl, equal⟩
        cases equal
        exact restRun
    | fault reason => cases firstRun
    | act action next induction =>
        rcases run_act_iff.mp firstRun with ⟨tail, tailRun, rfl⟩
        exact .act (induction tail tailRun)
    | ask query next induction =>
        rcases run_ask_iff.mp firstRun with ⟨reply, tail, tailRun, rfl⟩
        exact .ask reply (induction reply tail tailRun)

theorem run_bind_error {process : Process interface Fault α}
    {continuation : α → Process interface Fault β}
    {trace : List interface.Action} {reason : Fault}
    (run : Run (process >>= continuation) trace (.error reason)) :
    Run process trace (.error reason) ∨
      ∃ first middle rest, Run process first (.ok middle) ∧
        Run (continuation middle) rest (.error reason) := by
  induction process generalizing trace with
  | done middle => exact .inr ⟨[], middle, trace, .done, run⟩
  | fault other =>
      rcases run_fault_iff.mp run with ⟨rfl, equal⟩
      cases equal
      exact .inl .fault
  | act action next induction =>
      rcases run_act_iff.mp run with ⟨tail, tailRun, rfl⟩
      rcases induction tailRun with failed | ⟨first, middle, rest, firstRun, restRun⟩
      · exact .inl (.act failed)
      · exact .inr ⟨action :: first, middle, rest, .act firstRun, restRun⟩
  | ask query next induction =>
      rcases run_ask_iff.mp run with ⟨reply, tail, tailRun, rfl⟩
      rcases induction reply tailRun with
        failed | ⟨first, middle, rest, firstRun, restRun⟩
      · exact .inl (.ask reply failed)
      · exact .inr ⟨_ :: first, middle, rest, .ask reply firstRun, restRun⟩

/-- A change to the value a process ends with changes nothing else of its runs. -/
theorem run_map_iff {process : Process interface Fault α} {change : α → β}
    {trace : List interface.Action} {outcome : Except Fault β} :
    Run (process >>= fun value => pure (change value)) trace outcome ↔
      ∃ ending, Run process trace ending ∧ outcome = ending.map change := by
  constructor
  · intro run
    induction process generalizing trace with
    | done value =>
        rcases run_done_iff.mp run with ⟨rfl, rfl⟩
        exact ⟨_, .done, rfl⟩
    | fault reason =>
        rcases run_fault_iff.mp run with ⟨rfl, rfl⟩
        exact ⟨_, .fault, rfl⟩
    | act action next induction =>
        rcases run_act_iff.mp run with ⟨tail, tailRun, rfl⟩
        rcases induction tailRun with ⟨ending, ends, same⟩
        exact ⟨ending, .act ends, same⟩
    | ask query next induction =>
        rcases run_ask_iff.mp run with ⟨reply, tail, tailRun, rfl⟩
        rcases induction reply tailRun with ⟨ending, ends, same⟩
        exact ⟨ending, .ask reply ends, same⟩
  · intro run
    rcases run with ⟨ending, run, rfl⟩
    induction run with
    | done => exact .done
    | fault => exact .fault
    | act _ induction => exact .act induction
    | ask reply _ induction => exact .ask reply induction

/-- Where every reply leaves an entry of its own, no run goes on beyond the end of another. -/
theorem Run.unique (faithful : ∀ query, Function.Injective (interface.record query))
    {process : Process interface Fault α} {first second : List interface.Action}
    {left right : List interface.Action} {result other : Except Fault α}
    (run : Run process first result) (again : Run process second other)
    (same : first ++ left = second ++ right) : first = second ∧ result = other := by
  induction run generalizing second with
  | done | fault =>
      cases again
      exact ⟨rfl, rfl⟩
  | act _ induction =>
      cases again with
      | act again =>
          rw [List.cons_append, List.cons_append, List.cons.injEq] at same
          rcases induction again same.2 with ⟨rfl, rfl⟩
          exact ⟨rfl, rfl⟩
  | @ask query next _ _ reply _ induction =>
      cases again with
      | ask otherReply again =>
          rw [List.cons_append, List.cons_append, List.cons.injEq] at same
          cases faithful query same.1
          rcases induction again same.2 with ⟨rfl, rfl⟩
          exact ⟨rfl, rfl⟩

/-! ## Processes over a state -/

/-- A process that also threads a state of its own. -/
abbrev Stateful (interface : Interface) (Fault σ : Type) :=
  StateT σ (Process interface Fault)

def perform (action : interface.Action) : Stateful interface Fault σ Unit :=
  fun state => .act action (.done ((), state))

def query (question : interface.Query) :
    Stateful interface Fault σ (interface.Reply question) :=
  fun state => .ask question fun reply => .done (reply, state)

def abort (reason : Fault) : Stateful interface Fault σ α :=
  fun _ => .fault reason

/-- `body` started in `before` can leave `trace`, return `value` and end in `after`. -/
def Performs (body : Stateful interface Fault σ α) (before : σ)
    (trace : List interface.Action) (value : α) (after : σ) : Prop :=
  Run (body before) trace (.ok (value, after))

/-- No run of `body` from `before` ends in a fault. -/
def Faultless (body : Stateful interface Fault σ α) (before : σ) : Prop :=
  ∀ trace reason, ¬ Run (body before) trace (.error reason)

variable {before after : σ} {trace : List interface.Action}

@[simp] theorem performs_pure {value result : α} :
    Performs (pure value : Stateful interface Fault σ α) before trace result after ↔
      trace = [] ∧ result = value ∧ after = before := by
  change Run (.done (value, before)) trace (.ok (result, after)) ↔ _
  simp only [run_done_iff, Except.ok.injEq, Prod.mk.injEq]

theorem performs_bind {body : Stateful interface Fault σ α}
    {continuation : α → Stateful interface Fault σ β} {value : β} :
    Performs (body >>= continuation) before trace value after ↔
      ∃ first middle state rest, Performs body before first middle state ∧
        Performs (continuation middle) state rest value after ∧
        trace = first ++ rest := by
  change Run (body before >>= fun pair => continuation pair.1 pair.2) trace
    (.ok (value, after)) ↔ _
  rw [run_bind_ok_iff]
  constructor
  · intro run
    rcases run with ⟨first, ⟨middle, state⟩, rest, firstRun, restRun, equal⟩
    exact ⟨first, middle, state, rest, firstRun, restRun, equal⟩
  · intro run
    rcases run with ⟨first, middle, state, rest, firstRun, restRun, equal⟩
    exact ⟨first, (middle, state), rest, firstRun, restRun, equal⟩

/-- What is left of a run of two parts once the first has been performed. -/
theorem performs_rest (faithful : ∀ query, Function.Injective (interface.record query))
    {body : Stateful interface Fault σ α} {continuation : α → Stateful interface Fault σ β}
    {first rest : List interface.Action} {middle : α} {state : σ} {value : β}
    (performed : Performs body before first middle state)
    (run : Performs (body >>= continuation) before (first ++ rest) value after) :
    Performs (continuation middle) state rest value after := by
  rcases performs_bind.mp run with ⟨front, found, between, tail, frontRun, tailRun, same⟩
  rcases performed.unique faithful frontRun same with ⟨rfl, equal⟩
  cases equal
  rw [List.append_cancel_left same]
  exact tailRun

@[simp] theorem performs_get {value : σ} :
    Performs (get : Stateful interface Fault σ σ) before trace value after ↔
      trace = [] ∧ value = before ∧ after = before := by
  change Run (.done (before, before)) trace (.ok (value, after)) ↔ _
  simp only [run_done_iff, Except.ok.injEq, Prod.mk.injEq]

@[simp] theorem performs_modify {update : σ → σ} {value : PUnit} :
    Performs (modify update : Stateful interface Fault σ PUnit)
        before trace value after ↔
      trace = [] ∧ after = update before := by
  change Run (.done ((), update before)) trace (.ok (value, after)) ↔ _
  simp only [run_done_iff, Except.ok.injEq, Prod.mk.injEq, true_and]

@[simp] theorem performs_perform {action : interface.Action} {value : Unit} :
    Performs (perform action : Stateful interface Fault σ Unit)
        before trace value after ↔
      trace = [action] ∧ after = before := by
  change Run (.act action (.done ((), before))) trace (.ok (value, after)) ↔ _
  simp only [run_act_iff, run_done_iff, Except.ok.injEq, Prod.mk.injEq, true_and]
  constructor
  · intro run
    rcases run with ⟨rest, ⟨rfl, rfl⟩, rfl⟩
    exact ⟨rfl, rfl⟩
  · intro run
    rcases run with ⟨rfl, rfl⟩
    exact ⟨[], ⟨rfl, rfl⟩, rfl⟩

@[simp] theorem performs_query {question : interface.Query}
    {value : interface.Reply question} :
    Performs (query question : Stateful interface Fault σ _)
        before trace value after ↔
      trace = [interface.record question value] ∧ after = before := by
  change Run (.ask question fun reply => .done (reply, before)) trace
    (.ok (value, after)) ↔ _
  simp only [run_ask_iff, run_done_iff, Except.ok.injEq, Prod.mk.injEq]
  constructor
  · intro run
    rcases run with ⟨reply, rest, ⟨rfl, rfl, rfl⟩, rfl⟩
    exact ⟨rfl, rfl⟩
  · intro run
    rcases run with ⟨rfl, rfl⟩
    exact ⟨value, [], ⟨rfl, rfl, rfl⟩, rfl⟩

@[simp] theorem performs_abort {reason : Fault} {value : α} :
    ¬ Performs (abort reason : Stateful interface Fault σ α)
        before trace value after := by
  intro run
  cases run

theorem faultless_pure (value : α) (state : σ) :
    Faultless (pure value : Stateful interface Fault σ α) state := by
  intro trace reason run
  cases run

theorem faultless_get (state : σ) :
    Faultless (get : Stateful interface Fault σ σ) state := by
  intro trace reason run
  cases run

theorem faultless_modify (update : σ → σ) (state : σ) :
    Faultless (modify update : Stateful interface Fault σ PUnit) state := by
  intro trace reason run
  cases run

theorem faultless_perform (action : interface.Action) (state : σ) :
    Faultless (perform action : Stateful interface Fault σ Unit) state := by
  intro trace reason run
  cases run with
  | act run => cases run

theorem faultless_query (question : interface.Query) (state : σ) :
    Faultless (query question : Stateful interface Fault σ _) state := by
  intro trace reason run
  cases run with
  | ask reply run => cases run

/-- A sequence is faultless when its head is and its tail is wherever the head
can lead. -/
theorem faultless_bind {body : Stateful interface Fault σ α}
    {continuation : α → Stateful interface Fault σ β} {state : σ}
    (head : Faultless body state)
    (tail : ∀ first middle reached, Performs body state first middle reached →
      Faultless (continuation middle) reached) :
    Faultless (body >>= continuation) state := by
  intro trace reason run
  change Run (body state >>= fun pair => continuation pair.1 pair.2) trace
    (.error reason) at run
  rcases run_bind_error run with
    failed | ⟨first, ⟨middle, reached⟩, rest, firstRun, restRun⟩
  · exact head trace reason failed
  · exact tail first middle reached firstRun rest reason restRun

end Process

end CardCode
