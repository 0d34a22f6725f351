import CardCode.Foundation.Process

/-! # Surroundings and simulations

Surroundings with a state of their own make the run of a process unique. One process
simulates another where it does and asks the same up to a renaming, for as long as the
other is not excused. Nothing here names a particular program.
-/

namespace CardCode.Process

variable {interface source target : Interface} {Fault α β γ δ σ τ State : Type}

/-! ## Surroundings -/

/-- Surroundings that reply by a state of their own. -/
structure World (interface : Interface) (State : Type) where
  reply : State → (query : interface.Query) → interface.Reply query
  next : State → interface.Query → State

/-- The run of a process in given surroundings. -/
def attend (world : World interface State) :
    State → Process interface Fault α → List interface.Action × Except Fault α
  | _, .done value => ([], .ok value)
  | _, .fault reason => ([], .error reason)
  | state, .act action next =>
      let rest := attend world state next
      (action :: rest.1, rest.2)
  | state, .ask query next =>
      let reply := world.reply state query
      let rest := attend world (world.next state query) (next reply)
      (interface.record query reply :: rest.1, rest.2)

theorem run_attend (world : World interface State) (state : State)
    (process : Process interface Fault α) :
    Run process (attend world state process).1 (attend world state process).2 := by
  induction process generalizing state with
  | done value => exact .done
  | fault reason => exact .fault
  | act action next induction => exact .act (induction state)
  | ask query next induction =>
      exact .ask (world.reply state query) (induction (world.reply state query) _)

/-! ## Renamings -/

/-- What the actions, queries and replies of one vocabulary are called in another. -/
structure Renaming (source target : Interface) where
  action : source.Action → target.Action
  query : source.Query → target.Query
  reply : (question : source.Query) → source.Reply question → target.Reply (query question)
  record_reply : ∀ question given,
    target.record (query question) (reply question given) =
      action (source.record question given)

/-- The two surroundings reply the same, by the name it has in each. -/
structure Renaming.Carries (names : Renaming source target) (world : World source State)
    (other : World target State) : Prop where
  reply : ∀ state question,
    other.reply state (names.query question) =
      names.reply question (world.reply state question)
  next : ∀ state question,
    other.next state (names.query question) = world.next state question

/-! ## Simulations -/

/-- What frees a process of simulating another any further: an action of the other, a fault it
ends in, or an action at which it ends in a fault. -/
structure Excuse (source : Interface) (Fault : Type) where
  action : source.Action → Prop := fun _ => False
  fault : Fault → Prop := fun _ => False
  last : source.Action → Fault → Prop := fun _ _ => False

/-- `other` does and asks what `process` does and asks and ends in the same way, up to
`names` and `result`, until `process` is excused. -/
inductive Simulates (names : Renaming source target) (excuse : Excuse source Fault)
    (result : α → β) : Process source Fault α → Process target Fault β → Prop
  | done {value} : Simulates names excuse result (.done value) (.done (result value))
  | fault {reason} : Simulates names excuse result (.fault reason) (.fault reason)
  | excused {reason other} :
      excuse.fault reason → Simulates names excuse result (.fault reason) other
  | alarm {action next other} :
      excuse.action action → Simulates names excuse result (.act action next) other
  | last {action reason following} :
      excuse.last action reason →
      Simulates names excuse result (.act action (.fault reason))
        (.act (names.action action) following)
  | act {action next following} :
      Simulates names excuse result next following →
      Simulates names excuse result (.act action next)
        (.act (names.action action) following)
  | ask {question next following} :
      (∀ given, Simulates names excuse result (next given)
        (following (names.reply question given))) →
      Simulates names excuse result (.ask question next)
        (.ask (names.query question) following)

section Simulates

variable {names : Renaming source target} {excuse : Excuse source Fault}

theorem Simulates.bind {first : α → β} {second : γ → δ} {process : Process source Fault α}
    {other : Process target Fault β} {next : α → Process source Fault γ}
    {following : β → Process target Fault δ}
    (head : Simulates names excuse first process other)
    (tail : ∀ value, Simulates names excuse second (next value) (following (first value))) :
    Simulates names excuse second (process >>= next) (other >>= following) := by
  induction head with
  | done => exact tail _
  | fault => exact .fault
  | excused free => exact .excused free
  | alarm raised => exact .alarm raised
  | last ends => exact .last ends
  | act _ induction => exact .act induction
  | ask _ induction => exact .ask induction

/-- A process is excused at the end of a run. -/
def Excuse.AtEnd (excuse : Excuse source Fault) (trace : List source.Action) (reason : Fault) :
    Prop :=
  excuse.fault reason ∨ ∃ front action, trace = front ++ [action] ∧ excuse.last action reason

theorem Excuse.AtEnd.cons {trace : List source.Action} {reason : Fault} (action : source.Action)
    (excused : excuse.AtEnd trace reason) : excuse.AtEnd (action :: trace) reason := by
  rcases excused with free | ⟨front, final, rfl, ends⟩
  · exact .inl free
  · exact .inr ⟨action :: front, final, rfl, ends⟩

/-- A run that is not excused is repeated in the other vocabulary. -/
theorem Simulates.attend_eq {result : α → β} {process : Process source Fault α}
    {other : Process target Fault β} (simulates : Simulates names excuse result process other)
    {world : World source State} {otherWorld : World target State}
    (carries : names.Carries world otherWorld) {state : State}
    (ends : ∀ reason, (attend world state process).2 = .error reason →
      ¬ excuse.AtEnd (attend world state process).1 reason)
    (quiet : ∀ action ∈ (attend world state process).1, ¬ excuse.action action) :
    attend otherWorld state other =
      ((attend world state process).1.map names.action,
        (attend world state process).2.map result) := by
  induction simulates generalizing state with
  | done => rfl
  | fault => rfl
  | excused free => exact absurd (.inl free) (ends _ rfl)
  | alarm raised => exact absurd raised (quiet _ List.mem_cons_self)
  | last final => exact absurd (.inr ⟨[], _, rfl, final⟩) (ends _ rfl)
  | act _ induction =>
      have rest := induction (fun reason failed excused => ends reason failed (excused.cons _))
        fun action member => quiet action (List.mem_cons_of_mem _ member)
      rw [attend, rest]
      rfl
  | @ask question next following _ induction =>
      have rest := induction (world.reply state question)
        (fun reason failed excused => ends reason failed (excused.cons _))
        fun action member => quiet action (List.mem_cons_of_mem _ member)
      rw [attend, carries.reply, carries.next, rest, names.record_reply]
      rfl

/-- Every run without an alarm is repeated in the other vocabulary; if it is excused at its
end, more may follow there. -/
theorem Simulates.run {result : α → β} {process : Process source Fault α}
    {other : Process target Fault β} (simulates : Simulates names excuse result process other)
    [∀ query, Nonempty (target.Reply query)] {trace : List source.Action}
    {outcome : Except Fault α} (run : Run process trace outcome)
    (quiet : ∀ action ∈ trace, ¬ excuse.action action) :
    ∃ rest ending, Run other (trace.map names.action ++ rest) ending ∧
      (rest = [] ∧ ending = outcome.map result ∨
        ∃ reason, outcome = .error reason ∧ excuse.AtEnd trace reason) := by
  induction simulates generalizing trace outcome with
  | done =>
      cases run
      exact ⟨[], _, .done, .inl ⟨rfl, rfl⟩⟩
  | fault =>
      cases run
      exact ⟨[], _, .fault, .inl ⟨rfl, rfl⟩⟩
  | @excused reason other free =>
      cases run
      rcases (After.start : After other [] other).exists_run with ⟨rest, ending, goes⟩
      exact ⟨rest, ending, goes, .inr ⟨_, rfl, .inl free⟩⟩
  | alarm raised =>
      cases run
      exact absurd raised (quiet _ List.mem_cons_self)
  | @last action reason following final =>
      cases run with
      | act run =>
          cases run
          rcases (After.start : After following [] following).exists_run with
            ⟨rest, ending, goes⟩
          exact ⟨rest, ending, .act goes, .inr ⟨_, rfl, .inr ⟨[], _, rfl, final⟩⟩⟩
  | act _ induction =>
      cases run with
      | act run =>
          rcases induction run fun action member =>
            quiet action (List.mem_cons_of_mem _ member) with ⟨rest, ending, goes, same | free⟩
          · exact ⟨rest, ending, .act goes, .inl same⟩
          · rcases free with ⟨reason, failed, excused⟩
            exact ⟨rest, ending, .act goes, .inr ⟨reason, failed, excused.cons _⟩⟩
  | @ask question next following _ induction =>
      cases run with
      | ask reply run =>
          have answered {rest : List target.Action} {ending : Except Fault _}
              (goes : Run (following (names.reply question reply)) rest ending) :
              Run (.ask (names.query question) following)
                (names.action (source.record question reply) :: rest) ending := by
            rw [← names.record_reply]
            exact .ask _ goes
          rcases induction reply run fun action member =>
            quiet action (List.mem_cons_of_mem _ member) with ⟨rest, ending, goes, same | free⟩
          · exact ⟨rest, ending, answered goes, .inl same⟩
          · rcases free with ⟨reason, failed, excused⟩
            exact ⟨rest, ending, answered goes, .inr ⟨reason, failed, excused.cons _⟩⟩

end Simulates

/-! ## Processes over a state -/

section Mirrors

variable (names : Renaming source target) (excuse : Excuse source Fault) (image : σ → τ)

/-- `other` simulates `body` from every state, and carries its state along. -/
def Mirrors (result : α → β) (body : Stateful source Fault σ α)
    (other : Stateful target Fault τ β) : Prop :=
  ∀ start, Simulates names excuse (Prod.map result image) (body start) (other (image start))

variable {names excuse image}

theorem mirrors_pure {result : α → β} (value : α) :
    Mirrors names excuse image result (pure value : Stateful source Fault σ α)
      (pure (result value)) :=
  fun _ => .done

theorem mirrors_bind {first : α → β} {second : γ → δ} {body : Stateful source Fault σ α}
    {other : Stateful target Fault τ β} {next : α → Stateful source Fault σ γ}
    {following : β → Stateful target Fault τ δ}
    (head : Mirrors names excuse image first body other)
    (tail : ∀ value, Mirrors names excuse image second (next value)
      (following (first value))) :
    Mirrors names excuse image second (body >>= next) (other >>= following) := by
  intro start
  exact (head start).bind fun pair => tail pair.1 pair.2

theorem mirrors_get :
    Mirrors names excuse image image (get : Stateful source Fault σ σ) get :=
  fun _ => .done

theorem mirrors_modify {update : σ → σ} {otherUpdate : τ → τ}
    (commutes : ∀ state, otherUpdate (image state) = image (update state)) :
    Mirrors names excuse image id (modify update : Stateful source Fault σ PUnit)
      (modify otherUpdate) := by
  intro start
  change Simulates names excuse _ (.done ((), update start)) (.done ((), otherUpdate _))
  rw [commutes]
  exact .done

theorem mirrors_perform (action : source.Action) :
    Mirrors names excuse image id (perform action : Stateful source Fault σ Unit)
      (perform (names.action action)) :=
  fun _ => .act .done

theorem mirrors_query (question : source.Query) :
    Mirrors names excuse image (names.reply question)
      (query question : Stateful source Fault σ _) (query (names.query question)) :=
  fun _ => .ask fun _ => .done

theorem mirrors_abort {result : α → β} {reason : Fault} :
    Mirrors names excuse image result (abort reason : Stateful source Fault σ α)
      (abort reason) :=
  fun _ => .fault

theorem mirrors_excused {result : α → β} {reason : Fault} (free : excuse.fault reason)
    (other : Stateful target Fault τ β) :
    Mirrors names excuse image result (abort reason) other :=
  fun _ => .excused free

theorem mirrors_ite {result : α → β} {condition otherCondition : Prop} [Decidable condition]
    [Decidable otherCondition] {yes no : Stateful source Fault σ α}
    {otherYes otherNo : Stateful target Fault τ β} (same : otherCondition ↔ condition)
    (whenYes : condition → Mirrors names excuse image result yes otherYes)
    (whenNo : ¬ condition → Mirrors names excuse image result no otherNo) :
    Mirrors names excuse image result (if condition then yes else no)
      (if otherCondition then otherYes else otherNo) := by
  by_cases holds : condition
  · rw [if_pos holds, if_pos (same.mpr holds)]
    exact whenYes holds
  · rw [if_neg holds, if_neg (mt same.mp holds)]
    exact whenNo holds

end Mirrors

end CardCode.Process
