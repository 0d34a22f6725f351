import CardCode.Foundation.Process

/-! # Answers

A process may be given the answers one likes, as long as each is one its question admits.
Two lists of answers agree if they differ only behind a place where different questions
were asked. Nothing here names a particular program.
-/

namespace CardCode

variable {α κ : Type}

/-- Nothing is answered differently where the same was asked. -/
inductive Agree (kind : α → κ) : List α → List α → Prop
  | shorter {others} : Agree kind [] others
  | longer {answers} : Agree kind answers []
  | same {answer answers others} :
      Agree kind answers others → Agree kind (answer :: answers) (answer :: others)
  | apart {answer other answers others} :
      kind answer ≠ kind other → Agree kind (answer :: answers) (other :: others)

section Agree

variable {kind : α → κ} {first second third fourth : List α}

theorem Agree.fronts (agree : Agree kind (first ++ second) (third ++ fourth)) :
    Agree kind first third := by
  induction first generalizing third with
  | nil => exact .shorter
  | cons answer first induction =>
      cases third with
      | nil => exact .longer
      | cons other third =>
          cases agree with
          | same rest => exact .same (induction rest)
          | apart differ => exact .apart differ

theorem Agree.backs (agree : Agree kind (first ++ second) (first ++ fourth)) :
    Agree kind second fourth := by
  induction first with
  | nil => exact agree
  | cons answer first induction =>
      cases agree with
      | same rest => exact induction rest
      | apart differ => exact absurd rfl differ

theorem Agree.single {answer other : α} (agree : Agree kind [answer] [other])
    (asked : kind answer = kind other) : answer = other := by
  cases agree with
  | same => rfl
  | apart differ => exact absurd asked differ

end Agree

namespace Process

variable {interface : Interface} {Fault β σ : Type}

/-- Everything a process does of its own accord is of a certain kind. -/
inductive Owns (own : interface.Action → Prop) : Process interface Fault β → Prop
  | done {value} : Owns own (.done value)
  | fault {reason} : Owns own (.fault reason)
  | act {action next} : own action → Owns own next → Owns own (.act action next)
  | ask {query next} : (∀ reply, Owns own (next reply)) → Owns own (.ask query next)

theorem Owns.mono {own other : interface.Action → Prop} {process : Process interface Fault β}
    (owns : Owns own process) (implies : ∀ action, own action → other action) :
    Owns other process := by
  induction owns with
  | done => exact .done
  | fault => exact .fault
  | act own _ induction => exact .act (implies _ own) induction
  | ask _ induction => exact .ask induction

theorem Owns.after {own : interface.Action → Prop} {process rest : Process interface Fault β}
    {trace : List interface.Action} (owns : Owns own process) (reached : After process trace rest) :
    Owns own rest := by
  induction reached with
  | start => exact owns
  | act _ induction =>
      cases induction with
      | act _ rest => exact rest
  | ask reply _ induction =>
      cases induction with
      | ask rest => exact rest reply

theorem Owns.bind {γ : Type} {own : interface.Action → Prop}
    {process : Process interface Fault β} {next : β → Process interface Fault γ}
    (head : Owns own process) (tail : ∀ value, Owns own (next value)) :
    Owns own (process >>= next) := by
  induction head with
  | done => exact tail _
  | fault => exact .fault
  | act own _ induction => exact .act own induction
  | ask _ induction => exact .ask induction

/-- A process whose questions can be answered in a permitted way, as one wants wherever
what is wanted fits, has such a run. -/
theorem Owns.exists_run {permitted : interface.Action → Prop} {answer : interface.Action → Option α}
    {kind : α → κ}
    (replies : ∀ query (wanted : Option α), ∃ reply, permitted (interface.record query reply) ∧
      ∀ found, answer (interface.record query reply) = some found → ∀ want ∈ wanted,
        kind found = kind want → found = want)
    {process : Process interface Fault β}
    (owns : Owns (fun action => permitted action ∧ answer action = none) process)
    (wanted : List α) :
    ∃ trace result, Run process trace result ∧ (∀ action ∈ trace, permitted action) ∧
      Agree kind (trace.filterMap answer) wanted := by
  induction owns generalizing wanted with
  | done => exact ⟨_, _, .done, fun action member => (nomatch member), .shorter⟩
  | fault => exact ⟨_, _, .fault, fun action member => (nomatch member), .shorter⟩
  | act own _ induction =>
      rcases induction wanted with ⟨trace, result, run, calm, agree⟩
      refine ⟨_, result, .act run, List.forall_mem_cons.mpr ⟨own.1, calm⟩, ?_⟩
      rw [List.filterMap_cons_none own.2]
      exact agree
  | @ask query next _ induction =>
      rcases replies query wanted.head? with ⟨reply, allowed, fits⟩
      cases given : answer (interface.record query reply) with
      | none =>
          rcases induction reply wanted with ⟨trace, result, run, calm, agree⟩
          refine ⟨_, result, .ask reply run, List.forall_mem_cons.mpr ⟨allowed, calm⟩, ?_⟩
          rw [List.filterMap_cons_none given]
          exact agree
      | some found =>
          rcases induction reply wanted.tail with ⟨trace, result, run, calm, agree⟩
          refine ⟨_, result, .ask reply run, List.forall_mem_cons.mpr ⟨allowed, calm⟩, ?_⟩
          rw [List.filterMap_cons_some given]
          cases wanted with
          | nil => exact .longer
          | cons want wanted =>
              by_cases asked : kind found = kind want
              · rw [fits found given want rfl asked]
                exact .same agree
              · exact .apart asked

/-! ## Processes over a state -/

section Stateful

variable {γ : Type} {own : interface.Action → Prop}

/-- As above, from every state. -/
def OwnsAll (own : interface.Action → Prop) (body : Stateful interface Fault σ β) : Prop :=
  ∀ state, Owns own (body state)

theorem ownsAll_pure (value : β) :
    OwnsAll own (pure value : Stateful interface Fault σ β) :=
  fun _ => .done

theorem ownsAll_bind {body : Stateful interface Fault σ β}
    {next : β → Stateful interface Fault σ γ} (head : OwnsAll own body)
    (tail : ∀ value, OwnsAll own (next value)) : OwnsAll own (body >>= next) :=
  fun state => (head state).bind fun pair => tail pair.1 pair.2

theorem ownsAll_get : OwnsAll own (get : Stateful interface Fault σ σ) :=
  fun _ => .done

theorem ownsAll_modify (update : σ → σ) :
    OwnsAll own (modify update : Stateful interface Fault σ PUnit) :=
  fun _ => .done

theorem ownsAll_perform {action : interface.Action} (owned : own action) :
    OwnsAll own (perform action : Stateful interface Fault σ Unit) :=
  fun _ => .act owned .done

theorem ownsAll_abort (reason : Fault) :
    OwnsAll own (abort reason : Stateful interface Fault σ β) :=
  fun _ => .fault

theorem ownsAll_ite {condition : Prop} [Decidable condition]
    {yes no : Stateful interface Fault σ β} (whenYes : OwnsAll own yes)
    (whenNo : OwnsAll own no) : OwnsAll own (if condition then yes else no) := by
  split
  · exact whenYes
  · exact whenNo

end Stateful

end Process

end CardCode
