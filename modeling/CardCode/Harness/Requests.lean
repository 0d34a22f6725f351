import CardCode.Harness.Effects

/-! # Requests one after another

The control thread does all that a message asks for before it receives the next one,
whatever the threads of the runs do meanwhile.
-/

namespace CardCode.Harness

/-! ## What is done for a message -/

/-- The number of the run whose thread makes a step. -/
def Label.run? : Label → Option Nat
  | .emit run _ | .poll run _ | .load run _ | .work run | .finish run => some run
  | _ => none

/-- The steps of the control thread. -/
def controlled (history : List Label) : List Label :=
  history.filter fun label => label.run?.isNone

theorem controlled_snoc (history : List Label) (label : Label) :
    controlled (history ++ [label]) =
      controlled history ++ if label.run?.isNone then [label] else [] := by
  rw [controlled, List.filter_append, List.filter_singleton, Bool.cond_eq_ite]
  rfl

/-- All that the control thread does for a message. -/
inductive Script (message : Option JsonValue) : List Label → Prop
  | complained {complaint} : Wants message (.nothing complaint) →
      Script message [.receive message, .reply (.error complaint)]
  | compiled {source result} : Wants message (.compile source) →
      compile source = some result →
      Script message [.receive message, .reply (.diagnostics result.ok result.diagnostics)]
  | refused {job} : Wants message (.run job) →
      Script message [.receive message, .refuse, .reply (.error "a program is already running")]
  | accepted {job} : Wants message (.run job) →
      Script message [.receive message, .accept job, .join, .clear, .start]
  | cancelled : Wants message .cancel → Script message [.receive message, .cancel]
  | stored {readings} : Wants message (.store readings) →
      Script message (.receive message :: readings.map .store)

/-- What it has done for a message when it stands at a certain point. -/
inductive Midway (message : Option JsonValue) : List Label → Control → Prop
  | received {wish} : Wants message wish → Midway message [.receive message] wish.control
  | refused {job} : Wants message (.run job) →
      Midway message [.receive message, .refuse] (.fails "a program is already running")
  | accepted {job} : Wants message (.run job) →
      Midway message [.receive message, .accept job] (.joins job)
  | joined {job} : Wants message (.run job) →
      Midway message [.receive message, .accept job, .join] (.clears job)
  | cleared {job} : Wants message (.run job) →
      Midway message [.receive message, .accept job, .join, .clear] (.starts job)
  | storing {before readings} : Wants message (.store (before ++ readings)) → readings ≠ [] →
      Midway message (.receive message :: before.map .store) (.stores readings)

theorem Midway.busy {message : Option JsonValue} {begun : List Label} {control : Control}
    (midway : Midway message begun control) : control ≠ .idle := by
  cases midway with
  | @received wish => cases wish <;> exact nofun
  | _ => exact nofun

/-- Nothing but the message has come before a thing that is done at once. -/
theorem Midway.fresh {message : Option JsonValue} {begun : List Label} {wish : Wish}
    (midway : Midway message begun wish.control) (ordered : ∀ complaint, wish ≠ .nothing complaint)
    (single : ∀ readings, wish ≠ .store readings) :
    Wants message wish ∧ begun = [.receive message] := by
  generalize at' : wish.control = control at midway
  cases midway with
  | received wants =>
      cases Wish.control_injective at'
      exact ⟨wants, rfl⟩
  | refused =>
      cases wish with
      | nothing complaint => exact absurd rfl (ordered complaint)
      | _ => cases at'
  | storing =>
      cases wish with
      | store readings => exact absurd rfl (single readings)
      | _ => cases at'
  | accepted | joined | cleared => cases wish <;> cases at'

/-- A step leads to the end of what is done for the message, or further on. -/
theorem Midway.step {message : Option JsonValue} {begun : List Label} {bridge next : Bridge}
    {label : Label} (midway : Midway message begun bridge.control)
    (step : ControlStep bridge label next) :
    next.control = .idle ∧ Script message (begun ++ [label]) ∨
      Midway message (begun ++ [label]) next.control := by
  generalize at' : bridge.control = control at midway
  cases step with
  | receive idle => exact absurd (at'.symm.trans idle) midway.busy
  | @fail complaint stands =>
      rw [stands] at at'
      cases midway with
      | @received wish wants =>
          have same : Wish.nothing complaint = wish := Wish.control_injective at'
          cases same
          exact .inl ⟨rfl, .complained wants⟩
      | refused wants =>
          cases at'
          exact .inl ⟨rfl, .refused wants⟩
      | _ => cases at'
  | @compile source result stands compiled =>
      rw [← at', stands] at midway
      rcases @Midway.fresh _ _ (.compile source) midway nofun nofun with ⟨wants, rfl⟩
      exact .inl ⟨rfl, .compiled wants compiled⟩
  | @refuse job stands _ =>
      rw [← at', stands] at midway
      rcases @Midway.fresh _ _ (.run job) midway nofun nofun with ⟨wants, rfl⟩
      exact .inr (.refused wants)
  | @accept job stands _ =>
      rw [← at', stands] at midway
      rcases @Midway.fresh _ _ (.run job) midway nofun nofun with ⟨wants, rfl⟩
      exact .inr (.accepted wants)
  | join stands _ =>
      rw [stands] at at'
      cases midway with
      | @received wish _ => cases wish <;> cases at'
      | accepted wants =>
          cases at'
          exact .inr (.joined wants)
      | _ => cases at'
  | clear stands =>
      rw [stands] at at'
      cases midway with
      | @received wish _ => cases wish <;> cases at'
      | joined wants =>
          cases at'
          exact .inr (.cleared wants)
      | _ => cases at'
  | start stands _ =>
      rw [stands] at at'
      cases midway with
      | @received wish _ => cases wish <;> cases at'
      | cleared wants =>
          cases at'
          exact .inl ⟨rfl, .accepted wants⟩
      | _ => cases at'
  | cancel stands =>
      rw [← at', stands] at midway
      rcases @Midway.fresh _ _ .cancel midway nofun nofun with ⟨wants, rfl⟩
      exact .inl ⟨rfl, .cancelled wants⟩
  | @store reading rest stands =>
      rw [stands] at at'
      have storing : ∃ before, Wants message (.store (before ++ reading :: rest)) ∧
          begun = .receive message :: before.map .store := by
        cases midway with
        | @received wish wants =>
            have same : Wish.store (reading :: rest) = wish := Wish.control_injective at'
            cases same
            exact ⟨[], wants, rfl⟩
        | storing wants _ =>
            cases at'
            exact ⟨_, wants, rfl⟩
        | _ => cases at'
      rcases storing with ⟨before, wants, rfl⟩
      have more : Label.receive message :: before.map Label.store ++ [.store reading] =
          .receive message :: (before ++ [reading]).map .store := by
        rw [List.map_append, List.cons_append]
        rfl
      rw [more]
      cases rest with
      | nil => exact .inl ⟨rfl, .stored wants⟩
      | cons second others =>
          refine .inr (.storing ?_ (List.cons_ne_nil second others))
          rwa [List.append_assoc, List.singleton_append]

/-! ## Whole histories -/

/-- The control thread has done all that some messages ask for, one after another, and
the beginning of what the last one does unless it is idle. -/
inductive Conversation (steps : List Label) : Control → Prop
  | idle {messages scripts} : List.Forall₂ Script messages scripts → steps = scripts.flatten →
      Conversation steps .idle
  | busy {messages scripts message begun control} : List.Forall₂ Script messages scripts →
      Midway message begun control → steps = scripts.flatten ++ begun →
      Conversation steps control

/-- The messages are handled one after another. Every step does to the fields of the bridge
what it shows, and shows what it finds there; the thread of a run compiles what the run was
accepted for. -/
structure Handled (history : List Label) (bridge : Bridge) : Prop where
  conversation : Conversation (controlled history) bridge.control
  memory : bridge.memory = memoryAfter history
  finds : ∀ before label after, history = before ++ label :: after →
    label.Finds (memoryAfter before)
  compiles : ∀ (run : Nat) (job : Job), bridge.workers[run]? = some (.compiling job) →
    (accepted history)[run]? = some job

theorem Conversation.step {steps : List Label} {bridge next : Bridge} {label : Label}
    (conversation : Conversation steps bridge.control) (step : ControlStep bridge label next) :
    Conversation (steps ++ [label]) next.control := by
  generalize at' : bridge.control = control at conversation
  cases conversation with
  | @idle messages scripts complete same =>
      cases step with
      | @receive message beyond =>
          rcases @handle_wants beyond message with ⟨wish, wants, does⟩
          rw [does]
          exact .busy complete (.received wants) (by rw [same])
      | fail stands | compile stands _ | refuse stands _ | accept stands _ | join stands _
      | clear stands | start stands _ | cancel stands | store stands =>
          rw [stands] at at'
          cases at'
  | @busy messages scripts message begun _ complete midway same =>
      rw [← at'] at midway
      rcases midway.step step with ⟨idle, script⟩ | further
      · have all : List.Forall₂ Script (messages ++ [message]) (scripts ++ [begun ++ [label]]) :=
          List.rel_append complete (.cons script .nil)
        rw [idle]
        refine .idle all ?_
        rw [List.flatten_append, List.flatten_singleton, same, List.append_assoc]
      · exact .busy complete further (by rw [same, List.append_assoc])

theorem ControlStep.run? {bridge next : Bridge} {label : Label}
    (step : ControlStep bridge label next) : label.run? = none := by
  cases step <;> rfl

theorem ofAction_run? (run : Nat) (action : Action) :
    (Label.ofAction run action).run? = some run := by
  rw [Label.ofAction]
  split <;> rfl

section Steps

variable {overflow : String → Int64 → Int64 → Int64} {history : List Label}
variable {bridge next : Bridge} {label : Label}

theorem WorkerStep.run? {run : Nat} (step : WorkerStep overflow bridge run label next) :
    label.run? = some run := by
  cases step with
  | act => exact ofAction_run? run _
  | _ => rfl

theorem WorkerStep.control {run : Nat} (step : WorkerStep overflow bridge run label next) :
    next.control = bridge.control ∧ next.joinable = bridge.joinable ∧
      next.workers.length = bridge.workers.length := by
  cases step <;> exact ⟨rfl, rfl, List.length_set⟩

theorem WorkerStep.set {run : Nat} (step : WorkerStep overflow bridge run label next) :
    ∃ later, next.workers = bridge.workers.set run later := by
  cases step <;> exact ⟨_, rfl⟩

theorem Reaches.conversation (reaches : Reaches overflow history bridge) :
    Conversation (controlled history) bridge.control := by
  induction reaches with
  | initial => exact .idle .nil rfl
  | step _ step induction =>
      rw [controlled_snoc]
      cases step with
      | control step =>
          rw [step.run?]
          exact induction.step step
      | worker step =>
          rw [step.run?, step.control.1]
          simpa using induction

/-- Whatever the runs do meanwhile, every message is handled completely and in the order
in which it is received, as its fields ask. -/
theorem Reaches.answered (reaches : Reaches overflow history bridge) : Handled history bridge :=
  ⟨reaches.conversation, reaches.memory, reaches.finds, fun _ _ => reaches.compiles⟩

end Steps

theorem beep_handled :
    ∃ bridge, Reaches calmSetting.overflow (cancelledHistory beepProgram) bridge ∧
      Handled (cancelledHistory beepProgram) bridge := by
  rcases beep_reaches with ⟨bridge, reaches⟩
  exact ⟨bridge, reaches, reaches.answered⟩

end CardCode.Harness
