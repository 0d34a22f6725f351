import CardCode.Harness.Blocks
import CardCode.Harness.Dispatch

/-! # Runs one after another

However the threads interleave, there is at most one thread that has not finished.
The messages of the runs are therefore emitted in blocks, and the cancel flag
belongs to the run that was accepted last.
-/

namespace CardCode.Harness

open Process

/-! ## Histories -/

def Label.job? : Label → Option Job
  | .accept job => some job
  | _ => none

/-- The accepted runs, in order. -/
def accepted (history : List Label) : List Job :=
  history.filterMap Label.job?

def Label.emission? : Label → Option (Nat × HostMessage)
  | .emit run message => some (run, message)
  | _ => none

/-- The messages of runs, each with the number of its run. -/
def emissions (history : List Label) : List (Nat × HostMessage) :=
  history.filterMap Label.emission?

/-- Blocks one after another, the messages numbered by their block. -/
def tagged (blocks : List (List HostMessage)) : List (Nat × HostMessage) :=
  (blocks.mapIdx fun run block => block.map fun message => (run, message)).flatten

theorem tagged_snoc (blocks : List (List HostMessage)) (block : List HostMessage) :
    tagged (blocks ++ [block]) =
      tagged blocks ++ block.map fun message => (blocks.length, message) := by
  rw [tagged, List.mapIdx_concat, List.flatten_append, List.flatten_singleton]
  rfl

theorem accepted_snoc (history : List Label) (label : Label) :
    accepted (history ++ [label]) = accepted history ++ label.job?.toList := by
  rw [accepted, List.filterMap_append]
  congr 1

theorem emissions_snoc (history : List Label) (label : Label) :
    emissions (history ++ [label]) = emissions history ++ label.emission?.toList := by
  rw [emissions, List.filterMap_append]
  congr 1

/-! ## Phases -/

/-- The run that was accepted and has no thread yet. -/
def Control.pending : Control → Option Job
  | .joins job | .clears job | .starts job => some job
  | _ => none

/-- The bridge rests, prepares the thread of an accepted run, or waits for the one
thread that has not finished. -/
inductive Phase (overflow : String → Int64 → Int64 → Int64) (history : List Label)
    (bridge : Bridge) : Prop
  | resting {blocks} :
      bridge.control.pending = none → bridge.running = false →
      bridge.workers = List.replicate (accepted history).length .finished →
      List.Forall₂ (IsBlock overflow) (accepted history) blocks →
      emissions history = tagged blocks → Phase overflow history bridge
  | preparing {jobs job blocks} :
      bridge.control.pending = some job → bridge.running = true →
      bridge.workers = List.replicate jobs.length .finished →
      accepted history = jobs ++ [job] → List.Forall₂ (IsBlock overflow) jobs blocks →
      emissions history = tagged blocks → Phase overflow history bridge
  | active {jobs job blocks worker block} :
      bridge.control.pending = none → bridge.running = true →
      bridge.workers = List.replicate jobs.length .finished ++ [worker] →
      accepted history = jobs ++ [job] → List.Forall₂ (IsBlock overflow) jobs blocks →
      emissions history = tagged (blocks ++ [block]) → Progress overflow job worker block →
      Phase overflow history bridge

theorem handle_pending (beyond : Rat → Int64) (message : Option JsonValue) :
    (handle beyond message).pending = none := by
  rcases handle_wants message with ⟨wish, -, does⟩
  rw [does]
  cases wish <;> rfl

section Steps

variable {overflow : String → Int64 → Int64 → Int64} {history : List Label}
variable {bridge next : Bridge} {label : Label}

/-- Steps of the control thread that are not about runs. -/
theorem Phase.keep (phase : Phase overflow history bridge)
    (free : bridge.control.pending = none) (stillFree : next.control.pending = none)
    (running : next.running = bridge.running) (workers : next.workers = bridge.workers)
    (job : label.job? = none) (emission : label.emission? = none) :
    Phase overflow (history ++ [label]) next := by
  have sameJobs : accepted (history ++ [label]) = accepted history := by
    rw [accepted_snoc, job, Option.toList_none, List.append_nil]
  have sameEmissions : emissions (history ++ [label]) = emissions history := by
    rw [emissions_snoc, emission, Option.toList_none, List.append_nil]
  cases phase with
  | resting _ rests all blocks emitted =>
      refine .resting stillFree (running.trans rests) ?_ ?_ (sameEmissions.trans emitted)
      · rw [workers, all, sameJobs]
      · rw [sameJobs]
        exact blocks
  | preparing pending =>
      rw [free] at pending
      cases pending
  | active _ runs all jobs blocks emitted progress =>
      exact .active stillFree (running.trans runs) (workers.trans all) (sameJobs.trans jobs) blocks
        (sameEmissions.trans emitted) progress

/-- Steps that prepare the thread of an accepted run. -/
theorem Phase.prepare {job : Job} (phase : Phase overflow history bridge)
    (pending : bridge.control.pending = some job) (stillPending : next.control.pending = some job)
    (running : next.running = bridge.running) (workers : next.workers = bridge.workers)
    (noJob : label.job? = none) (emission : label.emission? = none) :
    Phase overflow (history ++ [label]) next := by
  cases phase with
  | resting free => rw [pending] at free; cases free
  | active free => rw [pending] at free; cases free
  | preparing same runs all jobs blocks emitted =>
      rw [pending] at same
      cases same
      refine .preparing stillPending (running.trans runs) (workers.trans all) ?_ blocks ?_
      · rw [accepted_snoc, noJob, Option.toList_none, List.append_nil, jobs]
      · rw [emissions_snoc, emission, Option.toList_none, List.append_nil, emitted]

theorem Phase.control (phase : Phase overflow history bridge)
    (step : ControlStep bridge label next) : Phase overflow (history ++ [label]) next := by
  cases step with
  | receive idle => exact phase.keep (by rw [idle]; rfl) (handle_pending _ _) rfl rfl rfl rfl
  | fail at' => exact phase.keep (by rw [at']; rfl) rfl rfl rfl rfl rfl
  | compile at' _ => exact phase.keep (by rw [at']; rfl) rfl rfl rfl rfl rfl
  | refuse at' _ => exact phase.keep (by rw [at']; rfl) rfl rfl rfl rfl rfl
  | cancel at' => exact phase.keep (by rw [at']; rfl) rfl rfl rfl rfl rfl
  | store at' =>
      refine phase.keep (by rw [at']; rfl) ?_ rfl rfl rfl rfl
      dsimp only
      split <;> rfl
  | @accept job at' rests =>
      cases phase with
      | resting _ _ all blocks emitted =>
          refine .preparing rfl rfl all ?_ blocks ?_
          · rw [accepted_snoc]
            rfl
          · rw [emissions_snoc, emitted]
            exact List.append_nil _
      | preparing _ runs => rw [rests] at runs; cases runs
      | active _ runs => rw [rests] at runs; cases runs
  | join at' _ => exact phase.prepare (by rw [at']; rfl) rfl rfl rfl rfl rfl
  | clear at' => exact phase.prepare (by rw [at']; rfl) rfl rfl rfl rfl rfl
  | @start job at' _ =>
      have pending : bridge.control.pending = some job := by rw [at']; rfl
      cases phase with
      | resting free => rw [pending] at free; cases free
      | active free => rw [pending] at free; cases free
      | preparing same runs all jobs blocks emitted =>
          rw [pending] at same
          cases same
          refine .active rfl runs (congrArg (· ++ [.compiling job]) all) ?_ blocks ?_ .compiling
          · rw [accepted_snoc, jobs]
            exact List.append_nil _
          · rw [emissions_snoc, emitted, tagged_snoc]
            rfl

/-- The thread that has not finished is the last one. -/
theorem active_thread {count run : Nat} {worker found : Worker}
    (member : (List.replicate count Worker.finished ++ [worker])[run]? = some found)
    (unfinished : found ≠ .finished) : run = count ∧ found = worker := by
  by_cases earlier : run < count
  · rw [List.getElem?_append_left (by simpa using earlier), List.getElem?_replicate,
      if_pos earlier] at member
    exact absurd (Option.some.inj member).symm unfinished
  · rw [List.getElem?_append_right (by simpa using earlier), List.length_replicate,
      List.getElem?_singleton] at member
    split at member
    next same => exact ⟨by omega, (Option.some.inj member).symm⟩
    next => cases member

theorem replicate_thread {count run : Nat} {found : Worker}
    (member : (List.replicate count Worker.finished)[run]? = some found) : found = .finished := by
  rw [List.getElem?_replicate] at member
  split at member
  · exact (Option.some.inj member).symm
  · cases member

/-- Where a thread that has not finished stands. -/
theorem Phase.thread {run : Nat} {worker : Worker} (phase : Phase overflow history bridge)
    (member : bridge.workers[run]? = some worker) (unfinished : worker ≠ .finished) :
    bridge.control.pending = none ∧ bridge.running = true ∧ ∃ jobs job blocks block,
      run = jobs.length ∧ bridge.workers = List.replicate jobs.length .finished ++ [worker] ∧
      accepted history = jobs ++ [job] ∧ List.Forall₂ (IsBlock overflow) jobs blocks ∧
      emissions history = tagged (blocks ++ [block]) ∧ Progress overflow job worker block := by
  cases phase with
  | resting _ _ all =>
      rw [all] at member
      exact absurd (replicate_thread member) unfinished
  | preparing _ _ all =>
      rw [all] at member
      exact absurd (replicate_thread member) unfinished
  | @active jobs job blocks last block free runs all accepted complete emitted progress =>
      rw [all] at member
      rcases active_thread member unfinished with ⟨same, rfl⟩
      exact ⟨free, runs, jobs, job, blocks, block, same, all, accepted, complete, emitted, progress⟩

/-- The process is there while the one thread that has not finished can go on. -/
theorem Phase.alive {run : Nat} {worker : Worker} (phase : Phase overflow history bridge)
    (member : bridge.workers[run]? = some worker) (unfinished : worker ≠ .finished)
    (goes : worker ≠ .executing (.fault .trapped)) : bridge.Alive := by
  rcases phase.thread member unfinished with ⟨-, -, _, _, _, _, -, all, -⟩
  rw [Bridge.Alive, all]
  intro trapped
  rcases List.mem_append.mp trapped with trapped | trapped
  · cases List.eq_of_mem_replicate trapped
  · exact goes (List.mem_singleton.mp trapped).symm

/-- A step of a thread that has not finished, and what it emits. -/
theorem Phase.advance {run : Nat} {worker moved : Worker} (phase : Phase overflow history bridge)
    (suffix : List HostMessage) (member : bridge.workers[run]? = some worker)
    (unfinished : worker ≠ .finished) (noJob : label.job? = none)
    (emission : label.emission?.toList = suffix.map fun message => (run, message))
    (progress : ∀ job block, Progress overflow job worker block →
      Progress overflow job moved (block ++ suffix)) :
    Phase overflow (history ++ [label]) (bridge.setWorker run moved) := by
  rcases phase.thread member unfinished with
    ⟨free, runs, jobs, job, blocks, block, rfl, all, acceptedJobs, complete, emitted, before⟩
  have count := complete.length_eq
  refine .active free runs ?_ ?_ complete ?_ (progress job block before)
  · rw [Bridge.setWorker, all, List.set_append_right _ _ (by simp)]
    simp
  · rw [accepted_snoc, noJob, Option.toList_none, List.append_nil, acceptedJobs]
  · rw [emissions_snoc, emission, emitted, tagged_snoc, tagged_snoc, List.map_append, count,
      List.append_assoc]

theorem Phase.finish {run : Nat} (phase : Phase overflow history bridge)
    (member : bridge.workers[run]? = some .finishing) (noJob : label.job? = none)
    (emission : label.emission? = none) :
    Phase overflow (history ++ [label])
      { bridge.setWorker run .finished with running := false } := by
  rcases phase.thread member (by simp) with
    ⟨free, runs, jobs, job, blocks, block, rfl, all, acceptedJobs, complete, emitted, progress⟩
  have same : accepted (history ++ [label]) = jobs ++ [job] := by
    rw [accepted_snoc, noJob, Option.toList_none, List.append_nil, acceptedJobs]
  cases progress with
  | finishing isBlock =>
      have blocksEmitted : emissions (history ++ [label]) = tagged (blocks ++ [block]) := by
        rw [emissions_snoc, emission, Option.toList_none, List.append_nil, emitted]
      refine .resting free rfl ?_ ?_ blocksEmitted
      · dsimp only [Bridge.setWorker]
        rw [all, same, List.set_append_right _ _ (by simp), List.length_append,
          List.replicate_add]
        simp
      · rw [same]
        exact List.rel_append complete (.cons isBlock .nil)

theorem ofAction_job? (run : Nat) (action : Action) : (Label.ofAction run action).job? = none := by
  rw [Label.ofAction]
  split <;> rfl

theorem messages_snoc (trace : Trace) (entry : Action) :
    Trace.messages (trace ++ [entry]) = Trace.messages trace ++ entry.message?.toList := by
  rw [messages_append]
  congr 1

theorem Phase.worker {run : Nat} (phase : Phase overflow history bridge)
    (step : WorkerStep overflow bridge run label next) :
    Phase overflow (history ++ [label]) next := by
  cases step with
  | @accepted _ _ diagnostics member compiled clean =>
      refine phase.advance [.diagnostics true diagnostics] member (by simp) rfl rfl ?_
      intro job block progress
      cases progress with
      | compiling => exact .executing compiled clean .start
  | @rejected _ result member compiled failed =>
      refine phase.advance [.diagnostics false result.diagnostics] member (by simp) rfl rfl ?_
      intro job block progress
      cases progress with
      | compiling => exact .finishing (.rejected compiled failed)
  | @act action next member =>
      have emission : (Label.ofAction run action).emission?.toList =
          action.message?.toList.map fun message => (run, message) := by
        rw [Label.ofAction]
        cases action.message? <;> rfl
      refine phase.advance action.message?.toList member (by simp) (ofAction_job? run action)
        emission ?_
      intro job block progress
      cases progress with
      | executing compiled clean reached =>
          rw [List.cons_append, ← messages_snoc]
          exact .executing compiled clean (.act reached)
  | @poll next member =>
      refine phase.advance [] member (by simp) rfl rfl ?_
      intro job block progress
      cases progress with
      | executing compiled clean reached =>
          rw [List.append_nil]
          have silent (trace : Trace) : Trace.messages (trace ++ [.poll bridge.cancel]) =
              Trace.messages trace := by
            rw [messages_snoc]
            exact List.append_nil _
          rw [← silent]
          exact .executing compiled clean (.ask bridge.cancel reached)
  | sense member found =>
      refine phase.advance [] member (by simp) rfl rfl ?_
      intro job block progress
      cases progress with
      | executing compiled clean reached =>
          rw [List.append_nil]
          have later := After.ask (bridge.reply _) reached
          rw [found] at later
          exact .reporting compiled clean later rfl
  | @report message _ member =>
      refine phase.advance [message] member (by simp) rfl rfl ?_
      intro job block progress
      cases progress with
      | reporting compiled clean reached found =>
          have shown (trace : Trace) (entry : Action) (found : entry.message? = some message) :
              Trace.messages trace ++ [message] = Trace.messages (trace ++ [entry]) := by
            rw [messages_snoc, found]
            rfl
          rw [List.cons_append, shown _ _ found]
          exact .executing compiled clean reached
  | done member =>
      refine phase.advance [] member (by simp) rfl rfl ?_
      intro job block progress
      cases progress with
      | executing compiled clean reached =>
          have run := reached.run_append .done
          rw [List.append_nil] at run ⊢
          exact .finishing (isBlock_of_run compiled clean run)
  | finish member => exact phase.finish member rfl rfl

end Steps

/-- What every step does holds of every step of a history. -/
theorem Reaches.each {overflow : String → Int64 → Int64 → Int64} {history : List Label}
    {bridge : Bridge} (reaches : Reaches overflow history bridge)
    (does : List Label → Label → Prop)
    (step : ∀ history bridge label next, Reaches overflow history bridge →
      Step overflow bridge label next → does history label) :
    ∀ before label after, history = before ++ label :: after → does before label := by
  induction reaches with
  | initial =>
      intro before label after split
      cases before <;> cases split
  | @step history bridge label next reaches last induction =>
      intro before other after split
      rcases List.eq_nil_or_concat after with rfl | ⟨front, final, rfl⟩
      · rcases List.append_inj' split rfl with ⟨rfl, same⟩
        cases same
        exact step _ _ _ _ reaches last
      · rw [List.concat_eq_append, ← List.cons_append, ← List.append_assoc] at split
        exact induction before other front (List.append_inj' split rfl).1

theorem Reaches.phase {overflow : String → Int64 → Int64 → Int64} {history : List Label}
    {bridge : Bridge} (reaches : Reaches overflow history bridge) :
    Phase overflow history bridge := by
  induction reaches with
  | initial => exact .resting rfl rfl rfl .nil rfl
  | step _ step induction =>
      cases step with
      | control step => exact induction.control step
      | worker step => exact induction.worker step

/-! ## Cancellation -/

/-- What has happened since the last run was accepted. -/
def sinceAccept (history : List Label) : List Label :=
  (history.reverse.takeWhile fun label => label.job?.isNone).reverse

theorem sinceAccept_snoc {history : List Label} {label : Label} (noJob : label.job? = none) :
    sinceAccept (history ++ [label]) = sinceAccept history ++ [label] := by
  rw [sinceAccept, List.reverse_append, List.reverse_singleton, List.singleton_append,
    List.takeWhile_cons_of_pos (by rw [noJob]; rfl), List.reverse_cons]
  rfl

theorem sinceAccept_accept (history : List Label) (job : Job) :
    sinceAccept (history ++ [.accept job]) = [] := by
  rw [sinceAccept, List.reverse_append]
  rfl

/-- The flag has not been cleared yet for the run that was accepted. -/
def Control.isStale : Control → Bool
  | .joins _ | .clears _ => true
  | _ => false

theorem isStale_of_free {control : Control} (free : control.pending = none) :
    control.isStale = false := by
  cases control with
  | joins | clears => cases free
  | _ => rfl

/-- The cancel flag tells whether a cancellation was handled since the last run was
accepted, once it has been cleared for that run. -/
structure Cancellable (history : List Label) (bridge : Bridge) : Prop where
  fresh : bridge.control.pending.isSome = true → .cancel ∉ sinceAccept history
  current : bridge.control.isStale = false →
    (bridge.cancel = true ↔ .cancel ∈ sinceAccept history)

section Cancellation

variable {overflow : String → Int64 → Int64 → Int64} {history : List Label}
variable {bridge next : Bridge} {label : Label}

/-- Steps that are not about the flag. -/
theorem Cancellable.keep (cancellable : Cancellable history bridge) (noJob : label.job? = none)
    (other : label ≠ .cancel) (flag : next.cancel = bridge.cancel)
    (pending : next.control.pending.isSome = true → bridge.control.pending.isSome = true)
    (stale : next.control.isStale = false → bridge.control.isStale = false) :
    Cancellable (history ++ [label]) next := by
  have same : .cancel ∈ sinceAccept (history ++ [label]) ↔ .cancel ∈ sinceAccept history := by
    rw [sinceAccept_snoc noJob, List.mem_append, List.mem_singleton]
    exact or_iff_left (Ne.symm other)
  constructor
  · intro waits member
    exact cancellable.fresh (pending waits) (same.mp member)
  · intro settled
    rw [flag, same]
    exact cancellable.current (stale settled)

theorem Cancellable.control (cancellable : Cancellable history bridge)
    (step : ControlStep bridge label next) : Cancellable (history ++ [label]) next := by
  have settled {control : Control} (at' : bridge.control = control)
      (stale : control.isStale = false) : bridge.control.isStale = false := by
    rw [at', stale]
  cases step with
  | receive idle =>
      refine cancellable.keep rfl (by simp) rfl ?_ fun _ => settled idle rfl
      dsimp only
      rw [handle_pending]
      simp
  | fail at' =>
      exact cancellable.keep rfl (by simp) rfl (by simp [Control.pending]) fun _ => settled at' rfl
  | compile at' _ =>
      exact cancellable.keep rfl (by simp) rfl (by simp [Control.pending]) fun _ => settled at' rfl
  | refuse at' _ =>
      exact cancellable.keep rfl (by simp) rfl (by simp [Control.pending]) fun _ => settled at' rfl
  | join at' _ =>
      exact cancellable.keep rfl (by simp) rfl (by simp [at', Control.pending])
        (by simp [Control.isStale])
  | start at' _ =>
      exact cancellable.keep rfl (by simp) rfl (by simp [Control.pending]) fun _ => settled at' rfl
  | store at' =>
      refine cancellable.keep rfl (by simp) rfl ?_ fun _ => settled at' rfl
      dsimp only
      split <;> simp [Control.pending]
  | @accept job at' _ =>
      constructor
      · rw [sinceAccept_accept]
        simp
      · simp [Control.isStale]
  | @clear job at' =>
      have waits : bridge.control.pending.isSome = true := by
        rw [at']
        rfl
      have absent : .cancel ∉ sinceAccept (history ++ [.clear]) := by
        rw [sinceAccept_snoc rfl]
        simpa using cancellable.fresh waits
      exact ⟨fun _ => absent, fun _ => iff_of_false (by simp) absent⟩
  | cancel at' =>
      constructor
      · simp [Control.pending]
      · intro _
        rw [sinceAccept_snoc rfl]
        simp

/-- A thread touches neither the control thread nor the flag. -/
theorem worker_keeps {run : Nat} (step : WorkerStep overflow bridge run label next) :
    next.control = bridge.control ∧ next.cancel = bridge.cancel ∧ label.job? = none ∧
      label ≠ .cancel := by
  cases step with
  | @act action _ _ =>
      exact ⟨rfl, rfl, ofAction_job? _ _, by rw [Label.ofAction]; split <;> simp⟩
  | _ => exact ⟨rfl, rfl, rfl, by simp⟩

end Cancellation

theorem Reaches.cancellable {overflow : String → Int64 → Int64 → Int64} {history : List Label}
    {bridge : Bridge} (reaches : Reaches overflow history bridge) : Cancellable history bridge := by
  induction reaches with
  | initial => exact ⟨by simp [Control.pending], by simp [sinceAccept]⟩
  | step _ step induction =>
      cases step with
      | control step => exact induction.control step
      | worker step =>
          rcases worker_keeps step with ⟨control, flag, noJob, other⟩
          exact induction.keep noJob other flag (by rw [control]; exact id)
            (by rw [control]; exact id)

/-! ## What holds of every interleaving -/

def Worker.isActive : Worker → Bool
  | .finished => false
  | _ => true

/-- The messages of the runs are the given blocks, one for each accepted run and one
after another. A block is complete once its run is over, and torn where the run ended the
process. -/
structure Serial (overflow : String → Int64 → Int64 → Int64) (history : List Label)
    (bridge : Bridge) (blocks : List (List HostMessage)) : Prop where
  emissions_eq : emissions history = tagged blocks
  count : blocks.length = (accepted history).length
  begun : ∀ (run : Nat) (job : Job) (block : List HostMessage),
    (accepted history)[run]? = some job → blocks[run]? = some block →
    block = [] ∨
      ∃ rest, IsBlock overflow job (block ++ rest) ∨ IsTornBlock overflow job (block ++ rest)
  complete : ∀ (run : Nat) (job : Job) (block : List HostMessage),
    (accepted history)[run]? = some job → blocks[run]? = some block →
    run + 1 < (accepted history).length ∨ bridge.workers[run]? = some .finished →
    IsBlock overflow job block

/-- A run request that finds a thread active is answered by one error, and neither of
the two steps this takes changes anything else. -/
def RefusesWhileActive (bridge : Bridge) : Prop :=
  (∀ job label next, bridge.control = .exchanges job →
    bridge.workers.any Worker.isActive = true → ControlStep bridge label next →
    label = .refuse ∧ next = { bridge with control := .fails "a program is already running" }) ∧
  ∀ message label next, bridge.control = .fails message → ControlStep bridge label next →
    label = .reply (.error message) ∧ next = { bridge with control := .idle }

/-- Only the run accepted last polls the flag, and it sees whether a cancellation was
handled after it was accepted. -/
def PollsSeeCancels (history : List Label) : Prop :=
  ∀ before run seen after, history = before ++ .poll run seen :: after →
    (accepted before).length = run + 1 ∧ (seen = true ↔ .cancel ∈ sinceAccept before)

section Guarantees

variable {overflow : String → Int64 → Int64 → Int64} {history : List Label} {bridge : Bridge}

theorem filter_finished (count : Nat) :
    (List.replicate count Worker.finished).filter Worker.isActive = [] :=
  List.filter_replicate_of_neg (by simp [Worker.isActive])

theorem Phase.active_le (phase : Phase overflow history bridge) :
    (bridge.workers.filter Worker.isActive).length ≤ 1 := by
  cases phase with
  | resting _ _ all => rw [all, filter_finished, List.length_nil]; omega
  | preparing _ _ all => rw [all, filter_finished, List.length_nil]; omega
  | @active _ _ _ worker _ _ _ all =>
      rw [all, List.filter_append, filter_finished, List.nil_append]
      exact List.length_filter_le _ [worker]

/-- What relates two rows relates what stands in them at one place. -/
theorem related_at {first second : Type} {relation : first → second → Prop}
    {left : List first} {right : List second} (related : List.Forall₂ relation left right)
    {place : Nat} {x : first} {y : second} (leftAt : left[place]? = some x)
    (rightAt : right[place]? = some y) : relation x y := by
  induction related generalizing place with
  | nil => cases leftAt
  | cons head _ induction =>
      cases place with
      | zero =>
          cases leftAt
          cases rightAt
          exact head
      | succ place =>
          rw [List.getElem?_cons_succ] at leftAt rightAt
          exact induction leftAt rightAt

/-- Complete blocks of all runs. -/
theorem serial_of_complete {blocks : List (List HostMessage)}
    (complete : List.Forall₂ (IsBlock overflow) (accepted history) blocks)
    (emitted : emissions history = tagged blocks) : Serial overflow history bridge blocks where
  emissions_eq := emitted
  count := complete.length_eq.symm
  begun _ _ block jobAt blockAt :=
    .inr ⟨[], .inl (by rw [List.append_nil]; exact related_at complete jobAt blockAt)⟩
  complete _ _ _ jobAt blockAt _ := related_at complete jobAt blockAt

/-- Complete blocks of all runs but the last one, and what that one has emitted. -/
theorem serial_of_last {jobs : List Job} {job : Job} {blocks : List (List HostMessage)}
    {block : List HostMessage} (jobsAre : accepted history = jobs ++ [job])
    (complete : List.Forall₂ (IsBlock overflow) jobs blocks)
    (emitted : emissions history = tagged (blocks ++ [block]))
    (begun : block = [] ∨
      ∃ rest, IsBlock overflow job (block ++ rest) ∨ IsTornBlock overflow job (block ++ rest))
    (finished : bridge.workers[jobs.length]? = some .finished → IsBlock overflow job block) :
    Serial overflow history bridge (blocks ++ [block]) := by
  have count := complete.length_eq
  have earlier (run : Nat) (other : Job) (part : List HostMessage) (inside : run < jobs.length)
      (jobAt : (accepted history)[run]? = some other)
      (blockAt : (blocks ++ [block])[run]? = some part) : IsBlock overflow other part := by
    rw [jobsAre, List.getElem?_append_left inside] at jobAt
    rw [List.getElem?_append_left (by omega)] at blockAt
    exact related_at complete jobAt blockAt
  have last (run : Nat) (other : Job) (part : List HostMessage) (outside : ¬run < jobs.length)
      (jobAt : (accepted history)[run]? = some other)
      (blockAt : (blocks ++ [block])[run]? = some part) :
      run = jobs.length ∧ other = job ∧ part = block := by
    rw [jobsAre, List.getElem?_append_right (by omega), List.getElem?_singleton] at jobAt
    rw [List.getElem?_append_right (by omega), List.getElem?_singleton] at blockAt
    split at jobAt
    next same =>
      rw [if_pos (by omega)] at blockAt
      exact ⟨by omega, (Option.some.inj jobAt).symm, (Option.some.inj blockAt).symm⟩
    next => cases jobAt
  refine ⟨emitted, ?_, ?_, ?_⟩
  · rw [jobsAre, List.length_append, List.length_append, count]
    rfl
  · intro run other part jobAt blockAt
    by_cases inside : run < jobs.length
    · refine .inr ⟨[], .inl ?_⟩
      rw [List.append_nil]
      exact earlier run other part inside jobAt blockAt
    · rcases last run other part inside jobAt blockAt with ⟨-, rfl, rfl⟩
      exact begun
  · intro run other part jobAt blockAt isOver
    by_cases inside : run < jobs.length
    · exact earlier run other part inside jobAt blockAt
    · rcases last run other part inside jobAt blockAt with ⟨rfl, rfl, rfl⟩
      rcases isOver with later | done
      · rw [jobsAre, List.length_append, List.length_singleton] at later
        omega
      · exact finished done

theorem Phase.serial (phase : Phase overflow history bridge) :
    ∃ blocks, Serial overflow history bridge blocks := by
  cases phase with
  | resting _ _ _ complete emitted => exact ⟨_, serial_of_complete complete emitted⟩
  | preparing _ _ all jobsAre complete emitted =>
      refine ⟨_, serial_of_last jobsAre complete ?_ (.inl rfl) ?_⟩
      · rw [tagged_snoc, emitted]
        exact (List.append_nil _).symm
      · intro finished
        rw [all, List.getElem?_replicate, if_neg (by omega)] at finished
        cases finished
  | active _ _ all jobsAre complete emitted progress =>
      refine ⟨_, serial_of_last jobsAre complete emitted progress.begun ?_⟩
      intro finished
      rw [all, List.getElem?_append_right (by simp), List.length_replicate,
        Nat.sub_self] at finished
      cases finished
      cases progress

theorem Phase.refuses (phase : Phase overflow history bridge) : RefusesWhileActive bridge := by
  have running (active : bridge.workers.any Worker.isActive = true) : bridge.running = true := by
    rcases List.any_eq_true.mp active with ⟨worker, member, isActive⟩
    rcases List.mem_iff_getElem?.mp member with ⟨run, found⟩
    refine (phase.thread found ?_).2.1
    rintro rfl
    cases isActive
  constructor
  · intro job label next exchanges active step
    cases step with
    | refuse => exact ⟨rfl, rfl⟩
    | accept _ rests => rw [running active] at rests; cases rests
    | _ at' => rw [exchanges] at at'; cases at'
  · intro message label next fails step
    cases step with
    | fail at' =>
        rw [fails] at at'
        cases at'
        exact ⟨rfl, rfl⟩
    | _ at' => rw [fails] at at'; cases at'

theorem Reaches.polls (reaches : Reaches overflow history bridge) : PollsSeeCancels history := by
  intro before run seen after split
  refine reaches.each (fun before label => ∀ run seen, label = .poll run seen →
    (accepted before).length = run + 1 ∧ (seen = true ↔ .cancel ∈ sinceAccept before)) ?_
    before _ after split run seen rfl
  intro history bridge label next reaches step run seen labelled
  cases step with
  | control step => cases step <;> cases labelled
  | worker step =>
      cases step with
      | poll member =>
          cases labelled
          rcases reaches.phase.thread member (by simp) with
            ⟨free, -, jobs, job, _, _, same, -, acceptedJobs, -⟩
          refine ⟨?_, reaches.cancellable.current (isStale_of_free free)⟩
          rw [acceptedJobs, same, List.length_append, List.length_singleton]
      | act =>
          rw [Label.ofAction] at labelled
          split at labelled <;> cases labelled
      | _ => cases labelled

/-- Runs do not overlap in any interleaving. -/
theorem Reaches.serialized (reaches : Reaches overflow history bridge) :
    (bridge.workers.filter Worker.isActive).length ≤ 1 ∧
      (∃ blocks, Serial overflow history bridge blocks) ∧
      RefusesWhileActive bridge ∧ PollsSeeCancels history :=
  ⟨reaches.phase.active_le, reaches.phase.serial, reaches.phase.refuses, reaches.polls⟩

end Guarantees

/-! ## A refused request and a cancellation -/

def runRequest (source : Bytes) : JsonValue :=
  .obj [(bytes "type", .str (bytes "run")), (bytes "source", .str source)]

def cancelRequest : JsonValue :=
  .obj [(bytes "type", .str (bytes "cancel"))]

/-- A program is run, asked for again and cancelled. -/
def cancelledHistory (program : Program) : List Label :=
  [.receive (some (runRequest program.source)), .accept ⟨program.source, {}⟩, .join,
    .clear, .start, .emit 0 (.diagnostics true program.diagnostics), .emit 0 .programStart,
    .receive (some (runRequest program.source)), .refuse,
    .reply (.error "a program is already running"), .receive (some cancelRequest), .cancel,
    .poll 0 true]

theorem cancelled_reaches (program : Program) {overflow : String → Int64 → Int64 → Int64}
    {next : engineInterface.Reply .poll → Execution}
    (execution : execute { limits := {}, overflow } program.root =
      .act (.emitProgram .programStart "") (.ask .poll next)) :
    ∃ bridge, Reaches overflow (cancelledHistory program) bridge := by
  let job : Job := ⟨program.source, {}⟩
  let request := runRequest program.source
  let beyond : Rat → Int64 := fun _ => 0
  have rests : Reaches overflow [] {} := .initial
  have received := rests.step
    (.control (@ControlStep.receive _ (some request) beyond rfl) (alive_empty rfl))
  have accepted := received.step (.control (@ControlStep.accept _ job rfl rfl) (alive_empty rfl))
  have joined := accepted.step (.control (.join rfl nofun) (alive_empty rfl))
  have cleared := joined.step (.control (.clear rfl) (alive_empty rfl))
  have started := cleared.step (.control (.start rfl rfl) (alive_empty rfl))
  have compiles : Step overflow
      { workers := [.compiling job], joinable := true, running := true }
      (.emit 0 (.diagnostics true program.diagnostics))
      { workers := [.executing (execute { limits := {}, overflow } program.root)],
        joinable := true, running := true } :=
    .worker (@WorkerStep.accepted _ _ 0 job _ _ rfl program.compiled program.accepted)
      (alive_single rfl nofun)
  rw [execution] at compiles
  have begins : Step overflow
      { workers := [.executing (.act (.emitProgram .programStart "") (.ask .poll next))],
        joinable := true, running := true } (.emit 0 .programStart)
      { workers := [.executing (.ask .poll next)], joinable := true, running := true } :=
    .worker (@WorkerStep.act _ _ 0 (.emitProgram .programStart "") _ rfl)
      (alive_single rfl nofun)
  -- From here on the thread of the run is about to poll.
  have again := ((started.step compiles).step begins).step
    (.control (@ControlStep.receive _ (some request) beyond rfl) (alive_single rfl nofun))
  have refused := again.step
    (.control (@ControlStep.refuse _ job rfl rfl) (alive_single rfl nofun))
  have answered := refused.step (.control (.fail rfl) (alive_single rfl nofun))
  have asked := answered.step
    (.control (@ControlStep.receive _ (some cancelRequest) beyond rfl) (alive_single rfl nofun))
  have cancelled := asked.step (.control (.cancel rfl) (alive_single rfl nofun))
  exact ⟨_, cancelled.step
    (.worker (@WorkerStep.poll _ _ 0 next rfl) (alive_single rfl nofun))⟩

def Execution.pollsSecond : Execution → Bool
  | .act _ (.ask .poll _) => true
  | _ => false

theorem beep_polls :
    ∃ next, execute calmSetting beepProgram.root =
      .act (.emitProgram .programStart "") (.ask .poll next) := by
  have polls : Execution.pollsSecond (execute calmSetting beepProgram.root) = true := by
    decide +kernel
  have first : ∃ next, execute calmSetting beepProgram.root =
      .act (.emitProgram .programStart "") next :=
    ⟨_, rfl⟩
  rcases first with ⟨next, first⟩
  rw [first] at polls ⊢
  cases next with
  | ask query rest =>
      cases query with
      | poll => exact ⟨rest, rfl⟩
      | _ => cases polls
  | _ => cases polls

theorem beep_reaches :
    ∃ bridge, Reaches calmSetting.overflow (cancelledHistory beepProgram) bridge := by
  rcases beep_polls with ⟨next, execution⟩
  exact cancelled_reaches beepProgram execution

theorem beep_serialized :
    ∃ bridge, (bridge.workers.filter Worker.isActive).length ≤ 1 ∧
      (∃ blocks, Serial calmSetting.overflow (cancelledHistory beepProgram) bridge blocks) ∧
      RefusesWhileActive bridge ∧ PollsSeeCancels (cancelledHistory beepProgram) := by
  rcases beep_reaches with ⟨bridge, reaches⟩
  exact ⟨bridge, reaches.serialized⟩

end CardCode.Harness
