import CardCode.Foundation.Settling
import CardCode.Harness.Requests
import CardCode.Syntax.Totality

/-! # Coming to rest

No thread of the bridge ever blocks another one, and no run goes on for ever. Without a new
message the threads therefore finish, however they are interleaved, and the bridge can be
destroyed.
-/

namespace CardCode.Harness

open Process

/-! ## Sources a lexer can read -/

/-- The sources in the messages are short enough for 32-bit positions. -/
def ShortSources (history : List Label) : Prop :=
  ∀ message source, .receive (some message) ∈ history →
    message.find "source" = some source → source.asStr.length < 2 ^ 32

def Control.Fits : Control → Prop
  | .compiles source => source.length < 2 ^ 32
  | .exchanges job | .joins job | .clears job | .starts job => job.source.length < 2 ^ 32
  | _ => True

def Worker.Fits : Worker → Prop
  | .compiling job => job.source.length < 2 ^ 32
  | _ => True

/-- What is still to be compiled is short enough. -/
structure Bridge.Fits (bridge : Bridge) : Prop where
  control : bridge.control.Fits
  workers : ∀ worker ∈ bridge.workers, worker.Fits

theorem handle_fits {beyond : Rat → Int64} {message : Option JsonValue}
    (short : ∀ value source, message = some value → value.find "source" = some source →
      source.asStr.length < 2 ^ 32) : (handle beyond message).Fits := by
  rcases @handle_wants beyond message with ⟨wish, wants, does⟩
  rw [does]
  have fits {source : Bytes}
      (about : wish = .compile source ∨ ∃ limits, wish = .run ⟨source, limits⟩) :
      source.length < 2 ^ 32 := by
    rcases wants.source about with ⟨value, field, same, found, rfl⟩
    exact short value field same found
  cases wish with
  | compile => exact fits (.inl rfl)
  | run => exact fits (.inr ⟨_, rfl⟩)
  | cancel | store | nothing => trivial

section Steps

variable {overflow : String → Int64 → Int64 → Int64} {history : List Label}
variable {bridge next : Bridge} {label : Label} {run : Nat}

theorem Bridge.Fits.step_control (fits : bridge.Fits) (step : ControlStep bridge label next)
    (short : ∀ value source, label = .receive (some value) → value.find "source" = some source →
      source.asStr.length < 2 ^ 32) : next.Fits := by
  have all := fits.control
  cases step with
  | receive =>
      refine ⟨handle_fits ?_, fits.workers⟩
      intro value source same
      exact short value source (by rw [same])
  | fail | compile | refuse | cancel => exact ⟨trivial, fits.workers⟩
  | accept stands | join stands | clear stands =>
      rw [stands] at all
      exact ⟨all, fits.workers⟩
  | start stands =>
      rw [stands] at all
      refine ⟨trivial, ?_⟩
      intro worker member
      rcases List.mem_append.mp member with member | member
      · exact fits.workers worker member
      · rw [List.mem_singleton.mp member]
        exact all
  | store =>
      refine ⟨?_, fits.workers⟩
      dsimp only
      split <;> trivial

/-! ## What a thread does next -/

/-- Where the thread of a run goes from where it stands. -/
inductive Worker.Follows : Worker → Worker → Prop
  | accepted {job execution} : Follows (.executing execution) (.compiling job)
  | rejected {job} : Follows .finishing (.compiling job)
  | resumed {execution rest} : Resumes rest execution →
      Follows (.executing rest) (.executing execution)
  | sensed {message execution rest} : Resumes rest execution →
      Follows (.reporting message rest) (.executing execution)
  | reported {message execution} : Follows (.executing execution) (.reporting message execution)
  | done {execution} : Follows .finishing (.executing execution)
  | finished : Follows .finished .finishing

theorem follows_wellFounded : WellFounded Worker.Follows := by
  have finished : Acc Worker.Follows .finished := ⟨_, fun _ follows => nomatch follows⟩
  have finishing : Acc Worker.Follows .finishing := by
    constructor
    intro later follows
    cases follows with
    | finished => exact finished
  have executing (execution : Execution) : Acc Worker.Follows (.executing execution) := by
    induction resumes_wellFounded.apply execution with
    | intro execution _ induction =>
        constructor
        intro later follows
        cases follows with
        | resumed resumes => exact induction _ resumes
        | sensed resumes =>
            constructor
            intro last reports
            cases reports with
            | reported => exact induction _ resumes
        | done => exact finishing
  constructor
  intro worker
  constructor
  intro later follows
  cases follows with
  | accepted | resumed | reported => exact executing _
  | rejected | done => exact finishing
  | sensed =>
      constructor
      intro last reports
      cases reports with
      | reported => exact executing _
  | finished => exact finished

/-- A step of a run's thread is one of that thread and leaves the control thread alone. -/
theorem WorkerStep.follows (step : WorkerStep overflow bridge run label next) :
    next.control = bridge.control ∧ ∃ earlier later, bridge.workers[run]? = some earlier ∧
      next.workers = bridge.workers.set run later ∧ later.Follows earlier ∧ later.Fits := by
  cases step with
  | accepted stands => exact ⟨rfl, _, _, stands, rfl, .accepted, trivial⟩
  | rejected stands => exact ⟨rfl, _, _, stands, rfl, .rejected, trivial⟩
  | act stands => exact ⟨rfl, _, _, stands, rfl, .resumed .act, trivial⟩
  | poll stands =>
      exact ⟨rfl, _, _, stands, rfl,
        .resumed (@Resumes.ask engineInterface _ _ Query.poll _ bridge.cancel), trivial⟩
  | sense stands => exact ⟨rfl, _, _, stands, rfl, .sensed (.ask _), trivial⟩
  | report stands => exact ⟨rfl, _, _, stands, rfl, .reported, trivial⟩
  | done stands => exact ⟨rfl, _, _, stands, rfl, .done, trivial⟩
  | finish stands => exact ⟨rfl, _, _, stands, rfl, .finished, trivial⟩

theorem Bridge.Fits.step_worker (fits : bridge.Fits)
    (step : WorkerStep overflow bridge run label next) : next.Fits := by
  rcases step.follows with ⟨control, earlier, later, -, workers, -, laterFits⟩
  refine ⟨control ▸ fits.control, ?_⟩
  intro worker member
  rw [workers] at member
  rcases List.mem_or_eq_of_mem_set member with member | same
  · exact fits.workers worker member
  · rw [same]
    exact laterFits

theorem Reaches.fits (reaches : Reaches overflow history bridge) (short : ShortSources history) :
    bridge.Fits := by
  induction reaches with
  | initial => exact ⟨trivial, nofun⟩
  | step _ step induction =>
      have fits := induction fun message source member =>
        short message source (List.mem_append_left _ member)
      cases step with
      | control step =>
          refine fits.step_control step ?_
          intro value source same
          exact short value source (List.mem_append_right _ (by rw [same]; exact .head _))
      | worker step => exact fits.step_worker step

/-! ## Without a new message -/

/-- How many steps of its own the control thread makes at most before it waits for a
message. -/
def Control.remaining : Control → Nat
  | .idle => 0
  | .fails _ | .compiles _ | .cancels | .starts _ => 1
  | .clears _ => 2
  | .joins _ => 3
  | .exchanges _ => 4
  | .stores readings => readings.length

/-- What the bridge becomes by a step other than that it receives a message. -/
def Proceeds (overflow : String → Int64 → Int64 → Int64) (later earlier : Bridge) : Prop :=
  ∃ label, (∀ message, label ≠ .receive message) ∧ Step overflow earlier label later

theorem ControlStep.remaining (step : ControlStep bridge label next)
    (works : ∀ message, label ≠ .receive message) :
    next.control.remaining < bridge.control.remaining := by
  cases step with
  | receive => exact absurd rfl (works _)
  | fail stands | compile stands | refuse stands | accept stands | join stands | clear stands
  | start stands | cancel stands =>
      rw [stands]
      simp [Control.remaining]
  | @store reading rest stands =>
      rw [stands]
      cases rest <;> simp [Control.remaining]

/-- What is left to do: the control thread can only make steps that bring it closer to its
next message, and a run's thread leaves the control thread alone. -/
theorem proceeds_wellFounded : WellFounded (Proceeds overflow) := by
  have settles := (WellFounded.prod_lex Nat.lt_wfRel.wf
    (lowersOne_wellFounded follows_wellFounded))
  refine Subrelation.wf ?_ (InvImage.wf
    (fun bridge : Bridge => (bridge.control.remaining, bridge.workers)) settles)
  intro later earlier proceeds
  rcases proceeds with ⟨label, works, step⟩
  cases step with
  | control step => exact .left _ _ (step.remaining works)
  | worker step =>
      rcases step.follows with ⟨control, before, after, stands, workers, follows, -⟩
      have goesDown := lowersOne_set stands follows
      rw [← workers] at goesDown
      rw [InvImage, control]
      exact .right _ goesDown

/-! ## Nobody is stuck -/

/-- There is a thread to join wherever `worker_` is joinable, and `worker_` is free once it
has been joined. -/
structure Joins (bridge : Bridge) : Prop where
  thread : bridge.joinable = true → bridge.workers ≠ []
  joined : ∀ job, bridge.control = .clears job ∨ bridge.control = .starts job →
    bridge.joinable = false

theorem Joins.control (joins : Joins bridge) (step : ControlStep bridge label next) :
    Joins next := by
  cases step with
  | @receive message beyond _ =>
      refine ⟨joins.thread, ?_⟩
      intro job stands
      have free := handle_pending beyond message
      rcases stands with stands | stands
      · rw [show handle beyond message = _ from stands] at free
        cases free
      · rw [show handle beyond message = _ from stands] at free
        cases free
  | fail | compile | refuse | accept | cancel => exact ⟨joins.thread, fun _ => by simp⟩
  | join => exact ⟨nofun, fun _ _ => rfl⟩
  | @clear job stands => exact ⟨joins.thread, fun _ _ => joins.joined job (.inl stands)⟩
  | start => exact ⟨fun _ => by simp, fun _ => by simp⟩
  | store =>
      refine ⟨joins.thread, ?_⟩
      intro job stands
      dsimp only at stands
      split at stands <;> simp at stands

theorem Reaches.joins (reaches : Reaches overflow history bridge) : Joins bridge := by
  induction reaches with
  | initial => exact ⟨nofun, fun _ => by simp⟩
  | step _ step induction =>
      cases step with
      | control step => exact induction.control step
      | worker step =>
          rcases step.control with ⟨control, joinable, length⟩
          constructor
          · intro joins empty
            rw [empty, List.length_nil] at length
            exact induction.thread (joinable ▸ joins) (List.eq_nil_of_length_eq_zero length.symm)
          · rw [control, joinable]
            exact induction.joined

theorem exists_compiled {source : Bytes} (fits : source.length < 2 ^ 32) :
    ∃ result, compile source = some result :=
  Option.isSome_iff_exists.mp ((compile_isSome_iff source).mpr fits)

theorem Reaches.readings_left (reaches : Reaches overflow history bridge) :
    bridge.control ≠ .stores [] := by
  intro stands
  have conversation := reaches.conversation
  rw [stands] at conversation
  cases conversation with
  | @busy _ _ message _ _ _ midway =>
      generalize nothing : Control.stores [] = control at midway
      cases midway with
      | @received wish wants =>
          have same : Wish.store [] = wish := Wish.control_injective nothing
          cases same
          exact wants.nonempty rfl
      | storing _ some => cases nothing; exact some rfl
      | _ => cases nothing

/-- When the control thread joins the last run's thread, that one has finished. -/
theorem Reaches.control_steps (reaches : Reaches overflow history bridge) (fits : bridge.Fits)
    (busy : bridge.control ≠ .idle) : ∃ label next, ControlStep bridge label next := by
  have short := fits.control
  cases stands : bridge.control with
  | idle => exact absurd stands busy
  | fails => exact ⟨_, _, .fail stands⟩
  | compiles source =>
      rw [stands] at short
      rcases exists_compiled short with ⟨result, compiled⟩
      exact ⟨_, _, .compile stands compiled⟩
  | exchanges =>
      cases running : bridge.running with
      | true => exact ⟨_, _, .refuse stands running⟩
      | false => exact ⟨_, _, .accept stands running⟩
  | joins job =>
      refine ⟨_, _, .join stands ?_⟩
      intro joinable
      have some := reaches.joins.thread joinable
      cases reaches.phase with
      | resting free => rw [stands] at free; cases free
      | active free => rw [stands] at free; cases free
      | preparing _ _ all =>
          rw [all] at some ⊢
          rw [List.getLast?_eq_some_getLast some, List.getLast_replicate]
  | clears => exact ⟨_, _, .clear stands⟩
  | starts job => exact ⟨_, _, .start stands (reaches.joins.joined job (.inr stands))⟩
  | cancels => exact ⟨_, _, .cancel stands⟩
  | stores readings =>
      cases readings with
      | cons => exact ⟨_, _, .store stands⟩
      | nil => exact absurd stands reaches.readings_left

/-- The execution of a program that compiled comes to no fault but a trap. -/
theorem fault_after {job : Job} {root : Node} {diagnostics : List Diagnostic} {trace : Trace}
    {reason : Fault} (compiled : compile job.source = some ⟨some root, diagnostics⟩)
    (clean : hasErrors diagnostics = false)
    (reached : After (execute { limits := job.limits, overflow } root) trace (.fault reason)) :
    reason = .trapped ∧ Trace.Traps trace := by
  let program : Program := ⟨job.source, root, diagnostics, compiled, clean⟩
  have run := reached.run_append .fault
  rw [List.append_nil] at run
  rcases program.run_ends _ run with ⟨⟨result, ends⟩, -⟩ | ⟨ends, traps⟩
  · cases ends
  · cases ends
    exact ⟨rfl, traps⟩

/-- No run of the job comes to an operation that traps. -/
def Job.Calm (overflow : String → Int64 → Int64 → Int64) (job : Job) : Prop :=
  ∀ root diagnostics trace outcome,
    compile job.source = some ⟨some root, diagnostics⟩ → hasErrors diagnostics = false →
    Run (execute { limits := job.limits, overflow } root) trace outcome → ¬ Trace.Traps trace

theorem Reaches.alive (reaches : Reaches overflow history bridge)
    (calm : ∀ job ∈ accepted history, job.Calm overflow) : bridge.Alive := by
  intro member
  rcases List.mem_iff_getElem?.mp member with ⟨run, stands⟩
  rcases reaches.phase.thread stands nofun with
    ⟨-, -, jobs, job, _, _, -, -, jobsAre, -, -, progress⟩
  have isAccepted : job ∈ accepted history := by
    rw [jobsAre]
    exact List.mem_append_right _ (.head _)
  cases progress with
  | executing compiled clean reached =>
      have run := reached.run_append .fault
      rw [List.append_nil] at run
      exact calm job isAccepted _ _ _ _ compiled clean run (fault_after compiled clean reached).2

/-- No thread of a run waits for another thread. -/
theorem Reaches.worker_steps {worker : Worker} (reaches : Reaches overflow history bridge)
    (fits : bridge.Fits) (alive : bridge.Alive) (stands : bridge.workers[run]? = some worker)
    (unfinished : worker ≠ .finished) :
    ∃ label next, WorkerStep overflow bridge run label next := by
  rcases reaches.phase.thread stands unfinished with
    ⟨-, -, _, job, _, _, -, -, -, -, -, progress⟩
  cases progress with
  | compiling =>
      have short : job.source.length < 2 ^ 32 :=
        fits.workers _ (List.mem_of_getElem? stands)
      rcases exists_compiled short with ⟨result, compiled⟩
      cases ok : result.ok with
      | false => exact ⟨_, _, .rejected stands compiled ok⟩
      | true =>
          rcases result with ⟨root, diagnostics⟩
          rcases Bool.and_eq_true_iff.mp ok with ⟨isSome, clean⟩
          rcases Option.isSome_iff_exists.mp isSome with ⟨root, rfl⟩
          exact ⟨_, _, .accepted stands compiled (Bool.not_eq_true' _ |>.mp clean)⟩
  | @executing _ _ _ execution compiled clean reached =>
      cases execution with
      | done => exact ⟨_, _, .done stands⟩
      | fault =>
          rw [(fault_after compiled clean reached).1] at stands
          exact absurd (List.mem_of_getElem? stands) alive
      | act => exact ⟨_, _, .act stands⟩
      | ask query =>
          cases query with
          | poll => exact ⟨_, _, .poll stands⟩
          | _ => exact ⟨_, _, .sense stands rfl⟩
  | reporting => exact ⟨_, _, .report stands⟩
  | finishing => exact ⟨_, _, .finish stands⟩

/-- The control thread waits for the next message and every thread it started has
finished. -/
def Bridge.AtRest (bridge : Bridge) : Prop :=
  bridge.control = .idle ∧ bridge.running = false ∧ ∀ worker ∈ bridge.workers, worker = .finished

theorem Reaches.rests (reaches : Reaches overflow history bridge) (fits : bridge.Fits)
    (alive : bridge.Alive) (stops : ∀ next, ¬Proceeds overflow next bridge) : bridge.AtRest := by
  have idle : bridge.control = .idle := by
    by_contra busy
    rcases reaches.control_steps fits busy with ⟨label, next, step⟩
    refine stops next ⟨label, ?_, .control step alive⟩
    rintro message rfl
    cases step with
    | receive idle => exact busy idle
  have finished : ∀ worker ∈ bridge.workers, worker = .finished := by
    intro worker member
    by_contra unfinished
    rcases List.mem_iff_getElem?.mp member with ⟨run, stands⟩
    rcases reaches.worker_steps fits alive stands unfinished with ⟨label, next, step⟩
    refine stops next ⟨label, ?_, .worker step alive⟩
    rintro message rfl
    have number := step.run?
    cases number
  refine ⟨idle, ?_, finished⟩
  cases reaches.phase with
  | resting _ rests => exact rests
  | preparing pending => rw [idle] at pending; cases pending
  | active _ _ all _ _ _ progress =>
      have done := finished _ (by rw [all]; exact List.mem_append_right _ (.head _))
      rw [done] at progress
      cases progress

/-- While the process is there, neither the control thread nor the thread of a run is ever
blocked; the threads make no endless series of steps without a new message and stop only
where all is at rest. The process stays where no run comes to an operation that traps. -/
theorem Reaches.comes_to_rest (reaches : Reaches overflow history bridge)
    (short : ShortSources history) :
    (bridge.Alive →
      (bridge.control ≠ .idle → ∃ label next, ControlStep bridge label next) ∧
      (∀ run worker, bridge.workers[run]? = some worker → worker ≠ .finished →
        ∃ label next, WorkerStep overflow bridge run label next) ∧
      ((∀ next, ¬Proceeds overflow next bridge) → bridge.AtRest)) ∧
    Acc (Proceeds overflow) bridge ∧
    ((∀ job ∈ accepted history, job.Calm overflow) → bridge.Alive) := by
  have fits := reaches.fits short
  refine ⟨?_, proceeds_wellFounded.apply bridge, reaches.alive⟩
  intro alive
  exact ⟨reaches.control_steps fits, fun _ _ => reaches.worker_steps fits alive,
    reaches.rests fits alive⟩

end Steps

theorem cancelled_short {program : Program} (fits : program.source.length < 2 ^ 32) :
    ShortSources (cancelledHistory program) := by
  intro message source member found
  have asked : message = runRequest program.source ∨ message = cancelRequest := by
    simpa [cancelledHistory] using member
  rcases asked with rfl | rfl
  · have sent : (runRequest program.source).find "source" = some (.str program.source) :=
      rfl
    rw [sent] at found
    cases found
    exact fits
  · have absent : cancelRequest.find "source" = none := by
      decide +kernel
    rw [absent] at found
    cases found

theorem beep_settles :
    ∃ bridge, Reaches calmSetting.overflow (cancelledHistory beepProgram) bridge ∧
      Acc (Proceeds calmSetting.overflow) bridge ∧
      (bridge.Alive → (∀ next, ¬Proceeds calmSetting.overflow next bridge) → bridge.AtRest) := by
  rcases beep_reaches with ⟨bridge, reaches⟩
  rcases reaches.comes_to_rest (cancelled_short (by decide +kernel)) with ⟨goes, ends, -⟩
  exact ⟨bridge, reaches, ends, fun alive => (goes alive).2.2⟩

end CardCode.Harness
