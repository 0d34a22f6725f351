import CardCode.App.Editing
import CardCode.App.Encoding
import CardCode.Harness.ProtocolBridge

/-! # Compiling after edits (`app/src/app.js`)

The interface sends its source to the host some time after an edit, and shows what
the host finds in it. An answer does not tell which source it is about, and a source
that does not parse is not sent.
-/

namespace CardCode.App

/-- What a host finds in a source. -/
abbrev Host := Text → CompileResult

/-- `do_compile`. -/
def Host.answer (host : Host) (source : Text) : HostMessage :=
  Harness.diagnosticsMessage (host source)

/-- The host that runs the engine. -/
def engineHost : Host := fun source =>
  (compile (utf8 source)).getD ⟨none, []⟩

/-- `onMessage`. -/
def Ui.receive (ui : Ui) (message : HostMessage) : Ui :=
  { ui with
    state := reduceState ui.state (.runtimeMessage message)
    localError :=
      match message with
      | .diagnostics _ _ => none
      | _ => ui.localError }

/-- The interface, with its compile timer and what is on its way: sources the host has
not answered and answers that have not arrived, the oldest first. -/
structure Session where
  ui : Ui
  timer : Bool
  requests : List Text := []
  replies : List HostMessage := []

/-- `onStatus` when the connection opens. -/
def Session.connect (ui : Ui) : Session where
  ui := { ui with state := reduceState ui.state (.connection true) }
  timer := true

/-- `applySource`; `scheduleCompile` starts the timer anew. -/
def Session.applySource (session : Session) (source : Text) (canonicalize : Bool) : Session :=
  let applied := applySourceToState session.ui defaultManifest source canonicalize
  { session with ui := applied.2, timer := applied.1 || session.timer }

/-- The callback of `scheduleCompile`. -/
def Session.sendSource (session : Session) : Session :=
  { session with
    timer := false
    requests :=
      if session.ui.state.connected then session.requests ++ [session.ui.state.source]
      else session.requests }

inductive SessionEvent where
  | edit (source : Text) (canonicalize : Bool)
  | fire
  | answer
  | deliver

def Session.step (host : Host) (session : Session) : SessionEvent → Option Session
  | .edit source canonicalize => some (session.applySource source canonicalize)
  | .fire => if session.timer then some session.sendSource else none
  | .answer =>
      match session.requests with
      | [] => none
      | source :: requests =>
          some { session with requests, replies := session.replies ++ [host.answer source] }
  | .deliver =>
      match session.replies with
      | [] => none
      | message :: replies => some { session with replies, ui := session.ui.receive message }

/-- The sessions of a connection whose events all meet the condition. -/
inductive Connected (host : Host) (condition : Session → SessionEvent → Prop) : Session → Prop
  | connect (ui : Ui) : Connected host condition (.connect ui)
  | step {session next event} : Connected host condition session → condition session event →
      session.step host event = some next → Connected host condition next

/-- No compile timer is pending and no message is in flight. -/
structure Session.Settled (session : Session) : Prop where
  timer : session.timer = false
  requests : session.requests = []
  replies : session.replies = []

/-! ## What is shown -/

def ParsesLocally (source : Text) : Prop :=
  ∃ ast, parseCardCode source = .ok ast

/-- The host's diagnostics for the source. -/
def ShowsHost (host : Host) (ui : Ui) : Prop :=
  ui.diagnostics = (host ui.state.source).diagnostics.map .host

/-- The error the source fails to parse with. -/
def ShowsParseError (ui : Ui) : Prop :=
  ∃ failure, parseCardCode ui.state.source = .error failure ∧
    ui.diagnostics = [.thrown (.parse failure)]

/-- The diagnostics are about the source. -/
def ShowsSource (host : Host) (ui : Ui) : Prop :=
  ShowsHost host ui ∨ ShowsParseError ui

/-- The diagnostics are the host's where the source parses, and the parse error where
it does not. -/
structure ShowsExactly (host : Host) (ui : Ui) : Prop where
  parsed : ParsesLocally ui.state.source → ShowsHost host ui
  failed : ¬ ParsesLocally ui.state.source → ShowsParseError ui

/-- The last answer on its way arrives, and no timer is pending. -/
structure Session.Settles (session : Session) (event : SessionEvent) : Prop where
  timer : session.timer = false
  requests : session.requests = []
  replies : ∃ message, session.replies = [message]
  event : event = .deliver

/-- The last answer finds a source that parses. -/
def FindsParsed (session : Session) (event : SessionEvent) : Prop :=
  session.Settles event → ParsesLocally session.ui.state.source

/-- The last answer finds a source that parses, or else the one it answers. -/
def FindsAnswered (host : Host) (session : Session) (event : SessionEvent) : Prop :=
  session.Settles event →
    ParsesLocally session.ui.state.source ∨ session.replies = [host.answer session.ui.state.source]

/-! ## Steps -/

/-- The answers that are still to arrive. -/
def Session.outstanding (host : Host) (session : Session) : List HostMessage :=
  session.replies ++ session.requests.map host.answer

/-- With no timer pending, the last answer to arrive is that for the source, where the
source parses. -/
structure Keeps (host : Host) (right : Ui → Prop) (session : Session) : Prop where
  connected : session.ui.state.connected = true
  latest : session.timer = false → ParsesLocally session.ui.state.source →
    session.outstanding host ≠ [] →
    (session.outstanding host).getLast? = some (host.answer session.ui.state.source)
  shown : session.Settled → right session.ui

section Steps

variable {host : Host} {right : Ui → Prop} {session : Session}

theorem connect_keeps (ui : Ui) : Keeps host right (.connect ui) := by
  constructor
  · rfl
  · intro stopped
    cases stopped
  · intro settled
    cases settled.timer

theorem applySourceToState_connected (ui : Ui) (manifest : Manifest) (source : Text)
    (canonicalize : Bool) :
    (applySourceToState ui manifest source canonicalize).2.state.connected =
      ui.state.connected := by
  rw [applySourceToState]
  split <;> rfl

theorem edit_keeps {source : Text} {canonicalize : Bool} (keeps : Keeps host right session)
    (failed : ∀ ui, ShowsParseError ui → right ui) :
    Keeps host right (session.applySource source canonicalize) := by
  have connected := (applySourceToState_connected session.ui defaultManifest source
    canonicalize).trans keeps.connected
  generalize parses : parseCardCode source = result
  cases result with
  | ok ast =>
      -- The timer is started, so nothing is asked of what is shown.
      have started : (session.applySource source canonicalize).timer = true := by
        rw [Session.applySource, (applySourceToState_parsed parses session.ui canonicalize).1]
        rfl
      refine ⟨connected, fun stopped => ?_, fun settled => ?_⟩
      · rw [started] at stopped
        cases stopped
      · have stopped := settled.timer
        rw [started] at stopped
        cases stopped
  | error failure =>
      have applied := @applySourceToState_failed source failure defaultManifest parses session.ui
        canonicalize
      have edited : (session.applySource source canonicalize).ui.state.source = source := by
        rw [Session.applySource, applied]
      refine ⟨connected, fun _ found => ?_, fun _ => failed _ ⟨failure, ?_, ?_⟩⟩
      · rcases found with ⟨ast, found⟩
        rw [edited, parses] at found
        cases found
      · rw [edited, parses]
      · rw [Session.applySource, applied]
        rfl

theorem fire_keeps (keeps : Keeps host right session) : Keeps host right session.sendSource := by
  have sent : session.sendSource.requests = session.requests ++ [session.ui.state.source] :=
    if_pos keeps.connected
  refine ⟨keeps.connected, fun _ _ _ => ?_, fun settled => ?_⟩
  · rw [Session.outstanding, sent, List.map_append, ← List.append_assoc]
    exact List.getLast?_concat
  · have none := settled.requests
    rw [sent] at none
    simp at none

theorem answer_keeps {source : Text} {requests : List Text} (keeps : Keeps host right session)
    (asked : session.requests = source :: requests) :
    Keeps host right
      { session with requests, replies := session.replies ++ [host.answer source] } := by
  have same : Session.outstanding host
      { session with requests, replies := session.replies ++ [host.answer source] } =
      session.outstanding host := by
    rw [Session.outstanding, Session.outstanding, asked, List.map_cons, List.append_assoc]
    rfl
  refine ⟨keeps.connected, ?_, fun settled => ?_⟩
  · rw [same]
    exact keeps.latest
  · have none := settled.replies
    simp at none

theorem receive_source (ui : Ui) (message : HostMessage) :
    (ui.receive message).state.source = ui.state.source ∧
      (ui.receive message).state.connected = ui.state.connected := by
  cases message <;> exact ⟨rfl, rfl⟩

theorem deliver_keeps {message : HostMessage} {replies : List HostMessage}
    (keeps : Keeps host right session) (arrives : session.replies = message :: replies)
    (delivered : session.Settles .deliver →
      (ParsesLocally session.ui.state.source → message = host.answer session.ui.state.source) →
      right (session.ui.receive message)) :
    Keeps host right { session with replies, ui := session.ui.receive message } := by
  rcases receive_source session.ui message with ⟨source, connected⟩
  have before : session.outstanding host =
      message :: Session.outstanding host { session with replies } := by
    rw [Session.outstanding, arrives]
    rfl
  refine ⟨connected.trans keeps.connected, ?_, ?_⟩
  · intro stopped parses some
    change Session.outstanding host { session with replies } ≠ [] at some
    dsimp only at parses stopped ⊢
    rw [source] at parses ⊢
    have latest := keeps.latest stopped parses (before ▸ List.cons_ne_nil _ _)
    rw [before, List.getLast?_cons_of_ne_nil some] at latest
    exact latest
  · intro settled
    have none : replies = [] := settled.replies
    have unasked : session.requests = [] := settled.requests
    apply delivered ⟨settled.timer, settled.requests, ⟨message, by rw [arrives, none]⟩, rfl⟩
    intro parses
    have latest := keeps.latest settled.timer parses (before ▸ List.cons_ne_nil _ _)
    rw [Session.outstanding, arrives, none, unasked] at latest
    exact Option.some.inj latest

/-- The run lemma: what a failed edit shows is right, and what the last answer shows. -/
theorem Connected.keeps {condition : Session → SessionEvent → Prop}
    (reached : Connected host condition session) (failed : ∀ ui, ShowsParseError ui → right ui)
    (delivered : ∀ {session : Session} {message}, condition session .deliver →
      session.Settles .deliver → session.replies = [message] →
      (ParsesLocally session.ui.state.source → message = host.answer session.ui.state.source) →
      right (session.ui.receive message)) : Keeps host right session := by
  induction reached with
  | connect ui => exact connect_keeps ui
  | @step session next event _ meets steps induction =>
      cases event with
      | edit source canonicalize =>
          cases steps
          exact edit_keeps induction failed
      | fire =>
          rw [Session.step] at steps
          split at steps
          next =>
            cases steps
            exact fire_keeps induction
          next => cases steps
      | answer =>
          rw [Session.step] at steps
          split at steps
          next => cases steps
          next source requests asked =>
            cases steps
            exact answer_keeps induction asked
      | deliver =>
          rw [Session.step] at steps
          split at steps
          next => cases steps
          next message replies arrives =>
            cases steps
            apply deliver_keeps induction arrives
            intro settles latest
            have only : session.replies = [message] := by
              rcases settles.replies with ⟨other, alone⟩
              rw [arrives, List.cons.injEq] at alone
              rw [arrives, alone.2]
            exact delivered meets settles only latest

end Steps

/-! ## Runs -/

theorem receive_shows {host : Host} {ui : Ui}
    {message : HostMessage} (answers : message = host.answer ui.state.source) :
    ShowsHost host (ui.receive message) := by
  rw [ShowsHost, (receive_source ui message).1, answers]
  rfl

/-- Once no timer is pending and nothing is on its way, the diagnostics are about the
source, provided every last answer found a source that parses, or the one it answers.
They are the host's for a source that parses and the parse error otherwise, provided
every last answer found a source that parses. -/
theorem settled_shows (host : Host) (session : Session) (settled : session.Settled) :
    (Connected host (FindsAnswered host) session → ShowsSource host session.ui) ∧
      (Connected host FindsParsed session → ShowsExactly host session.ui) := by
  constructor
  · intro reached
    have keeps : Keeps host (ShowsSource host) session := by
      apply reached.keeps (fun ui shown => .inr shown)
      intro session message meets settles only latest
      apply Or.inl
      apply receive_shows
      rcases meets settles with parses | answers
      · exact latest parses
      · rw [only] at answers
        exact (List.cons.inj answers).1
    exact keeps.shown settled
  · intro reached
    have keeps : Keeps host (ShowsExactly host) session := by
      apply reached.keeps
      · intro ui shown
        refine ⟨fun parses => ?_, fun _ => shown⟩
        rcases parses with ⟨ast, parses⟩
        rcases shown with ⟨failure, fails, -⟩
        rw [parses] at fails
        cases fails
      · intro session message meets settles only latest
        have parses := meets settles
        refine ⟨fun _ => receive_shows (latest parses), fun fails => ?_⟩
        rw [(receive_source session.ui message).1] at fails
        exact absurd parses fails
    exact keeps.shown settled

/-- An interface that holds a program when the connection opens. -/
def beepSession : Session :=
  .connect { state := { source := "(beep)".toList } }

/-- The interface after the answer, with nothing else on its way. -/
def answeredSession (host : Host) : Session where
  ui := beepSession.ui.receive (host.answer "(beep)".toList)
  timer := false

theorem answered_settled (host : Host) : (answeredSession host).Settled :=
  ⟨rfl, rfl, rfl⟩

theorem answered_connected {host : Host} {condition : Session → SessionEvent → Prop}
    (meets : ∀ session event, FindsParsed session event → condition session event) :
    Connected host condition (answeredSession host) := by
  have parses : ParsesLocally beepSession.ui.state.source := exists_parsed (by decide +kernel)
  have sent : Connected host condition beepSession.sendSource :=
    (Connected.connect _).step (meets _ .fire fun settles => nomatch settles.event) rfl
  have answered : Connected host condition
      { beepSession.sendSource with
        requests := [], replies := [host.answer "(beep)".toList] } :=
    sent.step (meets _ .answer fun settles => nomatch settles.event) rfl
  exact answered.step (meets _ .deliver fun _ => parses) rfl

theorem beep_settled_shows :
    ShowsSource engineHost (answeredSession engineHost).ui ∧
      ShowsExactly engineHost (answeredSession engineHost).ui := by
  have shows := settled_shows engineHost _ (answered_settled engineHost)
  exact ⟨shows.1 (answered_connected fun session event finds settles => .inl (finds settles)),
    shows.2 (answered_connected fun session event finds => finds)⟩

/-- The session after the events, where each of them can happen. -/
def Session.run (host : Host) (session : Session) (events : List SessionEvent) : Option Session :=
  events.foldlM (Session.step host) session

theorem Connected.run {host : Host} {condition : Session → SessionEvent → Prop}
    {session final : Session} {events : List SessionEvent}
    (reached : Connected host condition session) (meets : ∀ session event, condition session event)
    (result : session.run host events = some final) : Connected host condition final := by
  induction events generalizing session with
  | nil =>
      cases result
      exact reached
  | cons event events induction =>
      rcases Option.bind_eq_some_iff.mp result with ⟨next, steps, rest⟩
      exact induction (reached.step (meets _ _) steps) rest

/-- A bracket is deleted while the program is on its way to the host. -/
def brokenEvents : List SessionEvent :=
  [.edit "(beep)".toList false, .fire, .edit "(beep".toList false, .answer, .deliver]

/-- The answer to the program is shown for the text without the bracket. -/
theorem broken_not_shown :
    ¬ ∀ host session, Connected host (fun _ _ => True) session → session.Settled →
      ShowsSource host session.ui := by
  intro always
  have observed : ((Session.connect {}).run engineHost brokenEvents).map (fun session =>
      (session.ui.state.source, session.ui.diagnostics.length, session.timer, session.requests,
        session.replies.length)) = some ("(beep".toList, 0, false, [], 0) := by
    decide +kernel
  have found : (engineHost "(beep".toList).diagnostics.length = 1 := by
    decide +kernel
  rcases Option.map_eq_some_iff.mp observed with ⟨session, result, fields⟩
  simp only [Prod.mk.injEq] at fields
  rcases fields with ⟨source, shown, stopped, unasked, unanswered⟩
  have reached : Connected engineHost (fun _ _ => True) session :=
    (Connected.connect {}).run (fun _ _ => trivial) result
  rcases always engineHost session reached
    ⟨stopped, unasked, List.eq_nil_of_length_eq_zero unanswered⟩ with host | failed
  · have lengths := congrArg List.length host
    rw [shown, List.length_map, source, found] at lengths
    cases lengths
  · rcases failed with ⟨failure, -, error⟩
    rw [error] at shown
    cases shown

end CardCode.App
