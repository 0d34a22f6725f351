import CardCode.Harness.Messages
import Mathlib.Data.List.Basic

/-! # The runtime client (`app/src/transport.js`)

The client speaks to one socket at a time, the current one. The sockets it had before
live on until the browser has closed them, and their events arrive at any time.
-/

namespace CardCode.App

/-! ## Sockets -/

inductive ReadyState where
  | connecting
  | open
  | closing
  | closed
  deriving Repr, DecidableEq

/-- A socket of the browser. `opened` is set by its open event, `ended` by `close()` and
by its close event. -/
structure Socket where
  url : String
  readyState : ReadyState := .connecting
  opened : Bool := false
  ended : Bool := false
  deriving Repr, DecidableEq

/-- `close()`, whose close event comes later. -/
def Socket.close (socket : Socket) : Socket :=
  match socket.readyState with
  | .connecting | .open => { socket with readyState := .closing, ended := true }
  | .closing | .closed => { socket with ended := true }

/-- The client and every socket it created, the current one by its number. -/
structure RuntimeClient where
  sockets : List Socket := []
  socket : Option Nat := none
  deriving Repr, DecidableEq

def RuntimeClient.update (client : RuntimeClient) (index : Nat) (change : Socket → Socket) :
    RuntimeClient :=
  { client with sockets := client.sockets.modify index change }

/-- `disconnect`. -/
def RuntimeClient.disconnect (client : RuntimeClient) : RuntimeClient :=
  match client.socket with
  | none => client
  | some index =>
      match client.sockets[index]? with
      | none => { client with socket := none }
      | some socket =>
          if socket.readyState = .closed then { client with socket := none }
          else { client.update index Socket.close with socket := none }

/-- `connect`, where the factory makes a socket. -/
def RuntimeClient.connect (client : RuntimeClient) (url : String) : RuntimeClient :=
  let client := client.disconnect
  { sockets := client.sockets ++ [{ url }], socket := some client.sockets.length }

/-! ## Events -/

/-- A call of the client, or an event of the socket with the number. In `refused` the
socket factory throws; in `closing` the other side begins to close. -/
inductive ClientEvent where
  | connect (url : String)
  | refused (url : String)
  | disconnect
  | send (message : String)
  | opened (index : Nat)
  | received (index : Nat) (data : String)
  | errored (index : Nat)
  | closing (index : Nat)
  | closed (index : Nat)

/-- What the client does to the outside: calls of `onStatus` and `onMessage` for an event
of a socket, messages handed to a socket, and the error `send` throws. -/
inductive ClientEffect where
  | status (index : Nat) (connected : Bool) (url : String) (error : Option String)
  | message (index : Nat) (message : HostMessage)
  | sent (index : Nat) (message : String)
  | thrown (message : String)

/-- What `JSON.parse` makes of the data, or the message of what it throws. -/
abbrev MessageReader := String → Except String HostMessage

/-- The calls of `onStatus` for an event of a socket. -/
def RuntimeClient.status (client : RuntimeClient) (index : Nat) (socket : Socket)
    (connected : Bool) (error : Option String) : List ClientEffect :=
  if client.socket = some index then [.status index connected socket.url error] else []

/-- `onmessage`. -/
def RuntimeClient.receive (reader : MessageReader) (client : RuntimeClient) (index : Nat)
    (data : String) : List ClientEffect :=
  if client.socket = some index then
    match reader data with
    | .ok message => [.message index message]
    | .error message => [.message index (.error ("malformed runtime message: " ++ message))]
  else []

/-- `send`. -/
def RuntimeClient.send (client : RuntimeClient) (message : String) : List ClientEffect :=
  match client.socket with
  | none => [.thrown "runtime socket is not connected"]
  | some index =>
      if (client.sockets[index]?).any (fun socket => socket.readyState = .open) then
        [.sent index message]
      else [.thrown "runtime socket is not connected"]

/-- What an event leads to. A socket opens once, while it is connecting, and the other
side begins to close an open one; messages, errors and close events may come at any
time. -/
def RuntimeClient.step (reader : MessageReader) (client : RuntimeClient) :
    ClientEvent → Option (RuntimeClient × List ClientEffect)
  | .connect url => some (client.connect url, [])
  | .refused _ => some (client.disconnect, [])
  | .disconnect => some (client.disconnect, [])
  | .send message => some (client, client.send message)
  | .opened index => do
      let socket ← client.sockets[index]?
      if socket.readyState = .connecting then
        pure (client.update index fun socket => { socket with readyState := .open, opened := true },
          client.status index socket true none)
      else none
  | .received index data => do
      let _ ← client.sockets[index]?
      pure (client, client.receive reader index data)
  | .errored index => do
      let socket ← client.sockets[index]?
      pure (client, client.status index socket false (some "websocket error"))
  | .closing index => do
      let socket ← client.sockets[index]?
      if socket.readyState = .open then
        pure (client.update index fun socket => { socket with readyState := .closing }, [])
      else none
  | .closed index => do
      let socket ← client.sockets[index]?
      pure (client.update index fun socket => { socket with readyState := .closed, ended := true },
        client.status index socket false none)

/-! ## What is called -/

/-- The socket an event comes from. -/
def ClientEvent.socket? : ClientEvent → Option Nat
  | .opened index | .received index _ | .errored index | .closing index | .closed index =>
      some index
  | .connect _ | .refused _ | .disconnect | .send _ => none

/-- The event is a call that replaces the current socket. -/
def ClientEvent.replaces : ClientEvent → Bool
  | .connect _ | .refused _ | .disconnect => true
  | _ => false

/-- A callback is called for an event of the current socket, and a message is handed to
the current socket. -/
def ClientEffect.IsCurrent (client : RuntimeClient) (event : ClientEvent) : ClientEffect → Prop
  | .status index _ _ _ => client.socket = some index ∧ event.socket? = some index
  | .message index _ => client.socket = some index ∧ event.socket? = some index
  | .sent index _ => client.socket = some index
  | .thrown _ => True

section Steps

variable {reader : MessageReader} {client next : RuntimeClient} {event : ClientEvent}
  {effects more : List ClientEffect}

theorem status_current {index : Nat} {socket : Socket} {connected : Bool} {error : Option String}
    (comes : event.socket? = some index) :
    ∀ effect ∈ client.status index socket connected error, effect.IsCurrent client event := by
  rw [RuntimeClient.status]
  split
  next current => exact List.forall_mem_singleton.mpr ⟨current, comes⟩
  next => exact List.forall_mem_nil _

theorem receive_current {index : Nat} {data : String} (comes : event.socket? = some index) :
    ∀ effect ∈ client.receive reader index data, effect.IsCurrent client event := by
  rw [RuntimeClient.receive]
  split
  next current =>
    split
    next => exact List.forall_mem_singleton.mpr ⟨current, comes⟩
    next => exact List.forall_mem_singleton.mpr ⟨current, comes⟩
  next => exact List.forall_mem_nil _

theorem send_current {message : String} :
    ∀ effect ∈ client.send message, effect.IsCurrent client event := by
  rw [RuntimeClient.send]
  split
  next => exact List.forall_mem_singleton.mpr trivial
  next index current =>
    split
    next => exact List.forall_mem_singleton.mpr current
    next => exact List.forall_mem_singleton.mpr trivial

/-- Whatever a client does to the outside, it does for or on its current socket. -/
theorem step_current (steps : client.step reader event = some (next, more)) :
    ∀ effect ∈ more, effect.IsCurrent client event := by
  cases event with
  | connect url =>
      cases steps
      exact List.forall_mem_nil _
  | refused url =>
      cases steps
      exact List.forall_mem_nil _
  | disconnect =>
      cases steps
      exact List.forall_mem_nil _
  | send message =>
      cases steps
      exact send_current
  | opened index =>
      rcases Option.bind_eq_some_iff.mp steps with ⟨socket, -, taken⟩
      split at taken
      · cases taken
        exact status_current rfl
      · cases taken
  | received index data =>
      rcases Option.bind_eq_some_iff.mp steps with ⟨socket, -, taken⟩
      cases taken
      exact receive_current rfl
  | errored index =>
      rcases Option.bind_eq_some_iff.mp steps with ⟨socket, -, taken⟩
      cases taken
      exact status_current rfl
  | closing index =>
      rcases Option.bind_eq_some_iff.mp steps with ⟨socket, -, taken⟩
      split at taken
      · cases taken
        exact List.forall_mem_nil _
      · cases taken
  | closed index =>
      rcases Option.bind_eq_some_iff.mp steps with ⟨socket, -, taken⟩
      cases taken
      exact status_current rfl

end Steps

/-! ## The last status -/

def ClientEffect.connected? : ClientEffect → Option Bool
  | .status _ connected _ _ => some connected
  | _ => none

/-- What the last call of `onStatus` said. -/
def lastStatus (effects : List ClientEffect) : Option Bool :=
  (effects.filterMap ClientEffect.connected?).getLast?

/-- The current socket has had its open event and has not been closed. -/
def RuntimeClient.IsLive (client : RuntimeClient) : Prop :=
  ∃ index socket, client.socket = some index ∧ client.sockets[index]? = some socket ∧
    socket.opened = true ∧ socket.ended = false

/-- Where the last status was `connected: true`, the client is connected. -/
def StatusHolds (client : RuntimeClient) (effects : List ClientEffect) : Prop :=
  lastStatus effects = some true → client.IsLive

/-- The clients that the events lead to from a new one, with what was called on the way. -/
inductive ClientReaches (reader : MessageReader)
    (condition : List ClientEffect → ClientEvent → Prop) :
    RuntimeClient → List ClientEffect → Prop
  | initial : ClientReaches reader condition {} []
  | step {client effects event next more} : ClientReaches reader condition client effects →
      condition effects event → client.step reader event = some (next, more) →
      ClientReaches reader condition next (effects ++ more)

/-- The socket is replaced or given up only while the last status is not
`connected: true`. -/
def ReplacesUnconnected (effects : List ClientEffect) (event : ClientEvent) : Prop :=
  event.replaces = true → lastStatus effects ≠ some true

/-- A socket that can still open has not been closed. -/
def Unspoilt (client : RuntimeClient) : Prop :=
  ∀ socket ∈ client.sockets, socket.readyState = .connecting → socket.ended = false

section Status

variable {reader : MessageReader} {client next : RuntimeClient} {event : ClientEvent}
  {effects more : List ClientEffect}

theorem lastStatus_quiet (quiet : ∀ effect ∈ more, effect.connected? = none) :
    lastStatus (effects ++ more) = lastStatus effects := by
  rw [lastStatus, List.filterMap_append, List.filterMap_eq_nil_iff.mpr quiet, List.append_nil]
  rfl

theorem lastStatus_reported {index : Nat} {connected : Bool} {url : String}
    {error : Option String} :
    lastStatus (effects ++ [.status index connected url error]) = some connected := by
  rw [lastStatus, List.filterMap_append]
  exact List.getLast?_concat

/-- An event of another socket reports nothing, and one of the current socket its status. -/
theorem status_cases (index : Nat) (socket : Socket) (connected : Bool) (error : Option String) :
    (client.socket = some index ∧
        lastStatus (effects ++ client.status index socket connected error) = some connected) ∨
      (client.socket ≠ some index ∧
        lastStatus (effects ++ client.status index socket connected error) =
          lastStatus effects) := by
  rw [RuntimeClient.status]
  by_cases current : client.socket = some index
  · rw [if_pos current]
    exact .inl ⟨current, lastStatus_reported⟩
  · rw [if_neg current, List.append_nil]
    exact .inr ⟨current, rfl⟩

theorem send_quiet (message : String) :
    ∀ effect ∈ client.send message, effect.connected? = none := by
  rw [RuntimeClient.send]
  split
  · exact List.forall_mem_singleton.mpr rfl
  · split
    · exact List.forall_mem_singleton.mpr rfl
    · exact List.forall_mem_singleton.mpr rfl

theorem receive_quiet (index : Nat) (data : String) :
    ∀ effect ∈ client.receive reader index data, effect.connected? = none := by
  rw [RuntimeClient.receive]
  split
  · split
    · exact List.forall_mem_singleton.mpr rfl
    · exact List.forall_mem_singleton.mpr rfl
  · exact List.forall_mem_nil _

/-! ## Steps -/

theorem update_unspoilt {index : Nat} {change : Socket → Socket} (unspoilt : Unspoilt client)
    (keeps : ∀ socket, (socket.readyState = .connecting → socket.ended = false) →
      (change socket).readyState = .connecting → (change socket).ended = false) :
    Unspoilt (client.update index change) := by
  intro socket member
  rcases List.mem_iff_getElem?.mp member with ⟨place, found⟩
  rw [RuntimeClient.update, List.getElem?_modify] at found
  rcases Option.map_eq_some_iff.mp found with ⟨before, present, rfl⟩
  have fresh := unspoilt before (List.mem_of_getElem? present)
  split
  · exact keeps before fresh
  · exact fresh

theorem close_unspoilt (socket : Socket) :
    socket.close.readyState = .connecting → socket.close.ended = false := by
  rw [Socket.close]
  cases socket.readyState <;> exact fun connecting => by cases connecting

theorem disconnect_unspoilt (unspoilt : Unspoilt client) : Unspoilt client.disconnect := by
  rw [RuntimeClient.disconnect]
  split
  · exact unspoilt
  · split
    · exact unspoilt
    · split
      · exact unspoilt
      · exact update_unspoilt unspoilt fun socket _ => close_unspoilt socket

theorem disconnect_socket (client : RuntimeClient) : client.disconnect.socket = none := by
  rw [RuntimeClient.disconnect]
  split
  next none => exact none
  next =>
    split
    · rfl
    · split <;> rfl

theorem step_unspoilt (unspoilt : Unspoilt client)
    (steps : client.step reader event = some (next, more)) : Unspoilt next := by
  cases event with
  | connect url =>
      cases steps
      intro socket member connecting
      rcases List.mem_append.mp member with member | member
      · exact disconnect_unspoilt unspoilt socket member connecting
      · rw [List.mem_singleton.mp member]
  | refused url =>
      cases steps
      exact disconnect_unspoilt unspoilt
  | disconnect =>
      cases steps
      exact disconnect_unspoilt unspoilt
  | send message =>
      cases steps
      exact unspoilt
  | opened index =>
      rcases Option.bind_eq_some_iff.mp steps with ⟨socket, -, taken⟩
      split at taken
      · cases taken
        exact update_unspoilt unspoilt fun _ _ connecting => by cases connecting
      · cases taken
  | received index data =>
      rcases Option.bind_eq_some_iff.mp steps with ⟨socket, -, taken⟩
      cases taken
      exact unspoilt
  | errored index =>
      rcases Option.bind_eq_some_iff.mp steps with ⟨socket, -, taken⟩
      cases taken
      exact unspoilt
  | closing index =>
      rcases Option.bind_eq_some_iff.mp steps with ⟨socket, -, taken⟩
      split at taken
      · cases taken
        exact update_unspoilt unspoilt fun _ _ connecting => by cases connecting
      · cases taken
  | closed index =>
      rcases Option.bind_eq_some_iff.mp steps with ⟨socket, -, taken⟩
      cases taken
      exact update_unspoilt unspoilt fun _ _ connecting => by cases connecting

/-- A change of another socket, or one that neither closes nor forgets, leaves the
client live. -/
theorem IsLive.update {index : Nat} {change : Socket → Socket} (live : client.IsLive)
    (keeps : client.socket = some index → ∀ socket,
      (change socket).opened = socket.opened ∧ (change socket).ended = socket.ended) :
    (client.update index change).IsLive := by
  rcases live with ⟨place, socket, current, present, opened, unended⟩
  by_cases same : index = place
  · rcases keeps (same ▸ current) socket with ⟨sameOpened, sameEnded⟩
    refine ⟨place, change socket, current, ?_, sameOpened.trans opened, sameEnded.trans unended⟩
    rw [RuntimeClient.update, same, List.getElem?_modify_eq, present]
    rfl
  · refine ⟨place, socket, current, ?_, opened, unended⟩
    exact (List.getElem?_modify_ne _ _ same).trans present

/-- What a step keeps of the last status, where it does not replace a connected socket. -/
theorem step_statusHolds (unspoilt : Unspoilt client) (holds : StatusHolds client effects)
    (calm : ReplacesUnconnected effects event)
    (steps : client.step reader event = some (next, more)) :
    StatusHolds next (effects ++ more) := by
  have replaced (replaces : event.replaces = true) (client : RuntimeClient) :
      StatusHolds client (effects ++ []) := by
    rw [List.append_nil]
    exact fun connected => absurd connected (calm replaces)
  cases event with
  | connect url =>
      cases steps
      exact replaced rfl _
  | refused url =>
      cases steps
      exact replaced rfl _
  | disconnect =>
      cases steps
      exact replaced rfl _
  | send message =>
      cases steps
      rw [StatusHolds, lastStatus_quiet (send_quiet message)]
      exact holds
  | opened index =>
      rcases Option.bind_eq_some_iff.mp steps with ⟨socket, present, taken⟩
      split at taken
      next connecting =>
        cases taken
        rcases @status_cases client effects index socket true none with
          ⟨current, -⟩ | ⟨other, unchanged⟩
        · intro _
          refine ⟨index, { socket with readyState := .open, opened := true }, current, ?_, rfl,
            unspoilt socket (List.mem_of_getElem? present) connecting⟩
          rw [RuntimeClient.update, List.getElem?_modify_eq, present]
          rfl
        · rw [StatusHolds, unchanged]
          exact fun connected => IsLive.update (holds connected) fun same => absurd same other
      next => cases taken
  | received index data =>
      rcases Option.bind_eq_some_iff.mp steps with ⟨socket, -, taken⟩
      cases taken
      rw [StatusHolds, lastStatus_quiet (receive_quiet index data)]
      exact holds
  | errored index =>
      rcases Option.bind_eq_some_iff.mp steps with ⟨socket, -, taken⟩
      cases taken
      rcases @status_cases client effects index socket false (some "websocket error") with
        ⟨-, reported⟩ | ⟨-, unchanged⟩
      · rw [StatusHolds, reported]
        exact fun connected => by cases connected
      · rw [StatusHolds, unchanged]
        exact holds
  | closing index =>
      rcases Option.bind_eq_some_iff.mp steps with ⟨socket, -, taken⟩
      split at taken
      · cases taken
        rw [StatusHolds, List.append_nil]
        exact fun connected => IsLive.update (holds connected) fun _ _ => ⟨rfl, rfl⟩
      · cases taken
  | closed index =>
      rcases Option.bind_eq_some_iff.mp steps with ⟨socket, -, taken⟩
      cases taken
      rcases @status_cases client effects index socket false none with
        ⟨-, reported⟩ | ⟨other, unchanged⟩
      · rw [StatusHolds, reported]
        exact fun connected => by cases connected
      · rw [StatusHolds, unchanged]
        exact fun connected => IsLive.update (holds connected) fun same => absurd same other

/-- Replacing a connected socket leaves its status behind. -/
theorem replaced_not_live (replaces : event.replaces = true)
    (steps : client.step reader event = some (next, more)) : more = [] ∧ ¬ next.IsLive := by
  have gone : ¬ client.disconnect.IsLive := by
    intro live
    rcases live with ⟨index, socket, current, -⟩
    rw [disconnect_socket] at current
    cases current
  cases event with
  | connect url =>
      cases steps
      refine ⟨rfl, fun live => ?_⟩
      rcases live with ⟨index, socket, current, present, opened, -⟩
      cases current
      rw [RuntimeClient.connect] at present
      dsimp only at present
      rw [List.getElem?_concat_length] at present
      cases present
      cases opened
  | refused url =>
      cases steps
      exact ⟨rfl, gone⟩
  | disconnect =>
      cases steps
      exact ⟨rfl, gone⟩
  | send | opened | received | errored | closing | closed => cases replaces

end Status

/-! ## Runs -/

theorem ClientReaches.unspoilt {reader : MessageReader}
    {condition : List ClientEffect → ClientEvent → Prop} {client : RuntimeClient}
    {effects : List ClientEffect} (reached : ClientReaches reader condition client effects) :
    Unspoilt client := by
  induction reached with
  | initial => exact List.forall_mem_nil _
  | step _ _ steps induction => exact step_unspoilt induction steps

theorem ClientReaches.statusHolds {reader : MessageReader} {client : RuntimeClient}
    {effects : List ClientEffect}
    (reached : ClientReaches reader ReplacesUnconnected client effects) :
    StatusHolds client effects := by
  induction reached with
  | initial => exact fun connected => by cases connected
  | step before calm steps induction =>
      exact step_statusHolds before.unspoilt induction calm steps

/-- In every state the client only acts for and on its current socket. What was last
reported holds in every run that replaces or gives up a socket only while it was not
reported as connected; doing so at another time breaks it at once. -/
theorem client_follows_current (reader : MessageReader) :
    (∀ client event next more, RuntimeClient.step reader client event = some (next, more) →
      ∀ effect ∈ more, effect.IsCurrent client event) ∧
    (∀ client effects, ClientReaches reader ReplacesUnconnected client effects →
      StatusHolds client effects) ∧
    (∀ client effects event next more, ¬ ReplacesUnconnected effects event →
      RuntimeClient.step reader client event = some (next, more) →
      ¬ StatusHolds next (effects ++ more)) := by
  refine ⟨fun _ _ _ _ => step_current, fun _ _ reached => reached.statusHolds, ?_⟩
  intro client effects event next more calm steps holds
  simp only [ReplacesUnconnected, Classical.not_imp, Decidable.not_not] at calm
  rcases replaced_not_live calm.1 steps with ⟨rfl, dead⟩
  rw [StatusHolds, List.append_nil] at holds
  exact dead (holds calm.2)

/-- A reader that understands no message. -/
def deafReader : MessageReader := fun _ => .error "Unexpected token"

/-- The client after its first socket has opened, and what was called. -/
def openedClient : RuntimeClient where
  sockets := [⟨"ws://robot", .open, true, false⟩]
  socket := some 0

def openedEffects : List ClientEffect :=
  [.status 0 true "ws://robot" none]

theorem opened_reached {condition : List ClientEffect → ClientEvent → Prop}
    (meets : ∀ event, condition [] event) :
    ClientReaches deafReader condition openedClient openedEffects := by
  have connected : ClientReaches deafReader condition (RuntimeClient.connect {} "ws://robot") [] :=
    ClientReaches.initial.step (meets (.connect "ws://robot")) rfl
  exact connected.step (meets (.opened 0)) rfl

/-- The first socket opens and is replaced by a second one. -/
theorem opened_follows_current :
    (∀ effect ∈ openedEffects,
        effect.IsCurrent (RuntimeClient.connect {} "ws://robot") (.opened 0)) ∧
      StatusHolds openedClient openedEffects ∧
      ¬ StatusHolds (openedClient.connect "ws://harness") (openedEffects ++ []) := by
  have follows := client_follows_current deafReader
  have quiet : ∀ event, ReplacesUnconnected [] event := by
    intro event _ connected
    cases connected
  exact ⟨follows.1 _ (.opened 0) openedClient _ rfl,
    follows.2.1 _ _ (opened_reached quiet),
    follows.2.2 openedClient openedEffects (.connect "ws://harness") _ _
      (fun calm => calm rfl rfl) rfl⟩

/-- The close event of a socket that was replaced is not reported. -/
theorem replaced_still_connected :
    ¬ ∀ reader client effects, ClientReaches reader (fun _ _ => True) client effects →
      StatusHolds client effects := by
  intro always
  have replaced : ClientReaches deafReader (fun _ _ => True)
      (openedClient.connect "ws://harness") (openedEffects ++ []) :=
    @ClientReaches.step _ _ _ _ (.connect "ws://harness") _ _ (opened_reached fun _ => trivial)
      trivial rfl
  rcases always _ _ _ replaced rfl with ⟨index, socket, current, present, opened, -⟩
  cases current
  cases present
  cases opened

end CardCode.App
