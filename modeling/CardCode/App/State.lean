import CardCode.App.Projection
import CardCode.Harness.Messages
import Mathlib.Data.Finset.Basic

/-! # The user interface's state (`app/src/state.js`) -/

namespace CardCode.App

structure Sensors where
  distanceCm : Int := 30
  button : Bool := false
  lineLeft : Bool := false
  lineRight : Bool := false
  deriving Repr, DecidableEq

/-- `createInitialState` gives the fields their values here. -/
structure State where
  source : Text := []
  cards : List Card := []
  diagnostics : List Diagnostic := []
  telemetry : List RobotCommand := []
  connected : Bool := false
  running : Bool := false
  status : String := "Disconnected"
  activeCardIds : Finset String := ∅
  erroredCardIds : Finset String := ∅
  sensors : Sensors := {}

/-! ## Spans and cards -/

mutual

def flattenCard : Card → List Card
  | .leaf head => [.leaf head]
  | .body head children => .body head children :: flattenCards children
  | .fork head thenCards elseCards =>
      .fork head thenCards elseCards :: (flattenCards thenCards ++ flattenCards elseCards)

def flattenCards : List Card → List Card
  | [] => []
  | card :: rest => flattenCard card ++ flattenCards rest

end

/-- A span of the host, as its messages carry it. -/
instance : Coe SourceSpan Span where
  coe span :=
    { startOffset := span.startOffset.toNat
      endOffset := span.endOffset.toNat
      startLine := span.startLine.toNat
      startColumn := span.startColumn.toNat
      endLine := span.endLine.toNat
      endColumn := span.endColumn.toNat }

def overlaps (first second : Span) : Bool :=
  first.startOffset < second.endOffset && second.startOffset < first.endOffset

def sameSpan (first second : Span) : Bool :=
  first.startOffset = second.startOffset && first.endOffset = second.endOffset

def containsSpan (first second : Span) : Bool :=
  first.startOffset ≤ second.startOffset && second.endOffset ≤ first.endOffset

def spanSize (span : Span) : Int :=
  (span.endOffset : Int) - span.startOffset

def cardsForSpan (cards : List Card) (span : Span) : List Card :=
  cards.filter fun card => overlaps card.span span

/-- The cards with this very span, or else the smallest around it. -/
def cardsForNodeSpan (cards : List Card) (span : Span) : List Card :=
  let hits := cardsForSpan (flattenCards cards) span
  let exactHits := hits.filter fun card => sameSpan card.span span
  if exactHits.isEmpty then
    let containingHits := hits.filter fun card => containsSpan card.span span
    match (containingHits.map fun card => spanSize card.span).min? with
    | none => []
    | some smallestSize => containingHits.filter fun card => spanSize card.span = smallestSize
  else exactHits

/-! ## The reducer -/

/-- What a message of this event does to the cards that are shown as active. -/
def updateActive (event : NodeEvent) (active : Finset String) (id : String) : Finset String :=
  match event with
  | .start => insert id active
  | .done | .skipped => active.erase id
  | .error => active

def updateErrored (event : NodeEvent) (errored : Finset String) (id : String) : Finset String :=
  match event with
  | .error => insert id errored
  | .start | .done | .skipped => errored

def applyNodeMessage (state : State) (message : NodeMessage) : State :=
  let ids := (cardsForNodeSpan state.cards message.span).map Card.id
  { state with
    activeCardIds := ids.foldl (updateActive message.event) state.activeCardIds
    erroredCardIds := ids.foldl (updateErrored message.event) state.erroredCardIds }

/-- `message.message || 'Error'`. -/
def statusOf (message : String) : String :=
  if message = "" then "Error" else message

def Sensors.update (sensors : Sensors) : SensorReading → Sensors
  | .distanceCm value => { sensors with distanceCm := value.toInt }
  | .button pressed => { sensors with button := pressed }
  | .lineLeft seen => { sensors with lineLeft := seen }
  | .lineRight seen => { sensors with lineRight := seen }

/-- `list.slice(-count)`. -/
def lastOf {α : Type} (count : Nat) (list : List α) : List α :=
  list.drop (list.length - count)

def applyRuntimeMessage (state : State) : HostMessage → State
  | .diagnostics ok diagnostics =>
      { state with diagnostics, status := if ok then "Compiled" else "Compile error" }
  | .programStart =>
      { state with running := true, status := "Running", activeCardIds := ∅, erroredCardIds := ∅ }
  | .programDone => { state with running := false, status := "Done", activeCardIds := ∅ }
  | .programError message _ =>
      { state with running := false, status := statusOf message, activeCardIds := ∅ }
  | .error message =>
      { state with running := false, status := statusOf message, activeCardIds := ∅ }
  | .robotCommand call => { state with telemetry := lastOf 49 state.telemetry ++ [call] }
  | .sensorRead reading => { state with sensors := state.sensors.update reading }
  | .node message => applyNodeMessage state message

inductive UiAction where
  | connection (connected : Bool)
  | edit (source : Text) (cards : List Card)
  | runtimeMessage (message : HostMessage)

def reduceState (state : State) : UiAction → State
  | .connection connected =>
      { state with connected, status := if connected then "Connected" else "Disconnected" }
  | .edit source cards =>
      { state with source, cards, diagnostics := [], activeCardIds := ∅, erroredCardIds := ∅ }
  | .runtimeMessage message => applyRuntimeMessage state message

/-- The state after a row of messages. -/
def applyMessages (state : State) (messages : List HostMessage) : State :=
  messages.foldl (fun state message => reduceState state (.runtimeMessage message)) state

theorem applyMessages_snoc (state : State) (messages : List HostMessage)
    (message : HostMessage) :
    applyMessages state (messages ++ [message]) =
      applyRuntimeMessage (applyMessages state messages) message := by
  rw [applyMessages, List.foldl_append]
  rfl

end CardCode.App
