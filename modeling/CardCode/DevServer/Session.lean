import CardCode.App.Requests
import CardCode.DevServer.Frames
import CardCode.DevServer.Lines

/-! # A session of the dev server (`tools/dev-server.js`)

`attachRuntimeSocket` stands between the socket of a browser and the harness, its child.
Both deliver chunks at any time, and what either of them sends is passed on to the other.
-/

namespace CardCode.DevServer

open App

/-! ## The model -/

/-- What node reports, in the order in which it does. -/
inductive SessionEvent where
  | data (chunk : Bytes)
  | stdout (chunk : Bytes)
  | failed (message : Text)
  | exited
  | closed

/-- What a session does: `write`, `end` and `destroy` of the socket, `write` of the child's
input and `kill`. -/
inductive SessionCall where
  | write (bytes : Bytes)
  | finish (bytes : Bytes)
  | destroy
  | input (bytes : Bytes)
  | kill

structure Session where
  socketBuffer : Bytes := []
  lineBuffer : Text := []
  destroyed : Bool := false

/-- The message about an error of the server's own. -/
def errorText (message : Text) : Text :=
  (Json.object
    [("type".toList, .string "error".toList), ("message".toList, .string message)]).stringify

def sendText (session : Session) (text : Text) : List SessionCall :=
  if session.destroyed then [] else [.write (encodeServerFrame (utf8 text) 1)]

def closeFrame : Bytes :=
  encodeServerFrame [] 8

/-- The line that a text frame becomes. -/
def inputLine (payload : Bytes) : Bytes :=
  utf8 (decodeUtf8 payload) ++ [newline]

/-- What is done about a frame of the browser. -/
def frameCalls (frame : Frame) : List SessionCall :=
  if frame.opcode = 1 then [.input (inputLine frame.payload)]
  else if frame.opcode = 8 then [.finish closeFrame]
  else if frame.opcode = 9 then [.write (encodeServerFrame frame.payload 10)]
  else []

namespace Session

/-- A destroyed socket delivers nothing more. -/
def receive (session : Session) (chunk : Bytes) : Session × List SessionCall :=
  if session.destroyed then (session, [])
  else
    let socketBuffer := session.socketBuffer ++ chunk
    match decodeClientFrames socketBuffer with
    | .error message =>
        ({ session with socketBuffer, destroyed := true },
          sendText session (errorText message.toList) ++ [.destroy])
    | .ok decoded =>
        ({ session with socketBuffer := decoded.2 }, decoded.1.flatMap frameCalls)

def step (session : Session) : SessionEvent → Session × List SessionCall
  | .data chunk => session.receive chunk
  | .stdout chunk =>
      let relayed := relayChunk session.lineBuffer chunk
      ({ session with lineBuffer := relayed.2 }, relayed.1.flatMap (sendText session))
  | .failed message =>
      (session, sendText session (errorText ("mock harness failed: ".toList ++ message)) ++
        [.finish closeFrame])
  | .exited => (session, [.finish closeFrame])
  | .closed => ({ session with destroyed := true }, [.kill])

/-- All that a session does about the events. -/
def run : Session → List SessionEvent → List SessionCall
  | _, [] => []
  | session, event :: events => (session.step event).2 ++ run (session.step event).1 events

end Session

/-- What is handed to the socket to be sent; nothing is, once it has been ended. -/
def transmitted : List SessionCall → Bytes
  | [] => []
  | .write bytes :: calls => bytes ++ transmitted calls
  | .finish bytes :: _ => bytes
  | .destroy :: _ => []
  | .input _ :: calls | .kill :: calls => transmitted calls

/-- What the child is given to read. -/
def childInput (calls : List SessionCall) : Bytes :=
  calls.flatMap fun call =>
    match call with
    | .input bytes => bytes
    | _ => []

/-! ## Events -/

/-- The chunks of the browser. -/
def received (events : List SessionEvent) : List Bytes :=
  events.filterMap fun event =>
    match event with
    | .data chunk => some chunk
    | _ => none

/-- The chunks of the child. -/
def printed (events : List SessionEvent) : List Bytes :=
  events.filterMap fun event =>
    match event with
    | .stdout chunk => some chunk
    | _ => none

/-- Neither the socket nor the child has come to its end. -/
def SessionEvent.Flows : SessionEvent → Prop
  | .data _ | .stdout _ => True
  | _ => False

/-! ## What is passed on -/

/-- A frame of the server, as it is written. -/
def Frame.encoded (frame : Frame) : Bytes :=
  encodeServerFrame frame.payload frame.opcode

def textFrame (text : Text) : Frame :=
  ⟨1, utf8 text⟩

/-- The payloads of the texts among some frames. -/
def texts (frames : List Frame) : List Bytes :=
  (frames.filter fun frame => frame.opcode = 1).map Frame.payload

/-- The answers to the pings among some frames. -/
def pongs (frames : List Frame) : List Frame :=
  (frames.filter fun frame => frame.opcode = 9).map fun frame => ⟨10, frame.payload⟩

theorem texts_cons (frame : Frame) (frames : List Frame) :
    texts (frame :: frames) =
      (if frame.opcode = 1 then [frame.payload] else []) ++ texts frames := by
  rw [texts, List.filter_cons]
  by_cases isText : frame.opcode = 1 <;> simp [isText, texts]

theorem pongs_cons (frame : Frame) (frames : List Frame) :
    pongs (frame :: frames) =
      (if frame.opcode = 9 then [⟨10, frame.payload⟩] else []) ++ pongs frames := by
  rw [pongs, List.filter_cons]
  by_cases isPing : frame.opcode = 9 <;> simp [isPing, pongs]

theorem texts_append (first second : List Frame) :
    texts (first ++ second) = texts first ++ texts second := by
  rw [texts, List.filter_append, List.map_append, texts, texts]

theorem pongs_append (first second : List Frame) :
    pongs (first ++ second) = pongs first ++ pongs second := by
  rw [pongs, List.filter_append, List.map_append, pongs, pongs]

theorem receiveChunks_cons {buffer chunk rest : Bytes} {chunks : List Bytes} {frames : List Frame}
    (found : receiveChunks buffer (chunk :: chunks) = .ok (frames, rest)) :
    ∃ first left others, decodeClientFrames (buffer ++ chunk) = .ok (first, left) ∧
      receiveChunks left chunks = .ok (others, rest) ∧ frames = first ++ others := by
  rw [receiveChunks, Intake.feed] at found
  cases decoded : frameIntake.drain (buffer ++ chunk) with
  | error message =>
      rw [decoded] at found
      cases found
  | ok drained =>
      rw [decoded] at found
      cases later : frameIntake.feed drained.2 chunks with
      | error message =>
          change Except.map _ (frameIntake.feed drained.2 chunks) = _ at found
          rw [later] at found
          cases found
      | ok fed =>
          change Except.map _ (frameIntake.feed drained.2 chunks) = _ at found
          rw [later] at found
          cases found
          exact ⟨drained.1, drained.2, fed.1, decoded, later, rfl⟩

theorem childInput_append (first second : List SessionCall) :
    childInput (first ++ second) = childInput first ++ childInput second :=
  List.flatMap_append

theorem childInput_frames (frames : List Frame) :
    childInput (frames.flatMap frameCalls) = (texts frames).flatMap inputLine := by
  induction frames with
  | nil => rfl
  | cons frame frames induction =>
      rw [List.flatMap_cons, childInput_append, induction, texts_cons, List.flatMap_append,
        frameCalls]
      split_ifs
      · rfl
      · rfl
      · rfl
      · rfl

theorem transmitted_frames {frames : List Frame} (stays : ∀ frame ∈ frames, frame.opcode ≠ 8)
    (more : List SessionCall) :
    transmitted (frames.flatMap frameCalls ++ more) =
      (pongs frames).flatMap Frame.encoded ++ transmitted more := by
  induction frames with
  | nil => rfl
  | cons frame frames induction =>
      have here := stays frame List.mem_cons_self
      rw [List.flatMap_cons, List.append_assoc, pongs_cons, List.flatMap_append, List.append_assoc,
        ← induction fun other member => stays other (List.mem_cons_of_mem frame member),
        frameCalls]
      split_ifs with isText isPing isPing
      · rw [isText] at isPing
        cases isPing
      · rfl
      · rw [List.flatMap_singleton]
        rfl
      · rfl

theorem transmitted_texts {session : Session} (intact : session.destroyed = false)
    (lines : List Text) (more : List SessionCall) :
    transmitted (lines.flatMap (sendText session) ++ more) =
      (lines.map textFrame).flatMap Frame.encoded ++ transmitted more := by
  induction lines with
  | nil => rfl
  | cons line lines induction =>
      rw [List.flatMap_cons, List.append_assoc, sendText, intact, if_neg (by decide),
        List.singleton_append, transmitted, induction, List.map_cons, List.flatMap_cons,
        List.append_assoc]
      rfl

theorem pong_opcode {frames : List Frame} {frame : Frame} (member : frame ∈ pongs frames) :
    frame.opcode = 10 := by
  rcases List.mem_map.mp member with ⟨ping, -, rfl⟩
  rfl

theorem textFrame_opcode {lines : List Text} {frame : Frame}
    (member : frame ∈ lines.map textFrame) : frame.opcode = 1 := by
  rcases List.mem_map.mp member with ⟨line, -, rfl⟩
  rfl

namespace Session

theorem step_data {session : Session} {chunk left : Bytes} {frames : List Frame}
    (intact : session.destroyed = false)
    (decoded : decodeClientFrames (session.socketBuffer ++ chunk) = .ok (frames, left)) :
    session.step (.data chunk) =
      ({ session with socketBuffer := left }, frames.flatMap frameCalls) := by
  rw [step, receive, intact, if_neg (by decide)]
  dsimp only
  rw [decoded]

theorem childInput_texts (session : Session) (lines : List Text) :
    childInput (lines.flatMap (sendText session)) = [] := by
  induction lines with
  | nil => rfl
  | cons line lines induction =>
      rw [List.flatMap_cons, childInput_append, induction, sendText]
      split <;> rfl

/-- The child reads a line for every text of the browser, whatever it prints meanwhile. -/
theorem feeds_child {events : List SessionEvent} {session : Session} {frames : List Frame}
    {rest : Bytes} (intact : session.destroyed = false) (flows : ∀ event ∈ events, event.Flows)
    (found : receiveChunks session.socketBuffer (received events) = .ok (frames, rest)) :
    childInput (session.run events) = (texts frames).flatMap inputLine := by
  induction events generalizing session frames with
  | nil =>
      cases found
      rfl
  | cons event events induction =>
      have later := fun other member => flows other (List.mem_cons_of_mem event member)
      rw [run, childInput_append]
      cases event with
      | data chunk =>
          rcases receiveChunks_cons found with ⟨first, left, others, decoded, more, rfl⟩
          rw [step_data intact decoded, childInput_frames, texts_append, List.flatMap_append]
          exact congrArg _ (@induction { session with socketBuffer := left } _ intact later more)
      | stdout chunk =>
          rw [step, childInput_texts, List.nil_append]
          exact induction intact later found
      | failed | exited | closed => exact absurd (flows _ List.mem_cons_self) id

/-- What reaches the browser is what the child prints, line by line, merged with the
answers to the browser's pings. -/
theorem answers_browser {events : List SessionEvent} {session : Session} {frames : List Frame}
    {rest : Bytes} (intact : session.destroyed = false) (flows : ∀ event ∈ events, event.Flows)
    (found : receiveChunks session.socketBuffer (received events) = .ok (frames, rest))
    (stays : ∀ frame ∈ frames, frame.opcode ≠ 8) :
    ∃ sent : List Frame, transmitted (session.run events) = sent.flatMap Frame.encoded ∧
      sent.filter (fun frame => frame.opcode = 1) =
        (relay session.lineBuffer (printed events)).map textFrame ∧
      sent.filter (fun frame => frame.opcode ≠ 1) = pongs frames := by
  induction events generalizing session frames with
  | nil =>
      cases found
      exact ⟨[], rfl, rfl, rfl⟩
  | cons event events induction =>
      have later := fun other member => flows other (List.mem_cons_of_mem event member)
      rw [run]
      cases event with
      | data chunk =>
          rcases receiveChunks_cons found with ⟨first, left, others, decoded, more, rfl⟩
          rcases @induction { session with socketBuffer := left } _ intact later more
            (fun frame member => stays frame (List.mem_append_right _ member)) with
            ⟨sent, written, lines, answers⟩
          refine ⟨pongs first ++ sent, ?_, ?_, ?_⟩
          · rw [step_data intact decoded, transmitted_frames fun frame member =>
              stays frame (List.mem_append_left _ member), written, List.flatMap_append]
          · have none : (pongs first).filter (fun frame => frame.opcode = 1) = [] :=
              List.filter_eq_nil_iff.mpr fun frame member => by simp [pong_opcode member]
            rw [List.filter_append, none, lines]
            rfl
          · have all : (pongs first).filter (fun frame => frame.opcode ≠ 1) = pongs first :=
              List.filter_eq_self.mpr fun frame member => by simp [pong_opcode member]
            rw [List.filter_append, all, answers, pongs_append]
      | stdout chunk =>
          rcases @induction { session with lineBuffer := (relayChunk session.lineBuffer chunk).2 } _
            intact later found stays with ⟨sent, written, lines, answers⟩
          refine ⟨(relayChunk session.lineBuffer chunk).1.map textFrame ++ sent, ?_, ?_, ?_⟩
          · rw [step, transmitted_texts intact, written, List.flatMap_append]
          · have all (texts : List Text) :
                (texts.map textFrame).filter (fun frame => frame.opcode = 1) =
                  texts.map textFrame :=
              List.filter_eq_self.mpr fun frame member => by simp [textFrame_opcode member]
            rw [List.filter_append, all, lines, ← List.map_append]
            rfl
          · have none (texts : List Text) :
                (texts.map textFrame).filter (fun frame => frame.opcode ≠ 1) = [] :=
              List.filter_eq_nil_iff.mpr fun frame member => by simp [textFrame_opcode member]
            rw [List.filter_append, none, List.nil_append, answers]
      | failed | exited | closed => exact absurd (flows _ List.mem_cons_self) id

end Session

end CardCode.DevServer
