import CardCode.DevServer.Passage

/-! # What goes over the wire

Whatever happens in a session, and in whatever order, the browser is sent complete frames
of the kinds it knows, and the one that closes the socket is the last.
-/

namespace CardCode.DevServer

open App

/-! ## Lengths -/

theorem readBE_lt (bytes : Bytes) : readBE bytes < 256 ^ bytes.length := by
  induction bytes using List.reverseRecOn with
  | nil => exact Nat.one_pos
  | append_singleton bytes last induction =>
      have bound := last.toNat_lt
      rw [readBE, List.foldl_append, ← readBE, List.length_append, List.length_singleton, pow_succ]
      change readBE bytes * 256 + last.toNat < _
      omega

theorem decodeLength_small {code : UInt8} {buffer rest : Bytes} {length : Nat}
    (takes : decodeLength code buffer = .takes length rest) : length < 2 ^ 53 := by
  rw [decodeLength] at takes
  split_ifs at takes with two _ eight _ large
  · cases takes
    have bound := readBE_lt (buffer.take 2)
    have count : (buffer.take 2).length ≤ 2 := List.length_take_le _ _
    have power := Nat.pow_le_pow_right (by decide : 0 < 256) count
    omega
  · cases takes
    rw [maxSafeInteger] at large
    omega
  · cases takes
    have bound := code.toNat_lt
    omega

theorem decodePayload_small {opcode : UInt8} {masked : Bool} {length : Nat} {buffer rest : Bytes}
    {frame : Frame} (takes : decodePayload opcode masked length buffer = .takes frame rest) :
    frame.payload.length ≤ length := by
  rw [decodePayload] at takes
  dsimp only at takes
  by_cases short : buffer.length < (if masked then 4 else 0) + length
  · rw [if_pos short] at takes
    cases takes
  · rw [if_neg short] at takes
    cases takes
    dsimp only
    split
    · rw [length_applyMask]
      exact List.length_take_le _ _
    · exact List.length_take_le _ _

/-- No payload is longer than its frame says. -/
theorem decodeFrame_small {buffer rest : Bytes} {frame : Frame}
    (takes : decodeFrame buffer = .takes frame rest) : frame.payload.length < 2 ^ 53 := by
  unfold decodeFrame at takes
  split at takes
  next first second buffer =>
    split at takes
    next => cases takes
    next => cases takes
    next length left found =>
      exact Nat.lt_of_le_of_lt (decodePayload_small takes) (decodeLength_small found)
  next => cases takes

theorem decodeClientFrames_small {buffer rest : Bytes} {frames : List Frame}
    (decoded : decodeClientFrames buffer = .ok (frames, rest)) :
    ∀ frame ∈ frames, frame.payload.length < 2 ^ 53 := by
  intro frame member
  rcases Intake.drain_taken decoded frame member with ⟨front, back, takes⟩
  exact decodeFrame_small takes

/-- The one error of the decoder. -/
theorem decodeClientFrames_error {buffer : Bytes} {message : String}
    (failed : decodeClientFrames buffer = .error message) :
    message = "websocket frame too large" := by
  rcases Intake.drain_failed failed with ⟨front, fails⟩
  change decodeFrame front = .fails message at fails
  unfold decodeFrame at fails
  split at fails
  next first second rest =>
    split at fails
    next => cases fails
    next error found =>
      cases fails
      rw [decodeLength] at found
      split_ifs at found
      cases found
      rfl
    next => exact absurd fails decodePayload_fails
  next => cases fails

theorem nextByte_length (state : Option Begun) (byte : UInt8) :
    (nextByte state byte).1.length + (nextByte state byte).2.toList.length ≤
      state.toList.length + 1 := by
  have first : (firstByte byte).1.length + (firstByte byte).2.toList.length ≤ 1 := by
    dsimp only [firstByte]
    split_ifs <;> exact Nat.le_refl _
  cases state with
  | none => exact Nat.le_trans first (Nat.le_add_left _ _)
  | some begun =>
      dsimp only [nextByte]
      split_ifs
      · exact Nat.le_succ _
      · exact Nat.le_succ _
      · change (firstByte byte).1.length + 1 + (firstByte byte).2.toList.length ≤ 1 + 1
        omega

theorem decodeFrom_length (state : Option Begun) (bytes : Bytes) :
    (decodeFrom state bytes).length ≤ state.toList.length + bytes.length := by
  induction bytes generalizing state with
  | nil => cases state <;> exact Nat.le_refl _
  | cons byte rest induction =>
      have here := nextByte_length state byte
      have later := induction (nextByte state byte).2
      rw [decodeFrom, List.length_append, List.length_cons]
      omega

theorem utf8_length (text : Text) : (utf8 text).length ≤ 4 * text.length := by
  induction text with
  | nil => exact Nat.le_refl _
  | cons c rest induction =>
      have width : (String.utf8EncodeChar c).length ≤ 4 := by
        rw [String.length_utf8EncodeChar]
        exact c.utf8Size_le_four
      rw [utf8_cons, List.length_append, List.length_cons]
      omega

theorem prependTo_length {c : Char} {lines : List Text} {bound : Nat}
    (each : ∀ line ∈ lines, line.length ≤ bound) :
    ∀ line ∈ prependTo c lines, line.length ≤ bound + 1 := by
  cases lines with
  | nil => exact List.forall_mem_singleton.mpr (Nat.le_add_left _ _)
  | cons first lines =>
      rcases List.forall_mem_cons.mp each with ⟨head, others⟩
      refine List.forall_mem_cons.mpr ⟨Nat.succ_le_succ head, ?_⟩
      exact fun line member => Nat.le_succ_of_le (others line member)

theorem splitLines_length (text : Text) : ∀ line ∈ splitLines text, line.length ≤ text.length := by
  induction text with
  | nil => exact List.forall_mem_singleton.mpr (Nat.le_refl _)
  | cons c rest induction =>
      have later : ∀ line ∈ splitLines rest, line.length ≤ (c :: rest).length :=
        fun line member => Nat.le_succ_of_le (induction line member)
      rw [splitLines]
      split_ifs
      · exact List.forall_mem_cons.mpr ⟨Nat.zero_le _, later⟩
      · exact later
      · exact prependTo_length induction

/-! ## Sizes of a session -/

/-- How much a session can come to hold because of an event. -/
def SessionEvent.size : SessionEvent → Nat
  | .stdout chunk => chunk.length
  | .failed message => message.length
  | _ => 0

def heldSize (events : List SessionEvent) : Nat :=
  (events.map SessionEvent.size).sum

theorem relayChunk_length (lineBuffer : Text) (chunk : Bytes) :
    (∀ line ∈ (relayChunk lineBuffer chunk).1, line.length ≤ lineBuffer.length + chunk.length) ∧
      (relayChunk lineBuffer chunk).2.length ≤ lineBuffer.length + chunk.length := by
  have decoded : (decodeUtf8 chunk).length ≤ chunk.length := by
    have bound := decodeFrom_length none chunk
    rwa [Option.toList_none, List.length_nil, Nat.zero_add] at bound
  have each : ∀ line ∈ splitLines (lineBuffer ++ decodeUtf8 chunk),
      line.length ≤ lineBuffer.length + chunk.length := by
    intro line member
    have bound := splitLines_length _ line member
    rw [List.length_append] at bound
    omega
  constructor
  · intro line member
    exact each line ((List.dropLast_sublist _).subset (List.mem_filter.mp member).1)
  · rw [relayChunk]
    dsimp only
    cases last : (splitLines (lineBuffer ++ decodeUtf8 chunk)).getLast? with
    | none => exact Nat.zero_le _
    | some line => exact each line (List.mem_of_getLast? last)

theorem quoteChar_length (c : Char) : (quoteChar c).length ≤ 6 := by
  rw [quoteChar]
  split
  · exact (by decide : 2 ≤ 6)
  · split
    · exact Nat.le_refl _
    · exact (by decide : 1 ≤ 6)

theorem quoted_length (text : Text) : (text.flatMap quoteChar).length ≤ 6 * text.length := by
  induction text with
  | nil => exact Nat.le_refl _
  | cons c rest induction =>
      have first := quoteChar_length c
      rw [List.flatMap_cons, List.length_append, List.length_cons]
      omega

theorem errorText_length (message : Text) :
    (utf8 (errorText message)).length ≤ 24 * message.length + 200 := by
  have text : errorText message = "\x7b\"type\":\"error\",\"message\":\"".toList ++
      (message.flatMap quoteChar ++ "\"\x7d".toList) := by
    rw [errorText, Json.stringify]
    change '{' :: (quote "type".toList ++ ':' :: quote "error".toList ++
      ',' :: (quote "message".toList ++ ':' :: quote message) ++ ['}']) = _
    have kind : quote "type".toList ++ ':' :: quote "error".toList =
        "\"type\":\"error\"".toList := by
      decide +kernel
    have name : quote "message".toList = "\"message\"".toList := by
      decide +kernel
    rw [kind, name]
    simp [quote]
  have around : (errorText message).length = (message.flatMap quoteChar).length + 29 := by
    rw [text, List.length_append, List.length_append]
    change 27 + ((message.flatMap quoteChar).length + 2) = _
    omega
  have quoted := quoted_length message
  have wide := utf8_length (errorText message)
  omega

/-! ## Calls -/

/-- What is written is a text or the answer to a ping, and what ends the socket closes it. -/
def SessionCall.Framed : SessionCall → Prop
  | .write bytes => ∃ frame : Frame, bytes = frame.encoded ∧
      (frame.opcode = 1 ∨ frame.opcode = 10) ∧ frame.payload.length < 2 ^ 53
  | .finish bytes => bytes = closeFrame
  | _ => True

theorem sendText_framed {session : Session} {text : Text} (short : (utf8 text).length < 2 ^ 53) :
    ∀ call ∈ sendText session text, call.Framed := by
  rw [sendText]
  split
  · exact List.forall_mem_nil _
  · exact List.forall_mem_singleton.mpr ⟨textFrame text, rfl, .inl rfl, short⟩

theorem frameCalls_framed {frame : Frame} (small : frame.payload.length < 2 ^ 53) :
    ∀ call ∈ frameCalls frame, call.Framed := by
  rw [frameCalls]
  split_ifs
  · exact List.forall_mem_singleton.mpr trivial
  · exact List.forall_mem_singleton.mpr rfl
  · exact List.forall_mem_singleton.mpr ⟨⟨10, frame.payload⟩, rfl, .inr rfl, small⟩
  · exact List.forall_mem_nil _

theorem receive_framed (session : Session) (chunk : Bytes) :
    ∀ call ∈ (session.receive chunk).2, call.Framed := by
  rw [Session.receive]
  split
  · exact List.forall_mem_nil _
  · dsimp only
    split
    next message failed =>
      rw [decodeClientFrames_error failed]
      refine List.forall_mem_append.mpr ⟨sendText_framed ?_, List.forall_mem_singleton.mpr trivial⟩
      exact Nat.lt_of_le_of_lt (errorText_length _) (by decide)
    next decoded found =>
      intro call member
      rcases List.mem_flatMap.mp member with ⟨frame, inside, called⟩
      exact frameCalls_framed (decodeClientFrames_small found frame inside) call called

theorem receive_lineBuffer (session : Session) (chunk : Bytes) :
    (session.receive chunk).1.lineBuffer = session.lineBuffer := by
  rw [Session.receive]
  split
  · rfl
  · dsimp only
    split <;> rfl

/-- Every call of a session is framed, as long as it has not come to hold more than a
frame can. -/
theorem run_framed {events : List SessionEvent} {session : Session}
    (small : session.lineBuffer.length + heldSize events < 2 ^ 48) :
    ∀ call ∈ session.run events, call.Framed := by
  induction events generalizing session with
  | nil => exact nofun
  | cons event events induction =>
      rw [heldSize, List.map_cons, List.sum_cons, ← heldSize] at small
      rw [Session.run]
      cases event with
      | data chunk =>
          refine List.forall_mem_append.mpr ⟨receive_framed session chunk, induction ?_⟩
          change (session.receive chunk).1.lineBuffer.length + heldSize events < 2 ^ 48
          rw [receive_lineBuffer]
          change session.lineBuffer.length + (0 + heldSize events) < 2 ^ 48 at small
          omega
      | stdout chunk =>
          rcases relayChunk_length session.lineBuffer chunk with ⟨lines, left⟩
          change session.lineBuffer.length + (chunk.length + heldSize events) < 2 ^ 48 at small
          refine List.forall_mem_append.mpr ⟨?_, induction ?_⟩
          · intro call member
            rcases List.mem_flatMap.mp member with ⟨line, inside, called⟩
            refine sendText_framed ?_ call called
            have wide := utf8_length line
            have short := lines line inside
            omega
          · change (relayChunk session.lineBuffer chunk).2.length + heldSize events < 2 ^ 48
            omega
      | failed message =>
          change session.lineBuffer.length + (message.length + heldSize events) < 2 ^ 48 at small
          refine List.forall_mem_append.mpr ⟨List.forall_mem_append.mpr
            ⟨sendText_framed ?_, List.forall_mem_singleton.mpr rfl⟩, induction ?_⟩
          · have bound := errorText_length ("mock harness failed: ".toList ++ message)
            rw [List.length_append] at bound
            have named : "mock harness failed: ".toList.length = 21 := by decide
            omega
          · change session.lineBuffer.length + heldSize events < 2 ^ 48
            omega
      | exited =>
          refine List.forall_mem_append.mpr ⟨List.forall_mem_singleton.mpr rfl, induction ?_⟩
          change session.lineBuffer.length + heldSize events < 2 ^ 48
          omega
      | closed =>
          refine List.forall_mem_append.mpr ⟨List.forall_mem_singleton.mpr trivial, induction ?_⟩
          change session.lineBuffer.length + heldSize events < 2 ^ 48
          omega

/-! ## The wire -/

/-- Framed calls make frames, and after the one that closes nothing is sent. -/
theorem transmitted_framed {calls : List SessionCall} (framed : ∀ call ∈ calls, call.Framed) :
    ∃ frames closing, transmitted calls = (frames ++ closing).flatMap Frame.encoded ∧
      (∀ frame ∈ frames, (frame.opcode = 1 ∨ frame.opcode = 10) ∧
        frame.payload.length < 2 ^ 53) ∧ (closing = [] ∨ closing = [⟨8, []⟩]) := by
  induction calls with
  | nil => exact ⟨[], [], rfl, nofun, .inl rfl⟩
  | cons call calls induction =>
      rcases List.forall_mem_cons.mp framed with ⟨here, others⟩
      rcases induction others with ⟨frames, closing, written, kinds, closes⟩
      cases call with
      | write bytes =>
          rcases here with ⟨frame, rfl, kind, small⟩
          refine ⟨frame :: frames, closing, ?_, ?_, closes⟩
          · rw [transmitted, written, List.cons_append, List.flatMap_cons]
          · exact List.forall_mem_cons.mpr ⟨⟨kind, small⟩, kinds⟩
      | finish bytes =>
          refine ⟨[], [⟨8, []⟩], ?_, nofun, .inr rfl⟩
          rw [transmitted, here, List.nil_append, List.flatMap_singleton]
          rfl
      | destroy => exact ⟨[], [], rfl, nofun, .inl rfl⟩
      | input | kill => exact ⟨frames, closing, written, kinds, closes⟩

/-- What the server sends is always read as texts and answers to pings, with at most one
closing frame at the end. -/
theorem session_framed {events : List SessionEvent} (small : heldSize events < 2 ^ 48) :
    ∃ frames closing,
      decodeClientFrames (transmitted (Session.run {} events)) = .ok (frames ++ closing, []) ∧
      (∀ frame ∈ frames, frame.opcode = 1 ∨ frame.opcode = 10) ∧
      (closing = [] ∨ closing = [⟨8, []⟩]) := by
  have framed : ∀ call ∈ Session.run {} events, call.Framed := by
    apply run_framed
    change 0 + heldSize events < 2 ^ 48
    omega
  rcases transmitted_framed framed with ⟨frames, closing, written, kinds, closes⟩
  refine ⟨frames, closing, ?_, fun frame member => (kinds frame member).1, closes⟩
  rw [written]
  apply encoded_received
  intro frame member
  rcases List.mem_append.mp member with inside | last
  · refine ⟨?_, (kinds frame inside).2⟩
    rcases (kinds frame inside).1 with isText | isPong
    · rw [isText]
      decide
    · rw [isPong]
      decide
  · rcases closes with rfl | rfl
    · cases last
    · rw [List.mem_singleton.mp last]
      exact ⟨by decide, by decide⟩

/-- A ping and a close frame in one chunk, and a line of the harness behind them. -/
theorem closing_framed :
    ∃ frames closing, decodeClientFrames (transmitted (Session.run {}
        [.data [0x89, 0x80, 0, 0, 0, 0, 0x88, 0x80, 0, 0, 0, 0], .stdout (bytes "late\n"),
          .exited, .closed])) = .ok (frames ++ closing, []) ∧
      (∀ frame ∈ frames, frame.opcode = 1 ∨ frame.opcode = 10) ∧
      (closing = [] ∨ closing = [⟨8, []⟩]) :=
  session_framed (by decide)

end CardCode.DevServer
