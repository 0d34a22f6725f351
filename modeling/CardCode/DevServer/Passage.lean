import CardCode.DevServer.Session
import CardCode.Harness.Framing

/-! # From the client to the bridge and back

Requests pass through the browser's frames, the server's buffer and the child's input, and
messages through lines, chunks and frames. However all of it is cut and interleaved, the
bridge handles what the client asked for, and the browser gets what the bridge has sent.
-/

namespace CardCode.DevServer

open App Harness

/-! ## Requests -/

/-- What `run_stdio` makes of the lines it is given, each of them ended. -/
def handledLines (strtod : Bytes → Rat) (beyond : Rat → Int64) (input : Bytes) : List Control :=
  ((lines input).filter fun line => !line.isEmpty).map fun line =>
    handle beyond (jsonParse strtod line)

/-- Frames that are cut into chunks arrive. -/
theorem received_sent {sent : List SentFrame} {chunks : List Bytes}
    (cut : chunks.flatten = sent.flatMap SentFrame.write) :
    receiveChunks [] chunks = .ok (sent.map SentFrame.frame, []) := by
  have settled : frameIntake.drain [] = .ok ([], []) := Intake.drain_waits rfl
  rw [receiveChunks, Intake.feed_eq chunks settled, List.nil_append, cut]
  exact decodeClientFrames_write sent

theorem request_line {strtod : Bytes → Rat} {request : Request}
    (travels : request.Travels strtod) :
    Harness.newline ∉ utf8 request.text ∧ (utf8 request.text).isEmpty = false := by
  constructor
  · intro member
    have ended := newline_encoded.mp member
    exact absurd ((request.json_travels travels).solid '\n' ended) (by decide)
  · cases request <;> rfl

theorem inputLine_utf8 (text : Text) : inputLine (utf8 text) = utf8 text ++ [Harness.newline] := by
  have same : decodeUtf8 (utf8 text) = text := decodeUtf8_encoded text
  rw [inputLine, same]
  rfl

/-- Every request of the client is handled by the bridge as what it asks for when it
arrives, in order, whatever else the browser and the child send and however the chunks are
cut. A number arrives as it was sent exactly where it is an integer of 32 bits. -/
theorem requests_arrive {strtod : Bytes → Rat} {beyond : Rat → Int64}
    {requests : List Request} {sent : List SentFrame} {events : List SessionEvent}
    (travel : ∀ request ∈ requests, request.Travels strtod)
    (asked : texts (sent.map SentFrame.frame) = requests.map fun request => utf8 request.text)
    (cut : (received events).flatten = sent.flatMap SentFrame.write)
    (flows : ∀ event ∈ events, event.Flows) :
    handledLines strtod beyond (childInput (Session.run {} events)) =
      requests.map (fun request => (request.wish beyond).control) ∧
    ∀ number : Number,
      ((((Json.number number).distance beyond).toInt : Rat) = number.value ↔
        ∃ whole : Int, number.value = whole ∧ -2 ^ 31 ≤ whole ∧ whole < 2 ^ 31) ∧
      ((((Json.number number).limit beyond).toNat : Rat) = number.value ↔
        ∃ whole : Nat, number.value = whole ∧ whole < 2 ^ 32) := by
  refine ⟨?_, fun number => ⟨distance_kept_iff beyond number, limit_kept_iff beyond number⟩⟩
  have input := @Session.feeds_child events {} _ _ rfl flows (received_sent cut)
  have single : ∀ line ∈ requests.map fun request => utf8 request.text, Harness.newline ∉ line :=
    List.forall_mem_map.mpr fun request member => (request_line (travel request member)).1
  have solid : ∀ line ∈ requests.map fun request => utf8 request.text, (!line.isEmpty) = true :=
    List.forall_mem_map.mpr fun request member => by
      rw [(request_line (travel request member)).2]
      rfl
  have each : (requests.map fun request => utf8 request.text).flatMap inputLine =
      (requests.map fun request => utf8 request.text).flatMap
        fun line => line ++ [Harness.newline] := by
    rw [List.flatMap_map, List.flatMap_map]
    exact List.flatMap_congr fun request _ => inputLine_utf8 request.text
  rw [handledLines, input, asked, each, lines_sent single, List.filter_eq_self.mpr solid,
    List.map_map]
  exact List.map_congr_left fun request member => Request.understood (travel request member)

/-! ## Messages -/

/-- The server's frames are read as they are meant. -/
theorem encoded_received {frames : List Frame}
    (kinds : ∀ frame ∈ frames, frame.opcode < 16 ∧ frame.payload.length < 2 ^ 53) :
    decodeClientFrames (frames.flatMap Frame.encoded) = .ok (frames, []) := by
  have taken : ∀ frame ∈ frames, ∀ rest,
      frameIntake.take (frame.encoded ++ rest) = .takes (id frame) rest := by
    intro frame member rest
    rcases encodeServerFrame_sent (kinds frame member).1 (kinds frame member).2 with
      ⟨sent, written, same⟩
    rw [Frame.encoded, written, id, ← show sent.frame = frame from same]
    exact decodeFrame_write sent rest
  have waits : frameIntake.take [] = .waits := rfl
  have drained := Intake.drain_written taken waits
  rw [List.append_nil, List.map_id] at drained
  exact drained

/-- A line without control characters stands by itself. -/
theorem splitLines_line {line : Text} (solid : ∀ c ∈ line, 32 ≤ c.toNat) (rest : Text) :
    splitLines (line ++ '\n' :: rest) = line :: splitLines rest := by
  induction line with
  | nil => rw [List.nil_append, splitLines, if_pos rfl]
  | cons c line induction =>
      rcases List.forall_mem_cons.mp solid with ⟨first, others⟩
      have feed : c ≠ '\n' := by
        rintro rfl
        exact absurd first (by decide)
      have carriage : c ≠ '\r' := by
        rintro rfl
        exact absurd first (by decide)
      rw [List.cons_append, splitLines, if_neg feed, if_neg fun both => carriage both.1,
        induction others, prependTo]

theorem solid_of_printable {text : Text} (printable : Printable (utf8 text)) :
    ∀ c ∈ text, 32 ≤ c.toNat := by
  intro c member
  by_contra low
  have ascii : c.toNat < 128 := by omega
  have inside : UInt8.ofNat c.toNat ∈ utf8 text :=
    List.mem_flatMap.mpr ⟨c, member, by rw [ascii_encoded ascii]; exact List.mem_singleton_self _⟩
  have high := UInt8.le_iff_toNat_le.mp (printable _ inside)
  rw [UInt8.toNat_ofNat', Nat.mod_eq_of_lt (Nat.lt_trans ascii (by decide))] at high
  exact low high

theorem endedLines_line {line : Text} (solid : ∀ c ∈ line, 32 ≤ c.toNat) (some : line ≠ [])
    (rest : Text) : endedLines (line ++ '\n' :: rest) = line :: endedLines rest := by
  rw [endedLines, splitLines_line solid, List.dropLast_cons_of_ne_nil (splitLines_ne_nil rest),
    List.filter_cons_of_pos (by simpa using List.length_pos_iff.mpr some), endedLines]

/-- Printable texts, each on a line of its own, are the lines of the whole. -/
theorem endedLines_printed {texts : List Bytes} (printable : ∀ text ∈ texts, Printable text)
    (some : ∀ text ∈ texts, text ≠ []) {whole : Text}
    (written : utf8 whole = texts.flatMap fun text => text ++ [Harness.newline]) :
    (endedLines whole).map utf8 = texts := by
  induction texts generalizing whole with
  | nil =>
      have empty : whole = [] := utf8_injective written
      rw [empty]
      rfl
  | cons text texts induction =>
      rcases List.forall_mem_cons.mp printable with ⟨solid, others⟩
      rcases List.forall_mem_cons.mp some with ⟨first, more⟩
      rw [List.flatMap_cons, List.append_assoc, List.singleton_append] at written
      have valid : ValidUtf8 (text ++ Harness.newline :: texts.flatMap fun text =>
          text ++ [Harness.newline]) :=
        ⟨whole, written.symm⟩
      rcases (ValidUtf8.append_cons_iff (by decide)).mp valid with ⟨⟨line, rfl⟩, ⟨rest, behind⟩⟩
      have split : whole = line ++ '\n' :: rest := by
        apply utf8_injective
        rw [written, behind, utf8_append, utf8_cons]
        rfl
      have nonempty : line ≠ [] := by
        rintro rfl
        exact first rfl
      rw [split, endedLines_line (solid_of_printable solid) nonempty, List.map_cons,
        induction others more behind.symm]
      rfl

/-- Chunks that break no character are decoded as what they are together. -/
theorem decoded_chunks {chunks : List Bytes} (whole : ∀ chunk ∈ chunks, ValidUtf8 chunk) :
    utf8 (chunks.flatMap decodeUtf8) = chunks.flatten := by
  induction chunks with
  | nil => rfl
  | cons chunk chunks induction =>
      rcases List.forall_mem_cons.mp whole with ⟨⟨text, rfl⟩, others⟩
      rw [List.flatMap_cons, utf8_append, induction others, decodeUtf8_encoded, List.flatten_cons]
      rfl

theorem messageText_nonempty (message : HostMessage) : messageText message ≠ [] := by
  cases message <;> exact List.cons_ne_nil _ _

theorem pong_small {sent : List SentFrame} {frame : Frame}
    (member : frame ∈ pongs (sent.map SentFrame.frame)) : frame.payload.length < 2 ^ 53 := by
  rcases List.mem_map.mp member with ⟨ping, inside, rfl⟩
  rcases List.mem_map.mp (List.mem_filter.mp inside).1 with ⟨source, -, rfl⟩
  exact source.small

/-- The browser gets every message the harness sends, in order, and an answer to each of
its pings, whatever it sends meanwhile and however the chunks are cut between characters. -/
theorem messages_arrive {messages : List HostMessage} {sent : List SentFrame}
    {events : List SessionEvent}
    (output : (printed events).flatten = messages.flatMap emitLine)
    (whole : ∀ chunk ∈ printed events, ValidUtf8 chunk)
    (short : ∀ message ∈ messages, (messageText message).length < 2 ^ 53)
    (cut : (received events).flatten = sent.flatMap SentFrame.write)
    (stays : ∀ frame ∈ sent, frame.frame.opcode ≠ 8)
    (flows : ∀ event ∈ events, event.Flows) :
    ∃ frames, decodeClientFrames (transmitted (Session.run {} events)) = .ok (frames, []) ∧
      texts frames = messages.map messageText ∧
      frames.filter (fun frame => frame.opcode ≠ 1) = pongs (sent.map SentFrame.frame) := by
  rcases @Session.answers_browser events {} _ _ rfl flows (received_sent cut)
    (List.forall_mem_map.mpr stays) with ⟨frames, written, lines, answers⟩
  have relayed : texts frames = messages.map messageText := by
    have printable : ∀ text ∈ messages.map messageText, Printable text :=
      List.forall_mem_map.mpr fun message _ => messageText_printable message
    have some : ∀ text ∈ messages.map messageText, text ≠ [] :=
      List.forall_mem_map.mpr fun message _ => messageText_nonempty message
    have text := decoded_chunks whole
    rw [output] at text
    rw [texts, lines, List.map_map, relay_eq _ List.not_mem_nil, List.nil_append]
    apply endedLines_printed printable some
    rw [text, List.flatMap_map]
    rfl
  refine ⟨frames, ?_, relayed, answers⟩
  rw [written]
  apply encoded_received
  intro frame member
  by_cases isText : frame.opcode = 1
  · have inside : frame.payload ∈ texts frames :=
      List.mem_map_of_mem (List.mem_filter.mpr ⟨member, decide_eq_true isText⟩)
    rw [relayed] at inside
    rcases List.mem_map.mp inside with ⟨message, sends, same⟩
    exact ⟨by rw [isText]; decide, same ▸ short message sends⟩
  · have inside : frame ∈ pongs (sent.map SentFrame.frame) := by
      rw [← answers]
      exact List.mem_filter.mpr ⟨member, decide_eq_true isText⟩
    exact ⟨by rw [pong_opcode inside]; decide, pong_small inside⟩

/-! ## A program that is compiled and run -/

/-- The frame a browser sends a request in. -/
def requestFrame (request : Request) (short : (utf8 request.text).length < 126) : SentFrame where
  flags := 8
  opcode := 1
  mask := some ⟨[0x12, 0x34, 0x56, 0x78], rfl⟩
  payload := utf8 request.text
  form := .seven
  small := Nat.lt_trans short (by decide)
  holds := short

def emptyPing : SentFrame where
  flags := 8
  opcode := 9
  mask := none
  payload := []
  form := .seven
  small := by decide
  holds := by unfold LengthForm.Holds; decide

def compileBeep : Request :=
  .compile "(beep)\n".toList

/-- A run under a limit of its own. -/
def runBeep : Request :=
  .run "(beep)\n".toList (some (.object [("maxTotalSteps".toList, .number ⟨20, "20".toList⟩)]))

/-- A distance that is too large for 32 bits. -/
def setFar : Request :=
  .setSensor "distance-cm".toList (.number ⟨3000000000, "3000000000".toList⟩)

def beepFrames : List SentFrame :=
  [requestFrame compileBeep (by decide +kernel), requestFrame setFar (by decide +kernel),
    emptyPing, requestFrame runBeep (by decide +kernel)]

/-- What the harness answers is printed while the frames arrive. -/
def beepEvents : List SessionEvent :=
  [.data ((beepFrames.flatMap SentFrame.write).take 50), .stdout (bytes "\x7b\x7d"),
    .data ((beepFrames.flatMap SentFrame.write).drop 50)]

theorem beep_travels : ∀ request ∈ [compileBeep, setFar, runBeep], request.Travels readDecimal := by
  have twenty : Number.Travels readDecimal ⟨20, "20".toList⟩ :=
    ⟨nofun, List.all_eq_true.mp rfl, readDecimal_exact 20 (by decide)⟩
  have far : Number.Travels readDecimal ⟨3000000000, "3000000000".toList⟩ :=
    ⟨nofun, List.all_eq_true.mp rfl, readDecimal_exact 3000000000 (by decide)⟩
  refine List.forall_mem_cons.mpr ⟨trivial, List.forall_mem_cons.mpr ⟨.number far, ?_⟩⟩
  exact List.forall_mem_singleton.mpr
    (.object (by decide) (List.forall_mem_singleton.mpr (.number twenty)))

theorem beep_arrives :
    handledLines readDecimal (fun _ => 0) (childInput (Session.run {} beepEvents)) =
      [.compiles (bytes "(beep)\n"), .stores [.distanceCm (-1294967296)],
        .exchanges ⟨bytes "(beep)\n", { maxTotalSteps := 20 }⟩] := by
  have flows : ∀ event ∈ beepEvents, event.Flows := by
    intro event member
    simp only [beepEvents, List.mem_cons, List.not_mem_nil, or_false] at member
    rcases member with rfl | rfl | rfl <;> trivial
  have arrived := @requests_arrive readDecimal (fun _ => 0) [compileBeep, setFar, runBeep]
    beepFrames beepEvents beep_travels (by decide +kernel) (by decide +kernel) flows
  exact arrived.1

/-- A message that is printed in two pieces around a ping. -/
def startEvents : List SessionEvent :=
  [.stdout ((emitLine .programStart).take 5), .data emptyPing.write,
    .stdout ((emitLine .programStart).drop 5)]

theorem start_arrives :
    ∃ frames, decodeClientFrames (transmitted (Session.run {} startEvents)) = .ok (frames, []) ∧
      texts frames = [messageText .programStart] ∧
      frames.filter (fun frame => frame.opcode ≠ 1) = pongs [⟨9, []⟩] := by
  have flows : ∀ event ∈ startEvents, event.Flows := by
    intro event member
    simp only [startEvents, List.mem_cons, List.not_mem_nil, or_false] at member
    rcases member with rfl | rfl | rfl <;> trivial
  have whole : ∀ chunk ∈ printed startEvents, ValidUtf8 chunk := by
    intro chunk member
    have chunks : chunk = (emitLine .programStart).take 5 ∨
        chunk = (emitLine .programStart).drop 5 := by
      simpa [printed, startEvents] using member
    rcases chunks with rfl | rfl
    · exact .of_ascii_all (by decide +kernel)
    · exact .of_ascii_all (by decide +kernel)
  exact @messages_arrive [.programStart] [emptyPing] startEvents (by decide +kernel) whole
    (List.forall_mem_singleton.mpr (by decide +kernel)) (by decide +kernel)
    (List.forall_mem_singleton.mpr (by decide)) flows

end CardCode.DevServer
