import CardCode.Foundation.Intake
import CardCode.Harness.JsonRoundTrip
import CardCode.Harness.ProtocolBridge

/-! # One message a line (`harness/main.cpp`)

Messages leave as lines, and requests arrive as lines, in whatever pieces the socket
delivers them.
-/

namespace CardCode.Harness

def newline : UInt8 :=
  byte '\n'

/-! ## The model -/

/-- `emit` of `serve_client` and of `run_stdio`. -/
def emitLine (message : HostMessage) : Bytes :=
  messageText message ++ [newline]

/-- A line before those handled after it. -/
def handleLine (line : Bytes) (handled : List Bytes) : List Bytes :=
  if line.isEmpty then handled else line :: handled

/-- The inner loop of `serve_client`: the lines it hands to `handle`, and what is
left of `buf`. -/
def handleLines (buf : Bytes) : List Bytes × Bytes :=
  match _found : buf.findIdx? (· = newline) with
  | none => ([], buf)
  | some pos =>
      (handleLines (buf.drop (pos + 1))).map (handleLine (buf.take pos)) id
termination_by buf.length
decreasing_by
  have inside := (List.findIdx?_eq_some_iff_findIdx_eq.mp _found).1
  rw [List.length_drop]
  omega

/-- The outer loop of `serve_client`, over what each `read` delivers. -/
def serveClient : Bytes → List Bytes → List Bytes
  | _, [] => []
  | buf, chunk :: reads =>
      let handled := handleLines (buf ++ chunk)
      handled.1 ++ serveClient handled.2 reads

/-! ## Lines of a stream -/

/-- The lines of a stream that a newline ends. -/
def lines (stream : Bytes) : List Bytes :=
  (stream.splitOn newline).dropLast

theorem lines_unended {rest : Bytes} (unended : newline ∉ rest) : lines rest = [] := by
  rw [lines, List.splitOn_eq_singleton unended]
  rfl

theorem lines_cons {line : Bytes} (single : newline ∉ line) (stream : Bytes) :
    lines (line ++ newline :: stream) = line :: lines stream := by
  rw [lines, List.splitOn_append_cons_self_of_not_mem single,
    List.dropLast_cons_of_ne_nil (List.splitOn_ne_nil newline stream), lines]

/-- Lines that are sent one after another arrive as these lines. -/
theorem lines_sent {sent : List Bytes} (single : ∀ line ∈ sent, newline ∉ line) :
    lines (sent.flatMap fun line => line ++ [newline]) = sent := by
  induction sent with
  | nil => exact lines_unended List.not_mem_nil
  | cons line sent induction =>
      rw [List.flatMap_cons, List.append_assoc, List.singleton_append,
        lines_cons (single line List.mem_cons_self),
        induction fun other member => single other (List.mem_cons_of_mem line member)]

/-! ## Requests -/

/-- Off the front of what has arrived comes a line, once its newline is there. -/
def takeLine (buf : Bytes) : Taken Empty UInt8 Bytes :=
  match buf.findIdx? (· = newline) with
  | none => .waits
  | some pos => .takes (buf.take pos) (buf.drop (pos + 1))

theorem takeLine_waits {buf : Bytes} (unended : newline ∉ buf) : takeLine buf = .waits := by
  have absent : buf.findIdx? (· = newline) = none := by
    rw [List.findIdx?_eq_none_iff]
    intro c member
    exact decide_eq_false fun equal => unended (equal ▸ member)
  rw [takeLine, absent]

theorem takeLine_takes {line : Bytes} (single : newline ∉ line) (rest : Bytes) :
    takeLine (line ++ newline :: rest) = .takes line rest := by
  have found : (line ++ newline :: rest).findIdx? (· = newline) = some line.length := by
    rw [List.findIdx?_append, List.findIdx?_eq_none_iff.mpr]
    · simp [List.findIdx?_cons]
    · intro c member
      exact decide_eq_false fun equal => single (equal ▸ member)
  rw [takeLine, found]
  simp

/-- What is taken is a line, and it stood in front of its newline. -/
theorem takeLine_eq {buf line rest : Bytes} (takes : takeLine buf = .takes line rest) :
    newline ∉ line ∧ buf = line ++ newline :: rest := by
  by_cases ended : newline ∈ buf
  · rcases List.eq_append_cons_of_mem ended with ⟨first, left, equal, single⟩
    rw [equal, takeLine_takes single] at takes
    cases takes
    exact ⟨single, equal⟩
  · rw [takeLine_waits ended] at takes
    cases takes

def lineIntake : Intake Empty UInt8 Bytes where
  take := takeLine
  shrinks := by
    intro buf line rest takes
    rw [(takeLine_eq takes).2, List.length_append, List.length_cons]
    omega
  takes_more := by
    intro buf line rest takes more
    rcases takeLine_eq takes with ⟨single, equal⟩
    rw [equal, List.append_assoc, List.cons_append, takeLine_takes single]
  fails_more := nofun

theorem drain_lines (buf : Bytes) : ∃ rest, lineIntake.drain buf = .ok (lines buf, rest) := by
  fun_induction lineIntake.drain buf with
  | case1 buf waits =>
      have unended : newline ∉ buf := by
        intro ended
        rcases List.eq_append_cons_of_mem ended with ⟨first, left, equal, single⟩
        have takes := takeLine_takes single left
        rw [← equal] at takes
        cases takes.symm.trans waits
      rw [lines_unended unended]
      exact ⟨buf, rfl⟩
  | case2 _ error => cases error
  | case3 buf line left takes induction =>
      rcases induction with ⟨rest, drained⟩
      rcases takeLine_eq takes with ⟨single, equal⟩
      rw [drained, equal, lines_cons single]
      exact ⟨rest, rfl⟩

/-- The inner loop drains the buffer of its lines and drops the empty ones. -/
theorem handleLines_eq {buf rest : Bytes} {found : List Bytes}
    (drained : lineIntake.drain buf = .ok (found, rest)) :
    handleLines buf = (found.filter (!·.isEmpty), rest) := by
  fun_induction handleLines buf generalizing found with
  | case1 buf absent =>
      have waits : lineIntake.take buf = .waits := by
        change takeLine buf = _
        rw [takeLine, absent]
      rw [Intake.drain_waits waits] at drained
      cases drained
      rfl
  | case2 buf pos present induction =>
      have takes : lineIntake.take buf =
          .takes (buf.take pos) (buf.drop (pos + 1)) := by
        change takeLine buf = _
        rw [takeLine, present]
      rw [Intake.drain_takes takes] at drained
      cases inner : lineIntake.drain (buf.drop (pos + 1)) with
      | error error => cases error
      | ok more =>
          rw [inner] at drained
          cases drained
          rw [induction inner]
          cases buf.take pos <;> rfl

theorem serveClient_eq {buf rest : Bytes} {reads found : List Bytes}
    (fed : lineIntake.feed buf reads = .ok (found, rest)) :
    serveClient buf reads = found.filter (!·.isEmpty) := by
  induction reads generalizing buf found with
  | nil =>
      cases fed
      rfl
  | cons chunk reads induction =>
      rw [Intake.feed] at fed
      cases drained : lineIntake.drain (buf ++ chunk) with
      | error error => cases error
      | ok first =>
          rw [drained] at fed
          change Except.map _ (lineIntake.feed first.2 reads) = _ at fed
          cases inner : lineIntake.feed first.2 reads with
          | error error => cases error
          | ok more =>
              rw [inner] at fed
              cases fed
              rw [serveClient, handleLines_eq drained, induction inner, List.filter_append]

/-- However the stream is cut, `handle` is called on its lines that are not empty. -/
theorem serveClient_lines (reads : List Bytes) :
    serveClient [] reads = (lines reads.flatten).filter (!·.isEmpty) := by
  rcases drain_lines reads.flatten with ⟨rest, drained⟩
  have settled : lineIntake.drain [] = .ok ([], []) := Intake.drain_waits rfl
  apply serveClient_eq
  rw [Intake.feed_eq reads settled, List.nil_append]
  exact drained

/-! ## Messages -/

/-- Neither a newline nor a carriage return nor any other control character. -/
def Printable (text : Bytes) : Prop :=
  ∀ c ∈ text, 0x20 ≤ c

instance (text : Bytes) : Decidable (Printable text) :=
  List.decidableBAll (fun c => 0x20 ≤ c) text

theorem Printable.nil : Printable [] :=
  nofun

theorem Printable.append {first second : Bytes} (left : Printable first)
    (right : Printable second) : Printable (first ++ second) := by
  intro c member
  rcases List.mem_append.mp member with member | member
  · exact left c member
  · exact right c member

theorem Printable.cons {c : UInt8} {text : Bytes} (head : 0x20 ≤ c) (tail : Printable text) :
    Printable (c :: text) := by
  intro other member
  rcases List.mem_cons.mp member with equal | member
  · rw [equal]
    exact head
  · exact tail other member

theorem jsonEscapeByte_printable (c : UInt8) : Printable (jsonEscapeByte c) := by
  revert c
  apply forall_bytes
  decide +kernel

theorem jstr_printable (text : Bytes) : Printable (jstr text) := by
  have escaped : Printable (jsonEscape text) := by
    intro c member
    rcases List.mem_flatMap.mp member with ⟨source, _, member⟩
    exact jsonEscapeByte_printable source c member
  exact .cons (by decide) (escaped.append (.cons (by decide) .nil))

theorem jnum_printable (number : Int) : Printable (jnum number) := by
  intro c member
  have solid : ∀ c : UInt8, isNumberByte c = true → 0x20 ≤ c := by
    apply forall_bytes
    decide +kernel
  exact solid c ((jnum_bytes number).2 c member)

theorem commaSeparated_printable {items : List Bytes} (each : ∀ item ∈ items, Printable item) :
    Printable (commaSeparated items) := by
  induction items with
  | nil => exact nofun
  | cons item rest induction =>
      cases rest with
      | nil => exact each item List.mem_cons_self
      | cons next rest =>
          exact (each item List.mem_cons_self).append (.cons (by decide)
            (induction fun other member => each other (List.mem_cons_of_mem item member)))

mutual

theorem JsonTree.write_printable (tree : JsonTree) : Printable tree.write := by
  cases tree with
  | str text => exact jstr_printable text
  | int number => exact jnum_printable number
  | bool value =>
      cases value
      · decide
      · decide
  | arr items =>
      exact .cons (by decide) ((commaSeparated_printable (writeAll_printable items)).append
        (.cons (by decide) .nil))
  | obj fields =>
      apply Printable.cons (by decide)
      apply Printable.append (commaSeparated_printable _) (.cons (by decide) .nil)
      intro item member
      rcases List.mem_map.mp member with ⟨field, inside, equal⟩
      rw [← equal]
      exact (jstr_printable field.1).append
        (.cons (by decide) (writeFields_printable fields field inside))

theorem JsonTree.writeAll_printable (items : List JsonTree) :
    ∀ item ∈ JsonTree.writeAll items, Printable item := by
  cases items with
  | nil => exact nofun
  | cons item rest =>
      intro text member
      rcases List.mem_cons.mp member with equal | member
      · rw [equal]
        exact write_printable item
      · exact writeAll_printable rest text member

theorem JsonTree.writeFields_printable (fields : List (Bytes × JsonTree)) :
    ∀ field ∈ JsonTree.writeFields fields, Printable field.2 := by
  cases fields with
  | nil => exact nofun
  | cons field rest =>
      intro written member
      rcases List.mem_cons.mp member with equal | member
      · rw [equal]
        exact write_printable field.2
      · exact writeFields_printable rest written member

end

theorem messageText_printable (message : HostMessage) : Printable (messageText message) :=
  (messageTree message).write_printable

/-- What the harness sends is one message a line, and what it handles is one request
a line, however the requests are cut into reads. -/
theorem framed {overflow : String → Int64 → Int64 → Int64} :
    (∀ {history bridge}, Reaches overflow history bridge →
      (∀ message ∈ emitted history,
        byte '\n' ∉ messageText message ∧ byte '\r' ∉ messageText message) ∧
      lines ((emitted history).flatMap emitLine) = (emitted history).map messageText) ∧
    ∀ reads, serveClient [] reads = (lines reads.flatten).filter (!·.isEmpty) := by
  refine ⟨?_, serveClient_lines⟩
  intro history bridge _
  have absent : ∀ (message : HostMessage) (c : UInt8), c < 0x20 → c ∉ messageText message := by
    intro message c control member
    exact absurd (messageText_printable message c member) (UInt8.not_le.mpr control)
  constructor
  · intro message _
    exact ⟨absent message _ (by decide), absent message _ (by decide)⟩
  · have single : ∀ line ∈ (emitted history).map messageText, newline ∉ line := by
      intro line member
      rcases List.mem_map.mp member with ⟨message, _, equal⟩
      rw [← equal]
      exact absent message _ (by decide)
    have sent := lines_sent single
    rw [List.flatMap_map] at sent
    exact sent

/-- A newline that is echoed leaves escaped. -/
theorem framed_echo :
    ∃ history bridge, Reaches (fun _ _ _ => 0) history bridge ∧
      emitted history = [.error "unknown message type 'a\nb'"] ∧
      lines ((emitted history).flatMap emitLine) = (emitted history).map messageText ∧
      serveClient [] [bytes "ab\n\nc", bytes "d\n\ne"] = [bytes "ab", bytes "cd"] := by
  have received : ControlStep {} (.receive (some (.obj [(bytes "type", .str (bytes "a\nb"))])))
      { control := .fails "unknown message type 'a\nb'" } :=
    @ControlStep.receive _ _ (fun _ => 0) rfl
  have answered : ControlStep { control := .fails "unknown message type 'a\nb'" }
      (.reply (.error "unknown message type 'a\nb'")) {} := .fail rfl
  have reaches : Reaches (fun _ _ _ => 0) ([] ++ [_] ++ [_]) {} :=
    (Reaches.initial.step (.control received (alive_empty rfl))).step
      (.control answered (alive_empty rfl))
  rcases @framed fun _ _ _ => 0 with ⟨sent, handled⟩
  exact ⟨_, _, reaches, rfl, (sent reaches).2, (handled _).trans (by decide)⟩

end CardCode.Harness
