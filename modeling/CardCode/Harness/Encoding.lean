import CardCode.Compilation.Wording
import CardCode.Harness.Documents
import CardCode.Harness.Serial

/-! # The encoding of the messages

A text frame holds UTF-8. What the bridge writes is UTF-8 exactly where the texts it
quotes are: the run of a program quotes ASCII names only, but the lexer quotes single
bytes of the source, and the bridge quotes the strings of a request.
-/

namespace CardCode.Harness

open Process

/-! ## Written values -/

theorem jsonEscapeByte_ascii (c : UInt8) (ascii : c < 0x80) :
    jsonEscapeByte c ≠ [] ∧ ∀ b ∈ jsonEscapeByte c, b < 0x80 := by
  have each : ∀ c : UInt8, c < 0x80 →
      jsonEscapeByte c ≠ [] ∧ (jsonEscapeByte c).all (· < 0x80) = true := by
    apply forall_bytes
    decide +kernel
  refine ⟨(each c ascii).1, fun b member => ?_⟩
  exact of_decide_eq_true (List.all_eq_true.mp (each c ascii).2 b member)

/-- Beyond ASCII nothing is escaped. -/
theorem jsonEscapeByte_wide : ∀ c : UInt8, ¬c < 0x80 → jsonEscapeByte c = [c] := by
  apply forall_bytes
  decide +kernel

/-- Escaping leaves a text UTF-8 or not as it was. -/
theorem jsonEscape_valid (text : Bytes) : ValidUtf8 (jsonEscape text) ↔ ValidUtf8 text := by
  have behind (front : Bytes) :
      ValidUtf8 (front ++ jsonEscape text) ↔ ValidUtf8 (front ++ text) := by
    induction text generalizing front with
    | nil => exact Iff.rfl
    | cons c text induction =>
        rw [jsonEscape, List.flatMap_cons, ← jsonEscape]
        by_cases ascii : c < 0x80
        · rcases jsonEscapeByte_ascii c ascii with ⟨nonempty, escaped⟩
          rcases List.exists_cons_of_ne_nil nonempty with ⟨first, rest, spelled⟩
          rw [spelled] at escaped ⊢
          have later := @ValidUtf8.ascii_append_iff (jsonEscape text) rest fun b member =>
            escaped b (List.mem_cons_of_mem first member)
          rw [List.cons_append, ValidUtf8.append_cons_iff (escaped first List.mem_cons_self), later,
            ValidUtf8.append_cons_iff ascii]
          exact and_congr_right fun _ => induction []
        · rw [jsonEscapeByte_wide c ascii, ← List.append_assoc, induction, List.append_assoc]
          rfl
  exact behind []

theorem jstr_valid (text : Bytes) : ValidUtf8 (jstr text) ↔ ValidUtf8 text := by
  rw [jstr, ValidUtf8.cons_iff (by decide), ValidUtf8.append_cons_iff (by decide), jsonEscape_valid]
  exact ⟨And.left, fun valid => ⟨valid, .nil⟩⟩

theorem jnum_valid (number : Int) : ValidUtf8 (jnum number) :=
  .of_ascii fun c member => number_ascii c ((jnum_bytes number).2 c member)

namespace JsonTree

mutual

/-- The strings of a tree and the names of its fields. -/
def texts : JsonTree → List Bytes
  | .str text => [text]
  | .int _ => []
  | .bool _ => []
  | .arr items => textsAll items
  | .obj fields => textsFields fields

def textsAll : List JsonTree → List Bytes
  | [] => []
  | item :: rest => item.texts ++ textsAll rest

def textsFields : List (Bytes × JsonTree) → List Bytes
  | [] => []
  | (key, tree) :: rest => key :: tree.texts ++ textsFields rest

end

mutual

/-- The text of a tree is UTF-8 where its strings are. -/
theorem write_valid_iff (tree : JsonTree) :
    ValidUtf8 tree.write ↔ ∀ text ∈ tree.texts, ValidUtf8 text := by
  cases tree with
  | str text => exact (jstr_valid text).trans List.forall_mem_singleton.symm
  | int number => exact ⟨fun _ => nofun, fun _ => jnum_valid number⟩
  | bool value =>
      exact ⟨fun _ => nofun, fun _ => by cases value <;> exact .of_ascii_all (by decide)⟩
  | arr items =>
      rw [write, jarr, texts, ValidUtf8.cons_iff (by decide), ValidUtf8.append_cons_iff (by decide),
        commaSeparated_valid, writeAll_valid_iff items]
      exact ⟨And.left, fun valid => ⟨valid, .nil⟩⟩
  | obj fields =>
      rw [write, jobjV, texts, ValidUtf8.cons_iff (by decide),
        ValidUtf8.append_cons_iff (by decide), commaSeparated_valid, List.forall_mem_map,
        writeFields_valid_iff fields]
      exact ⟨And.left, fun valid => ⟨valid, .nil⟩⟩

theorem writeAll_valid_iff (items : List JsonTree) :
    (∀ text ∈ writeAll items, ValidUtf8 text) ↔ ∀ text ∈ textsAll items, ValidUtf8 text := by
  cases items with
  | nil => exact Iff.rfl
  | cons item rest =>
      rw [writeAll, textsAll, List.forall_mem_cons, List.forall_mem_append, write_valid_iff item,
        writeAll_valid_iff rest]

theorem writeFields_valid_iff (fields : List (Bytes × JsonTree)) :
    (∀ field ∈ writeFields fields, ValidUtf8 (jstr field.1 ++ byte ':' :: field.2)) ↔
      ∀ text ∈ textsFields fields, ValidUtf8 text := by
  cases fields with
  | nil => exact ⟨fun _ => nofun, fun _ => nofun⟩
  | cons field rest =>
      rcases field with ⟨key, tree⟩
      rw [writeFields, textsFields, List.forall_mem_cons, List.cons_append, List.forall_mem_cons,
        List.forall_mem_append, ValidUtf8.append_cons_iff (by decide), jstr_valid,
        write_valid_iff tree, writeFields_valid_iff rest, and_assoc]

end

end JsonTree

/-! ## Messages -/

section Fields

open JsonTree

variable {key value : String} {tree : JsonTree} {rest : List (Bytes × JsonTree)}

theorem field_valid_iff (name : InAscii key) :
    (∀ text ∈ textsFields ((bytes key, tree) :: rest), ValidUtf8 text) ↔
      (∀ text ∈ tree.texts, ValidUtf8 text) ∧ ∀ text ∈ textsFields rest, ValidUtf8 text := by
  rw [textsFields, List.cons_append, List.forall_mem_cons, List.forall_mem_append]
  exact and_iff_right name.encoded

theorem textField_valid_iff (name : InAscii key) :
    (∀ text ∈ textsFields (textField key value :: rest), ValidUtf8 text) ↔
      Encoded value ∧ ∀ text ∈ textsFields rest, ValidUtf8 text := by
  rw [textField, field_valid_iff name, texts, List.forall_mem_singleton, Encoded]

/-- A field of the bridge's own. -/
theorem plainField_valid_iff (name : InAscii key) (plain : InAscii value) :
    (∀ text ∈ textsFields (textField key value :: rest), ValidUtf8 text) ↔
      ∀ text ∈ textsFields rest, ValidUtf8 text := by
  rw [textField_valid_iff name]
  exact and_iff_right plain.encoded

theorem ascii_valid {texts : List Bytes}
    (ascii : texts.all (fun text => text.all (· < 0x80)) = true) :
    ∀ text ∈ texts, ValidUtf8 text :=
  fun text member => .of_ascii_all (List.all_eq_true.mp ascii text member)

theorem span_valid (span : SourceSpan) : ∀ text ∈ (spanTree span).texts, ValidUtf8 text :=
  @ascii_valid [bytes "startOffset", bytes "endOffset", bytes "startLine", bytes "startColumn",
    bytes "endLine", bytes "endColumn"] (by decide)

theorem spanField_valid_iff (name : InAscii key) {span : SourceSpan} :
    (∀ text ∈ textsFields ((bytes key, spanTree span) :: rest), ValidUtf8 text) ↔
      ∀ text ∈ textsFields rest, ValidUtf8 text := by
  rw [field_valid_iff name]
  exact and_iff_right (span_valid span)

theorem textsFields_nil : (∀ text ∈ textsFields [], ValidUtf8 text) ↔ True :=
  iff_true_intro nofun

theorem diagnostic_valid_iff (diagnostic : Diagnostic) :
    (∀ text ∈ (diagnosticTree diagnostic).texts, ValidUtf8 text) ↔
      Encoded diagnostic.message := by
  have severity : InAscii (if diagnostic.severity = .error then "error" else "warning") := by
    split <;> decide
  rw [diagnosticTree, texts, plainField_valid_iff (by decide) severity,
    textField_valid_iff (by decide), spanField_valid_iff (by decide), textsFields_nil, and_true]

theorem diagnostics_valid_iff (diagnostics : List Diagnostic) :
    (∀ text ∈ textsAll (diagnostics.map diagnosticTree), ValidUtf8 text) ↔
      ∀ text ∈ diagnostics.map Diagnostic.message, Encoded text := by
  induction diagnostics with
  | nil => exact ⟨fun _ => nofun, fun _ => nofun⟩
  | cons diagnostic rest induction =>
      rw [List.map_cons, textsAll, List.forall_mem_append, diagnostic_valid_iff, induction,
        List.map_cons, List.forall_mem_cons]

theorem node_valid_iff (message : NodeMessage) :
    (∀ text ∈ (nodeTree message).texts, ValidUtf8 text) ↔
      ∀ text ∈ quotedTexts (.node message), Encoded text := by
  have event : InAscii (NodeEvent.name message.event) := by
    cases message.event <;> decide
  rw [nodeTree, texts, List.cons_append, plainField_valid_iff (by decide) (by decide),
    List.cons_append, plainField_valid_iff (by decide) event, List.cons_append,
    textField_valid_iff (by decide), List.cons_append, intField, field_valid_iff (by decide),
    List.cons_append, textField_valid_iff (by decide), List.cons_append,
    spanField_valid_iff (by decide), List.nil_append, quotedTexts, List.forall_mem_cons,
    List.forall_mem_cons]
  have number : (∀ text ∈ (JsonTree.int message.nodeId.toNat).texts, ValidUtf8 text) ↔ True :=
    iff_true_intro (List.forall_mem_nil _)
  rw [number, true_and]
  cases message.message with
  | none =>
      exact and_congr_right fun _ => and_congr_right fun _ =>
        iff_of_true (List.forall_mem_nil _) (List.forall_mem_nil _)
  | some text =>
      dsimp only
      rw [textField_valid_iff (by decide), textsFields_nil, and_true, Option.toList_some,
        List.forall_mem_singleton]

theorem arguments_valid (call : RobotCommand) :
    ∀ text ∈ (JsonTree.obj (commandFields call).2).texts, ValidUtf8 text := by
  cases call with
  | setLight color => cases color <;> exact ascii_valid (by decide)
  | stop | beep => exact nofun
  | driveForward | driveBackward =>
      exact @ascii_valid [bytes "speed", bytes "durationMs"] (by decide)
  | turnLeft | turnRight => exact @ascii_valid [bytes "degrees"] (by decide)
  | waitMs => exact @ascii_valid [bytes "durationMs"] (by decide)

/-- A message is UTF-8 exactly where the texts it quotes are. -/
theorem messageText_valid_iff (message : HostMessage) :
    ValidUtf8 (messageText message) ↔ ∀ text ∈ quotedTexts message, Encoded text := by
  rw [messageText, write_valid_iff]
  cases message with
  | diagnostics ok diagnostics =>
      have flag : (∀ text ∈ (JsonTree.bool ok).texts, ValidUtf8 text) ↔ True :=
        iff_true_intro (List.forall_mem_nil _)
      rw [messageTree, texts, plainField_valid_iff (by decide) (by decide),
        field_valid_iff (by decide), flag, true_and, field_valid_iff (by decide), texts,
        diagnostics_valid_iff, textsFields_nil, and_true, quotedTexts]
  | programStart | programDone =>
      rw [messageTree, texts, plainField_valid_iff (by decide) (by decide), textsFields_nil]
      exact (iff_true_intro (List.forall_mem_nil _)).symm
  | programError message span =>
      rw [messageTree, texts, plainField_valid_iff (by decide) (by decide),
        textField_valid_iff (by decide), spanField_valid_iff (by decide), textsFields_nil, and_true,
        quotedTexts, List.forall_mem_singleton]
  | node message => exact node_valid_iff message
  | robotCommand call =>
      rw [messageTree, texts, plainField_valid_iff (by decide) (by decide),
        plainField_valid_iff (by decide) (command_inAscii call), field_valid_iff (by decide),
        textsFields_nil, and_true]
      exact iff_of_true (arguments_valid call) (List.forall_mem_nil _)
  | sensorRead reading =>
      rw [messageTree, texts, plainField_valid_iff (by decide) (by decide),
        plainField_valid_iff (by decide) (sensor_inAscii reading), field_valid_iff (by decide),
        textsFields_nil, and_true]
      refine iff_of_true ?_ (List.forall_mem_nil _)
      cases reading <;> exact List.forall_mem_nil _
  | error message =>
      rw [messageTree, texts, plainField_valid_iff (by decide) (by decide),
        textField_valid_iff (by decide), textsFields_nil, and_true, quotedTexts,
        List.forall_mem_singleton]

end Fields

/-! ## Runs -/

theorem inAscii_nodeId (id : UInt32) : InAscii (nodeIdToString id) :=
  InAscii.append (by decide) (inAscii_toString id.toNat)

theorem node_inAscii {event : NodeEvent} {shown : ExecutionEvent} (spoken : InAscii shown.message) :
    ∀ text ∈ quotedTexts (.node (nodeJson event shown)), InAscii text := by
  intro text member
  rcases List.mem_cons.mp member with equal | member
  · rw [equal]
    exact inAscii_nodeId _
  · rcases List.mem_cons.mp member with equal | member
    · rw [equal]
      exact spoken
    · rw [nodeJson] at member
      dsimp only at member
      split at member
      · rw [List.mem_singleton.mp member]
        exact spoken
      · cases member

theorem onEvent_inAscii {shown : ExecutionEvent} (spoken : InAscii shown.message) :
    ∀ text ∈ quotedTexts (onEvent shown), InAscii text := by
  rw [onEvent]
  cases shown.type with
  | programStart | programDone => exact nofun
  | programError => exact List.forall_mem_singleton.mpr spoken
  | nodeStart | nodeDone | nodeSkipped | nodeError => exact node_inAscii spoken

theorem message_inAscii {entry : Action} {message : HostMessage} (ascii : entry.InAscii)
    (found : entry.message? = some message) : ∀ text ∈ quotedTexts message, InAscii text := by
  cases entry with
  | emit type node text =>
      cases found
      exact onEvent_inAscii (ascii _ rfl)
  | emitProgram type text =>
      cases found
      exact onEvent_inAscii (ascii _ rfl)
  | command call =>
      cases found
      exact nofun
  | sensor reading =>
      cases found
      exact nofun
  | poll | mark => cases found

/-- Whatever a run shows is ASCII. -/
theorem run_inAscii (program : Program) (setting : Setting) {trace : Trace}
    {outcome : Except Fault ExecutionResult}
    (run : Run (execute setting program.root) trace outcome) :
    ∀ entry ∈ trace, entry.InAscii := by
  rcases program.run_extends setting run with ⟨rest, result, reached, performs, -⟩
  rcases executeBody_activity performs with ⟨body, ending, activity, closes, whole⟩
  have own : ∀ entry ∈ body, entry.InAscii := by
    intro entry member
    rcases activity.leaves (program.within_inherited setting).untrapped .self entry member with
      ⟨node, within, leaves⟩
    exact leaves.inAscii fun inner inside => program.namesInAscii inner (inside.trans within)
  have start : (Action.emitProgram .programStart "").InAscii :=
    fun event member => Option.some.inj member ▸ (by decide : InAscii "")
  have stop : (Action.command .stop none).InAscii := nofun
  suffices all : ∀ entry ∈ trace ++ rest, entry.InAscii from
    fun entry member => all entry (List.mem_append_left rest member)
  rw [whole]
  refine List.forall_mem_append.mpr ⟨List.forall_mem_cons.mpr ⟨start, own⟩, ?_⟩
  cases closes with
  | done =>
      refine List.forall_mem_singleton.mpr ?_
      exact fun event member => Option.some.inj member ▸ (by decide : InAscii "")
  | cancelled =>
      refine List.forall_mem_cons.mpr ⟨stop, List.forall_mem_singleton.mpr ?_⟩
      exact fun event member => Option.some.inj member ▸ (by decide : InAscii "execution cancelled")
  | errored clear errored =>
      refine List.forall_mem_cons.mpr ⟨stop, List.forall_mem_singleton.mpr ?_⟩
      rcases (activity.outcome rfl).of_stopping (by simp [ExecState.stopping, errored]) with
        ⟨before, alarm, after, rfl, raises, -⟩
      cases raises with
      | cancel cancelled =>
          rw [clear] at cancelled
          cases cancelled
      | error _ _ found =>
          have alarmed := own _ (List.mem_append_right before List.mem_cons_self) _ rfl
          intro event member
          cases member
          rw [found]
          exact alarmed

end CardCode.Harness
