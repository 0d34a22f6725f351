import CardCode.Harness.Encoding

/-! # What the bridge says

The control thread and the threads of the runs emit UTF-8 exactly where the requests they
were sent are harmless.
-/

namespace CardCode.Harness

open Process

/-! ## Requests -/

/-- Nothing beyond ASCII stands outside of the comments, unless the text is so long that
`compile` never returns. -/
def Sayable (source : Bytes) : Prop :=
  source.length < 2 ^ 32 → quiet false (source.map Char.ofUInt8) = true

/-- Whatever a request makes the bridge quote is text: no string it quotes holds a
character written as a pair of surrogates, and of its program only comments reach beyond
ASCII. -/
structure Harmless (request : Document) : Prop where
  type : ∀ type ∈ request.string "type", type.Unpaired
  sensor : ∀ type ∈ request.string "type", type.decoded = bytes "setSensor" →
    (request.find "value").isSome = true → ∀ sensor ∈ request.string "sensor", sensor.Unpaired
  source : ∀ type ∈ request.string "type",
    type.decoded = bytes "compile" ∨ type.decoded = bytes "run" →
    ∀ source ∈ request.string "source", Sayable source.decoded

/-- What the control thread is about to say is text. -/
def Spoken : Control → Prop
  | .fails message => Encoded message
  | .compiles source => Sayable source
  | .exchanges job | .joins job | .clears job | .starts job => Sayable job.source
  | .idle | .cancels | .stores _ => True

theorem bytes_textOf (text : Bytes) : bytes (textOf text) = text := by
  rw [bytes, textOf, String.toList_ofList, List.map_map, List.map_congr_left, List.map_id]
  intro c _
  change (Char.ofUInt8 c).val.toUInt8 = c
  exact UInt8.toUInt8_toUInt32 c

theorem encoded_quote {before : String} (ascii : InAscii before) (text : Bytes) :
    Encoded (before ++ textOf text ++ "'") ↔ ValidUtf8 text := by
  have mark : bytes "'" = [39] := by decide
  rw [Encoded, bytes_append, bytes_append, bytes_textOf, mark, List.append_assoc,
    ValidUtf8.ascii_append_iff ascii.bytes, ValidUtf8.append_cons_iff (by decide)]
  exact ⟨And.left, fun valid => ⟨valid, .nil⟩⟩

section Requests

variable {strtod : Bytes → Rat} {beyond : Rat → Int64}

/-- The string a field is taken for. -/
theorem asStr_value (document : Document) :
    (document.value strtod).asStr = (document.text?.map SpelledText.decoded).getD [] := by
  rcases @Document.value_text strtod document with ⟨written, other⟩
  cases text : document.text? with
  | some spelled =>
      rw [written spelled text]
      rfl
  | none =>
      have differs := other text
      cases value : document.value strtod with
      | str found => exact absurd value (differs found)
      | null | bool | num | arr | obj => rfl

theorem sayable_source (source : Document) :
    Sayable (source.value strtod).asStr ↔ ∀ spelled ∈ source.text?, Sayable spelled.decoded := by
  rw [asStr_value]
  cases source.text? with
  | none => exact iff_of_true (fun _ => rfl) nofun
  | some spelled => simp

theorem doSetSensor_spoken_iff (request : Document) :
    Spoken (doSetSensor beyond (request.value strtod)) ↔
      ((request.find "value").isSome = true →
        ∀ sensor ∈ request.string "sensor", sensor.Unpaired) := by
  rw [doSetSensor, Document.find_value, Document.find_value, Document.string]
  cases request.find "sensor" with
  | none => exact iff_of_true (by decide : InAscii _).encoded fun _ => forall_mem_none
  | some sensor =>
      cases request.find "value" with
      | none =>
          exact iff_of_true (by decide : InAscii _).encoded fun absent => Bool.noConfusion absent
      | some value =>
          have quoted : ValidUtf8 (sensor.value strtod).asStr ↔
              ((some value).isSome = true →
                ∀ spelled ∈ (some sensor).bind Document.text?, spelled.Unpaired) := by
            rw [asStr_value, Option.bind_some]
            cases sensor.text? with
            | none => exact iff_of_true .nil fun _ => forall_mem_none
            | some spelled => simp [decoded_valid_iff]
          rw [← quoted]
          dsimp only [Option.map_some]
          have known (name : String) (ascii : InAscii name)
              (same : (sensor.value strtod).asStr = bytes name) :
              True ↔ ValidUtf8 (sensor.value strtod).asStr := by
            rw [same]
            exact iff_of_true trivial ascii.encoded
          split_ifs with distance button left right
          · exact known "distance-cm" (by decide) distance
          · exact known "button" (by decide) button
          · exact known "line-left" (by decide) left
          · exact known "line-right" (by decide) right
          · exact encoded_quote (by decide) _

theorem harmless_iff {request : Document} {type : SpelledText}
    (typed : request.string "type" = some type) :
    Harmless request ↔ type.Unpaired ∧
      (type.decoded = bytes "setSensor" → (request.find "value").isSome = true →
        ∀ sensor ∈ request.string "sensor", sensor.Unpaired) ∧
      (type.decoded = bytes "compile" ∨ type.decoded = bytes "run" →
        ∀ source ∈ request.string "source", Sayable source.decoded) := by
  constructor
  · intro harmless
    exact ⟨harmless.type type typed, harmless.sensor type typed, harmless.source type typed⟩
  · intro parts
    constructor <;> intro other same <;> rw [typed] at same <;> cases same
    · exact parts.1
    · exact parts.2.1
    · exact parts.2.2

theorem harmless_of_untyped {request : Document} (untyped : request.string "type" = none) :
    Harmless request := by
  constructor <;> rw [untyped] <;> exact nofun

theorem source_spoken_iff {request : Document} {control : Bytes → Control} {missing : String}
    (ascii : InAscii missing)
    (spoken : ∀ source, Spoken (control source) ↔ Sayable source) :
    Spoken (((request.value strtod).find "source").elim (.fails missing)
      fun source => control source.asStr) ↔
      ∀ source ∈ request.string "source", Sayable source.decoded := by
  rw [Document.find_value, Document.string]
  cases request.find "source" with
  | none => exact iff_of_true ascii.encoded nofun
  | some source => exact (spoken _).trans (sayable_source source)

theorem doCompile_spoken_iff (request : Document) :
    Spoken (doCompile (request.value strtod)) ↔
      ∀ source ∈ request.string "source", Sayable source.decoded := by
  rw [← @source_spoken_iff strtod request .compiles "compile: missing 'source'" (by decide)
    fun _ => Iff.rfl, doCompile]
  cases (request.value strtod).find "source" <;> exact Iff.rfl

theorem doRun_spoken_iff (request : Document) :
    Spoken (doRun beyond (request.value strtod)) ↔
      ∀ source ∈ request.string "source", Sayable source.decoded := by
  rw [← @source_spoken_iff strtod request
    (fun source => .exchanges ⟨source, parseLimits beyond ((request.value strtod).find "limits")⟩)
    "run: missing 'source'" (by decide) fun _ => Iff.rfl, doRun]
  cases (request.value strtod).find "source" <;> exact Iff.rfl

theorem handle_untyped {request : Document} (untyped : request.string "type" = none) :
    ∃ message, InAscii message ∧ handle beyond (some (request.value strtod)) = .fails message := by
  have absent (text : Bytes) :
      (request.value strtod).find "type" ≠ some (.str text) := by
    rw [Document.find_value]
    intro found
    rcases Option.map_eq_some_iff.mp found with ⟨field, fieldFound, written⟩
    rw [Document.string, fieldFound, Option.bind_some] at untyped
    exact (@Document.value_text strtod field).2 untyped text written
  rw [handle.eq_def]
  split
  · dsimp only
    split
    next fields same _ type found =>
      rw [← Option.some.inj same] at found
      exact absurd found (absent type)
    next => exact ⟨_, (by decide : InAscii "missing 'type'"), rfl⟩
  · exact ⟨_, (by decide : InAscii "malformed message"), rfl⟩

theorem handle_typed {request : Document} {type : SpelledText}
    (typed : request.string "type" = some type) :
    handle beyond (some (request.value strtod)) =
      if type.decoded = bytes "compile" then doCompile (request.value strtod)
      else if type.decoded = bytes "run" then doRun beyond (request.value strtod)
      else if type.decoded = bytes "cancel" then .cancels
      else if type.decoded = bytes "setSensor" then doSetSensor beyond (request.value strtod)
      else if type.decoded = bytes "reset" then .stores resetReadings
      else .fails ("unknown message type '" ++ textOf type.decoded ++ "'") := by
  have found : (request.value strtod).find "type" = some (.str type.decoded) := by
    rcases Option.bind_eq_some_iff.mp typed with ⟨field, fieldFound, text⟩
    rw [Document.find_value, fieldFound, Option.map_some,
      (@Document.value_text strtod field).1 type text]
  cases whole : request.value strtod with
  | obj fields =>
      rw [whole] at found
      rw [handle, found]
  | null | bool | num | str | arr =>
      rw [whole] at found
      cases found

/-- What the control thread is about to say is text exactly where the request is
harmless. -/
theorem handle_spoken_iff (request : Document) :
    Spoken (handle beyond (some (request.value strtod))) ↔ Harmless request := by
  cases typed : request.string "type" with
  | none =>
      rcases @handle_untyped strtod beyond request typed with ⟨message, ascii, handled⟩
      rw [handled]
      exact iff_of_true ascii.encoded (harmless_of_untyped typed)
  | some type =>
      have known (name : String) (plain : InAscii name) (same : type.decoded = bytes name) :
          type.Unpaired := by
        rw [← decoded_valid_iff, same]
        exact plain.encoded
      have apart {name : String} (same : type.decoded = bytes name)
          (differs : bytes name ≠ bytes "setSensor") : type.decoded ≠ bytes "setSensor" := by
        rw [same]
        exact differs
      rw [handle_typed typed, harmless_iff typed]
      split_ifs with compiles runs cancels sensor resets
      · rw [doCompile_spoken_iff]
        exact ⟨fun quiet => ⟨known "compile" (by decide) compiles,
          fun same => absurd same (apart compiles (by decide)), fun _ => quiet⟩,
          fun parts => parts.2.2 (.inl compiles)⟩
      · rw [doRun_spoken_iff]
        exact ⟨fun quiet => ⟨known "run" (by decide) runs,
          fun same => absurd same (apart runs (by decide)), fun _ => quiet⟩,
          fun parts => parts.2.2 (.inr runs)⟩
      · refine iff_of_true trivial ⟨known "cancel" (by decide) cancels,
          fun same => absurd same (apart cancels (by decide)), ?_⟩
        exact fun either => either.elim (absurd · compiles) (absurd · runs)
      · rw [doSetSensor_spoken_iff]
        exact ⟨fun unpaired => ⟨known "setSensor" (by decide) sensor, fun _ => unpaired,
          fun either => either.elim (absurd · compiles) (absurd · runs)⟩,
          fun parts => parts.2.1 sensor⟩
      · refine iff_of_true trivial ⟨known "reset" (by decide) resets,
          fun same => absurd same (apart resets (by decide)), ?_⟩
        exact fun either => either.elim (absurd · compiles) (absurd · runs)
      · rw [Spoken, encoded_quote (by decide), decoded_valid_iff]
        exact ⟨fun unpaired => ⟨unpaired, fun same => absurd same sensor,
          fun either => either.elim (absurd · compiles) (absurd · runs)⟩, And.left⟩

end Requests

/-! ## Threads -/

/-- The execution is what is left of a run of a program. -/
def Underway (execution : Execution) : Prop :=
  ∃ (program : Program) (setting : Setting) (trace : Trace),
    After (execute setting program.root) trace execution

/-- Whatever a thread has yet to say is text. -/
def SpokenBy : Worker → Prop
  | .compiling job => Sayable job.source
  | .executing execution => Underway execution
  | .reporting message execution => quotedTexts message = [] ∧ Underway execution
  | .finishing | .finished => True

structure Speaks (bridge : Bridge) : Prop where
  control : Spoken bridge.control
  workers : ∀ worker ∈ bridge.workers, SpokenBy worker

/-- The message is UTF-8 wherever there is one. -/
def Label.Valid (label : Label) : Prop :=
  ∀ message ∈ label.message?, ValidUtf8 (messageText message)

/-- What an execution does next it says in ASCII. -/
theorem Underway.act {action : Action} {next : Execution} (underway : Underway (.act action next)) :
    action.InAscii ∧ Underway next := by
  rcases underway with ⟨program, setting, trace, reached⟩
  have later := reached.act
  refine ⟨?_, program, setting, _, later⟩
  rcases later.exists_run with ⟨after, outcome, run⟩
  apply run_inAscii program setting run
  simp

theorem Underway.ask {query : Query} {next : query.Reply → Execution}
    (underway : Underway (.ask query next)) (reply : query.Reply) : Underway (next reply) := by
  rcases underway with ⟨program, setting, trace, reached⟩
  exact ⟨program, setting, _, reached.ask reply⟩

theorem diagnostics_spoken {source : Bytes} {result : CompileResult} (sayable : Sayable source)
    (compiled : compile source = some result) (ok : Bool) :
    ValidUtf8 (messageText (.diagnostics ok result.diagnostics)) := by
  have fits : source.length < 2 ^ 32 := by
    rw [← compile_isSome_iff, compiled]
    rfl
  rw [messageText_valid_iff]
  intro text member
  rcases List.mem_map.mp member with ⟨diagnostic, inside, rfl⟩
  exact (compile_encoded_iff compiled).mpr (sayable fits) diagnostic inside

theorem Speaks.setWorker {bridge : Bridge} {run : Nat} {worker : Worker} (speaks : Speaks bridge)
    (spoken : SpokenBy worker) : Speaks (bridge.setWorker run worker) := by
  refine ⟨speaks.control, ?_⟩
  intro other member
  rcases List.mem_or_eq_of_mem_set member with member | equal
  · exact speaks.workers other member
  · rw [equal]
    exact spoken

theorem Speaks.worker {bridge : Bridge} {run : Nat} {worker : Worker} (speaks : Speaks bridge)
    (found : bridge.workers[run]? = some worker) : SpokenBy worker :=
  speaks.workers worker (List.mem_of_getElem? found)

section Steps

variable {overflow : String → Int64 → Int64 → Int64} {strtod : Bytes → Rat}
variable {bridge next : Bridge} {label : Label}

/-- A request is harmless where one was received. -/
def HarmlessIn (strtod : Bytes → Rat) (label : Label) : Prop :=
  ∀ message, label = .receive message →
    ∃ request : Document, Harmless request ∧ message = jsonParse strtod request.write

theorem Speaks.controlStep (speaks : Speaks bridge) (step : ControlStep bridge label next)
    (harmless : HarmlessIn strtod label) : label.Valid ∧ Speaks next := by
  have control := speaks.control
  cases step with
  | receive =>
      rcases harmless _ rfl with ⟨request, safe, rfl⟩
      refine ⟨nofun, ?_, speaks.workers⟩
      rw [request.parsed]
      exact (handle_spoken_iff request).mpr safe
  | fail stands =>
      rw [stands] at control
      refine ⟨?_, trivial, speaks.workers⟩
      intro message member
      cases member
      rw [messageText_valid_iff]
      exact List.forall_mem_singleton.mpr control
  | compile stands compiled =>
      rw [stands] at control
      refine ⟨?_, trivial, speaks.workers⟩
      intro message member
      cases member
      exact diagnostics_spoken control compiled _
  | refuse => exact ⟨nofun, (by decide : InAscii _).encoded, speaks.workers⟩
  | accept stands | join stands | clear stands =>
      rw [stands] at control
      exact ⟨nofun, control, speaks.workers⟩
  | start stands =>
      rw [stands] at control
      refine ⟨nofun, trivial, ?_⟩
      exact List.forall_mem_append.mpr ⟨speaks.workers, List.forall_mem_singleton.mpr control⟩
  | cancel => exact ⟨nofun, trivial, speaks.workers⟩
  | store =>
      refine ⟨nofun, ?_, speaks.workers⟩
      dsimp only
      split <;> exact trivial

theorem Speaks.workerStep {run : Nat} (speaks : Speaks bridge)
    (step : WorkerStep overflow bridge run label next) : label.Valid ∧ Speaks next := by
  cases step with
  | @accepted job root diagnostics found compiled clean =>
      refine ⟨?_, speaks.setWorker ⟨⟨_, root, diagnostics, compiled, clean⟩, _, _, .start⟩⟩
      intro message member
      cases member
      exact diagnostics_spoken (speaks.worker found) compiled true
  | rejected found compiled =>
      refine ⟨?_, speaks.setWorker trivial⟩
      intro message member
      cases member
      exact diagnostics_spoken (speaks.worker found) compiled false
  | @act action rest found =>
      rcases Underway.act (speaks.worker found) with ⟨ascii, underway⟩
      refine ⟨?_, speaks.setWorker underway⟩
      intro message member
      rw [Label.ofAction] at member
      split at member
      next shown written =>
        cases member
        rw [messageText_valid_iff]
        exact fun text inside => (message_inAscii ascii written text inside).encoded
      next => cases member
  | poll found =>
      exact ⟨forall_mem_none, speaks.setWorker (Underway.ask (speaks.worker found) bridge.cancel)⟩
  | sense found =>
      exact ⟨forall_mem_none, speaks.setWorker ⟨rfl, Underway.ask (speaks.worker found) _⟩⟩
  | report found =>
      rcases speaks.worker found with ⟨quotes, underway⟩
      refine ⟨?_, speaks.setWorker underway⟩
      intro message member
      cases member
      rw [messageText_valid_iff, quotes]
      exact List.forall_mem_nil _
  | done => exact ⟨forall_mem_none, speaks.setWorker trivial⟩
  | finish =>
      have finished : Speaks (bridge.setWorker run .finished) := speaks.setWorker trivial
      exact ⟨forall_mem_none, finished.control, finished.workers⟩

/-- However its threads interleave, a bridge that is sent harmless requests emits UTF-8. -/
theorem Reaches.speaks {history : List Label} (reaches : Reaches overflow history bridge)
    (harmless : ∀ label ∈ history, HarmlessIn strtod label) :
    (∀ label ∈ history, label.Valid) ∧ Speaks bridge := by
  induction reaches with
  | initial => exact ⟨nofun, trivial, nofun⟩
  | @step _ bridge label next _ step induction =>
      rcases List.forall_mem_append.mp harmless with ⟨before, last⟩
      rcases induction before with ⟨valid, speaks⟩
      have stepped : label.Valid ∧ Speaks next := by
        cases step with
        | control step => exact speaks.controlStep step (last label List.mem_cons_self)
        | worker step => exact speaks.workerStep step
      exact ⟨List.forall_mem_append.mpr ⟨valid, List.forall_mem_singleton.mpr stepped.1⟩, stepped.2⟩

end Steps

/-! ## Harmful requests -/

/-- What is said about a text that is not sayable. -/
theorem diagnostics_unspoken {source : Bytes} (unsayable : ¬Sayable source) :
    ∃ result, compile source = some result ∧
      ∀ ok, ¬ValidUtf8 (messageText (.diagnostics ok result.diagnostics)) := by
  rw [Sayable, Classical.not_imp] at unsayable
  rcases Option.isSome_iff_exists.mp ((compile_isSome_iff source).mpr unsayable.1) with
    ⟨result, compiled⟩
  refine ⟨result, compiled, ?_⟩
  intro ok valid
  apply unsayable.2
  rw [← compile_encoded_iff compiled]
  rw [messageText_valid_iff, quotedTexts, List.forall_mem_map] at valid
  exact valid

/-- Its thread emits the diagnostics of a run before anything else. -/
theorem thread_message {overflow : String → Int64 → Int64 → Int64} {bridge : Bridge} {run : Nat}
    {job : Job} {result : CompileResult} (found : bridge.workers[run]? = some (.compiling job))
    (compiled : compile job.source = some result) (alive : bridge.Alive) :
    ∃ ok next, Step overflow bridge (.emit run (.diagnostics ok result.diagnostics)) next := by
  cases accepted : result.ok with
  | false => exact ⟨false, _, .worker (.rejected found compiled accepted) alive⟩
  | true =>
      rcases result with ⟨root, diagnostics⟩
      rw [CompileResult.ok, Bool.and_eq_true, Bool.not_eq_true'] at accepted
      rcases accepted with ⟨built, clean⟩
      rcases Option.isSome_iff_exists.mp built with ⟨root, rfl⟩
      exact ⟨true, _, .worker (.accepted found compiled clean) alive⟩

theorem exists_unspoken {overflow : String → Int64 → Int64 → Int64} {strtod : Bytes → Rat}
    {request : Document} (harmful : ¬Harmless request) :
    ∃ history bridge, Reaches overflow history bridge ∧
      (∀ message, .receive message ∈ history → message = jsonParse strtod request.write) ∧
      ∃ message ∈ emitted history, ¬ValidUtf8 (messageText message) := by
  let value := request.value strtod
  have parsed : jsonParse strtod request.write = some value := request.parsed
  let beyond : Rat → Int64 := fun _ => 0
  have unspoken : ¬Spoken (handle beyond (some value)) := by
    rw [handle_spoken_iff]
    exact harmful
  have received : Reaches overflow [.receive (some value)]
      { control := handle beyond (some value) } :=
    Reaches.initial.step (.control (.receive rfl) (alive_empty rfl))
  rw [parsed]
  have pending := handle_pending beyond (some value)
  cases control : handle beyond (some value) with
  | idle | cancels | stores =>
      rw [control] at unspoken
      exact absurd trivial unspoken
  | joins | clears | starts =>
      rw [control] at pending
      cases pending
  | fails message =>
      rw [control] at unspoken received
      refine ⟨_, _, received.step (.control (.fail rfl) (alive_empty rfl)), by simp,
        .error message, ?_, ?_⟩
      · exact List.mem_singleton.mpr rfl
      · rw [messageText_valid_iff]
        exact fun all => unspoken (all message List.mem_cons_self)
  | compiles source =>
      rw [control] at unspoken received
      rcases diagnostics_unspoken unspoken with ⟨result, compiled, invalid⟩
      refine ⟨_, _, received.step (.control (.compile rfl compiled) (alive_empty rfl)), by simp,
        diagnosticsMessage result, ?_, invalid _⟩
      exact List.mem_singleton.mpr rfl
  | exchanges job =>
      rw [control] at unspoken received
      rcases diagnostics_unspoken unspoken with ⟨result, compiled, invalid⟩
      have accepted := received.step
        (.control (@ControlStep.accept _ job rfl rfl) (alive_empty rfl))
      have joined := accepted.step (.control (.join rfl nofun) (alive_empty rfl))
      have cleared := joined.step (.control (.clear rfl) (alive_empty rfl))
      have started := cleared.step (.control (.start rfl rfl) (alive_empty rfl))
      rcases @thread_message overflow
        { workers := [.compiling job], joinable := true, running := true } 0 job result rfl
        compiled (alive_single rfl nofun) with ⟨ok, next, emits⟩
      refine ⟨_, next, started.step emits, by simp, .diagnostics ok result.diagnostics, ?_,
        invalid ok⟩
      exact List.mem_singleton.mpr rfl

/-- A bridge that is sent harmless requests emits UTF-8 in all its messages, those of the
runs included; and only then does it: whatever else is sent, some interleaving answers
with bytes that are none. -/
theorem emitted_valid_iff {overflow : String → Int64 → Int64 → Int64} {strtod : Bytes → Rat} :
    (∀ history bridge, Reaches overflow history bridge →
      (∀ message, .receive message ∈ history →
        ∃ request : Document, Harmless request ∧ message = jsonParse strtod request.write) →
      ∀ message ∈ emitted history, ValidUtf8 (messageText message)) ∧
    ∀ request : Document, ValidUtf8 request.write ∧
      (Harmless request ↔ ∀ history bridge, Reaches overflow history bridge →
        (∀ message, .receive message ∈ history → message = jsonParse strtod request.write) →
        ∀ message ∈ emitted history, ValidUtf8 (messageText message)) := by
  have valid : ∀ history bridge, Reaches overflow history bridge →
      (∀ message, .receive message ∈ history →
        ∃ request : Document, Harmless request ∧ message = jsonParse strtod request.write) →
      ∀ message ∈ emitted history, ValidUtf8 (messageText message) := by
    intro history bridge reaches harmless message member
    rcases List.mem_filterMap.mp member with ⟨label, inside, shown⟩
    have each : ∀ label ∈ history, HarmlessIn strtod label := by
      intro label inside received equal
      rw [equal] at inside
      exact harmless received inside
    exact (reaches.speaks each).1 label inside message shown
  refine ⟨valid, fun request => ⟨request.write_valid, ?_, ?_⟩⟩
  · intro harmless history bridge reaches received
    exact valid history bridge reaches fun message member =>
      ⟨request, harmless, received message member⟩
  · intro always
    by_contra harmful
    rcases @exists_unspoken overflow strtod request harmful with
      ⟨history, bridge, reaches, received, message, member, invalid⟩
    exact invalid (always history bridge reaches received message member)

/-! ## Two requests -/

/-- A text without quotes and escapes, as it is. -/
def plainText (text : String) : SpelledText :=
  text.toList.filterMap fun c =>
    if plain : c ≠ '"' ∧ c ≠ '\\' then some (.plain c plain.1 plain.2) else none

def noBlank : Blank :=
  ⟨[], fun _ member => nomatch member⟩

def plainKey (name : String) : Key :=
  ⟨noBlank, plainText name, noBlank⟩

/-- The request to compile a program. -/
def compileRequest (source : String) : Document :=
  .obj noBlank [(plainKey "type", .str (plainText "compile")),
    (plainKey "source", .str (plainText source))]

theorem compileRequest_harmless_iff (source : String) :
    Harmless (compileRequest source) ↔ Sayable (plainText source).decoded := by
  have first : (plainText "type").decoded = bytes "type" := by decide +kernel
  have second : (plainText "source").decoded = bytes "source" := by decide +kernel
  have kind : (plainText "compile").decoded = bytes "compile" := by decide +kernel
  have apart : bytes "type" ≠ bytes "source" := by decide
  have typed : (compileRequest source).string "type" = some (plainText "compile") := by
    simp [compileRequest, Document.string, Document.find, plainKey, first, Document.text?]
  have found : (compileRequest source).string "source" = some (plainText source) := by
    simp [compileRequest, Document.string, Document.find, plainKey, first, second, apart,
      Document.text?]
  have unpaired : (plainText "compile").Unpaired := by
    rw [← decoded_valid_iff, kind]
    exact .of_ascii_all (by decide)
  rw [harmless_iff typed, found, kind]
  constructor
  · exact fun parts => parts.2.2 (.inl rfl) _ rfl
  · intro sayable
    refine ⟨unpaired, fun same => absurd same (by decide), fun _ spelled member => ?_⟩
    cases member
    exact sayable

/-- A harmless request is answered in UTF-8. -/
theorem beep_answered :
    ∃ history bridge, Reaches calmSetting.overflow history bridge ∧ emitted history ≠ [] ∧
      ∀ message ∈ emitted history, ValidUtf8 (messageText message) := by
  let request := compileRequest "(beep)"
  have calm : Sayable (plainText "(beep)").decoded := fun _ => by decide +kernel
  let beyond : Rat → Int64 := fun _ => 0
  have handled : handle beyond (some (request.value readDecimal)) =
      .compiles (plainText "(beep)").decoded := by
    rfl
  have received : Reaches calmSetting.overflow [.receive (some (request.value readDecimal))]
      { control := handle beyond (some (request.value readDecimal)) } :=
    Reaches.initial.step (.control (.receive rfl) (alive_empty rfl))
  rw [handled] at received
  rcases Option.isSome_iff_exists.mp
    ((compile_isSome_iff (plainText "(beep)").decoded).mpr (by decide +kernel)) with
    ⟨result, compiled⟩
  have answered := received.step (.control (.compile rfl compiled) (alive_empty rfl))
  refine ⟨_, _, answered, List.cons_ne_nil (diagnosticsMessage result) [], ?_⟩
  apply (@emitted_valid_iff calmSetting.overflow readDecimal).1 _ _ answered
  intro message member
  simp only [List.singleton_append, List.mem_cons, List.not_mem_nil, or_false, reduceCtorEq,
    Label.receive.injEq] at member
  exact ⟨request, (compileRequest_harmless_iff "(beep)").mpr calm, by rw [member, request.parsed]⟩

/-- The lexer quotes the first byte of a letter beyond ASCII. -/
theorem letter_broken :
    ¬ ∀ (request : Document) (history : List Label) (bridge : Bridge),
      Reaches calmSetting.overflow history bridge →
      (∀ message, .receive message ∈ history → message = jsonParse readDecimal request.write) →
      ∀ message ∈ emitted history, ValidUtf8 (messageText message) := by
  intro always
  have harmful : ¬Harmless (compileRequest "é") := by
    rw [compileRequest_harmless_iff]
    intro sayable
    exact absurd (sayable (by decide +kernel)) (by decide +kernel)
  rcases @exists_unspoken calmSetting.overflow readDecimal _ harmful with
    ⟨history, bridge, reaches, received, message, member, invalid⟩
  exact invalid (always _ history bridge reaches received message member)

end CardCode.Harness
