import CardCode.App.Encoding
import CardCode.Foundation.Decoding
import CardCode.Harness.Dispatch
import CardCode.Harness.Documents

/-! # Requests of the runtime client (`app/src/transport.js`)

A request is sent as the text that `JSON.stringify` makes of it. The harness reads another
JSON, but it understands every request the client can send.
-/

namespace CardCode.App

open Harness

/-! ## `JSON.stringify` -/

/-- A finite number, and the text the browser writes for it. -/
structure Number where
  value : Rat
  text : Text

/-- The values a request is made of. -/
inductive Json where
  | null
  | string (text : Text)
  | number (number : Number)
  | boolean (value : Bool)
  | object (fields : List (Text × Json))

def hexChar (digit : Nat) : Char :=
  Char.ofNat (if digit < 10 then 48 + digit else 87 + digit)

/-- The letter behind the backslash, for the characters that have one. -/
def shortEscape (c : Char) : Option Char :=
  if c = '"' then some '"'
  else if c = '\\' then some '\\'
  else if c = '\x08' then some 'b'
  else if c = '\t' then some 't'
  else if c = '\n' then some 'n'
  else if c = '\x0c' then some 'f'
  else if c = '\r' then some 'r'
  else none

/-- How a character stands in a JSON string. -/
def quoteChar (c : Char) : Text :=
  match shortEscape c with
  | some letter => ['\\', letter]
  | none =>
      if c.toNat < 32 then ['\\', 'u', '0', '0', hexChar (c.toNat / 16), hexChar (c.toNat % 16)]
      else [c]

def quote (text : Text) : Text :=
  '"' :: (text.flatMap quoteChar ++ ['"'])

/-- Texts with commas between them. -/
def joinCommas : List Text → Text
  | [] => []
  | [text] => text
  | text :: rest => text ++ ',' :: joinCommas rest

namespace Json

mutual

def stringify : Json → Text
  | .null => "null".toList
  | .string text => quote text
  | .number sent => sent.text
  | .boolean value => if value then "true".toList else "false".toList
  | .object fields => '{' :: (joinCommas (stringifyFields fields) ++ ['}'])

def stringifyFields : List (Text × Json) → List Text
  | [] => []
  | (key, value) :: rest => (quote key ++ ':' :: value.stringify) :: stringifyFields rest

end

mutual

/-- The value in the harness. -/
def value : Json → JsonValue
  | .null => .null
  | .string text => .str (utf8 text)
  | .number sent => .num sent.value
  | .boolean value => .bool value
  | .object fields => .obj (valueFields fields)

def valueFields : List (Text × Json) → List (Bytes × JsonValue)
  | [] => []
  | (key, json) :: rest => (utf8 key, json.value) :: valueFields rest

end

end Json

/-- A character of the text of a number. -/
def isNumberChar (c : Char) : Bool :=
  c.isDigit || c == '-' || c == '+' || c == '.' || c == 'e'

/-- `strtod` reads the number from its text. -/
structure Number.Travels (strtod : Bytes → Rat) (number : Number) : Prop where
  nonempty : number.text ≠ []
  spelled : ∀ c ∈ number.text, isNumberChar c = true
  read : strtod (utf8 number.text) = number.value

/-- The numbers in the value are read from their texts, and the keys of an object are
distinct. -/
inductive Json.Travels (strtod : Bytes → Rat) : Json → Prop
  | null : Travels strtod .null
  | string {text} : Travels strtod (.string text)
  | number {number : Number} : number.Travels strtod → Travels strtod (.number number)
  | boolean {value} : Travels strtod (.boolean value)
  | object {fields} : (fields.map fun field => utf8 field.1).Nodup →
      (∀ field ∈ fields, Travels strtod field.2) → Travels strtod (.object fields)

/-! ## Requests -/

/-- The methods of the client that send something, with their arguments. -/
inductive Request where
  | compile (source : Text)
  | run (source : Text) (limits : Option Json)
  | cancel
  | reset
  | setSensor (sensor : Text) (value : Json)

/-- Whether a condition holds that is this value. -/
def Json.truthy : Json → Bool
  | .null => false
  | .string text => !text.isEmpty
  | .number sent => sent.value ≠ 0
  | .boolean value => value
  | .object _ => true

/-- What each method of the client hands to `send`. -/
def Request.json : Request → Json
  | .compile source =>
      .object [("type".toList, .string "compile".toList), ("source".toList, .string source)]
  | .run source limits =>
      .object ([("type".toList, .string "run".toList), ("source".toList, .string source)] ++
        ((limits.filter Json.truthy).map fun limits => ("limits".toList, limits)).toList)
  | .cancel => .object [("type".toList, .string "cancel".toList)]
  | .reset => .object [("type".toList, .string "reset".toList)]
  | .setSensor sensor value =>
      .object [("type".toList, .string "setSensor".toList), ("sensor".toList, .string sensor),
        ("value".toList, value)]

/-- The data of the message. -/
def Request.text (request : Request) : Text :=
  request.json.stringify

/-- The arguments travel. -/
def Request.Travels (strtod : Bytes → Rat) : Request → Prop
  | .run _ (some limits) => limits.Travels strtod
  | .setSensor _ value => value.Travels strtod
  | _ => True

/-! ## What arrives -/

def Json.field (json : Json) (key : String) : Option Json :=
  match json with
  | .object fields => fields.lookup key.toList
  | _ => none

section Arrivals

variable (beyond : Rat → Int64)

/-- A number arrives without its fraction, and as anything beyond 64 bits. Anything else
arrives as zero where an integer is wanted. -/
def Json.integer : Json → Int64
  | .number sent =>
      if InInt64 (sent.value.num.tdiv sent.value.den) then
        Int64.ofInt (sent.value.num.tdiv sent.value.den)
      else beyond sent.value
  | _ => 0

/-- The lowest 32 bits. -/
def Json.distance (json : Json) : Int32 :=
  Int32.ofInt (json.integer beyond).toInt

def Json.limit (json : Json) : UInt32 :=
  UInt32.ofInt (json.integer beyond).toInt

def Json.flag : Json → Bool
  | .boolean value => value
  | .number sent => sent.value ≠ 0
  | _ => false

/-- A limit that is not given arrives as the default. -/
def Json.limitAt (json : Json) (key : String) (default : UInt32) : UInt32 :=
  match json.field key with
  | some limit => limit.limit beyond
  | none => default

def limitsArriving : Option Json → ExecutionLimits
  | none => { maxTotalSteps := 1000, maxRepeatCount := 100, maxCallDepth := 64 }
  | some limits =>
      { maxTotalSteps := limits.limitAt beyond "maxTotalSteps" 1000
        maxRepeatCount := limits.limitAt beyond "maxRepeatCount" 100
        maxCallDepth := limits.limitAt beyond "maxCallDepth" 64 }

/-- What a request asks for when it arrives. -/
def Request.wish : Request → Wish
  | .compile source => .compile (utf8 source)
  | .run source limits => .run ⟨utf8 source, limitsArriving beyond limits⟩
  | .cancel => .cancel
  | .reset =>
      .store [.distanceCm 1000, .button false, .lineLeft false, .lineRight false]
  | .setSensor sensor value =>
      if sensor = "distance-cm".toList then .store [.distanceCm (value.distance beyond)]
      else if sensor = "button".toList then .store [.button value.flag]
      else if sensor = "line-left".toList then .store [.lineLeft value.flag]
      else if sensor = "line-right".toList then .store [.lineRight value.flag]
      else .nothing ("setSensor: unknown sensor '" ++ textOf (utf8 sensor) ++ "'")

end Arrivals

/-! ## Strings -/

theorem utf8_cons (c : Char) (rest : Text) :
    utf8 (c :: rest) = String.utf8EncodeChar c ++ utf8 rest :=
  List.flatMap_cons

theorem utf8_append (first second : Text) : utf8 (first ++ second) = utf8 first ++ utf8 second :=
  List.flatMap_append

theorem utf8_ascii {text : Text} (ascii : ∀ c ∈ text, c.toNat < 128) :
    utf8 text = text.map Char.toUInt8 := by
  induction text with
  | nil => rfl
  | cons c rest induction =>
      rw [utf8_cons, ascii_encoded (ascii c List.mem_cons_self),
        induction fun other member => ascii other (List.mem_cons_of_mem c member)]
      rfl

/-- The harness knows every letter that may stand behind the backslash. -/
theorem shortEscape_known {c letter : Char} (short : shortEscape c = some letter) :
    unescape letter.toUInt8 = some c.toUInt8 ∧ utf8 ['\\', letter] = [byte '\\', letter.toUInt8] ∧
      String.utf8EncodeChar c = [c.toUInt8] := by
  unfold shortEscape at short
  split_ifs at short with quote slash back tab feed form carriage
  all_goals
    cases short
    subst_vars
    decide

theorem shortEscape_none {c : Char} (long : shortEscape c = none) : c ≠ '"' ∧ c ≠ '\\' := by
  unfold shortEscape at long
  split_ifs at long with quote slash
  exact ⟨quote, slash⟩

/-- The digits of a control character. -/
theorem control_digits : ∀ code : Fin 32,
    hexValues [byte '0', byte '0', (hexChar (code / 16)).toUInt8, (hexChar (code % 16)).toUInt8] 0 =
        some (UInt32.ofNat code) ∧
      utf8 ['\\', 'u', '0', '0', hexChar (code / 16), hexChar (code % 16)] =
        [byte '\\', byte 'u', byte '0', byte '0', (hexChar (code / 16)).toUInt8,
          (hexChar (code % 16)).toUInt8] ∧
      encodeCodePoint (UInt32.ofNat code) = String.utf8EncodeChar (Char.ofNat code) ∧
      UInt32.ofNat code < 0xD800 := by
  decide +kernel

theorem quoteChar_spelled (c : Char) : ∃ spelled : SpelledChar,
    spelled.write = utf8 (quoteChar c) ∧ spelled.decoded = String.utf8EncodeChar c := by
  rw [quoteChar]
  cases short : shortEscape c with
  | some letter =>
      rcases shortEscape_known short with ⟨known, written, meant⟩
      exact ⟨.short letter.toUInt8 c.toUInt8 known, written.symm, meant.symm⟩
  | none =>
      dsimp only
      by_cases control : c.toNat < 32
      · rcases control_digits ⟨c.toNat, control⟩ with ⟨denotes, written, meant, scalar⟩
        rw [Char.ofNat_toNat] at meant
        rw [if_pos control]
        exact ⟨.unit ⟨_, _, _, _, _, denotes⟩ (.inl scalar), written.symm, meant⟩
      · rcases shortEscape_none short with ⟨unquoted, unescaped⟩
        rw [if_neg control, utf8_cons]
        exact ⟨.plain c unquoted unescaped, (List.append_nil _).symm, rfl⟩

theorem text_spelled (text : Text) : ∃ spelled : SpelledText,
    spelled.write = utf8 (text.flatMap quoteChar) ∧ spelled.decoded = utf8 text := by
  induction text with
  | nil => exact ⟨[], rfl, rfl⟩
  | cons c rest induction =>
      rcases quoteChar_spelled c with ⟨first, firstWritten, firstMeant⟩
      rcases induction with ⟨others, written, meant⟩
      refine ⟨first :: others, ?_, ?_⟩
      · rw [SpelledText.write, List.flatMap_cons, ← SpelledText.write, firstWritten, written,
          ← utf8_append, List.flatMap_cons]
      · rw [SpelledText.decoded, List.flatMap_cons, ← SpelledText.decoded, firstMeant, meant,
          utf8_cons]

/-- A quoted text is a JSON string of this text. -/
theorem quote_spelled (text : Text) : ∃ spelled : SpelledText,
    spelled.quoted = utf8 (quote text) ∧ spelled.decoded = utf8 text := by
  rcases text_spelled text with ⟨spelled, written, meant⟩
  refine ⟨spelled, ?_, meant⟩
  rw [SpelledText.quoted, written, quote, utf8_cons, utf8_append]
  rfl

/-! ## Values -/

theorem numberChar_range {c : Char} (isNumber : isNumberChar c = true) :
    32 ≤ c.toNat ∧ c.toNat < 128 ∧ isNumberByte c.toUInt8 = true := by
  simp only [isNumberChar, Bool.or_eq_true, beq_iff_eq] at isNumber
  rcases isNumber with (((isDigit | rfl) | rfl) | rfl) | rfl
  · have range := (digit_code isDigit).1
    exact ⟨by omega, by omega, digit_byte isDigit⟩
  all_goals decide

theorem Number.Travels.bytes {strtod : Bytes → Rat} {number : Number}
    (travels : number.Travels strtod) :
    utf8 number.text ≠ [] ∧ ∀ c ∈ utf8 number.text, isNumberByte c = true := by
  have ascii : utf8 number.text = number.text.map Char.toUInt8 :=
    utf8_ascii fun c member => (numberChar_range (travels.spelled c member)).2.1
  rw [ascii]
  constructor
  · intro empty
    exact travels.nonempty (List.map_eq_nil_iff.mp empty)
  · exact List.forall_mem_map.mpr fun c member =>
      (numberChar_range (travels.spelled c member)).2.2

theorem utf8_joinCommas (texts : List Text) :
    utf8 (joinCommas texts) = commaSeparated (texts.map utf8) := by
  induction texts with
  | nil => rfl
  | cons text rest induction =>
      cases rest with
      | nil => rfl
      | cons next rest =>
          rw [joinCommas, utf8_append, utf8_cons, induction]
          · rfl
          · exact nofun

namespace Json

/-- A field of an object as it is sent. -/
def fieldText (field : Text × Json) : Text :=
  quote field.1 ++ ':' :: field.2.stringify

theorem stringifyFields_eq (fields : List (Text × Json)) :
    stringifyFields fields = fields.map fieldText := by
  induction fields with
  | nil => rfl
  | cons field rest induction => rw [stringifyFields, induction, List.map_cons, fieldText]

theorem valueFields_eq (fields : List (Text × Json)) :
    valueFields fields = fields.map fun field => (utf8 field.1, field.2.value) := by
  induction fields with
  | nil => rfl
  | cons field rest induction => rw [valueFields, induction, List.map_cons]

section Reading

variable {strtod : Bytes → Rat}

theorem fieldText_opens (field : Text × Json) :
    ∃ tail, skipWs (utf8 (fieldText field)) = byte '"' :: tail := by
  have opened : utf8 (fieldText field) =
      byte '"' :: utf8 (field.1.flatMap quoteChar ++ ['"'] ++ ':' :: field.2.stringify) := by
    rw [fieldText, quote, List.cons_append, utf8_cons]
    rfl
  rw [opened, skipWs_cons (by decide)]
  exact ⟨_, rfl⟩

theorem fieldText_reads {field : Text × Json}
    (reads : ReadAs strtod (utf8 field.2.stringify) field.2.value) :
    ReadsField strtod (utf8 (fieldText field)) (utf8 field.1) field.2.value := by
  rcases quote_spelled field.1 with ⟨spelled, written, meant⟩
  have apart : utf8 (fieldText field) = spelled.quoted ++ byte ':' :: utf8 field.2.stringify := by
    rw [fieldText, utf8_append, utf8_cons, written]
    rfl
  rw [apart, ← meant]
  apply field_reads _ reads.reads
  intro rest
  refine ⟨byte ':' :: rest, ?_, skipWs_cons (by decide)⟩
  rw [skipWs_quoted, parseString_spelled]

theorem null_readAs : ReadAs strtod (bytes "null") .null := by
  intro fuel rest enough _
  cases fuel with
  | zero => omega
  | succ fuel => rfl

/-- The harness reads a value as the browser writes it, whatever follows. -/
theorem Travels.readAs {json : Json} (travels : json.Travels strtod) :
    ReadAs strtod (utf8 json.stringify) json.value := by
  induction travels with
  | null => exact null_readAs
  | @string text =>
      rcases quote_spelled text with ⟨spelled, written, meant⟩
      rw [stringify, value, ← written, ← meant]
      exact Document.quoted_readAs spelled
  | @number number travels =>
      rcases travels.bytes with ⟨nonempty, digits⟩
      rw [stringify, value, ← travels.read]
      exact num_readAs nonempty digits
  | @boolean flag =>
      have text : utf8 (Json.boolean flag).stringify = jbool flag := by
        cases flag <;> decide
      rw [text, value]
      exact bool_readAs flag
  | @object fields distinct _ induction =>
      have read := @object_readAs strtod []
        (fields.map fun field => (utf8 (fieldText field), utf8 field.1, field.2.value)) nofun
        (List.forall_mem_map.mpr fun field _ => fieldText_opens field)
        (List.forall_mem_map.mpr fun field inside => fieldText_reads (induction field inside))
      rw [List.map_map, List.map_map, collected_distinct (by rw [List.map_map]; exact distinct),
        List.nil_append, List.nil_append] at read
      have written : utf8 (Json.object fields).stringify = byte '{' ::
          (commaSeparated (fields.map fun field => utf8 (fieldText field)) ++ [byte '}']) := by
        rw [stringify, stringifyFields_eq, utf8_cons, utf8_append, utf8_joinCommas, List.map_map]
        rfl
      rw [written, value, valueFields_eq]
      exact read

theorem Travels.parsed {json : Json} (travels : json.Travels strtod) :
    jsonParse strtod (utf8 json.stringify) = some json.value := by
  have read := travels.readAs ((utf8 json.stringify).length + 1) [] (Nat.lt_succ_self _) nofun
  rw [List.append_nil] at read
  rw [jsonParse, parseText, read]
  rfl

end Reading

end Json

/-! ## No control characters -/

theorem solid_of_all {text : Text} (all : text.all (fun c => 32 ≤ c.toNat) = true) :
    ∀ c ∈ text, 32 ≤ c.toNat :=
  fun c member => of_decide_eq_true (List.all_eq_true.mp all c member)

theorem shortEscape_solid {c letter : Char} (short : shortEscape c = some letter) :
    ∀ d ∈ ['\\', letter], 32 ≤ d.toNat := by
  unfold shortEscape at short
  split_ifs at short
  all_goals
    cases short
    exact solid_of_all (by decide)

theorem quoteChar_solid (c : Char) : ∀ d ∈ quoteChar c, 32 ≤ d.toNat := by
  have control : ∀ code : Fin 32,
      (quoteChar (Char.ofNat code)).all (fun d => 32 ≤ d.toNat) = true := by
    decide +kernel
  by_cases low : c.toNat < 32
  · have solid := control ⟨c.toNat, low⟩
    rw [Char.ofNat_toNat] at solid
    exact solid_of_all solid
  · rw [quoteChar]
    split
    next letter short => exact shortEscape_solid short
    next =>
      rw [if_neg low]
      exact List.forall_mem_singleton.mpr (Nat.le_of_not_lt low)

theorem quote_solid (text : Text) : ∀ c ∈ quote text, 32 ≤ c.toNat := by
  intro c member
  rcases List.mem_cons.mp member with rfl | inside
  · decide
  · rcases List.mem_append.mp inside with inside | last
    · rcases List.mem_flatMap.mp inside with ⟨quoted, -, inside⟩
      exact quoteChar_solid quoted c inside
    · rw [List.mem_singleton.mp last]
      decide

theorem joinCommas_solid {texts : List Text} (each : ∀ text ∈ texts, ∀ c ∈ text, 32 ≤ c.toNat) :
    ∀ c ∈ joinCommas texts, 32 ≤ c.toNat := by
  induction texts with
  | nil => exact nofun
  | cons text rest induction =>
      rcases List.forall_mem_cons.mp each with ⟨first, others⟩
      cases rest with
      | nil => exact first
      | cons next rest =>
          intro c member
          rcases List.mem_append.mp member with inside | after
          · exact first c inside
          · rcases List.mem_cons.mp after with rfl | inside
            · decide
            · exact induction others c inside

theorem Json.Travels.solid {strtod : Bytes → Rat} {json : Json} (travels : json.Travels strtod) :
    ∀ c ∈ json.stringify, 32 ≤ c.toNat := by
  induction travels with
  | null => exact solid_of_all (by decide)
  | string => exact quote_solid _
  | number travels => exact fun c member => (numberChar_range (travels.spelled c member)).1
  | @boolean flag => cases flag <;> exact solid_of_all (by decide)
  | @object fields _ _ induction =>
      have field : ∀ text ∈ fields.map fieldText, ∀ c ∈ text, 32 ≤ c.toNat := by
        intro text member c inside
        rcases List.mem_map.mp member with ⟨field, found, rfl⟩
        rcases List.mem_append.mp inside with name | value
        · exact quote_solid _ c name
        · rcases List.mem_cons.mp value with rfl | value
          · decide
          · exact induction field found c value
      intro c member
      rw [stringify, stringifyFields_eq] at member
      rcases List.mem_cons.mp member with rfl | member
      · decide
      · rcases List.mem_append.mp member with inside | last
        · exact joinCommas_solid field c inside
        · rw [List.mem_singleton.mp last]
          decide

/-! ## What the bridge makes of a request -/

section Arriving

variable {strtod : Bytes → Rat} {beyond : Rat → Int64}

theorem Request.json_travels {request : Request} (travels : request.Travels strtod) :
    request.json.Travels strtod := by
  cases request with
  | compile source =>
      have distinct : (["type", "source"].map fun name => utf8 name.toList).Nodup := by
        decide
      exact .object distinct
        (List.forall_mem_cons.mpr ⟨.string, List.forall_mem_singleton.mpr .string⟩)
  | run source limits =>
      rw [Request.json]
      cases given : limits.filter Json.truthy with
      | none =>
          have distinct : (["type", "source"].map fun name => utf8 name.toList).Nodup := by
            decide
          exact .object distinct
            (List.forall_mem_cons.mpr ⟨.string, List.forall_mem_singleton.mpr .string⟩)
      | some json =>
          rw [(Option.filter_eq_some_iff.mp given).1] at travels
          have distinct : (["type", "source", "limits"].map fun name =>
              utf8 name.toList).Nodup := by
            decide
          exact .object distinct (List.forall_mem_cons.mpr ⟨.string, List.forall_mem_cons.mpr
            ⟨.string, List.forall_mem_singleton.mpr travels⟩⟩)
  | cancel | reset =>
      have distinct : (["type"].map fun name => utf8 name.toList).Nodup := by
        decide
      exact .object distinct (List.forall_mem_singleton.mpr .string)
  | setSensor sensor value =>
      have distinct : (["type", "sensor", "value"].map fun name => utf8 name.toList).Nodup := by
        decide
      exact .object distinct (List.forall_mem_cons.mpr ⟨.string, List.forall_mem_cons.mpr
        ⟨.string, List.forall_mem_singleton.mpr travels⟩⟩)

theorem asInt_value (json : Json) : json.value.asInt beyond = json.integer beyond := by
  cases json <;> rfl

theorem asBool_value (json : Json) : json.value.asBool = json.flag := by
  cases json <;> rfl

theorem utf8_injective {first second : Text} (same : utf8 first = utf8 second) :
    first = second := by
  have decoded := congrArg decodeUtf8 same
  rwa [utf8, utf8, decodeUtf8_encoded, decodeUtf8_encoded] at decoded

theorem lookup_value (fields : List (Text × Json)) (key : Text) :
    (Json.valueFields fields).lookup (utf8 key) = (fields.lookup key).map Json.value := by
  induction fields with
  | nil => rfl
  | cons field rest induction =>
      rcases field with ⟨name, json⟩
      rw [Json.valueFields, List.lookup_cons, List.lookup_cons, induction]
      have tests : (utf8 key == utf8 name) = (key == name) := by
        rw [Bool.eq_iff_iff, beq_iff_eq, beq_iff_eq]
        exact ⟨utf8_injective, congrArg utf8⟩
      rw [tests]
      cases key == name <;> rfl

/-- A field is found under its name. -/
theorem find_value (json : Json) {key : String} (ascii : bytes key = utf8 key.toList) :
    json.value.find key = (json.field key).map Json.value := by
  cases json with
  | object fields =>
      rw [Json.value, JsonValue.find, ascii]
      exact lookup_value fields key.toList
  | null | string | number | boolean => rfl

theorem parseLimit_value (limits : Json) {key : String} (default : UInt32)
    (ascii : bytes key = utf8 key.toList) :
    parseLimit beyond limits.value key default = limits.limitAt beyond key default := by
  rw [parseLimit, find_value limits ascii, Json.limitAt]
  cases limits.field key with
  | none => rfl
  | some limit =>
      change UInt32.ofInt (limit.value.asInt beyond).toInt = limit.limit beyond
      rw [asInt_value, Json.limit]

theorem parseLimits_value (limits : Option Json) :
    parseLimits beyond (limits.map Json.value) = limitsArriving beyond limits := by
  cases limits with
  | none => rfl
  | some limits =>
      rw [Option.map_some, parseLimits, limitsArriving]
      dsimp only
      rw [parseLimit_value limits _ (by decide), parseLimit_value limits _ (by decide),
        parseLimit_value limits _ (by decide)]

/-- Limits that are not sent would have given none. -/
theorem limitsArriving_filter (limits : Option Json) :
    limitsArriving beyond (limits.filter Json.truthy) = limitsArriving beyond limits := by
  cases limits with
  | none => rfl
  | some json =>
      cases json with
      | object => rfl
      | null | string | number | boolean => rw [Option.filter_some]; split <;> rfl

theorem utf8_eq_bytes {key : String} (ascii : bytes key = utf8 key.toList) (text : Text) :
    utf8 text = bytes key ↔ text = key.toList := by
  rw [ascii]
  exact ⟨utf8_injective, congrArg utf8⟩

theorem doSetSensor_value {message : JsonValue} {sensor : Text} {json : Json}
    (sensorFound : message.find "sensor" = some (.str (utf8 sensor)))
    (valueFound : message.find "value" = some json.value) :
    doSetSensor beyond message = ((Request.setSensor sensor json).wish beyond).control := by
  rw [doSetSensor.eq_def, sensorFound, valueFound]
  dsimp only [JsonValue.asStr]
  rw [asInt_value, asBool_value, Request.wish]
  simp only [utf8_eq_bytes (by decide : bytes "distance-cm" = _),
    utf8_eq_bytes (by decide : bytes "button" = _),
    utf8_eq_bytes (by decide : bytes "line-left" = _),
    utf8_eq_bytes (by decide : bytes "line-right" = _)]
  split_ifs <;> rfl

/-- The bridge does what a request asks for when it arrives. -/
theorem Request.handled (request : Request) :
    handle beyond (some request.json.value) = (request.wish beyond).control := by
  cases request with
  | compile source | cancel | reset => rfl
  | run source limits =>
      have given : handle beyond (some (run source limits).json.value) =
          .exchanges ⟨utf8 source,
            parseLimits beyond ((limits.filter Json.truthy).map Json.value)⟩ := by
        rw [json]
        cases limits.filter Json.truthy <;> rfl
      rw [given, parseLimits_value, limitsArriving_filter]
      rfl
  | setSensor sensor value =>
      have sets : handle beyond (some (setSensor sensor value).json.value) =
          doSetSensor beyond (setSensor sensor value).json.value := rfl
      rw [sets]
      exact doSetSensor_value rfl rfl

/-- Whatever the client asks for, the bridge is about to do. -/
theorem Request.understood {request : Request} (travels : request.Travels strtod) :
    handle beyond (jsonParse strtod (utf8 request.text)) = (request.wish beyond).control := by
  rw [Request.text, (request.json_travels travels).parsed, request.handled]

theorem integer_whole {sent : Number} {whole : Int} (same : sent.value = whole)
    (inside : InInt64 whole) : ((Json.number sent).integer beyond).toInt = whole := by
  rw [← asInt_value, Json.value, same]
  exact asInt_whole inside

/-- A distance arrives as it was sent exactly where it is an integer of 32 bits. -/
theorem distance_kept_iff (beyond : Rat → Int64) (sent : Number) :
    (((Json.number sent).distance beyond).toInt : Rat) = sent.value ↔
      ∃ whole : Int, sent.value = whole ∧ -2 ^ 31 ≤ whole ∧ whole < 2 ^ 31 := by
  constructor
  · intro kept
    exact ⟨_, kept.symm, Int32.le_toInt _, Int32.toInt_lt _⟩
  · intro whole
    rcases whole with ⟨whole, same, lower, upper⟩
    rw [Json.distance, integer_whole same ⟨by omega, by omega⟩,
      Int32.toInt_ofInt_of_le (by omega) (by omega), same]

/-- So does a limit exactly where it is a natural number of 32 bits. -/
theorem limit_kept_iff (beyond : Rat → Int64) (sent : Number) :
    (((Json.number sent).limit beyond).toNat : Rat) = sent.value ↔
      ∃ whole : Nat, sent.value = whole ∧ whole < 2 ^ 32 := by
  constructor
  · intro kept
    exact ⟨_, kept.symm, UInt32.toNat_lt _⟩
  · intro whole
    rcases whole with ⟨whole, same, upper⟩
    have integer := @integer_whole beyond sent whole (by rw [same]; rfl) ⟨by omega, by omega⟩
    have kept : (UInt32.ofInt (whole : Int)).toNat = whole := by
      rw [UInt32.ofInt, UInt32.toNat_ofNat']
      omega
    rw [Json.limit, integer, kept, same]

end Arriving

end CardCode.App
