import CardCode.Harness.ProtocolBridge

/-! # What a message asks for

The control thread looks at the fields of a message to find out what to do. Here this is
said field by field, and the code that looks at them does what is said.
-/

namespace CardCode.Harness

/-! ## Values -/

/-- What a number may be taken for: without its fraction where that is an `int64`, and
anything beyond. -/
inductive IntegerOf : JsonValue → Int64 → Prop
  | whole {number : Rat} :
      InInt64 (number.num.tdiv number.den) →
      IntegerOf (.num number) (Int64.ofInt (number.num.tdiv number.den))
  | beyond {number : Rat} {value : Int64} :
      ¬ InInt64 (number.num.tdiv number.den) → IntegerOf (.num number) value
  | other {value : JsonValue} : (∀ number, value ≠ .num number) → IntegerOf value 0

/-- A limit: the lowest 32 bits of the number in its field, or the default. -/
inductive LimitOf (limits : JsonValue) (key : String) (default : UInt32) : UInt32 → Prop
  | given {field value} :
      limits.find key = some field → IntegerOf field value →
      LimitOf limits key default (UInt32.ofInt value.toInt)
  | absent : limits.find key = none → LimitOf limits key default default

inductive LimitsOf : Option JsonValue → ExecutionLimits → Prop
  | absent : LimitsOf none {}
  | given {fields : JsonValue} {limits : ExecutionLimits} :
      LimitOf fields "maxTotalSteps" 1000 limits.maxTotalSteps →
      LimitOf fields "maxRepeatCount" 100 limits.maxRepeatCount →
      LimitOf fields "maxCallDepth" 64 limits.maxCallDepth → LimitsOf (some fields) limits

/-- What is stored in the sensor of this name for a value. -/
inductive ReadingOf (value : JsonValue) : Bytes → SensorReading → Prop
  | distanceCm {distance} :
      IntegerOf value distance →
      ReadingOf value (bytes "distance-cm") (.distanceCm (Int32.ofInt distance.toInt))
  | button : ReadingOf value (bytes "button") (.button value.asBool)
  | lineLeft : ReadingOf value (bytes "line-left") (.lineLeft value.asBool)
  | lineRight : ReadingOf value (bytes "line-right") (.lineRight value.asBool)

/-! ## Kinds of messages -/

/-- What a message asks for; nothing but a complaint where it is in no order. -/
inductive Wish where
  | compile (source : Bytes)
  | run (job : Job)
  | cancel
  | store (readings : List SensorReading)
  | nothing (complaint : String)

def sensorNames : List Bytes :=
  [bytes "distance-cm", bytes "button", bytes "line-left", bytes "line-right"]

def messageTypes : List Bytes :=
  [bytes "compile", bytes "run", bytes "cancel", bytes "setSensor", bytes "reset"]

/-- What a message of a type asks for, by its other fields. -/
inductive WantsAs (message : JsonValue) : Bytes → Wish → Prop
  | compile {source} :
      message.find "source" = some source →
      WantsAs message (bytes "compile") (.compile source.asStr)
  | compileNothing :
      message.find "source" = none →
      WantsAs message (bytes "compile") (.nothing "compile: missing 'source'")
  | run {source limits} :
      message.find "source" = some source → LimitsOf (message.find "limits") limits →
      WantsAs message (bytes "run") (.run ⟨source.asStr, limits⟩)
  | runNothing :
      message.find "source" = none →
      WantsAs message (bytes "run") (.nothing "run: missing 'source'")
  | cancel : WantsAs message (bytes "cancel") .cancel
  | setSensor {sensor value reading} :
      message.find "sensor" = some sensor → message.find "value" = some value →
      ReadingOf value sensor.asStr reading →
      WantsAs message (bytes "setSensor") (.store [reading])
  | setUnknown {sensor value} :
      message.find "sensor" = some sensor → message.find "value" = some value →
      sensor.asStr ∉ sensorNames →
      WantsAs message (bytes "setSensor")
        (.nothing ("setSensor: unknown sensor '" ++ textOf sensor.asStr ++ "'"))
  | setNothing :
      message.find "sensor" = none ∨ message.find "value" = none →
      WantsAs message (bytes "setSensor") (.nothing "setSensor: missing 'sensor' or 'value'")
  | reset :
      WantsAs message (bytes "reset")
        (.store [.distanceCm 1000, .button false, .lineLeft false, .lineRight false])
  | unknown {type} :
      type ∉ messageTypes →
      WantsAs message type (.nothing ("unknown message type '" ++ textOf type ++ "'"))

/-- What a message asks for; `none` is one that is no JSON text. -/
inductive Wants : Option JsonValue → Wish → Prop
  | malformed {message} :
      (∀ fields, message ≠ some (.obj fields)) → Wants message (.nothing "malformed message")
  | untyped {fields} :
      (∀ type, (JsonValue.obj fields).find "type" ≠ some (.str type)) →
      Wants (some (.obj fields)) (.nothing "missing 'type'")
  | typed {fields type wish} :
      (JsonValue.obj fields).find "type" = some (.str type) → WantsAs (.obj fields) type wish →
      Wants (some (.obj fields)) wish

/-! ## What the control thread does -/

/-- What the control thread is about to do for a wish. -/
def Wish.control : Wish → Control
  | .compile source => .compiles source
  | .run job => .exchanges job
  | .cancel => .cancels
  | .store readings => .stores readings
  | .nothing complaint => .fails complaint

theorem Wish.control_injective : Function.Injective Wish.control := by
  intro first second same
  cases first <;> cases second <;> cases same <;> rfl

section Handling

variable {beyond : Rat → Int64}

theorem asInt_integerOf (value : JsonValue) : IntegerOf value (value.asInt beyond) := by
  cases value with
  | num number =>
      rw [JsonValue.asInt]
      split
      next inside => exact .whole inside
      next outside => exact .beyond outside
  | null | bool | str | arr | obj => exact .other fun _ => nofun

/-- A whole number of 64 bits is taken for what it is. -/
theorem asInt_whole {number : Int} (inside : InInt64 number) :
    ((JsonValue.num number).asInt beyond).toInt = number := by
  rcases inside with ⟨lower, upper⟩
  rw [JsonValue.asInt, Rat.num_intCast, Rat.den_intCast, Nat.cast_one, Int.tdiv_one,
    if_pos ⟨lower, upper⟩, Int64.toInt_ofInt_of_le (by omega) (by omega)]

theorem parseLimit_limitOf (limits : JsonValue) (key : String) (default : UInt32) :
    LimitOf limits key default (parseLimit beyond limits key default) := by
  rw [parseLimit]
  split
  next field found => exact .given found (asInt_integerOf field)
  next missing => exact .absent missing

theorem parseLimits_limitsOf (limits : Option JsonValue) :
    LimitsOf limits (parseLimits beyond limits) := by
  cases limits with
  | none => exact .absent
  | some fields =>
      exact .given (parseLimit_limitOf fields _ _) (parseLimit_limitOf fields _ _)
        (parseLimit_limitOf fields _ _)

theorem doCompile_wants (message : JsonValue) :
    ∃ wish, WantsAs message (bytes "compile") wish ∧ doCompile message = wish.control := by
  rw [doCompile]
  split
  next missing => exact ⟨_, .compileNothing missing, rfl⟩
  next source found => exact ⟨_, .compile found, rfl⟩

theorem doRun_wants (message : JsonValue) :
    ∃ wish, WantsAs message (bytes "run") wish ∧ doRun beyond message = wish.control := by
  rw [doRun]
  split
  next missing => exact ⟨_, .runNothing missing, rfl⟩
  next source found => exact ⟨_, .run found (parseLimits_limitsOf _), rfl⟩

theorem doSetSensor_wants (message : JsonValue) :
    ∃ wish, WantsAs message (bytes "setSensor") wish ∧
      doSetSensor beyond message = wish.control := by
  rw [doSetSensor.eq_def]
  split
  next sensor value sensorFound valueFound =>
    have sets {name : Bytes} {reading : SensorReading} (is : sensor.asStr = name)
        (read : ReadingOf value name reading) :
        WantsAs message (bytes "setSensor") (.store [reading]) :=
      .setSensor sensorFound valueFound (is ▸ read)
    dsimp only
    split_ifs with distance button left right
    · exact ⟨_, sets distance (.distanceCm (asInt_integerOf value)), rfl⟩
    · exact ⟨_, sets button .button, rfl⟩
    · exact ⟨_, sets left .lineLeft, rfl⟩
    · exact ⟨_, sets right .lineRight, rfl⟩
    · refine ⟨_, .setUnknown sensorFound valueFound ?_, rfl⟩
      simp [sensorNames, distance, button, left, right]
  next missing =>
    refine ⟨_, .setNothing ?_, rfl⟩
    cases sensorFound : message.find "sensor" with
    | none => exact .inl rfl
    | some sensor =>
        right
        cases valueFound : message.find "value" with
        | none => rfl
        | some value => exact absurd valueFound (missing sensor value sensorFound)

/-- The control thread does what the message asks for. -/
theorem handle_wants (message : Option JsonValue) :
    ∃ wish, Wants message wish ∧ handle beyond message = wish.control := by
  rw [handle.eq_def]
  split
  next fields =>
    dsimp only
    split
    next type found =>
      have typed {name : Bytes} {control : Control} (is : type = name)
          (wants : ∃ wish, WantsAs (.obj fields) name wish ∧ control = wish.control) :
          ∃ wish, Wants (some (.obj fields)) wish ∧ control = wish.control := by
        rcases wants with ⟨wish, wants, does⟩
        exact ⟨wish, .typed (is ▸ found) wants, does⟩
      split_ifs with compiles runs cancels sets resets
      · exact typed compiles (doCompile_wants _)
      · exact typed runs (doRun_wants _)
      · exact typed cancels ⟨_, .cancel, rfl⟩
      · exact typed sets (doSetSensor_wants _)
      · exact typed resets ⟨_, .reset, rfl⟩
      · refine typed rfl ⟨_, .unknown ?_, rfl⟩
        simp [messageTypes, compiles, runs, cancels, sets, resets]
    next untyped => exact ⟨_, .untyped untyped, rfl⟩
  next malformed => exact ⟨_, .malformed malformed, rfl⟩

end Handling

/-- What is stored is at least one value. -/
theorem Wants.nonempty {message : Option JsonValue} {readings : List SensorReading}
    (wants : Wants message (.store readings)) : readings ≠ [] := by
  cases wants with
  | typed _ wantsAs => cases wantsAs <;> exact List.cons_ne_nil _ _

/-- What is compiled stands in the message. -/
theorem Wants.source {message : Option JsonValue} {wish : Wish} (wants : Wants message wish)
    {source : Bytes} (about : wish = .compile source ∨ ∃ limits, wish = .run ⟨source, limits⟩) :
    ∃ value field, message = some value ∧ value.find "source" = some field ∧
      source = field.asStr := by
  cases wants with
  | malformed | untyped => rcases about with about | ⟨limits, about⟩ <;> cases about
  | typed _ wantsAs =>
      cases wantsAs with
      | compile found | run found =>
          rcases about with about | ⟨limits, about⟩
          all_goals
            cases about
            try exact ⟨_, _, rfl, found, rfl⟩
      | _ => rcases about with about | ⟨limits, about⟩ <;> cases about

end CardCode.Harness
