import CardCode.Harness.Dispatch
import CardCode.Harness.JsonRoundTrip
import CardCode.Semantics.Safety

/-! # The limits of a run request

What becomes of the numbers a run request gives for its limits, from the text of the
message to the run. A number is narrowed to 32 bits unchecked, so a negative one can
turn into a limit that limits nothing.
-/

namespace CardCode.Harness

open Process

/-! ## Requests -/

/-- The integers a run request gives for its limits. -/
structure Given where
  maxTotalSteps : Option Int := none
  maxRepeatCount : Option Int := none
  maxCallDepth : Option Int := none

/-- The field holds the number, if there is one, and a `double` holds it exactly. -/
def Gives (limits : JsonValue) (key : String) (number : Option Int) : Prop :=
  limits.find key = number.map (fun given => .num given) ∧
    ∀ given ∈ number, given.natAbs ≤ 2 ^ 53

def limitsOf (message : Option JsonValue) : JsonValue :=
  (message.bind fun value => value.find "limits").getD .null

/-- The message gives these numbers for the limits and no others. -/
structure Asks (message : Option JsonValue) (given : Given) : Prop where
  steps : Gives (limitsOf message) "maxTotalSteps" given.maxTotalSteps
  rounds : Gives (limitsOf message) "maxRepeatCount" given.maxRepeatCount
  depth : Gives (limitsOf message) "maxCallDepth" given.maxCallDepth

/-! ## Limits that are honoured -/

/-- The engine's own limit where no number is given, and otherwise none that is
larger than the number. -/
def LimitFor (number : Option Int) (default limit : UInt32) : Prop :=
  match number with
  | none => limit = default
  | some given => (limit.toNat : Int) ≤ max given 0

def isNodeStart : Action → Bool
  | .emit .nodeStart _ _ => true
  | _ => false

/-- A run stays within the numbers given. -/
structure Within (given : Given) (env : Env) (trace : Trace) : Prop where
  starts : ∀ number ∈ given.maxTotalSteps,
    (trace.countP isNodeStart : Int) ≤ max number 0
  rounds : ∀ number ∈ given.maxRepeatCount, ∀ fuel node before inner value after,
    node.kind = .repeatForm →
    Performs (evalInner env (eval env fuel) fuel node) before inner value after →
    Repeats (eval env fuel) (max number 0).toNat node before inner after
  frames : ∀ number ∈ given.maxCallDepth, ∀ start, start <+: trace →
    liveFrames start ≤ max number 0

/-- The run a job asks for honours the numbers given, whatever its program. -/
structure Job.Honours (job : Job) (given : Given) : Prop where
  steps : LimitFor given.maxTotalSteps ({} : ExecutionLimits).maxTotalSteps
    job.limits.maxTotalSteps
  rounds : LimitFor given.maxRepeatCount ({} : ExecutionLimits).maxRepeatCount
    job.limits.maxRepeatCount
  depth : LimitFor given.maxCallDepth ({} : ExecutionLimits).maxCallDepth
    job.limits.maxCallDepth
  runs : ∀ (program : Program) (overflow : String → Int64 → Int64 → Int64)
      (trace : Trace) (outcome : Except Fault ExecutionResult),
    program.source = job.source →
    Run (execute { limits := job.limits, overflow } program.root) trace outcome →
    Within given (program.env { limits := job.limits, overflow }) trace

/-- Every number given is zero or more, or a multiple of 2^32. -/
def Given.Survives (given : Given) : Prop :=
  ∀ number, number ∈ given.maxTotalSteps ∨ number ∈ given.maxRepeatCount ∨
    number ∈ given.maxCallDepth → 0 ≤ number ∨ (2 ^ 32 : Int) ∣ number

/-! ## From the message to the limits -/

theorem handle_exchanges {beyond : Rat → Int64} {message : Option JsonValue} {job : Job}
    (handled : handle beyond message = .exchanges job) :
    LimitsOf (message.bind fun value => value.find "limits") job.limits := by
  rcases @handle_wants beyond message with ⟨wish, wants, does⟩
  rw [handled] at does
  have same : Wish.run job = wish := Wish.control_injective does
  cases same
  cases wants with
  | typed _ wantsAs =>
      cases wantsAs with
      | run _ limits => exact limits

theorem LimitsOf.each {fields : Option JsonValue} {limits : ExecutionLimits}
    (limitsOf : LimitsOf fields limits) :
    LimitOf (fields.getD .null) "maxTotalSteps" 1000 limits.maxTotalSteps ∧
      LimitOf (fields.getD .null) "maxRepeatCount" 100 limits.maxRepeatCount ∧
      LimitOf (fields.getD .null) "maxCallDepth" 64 limits.maxCallDepth := by
  cases limitsOf with
  | absent => exact ⟨.absent rfl, .absent rfl, .absent rfl⟩
  | given steps rounds depth => exact ⟨steps, rounds, depth⟩

/-- On its way through `long long` and `uint32_t` a number is kept modulo 2^32. -/
theorem narrowed_number {number : Int} {value : Int64} (small : number.natAbs ≤ 2 ^ 53)
    (integer : IntegerOf (.num number) value) :
    ((UInt32.ofInt value.toInt).toNat : Int) = number % 2 ^ 32 := by
  have whole : ((number : Rat).num.tdiv (number : Rat).den) = number := by
    rw [Rat.num_intCast, Rat.den_intCast, Nat.cast_one, Int.tdiv_one]
  have held : value.toInt = number := by
    cases integer with
    | whole => rw [whole, Int64.toInt_ofInt_of_le (by omega) (by omega)]
    | beyond outside =>
        rw [whole] at outside
        exact absurd ⟨by omega, by omega⟩ outside
    | other none => exact absurd rfl (none _)
  have positive : 0 ≤ number % 2 ^ 32 := Int.emod_nonneg number (by decide)
  have below : number % 2 ^ 32 < 2 ^ 32 := Int.emod_lt_of_pos number (by decide)
  rw [held, UInt32.ofInt, UInt32.toNat_ofNat']
  omega

theorem limitFor_iff {limits : JsonValue} {key : String} {number : Option Int}
    {default limit : UInt32} (gives : Gives limits key number)
    (limitOf : LimitOf limits key default limit) :
    LimitFor number default limit ↔ ∀ given ∈ number, 0 ≤ given ∨ (2 ^ 32 : Int) ∣ given := by
  rcases gives with ⟨found, small⟩
  cases number with
  | none =>
      cases limitOf with
      | given stands => cases found.symm.trans stands
      | absent =>
          constructor
          · intro _ given member
            cases member
          · exact fun _ => rfl
  | some given =>
      cases limitOf with
      | absent missing => cases found.symm.trans missing
      | given stands integer =>
          cases found.symm.trans stands
          have narrowed := narrowed_number (small given rfl) integer
          rw [LimitFor, narrowed]
          constructor
          · intro bounded other member
            cases member
            omega
          · intro survives
            have condition := survives given rfl
            omega

/-! ## From the limits to the run -/

theorem nodeStarts_le (trace : Trace) : trace.countP isNodeStart ≤ stepsTaken trace := by
  apply List.countP_mono_left
  intro entry _ start
  rw [isNodeStart.eq_def] at start
  split at start
  · rfl
  · cases start

/-- More rounds may always be allowed. -/
theorem Repeats.mono {eval : Eval} {limit larger : Nat} {node : Node} {state reached : ExecState}
    {trace : Trace} (repeats : Repeats eval limit node state trace reached)
    (le : limit ≤ larger) : Repeats eval larger node state trace reached := by
  cases repeats with
  | halted found argRun stopped => exact .halted found argRun stopped
  | refused found argRun => exact .refused found argRun
  | ran found argRun count bounded rounds =>
      exact .ran found argRun count (Nat.le_trans bounded le) rounds

/-- A run under limits that are honoured stays within the numbers they come from. -/
theorem within_of_limits {given : Given} {limits : ExecutionLimits}
    {overflow : String → Int64 → Int64 → Int64} (program : Program) {trace : Trace}
    {outcome : Except Fault ExecutionResult} {steps rounds depth : UInt32}
    (stepLimit : LimitFor given.maxTotalSteps steps limits.maxTotalSteps)
    (roundLimit : LimitFor given.maxRepeatCount rounds limits.maxRepeatCount)
    (depthLimit : LimitFor given.maxCallDepth depth limits.maxCallDepth)
    (run : Run (execute { limits, overflow } program.root) trace outcome) :
    Within given (program.env { limits, overflow }) trace := by
  have bounded := (program.run_bounded { limits, overflow } run).2.1
  constructor
  · intro number asked
    rw [Option.mem_def.mp asked] at stepLimit
    have starts := nodeStarts_le trace
    have steps := (bounded trace (List.prefix_refl trace)).1
    have limit : (limits.maxTotalSteps.toNat : Int) ≤ max number 0 := stepLimit
    dsimp only at steps
    omega
  · intro number asked fuel node before inner value after kind innerRun
    rw [Option.mem_def.mp asked] at roundLimit
    rw [evalInner.eq_def, kind] at innerRun
    have limit : (limits.maxRepeatCount.toNat : Int) ≤ max number 0 := roundLimit
    have repeats := evalRepeat_repeats innerRun
    exact Repeats.mono repeats (by change limits.maxRepeatCount.toNat ≤ _; omega)
  · intro number asked start isPrefix
    rw [Option.mem_def.mp asked] at depthLimit
    have frames := (bounded start isPrefix).2
    have limit : (limits.maxCallDepth.toNat : Int) ≤ max number 0 := depthLimit
    dsimp only at frames
    omega

/-- The numbers of a run request are honoured exactly where none of them is
negative, but for the negative multiples of 2^32. -/
theorem limits_honoured_iff {strtod : Bytes → Rat} {beyond : Rat → Int64} {text : Bytes}
    {job : Job} {given : Given}
    (handled : handle beyond (jsonParse strtod text) = .exchanges job)
    (asks : Asks (jsonParse strtod text) given) :
    job.Honours given ↔ given.Survives := by
  rcases (handle_exchanges handled).each with ⟨stepsOf, roundsOf, depthOf⟩
  have steps := limitFor_iff asks.steps stepsOf
  have rounds := limitFor_iff asks.rounds roundsOf
  have depth := limitFor_iff asks.depth depthOf
  constructor
  · intro honours number asked
    rcases asked with asked | asked | asked
    · exact steps.mp honours.steps number asked
    · exact rounds.mp honours.rounds number asked
    · exact depth.mp honours.depth number asked
  · intro survives
    have stepLimit := steps.mpr fun number asked => survives number (.inl asked)
    have roundLimit := rounds.mpr fun number asked => survives number (.inr (.inl asked))
    have depthLimit := depth.mpr fun number asked => survives number (.inr (.inr asked))
    refine ⟨stepLimit, roundLimit, depthLimit, ?_⟩
    intro program overflow trace outcome _ run
    exact within_of_limits program stepLimit roundLimit depthLimit run

/-! ## Two requests -/

/-- A request to run a program under some limits. -/
def requestTree (limits : List (Bytes × JsonTree)) : JsonTree :=
  .obj [textField "type" "run", textField "source" "(beep)", (bytes "limits", .obj limits)]

def stepsTree (number : Int) : JsonTree :=
  requestTree [intField "maxTotalSteps" number]

/-- The text of a request with a step limit that a `double` holds. -/
def stepsText (number : Int) : Bytes :=
  (stepsTree number).write

def stepsJob (number : Int) : Job :=
  ⟨bytes "(beep)", { maxTotalSteps := UInt32.ofInt number }⟩

theorem stepsText_parsed {number : Int} (small : number.natAbs ≤ 2 ^ 53) :
    jsonParse readDecimal (stepsText number) = some (stepsTree number).value := by
  have writable : (stepsTree number).Exact := by
    have limits : (JsonTree.obj [intField "maxTotalSteps" number]).Exact :=
      .obj (by simp) (by simpa [intField] using JsonTree.Exact.int small)
    refine .obj ?_ (by simp [limits])
    simp only [List.map_cons, List.map_nil, textField_key]
    decide
  rw [jsonParse, stepsText, writable.parsed readDecimal_exact]
  rfl

theorem stepsText_handled {beyond : Rat → Int64} {number : Int}
    (small : number.natAbs ≤ 2 ^ 53) :
    handle beyond (jsonParse readDecimal (stepsText number)) = .exchanges (stepsJob number) := by
  rw [stepsText_parsed small]
  change Control.exchanges ⟨bytes "(beep)",
    { maxTotalSteps := UInt32.ofInt ((JsonValue.num number).asInt beyond).toInt }⟩ = _
  rw [asInt_whole ⟨by omega, by omega⟩, stepsJob]

theorem stepsText_asks {number : Int} (small : number.natAbs ≤ 2 ^ 53) :
    Asks (jsonParse readDecimal (stepsText number)) { maxTotalSteps := some number } := by
  rw [stepsText_parsed small]
  constructor
  · refine ⟨rfl, ?_⟩
    intro given member
    cases member
    exact small
  · exact ⟨rfl, fun given member => nomatch member⟩
  · exact ⟨rfl, fun given member => nomatch member⟩

theorem five_steps_honoured :
    (stepsJob 5).Honours { maxTotalSteps := some 5 } ↔
      ({ maxTotalSteps := some 5 } : Given).Survives :=
  limits_honoured_iff (@stepsText_handled (fun _ => 0) 5 (by decide)) (stepsText_asks (by decide))

/-- What the bridge runs where it is asked for minus one steps. -/
def unlimitedRun : Trace × Except Fault ExecutionResult :=
  respond (fun _ => Query.still) 0
    (execute { limits := (stepsJob (-1)).limits, overflow := calmSetting.overflow }
      beepProgram.root)

/-- Minus one is taken for a limit of 4294967295 steps, and a node is started. -/
theorem negative_limit_not_honoured :
    (∀ beyond, handle beyond (jsonParse readDecimal (stepsText (-1))) =
      .exchanges (stepsJob (-1))) ∧
      Asks (jsonParse readDecimal (stepsText (-1))) { maxTotalSteps := some (-1) } ∧
      (stepsJob (-1)).limits.maxTotalSteps = 4294967295 ∧
      Run (execute { limits := (stepsJob (-1)).limits, overflow := calmSetting.overflow }
        beepProgram.root) unlimitedRun.1 unlimitedRun.2 ∧
      unlimitedRun.1.countP isNodeStart = 1 ∧
      ¬ (stepsJob (-1)).Honours { maxTotalSteps := some (-1) } := by
  have limit : (stepsJob (-1)).limits.maxTotalSteps = 4294967295 := by decide +kernel
  refine ⟨fun _ => stepsText_handled (by decide), stepsText_asks (by decide), limit,
    run_respond _ _ 0, by decide +kernel, ?_⟩
  intro honours
  have bounded : ((stepsJob (-1)).limits.maxTotalSteps.toNat : Int) ≤ max (-1) 0 := honours.steps
  rw [limit] at bounded
  exact absurd bounded (by decide)

end CardCode.Harness
