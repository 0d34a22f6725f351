import CardCode.Semantics.Activity
import CardCode.Semantics.Traps

/-! # What a program means

A natural semantics of the language: which values an expression yields, what it does to
the robot, which variables it leaves and where it fails. It knows no limits, no events,
no cancelling and no order of visits other than that of evaluation; what an evaluation
costs is counted beside it.
-/

namespace CardCode

/-! ## Effects, scopes and costs -/

/-- What a program does to the robot. -/
inductive Effect where
  | command (call : RobotCommand)
  | reading (reading : SensorReading)
  deriving Repr, DecidableEq

def Action.effect? : Action → Option Effect
  | .command call _ => some (.command call)
  | .sensor reading _ => some (.reading reading)
  | _ => none

def Trace.effects (trace : Trace) : List Effect :=
  trace.filterMap Action.effect?

/-- The variables in sight: those of the function that is running, if one is, and the
global ones. -/
structure Scope where
  globals : Vars := fun _ => none
  locals : Option Vars := none

namespace Scope

def find (scope : Scope) (name : String) : Option Value :=
  match scope.locals with
  | none => scope.globals name
  | some vars => (vars name).or (scope.globals name)

def define (scope : Scope) (name : String) (value : Value) : Scope :=
  match scope.locals with
  | none => { scope with globals := scope.globals.set name value }
  | some vars => { scope with locals := some (vars.set name value) }

def assign (scope : Scope) (name : String) (value : Value) : Scope :=
  match scope.locals with
  | none => { scope with globals := scope.globals.set name value }
  | some vars =>
      if (vars name).isSome then { scope with locals := some (vars.set name value) }
      else { scope with globals := scope.globals.set name value }

/-- What the body of a function sees. -/
def callee (scope : Scope) (function : Node) (values : List Value) : Scope where
  globals := scope.globals
  locals := some (bindParams function.params values fun _ => none)

/-- Back to the caller's variables. -/
def leave (scope caller : Scope) : Scope where
  globals := scope.globals
  locals := caller.locals

end Scope

/-- What an evaluation spends: steps in all, the longest `repeat` and the deepest call. -/
structure Cost where
  steps : Nat := 0
  rounds : Nat := 0
  depth : Nat := 0

namespace Cost

def andThen (first second : Cost) : Cost where
  steps := first.steps + second.steps
  rounds := max first.rounds second.rounds
  depth := max first.depth second.depth

/-- The cost of what is repeated `count` times. -/
def repeated (cost : Cost) (count : Nat) : Cost :=
  { cost with rounds := max count cost.rounds }

/-- The cost of a call whose body costs this. -/
def called (cost : Cost) : Cost :=
  { cost with depth := cost.depth + 1 }

def step : Cost where
  steps := 1

def Within (cost : Cost) (limits : ExecutionLimits) : Prop :=
  cost.steps ≤ limits.maxTotalSteps.toNat ∧ cost.rounds ≤ limits.maxRepeatCount.toNat ∧
    cost.depth ≤ limits.maxCallDepth.toNat

end Cost

def Node.charge (node : Node) : Cost :=
  if node.kind.isHighlightable then .step else {}

/-- A runtime error: the node that fails, and what it says. -/
structure Complaint where
  node : Node
  message : String

/-- What does not change while a program runs. -/
structure Machine where
  functions : String → Option Node
  overflow : String → Int64 → Int64 → Option Int64

def Env.machine (env : Env) : Machine where
  functions := env.functions
  overflow := env.overflow

def Machine.env (machine : Machine) : Env where
  functions := machine.functions
  limits := {}
  cancellable := false
  overflow := machine.overflow

/-- One operation, where it does not trap. -/
def Machine.operate (machine : Machine) (op : String) (left right : Int64) : Option Int64 :=
  machine.env.operate op left right

/-- The left fold over the operands of an arithmetic expression, where nothing traps. -/
def Machine.fold (machine : Machine) (op : String) (operands : List Int64) : Option Int64 :=
  machine.env.fold op operands

/-! ## Single expressions -/

/-- The kinds of expressions, by what they do with the values they read. -/
inductive Form where
  | value
  | command
  | sensor
  | definition
  | assignment
  | call
  | block
  | conditional
  | branch
  | counted
  | loop
  | junction
  deriving Repr, DecidableEq

namespace Node

def form (node : Node) : Form :=
  match node.kind with
  | .doForm => .block
  | .repeatForm => .counted
  | .whenForm => .conditional
  | .ifForm => .branch
  | .whileForm => .loop
  | .defineVar => .definition
  | .setVar => .assignment
  | .call => .call
  | .drive | .backward | .turnLeft | .turnRight | .stop | .wait | .light | .beep => .command
  | .distanceCm | .button | .lineLeft | .lineRight => .sensor
  | .booleanOp => if node.op = "not" then .value else .junction
  | .defineFunc | .varRef | .compare | .arithmetic | .integerLiteral | .booleanLiteral
  | .colorLiteral => .value

/-- The arguments that are read before anything else is done. -/
def operands (node : Node) : List Node :=
  match node.kind with
  | .call | .arithmetic => node.args
  | .drive | .backward | .compare => node.args.take 2
  | .repeatForm | .whenForm | .ifForm | .whileForm | .defineVar | .setVar | .turnLeft
  | .turnRight | .wait | .light => node.args.take 1
  | .booleanOp => if node.op = "not" then node.args.take 1 else []
  | _ => []

end Node

/-- An integer for `what`, which has to pass a check. -/
def expectInteger (what : String) (check : Int64 → Option String) : Value → Option String
  | .integer number => check number
  | _ => some ("expected an integer for " ++ what)

def unbound (bound : Option Value) (message : String) : Option String :=
  if bound.isNone then some message else none

def checkCount (count : Int64) : Option String :=
  if count < 0 then some "repeat count must not be negative" else none

def checkDegrees (degrees : Int64) : Option String :=
  if degrees < 0 || degrees > 3600 then some "degrees must be between 0 and 3600" else none

def checkDuration (duration : Int64) : Option String :=
  if duration < 0 || duration > 10000 then some "duration_ms must be between 0 and 10000" else none

def checkDrive (speed duration : Int64) : Option String :=
  if speed < 0 || speed > 100 then some "speed must be between 0 and 100"
  else checkDuration duration

/-- What speaks against the value of a single operand. -/
def single (objects : Value → Option String) : List Value → Option String
  | [value] => objects value
  | _ => none

def driveObjection : List Value → Option String
  | [value] => expectInteger "speed" (fun _ => none) value
  | [.integer speed, value] => expectInteger "duration_ms" (checkDrive speed) value
  | _ => none

def lightObjection : Value → Option String
  | .color _ => none
  | _ => some "light expects a color"

def compareObjection : List Value → Option String
  | [.integer _, .integer _] => none
  | [_, _] => some "comparison operands must be integers"
  | _ => none

def arithmeticObjection (op : String) (values : List Value) : Option String :=
  match values.getLast? with
  | none => none
  | some (.integer operand) =>
      if 1 < values.length && (dividesBy op && operand = 0) then some "division by zero" else none
  | some _ => some "arithmetic operands must be integers"

/-- What an expression has to say against the values of its first operands, those before
the last being in order. -/
def Machine.objection (machine : Machine) (scope : Scope) (node : Node) (values : List Value) :
    Option String :=
  match node.kind with
  | .call =>
      if values.isEmpty && (machine.functions node.op).isNone then
        some ("undefined function '" ++ node.op ++ "'")
      else none
  | .varRef => unbound (scope.find node.op) ("undefined variable '" ++ node.op ++ "'")
  | .setVar =>
      if values.isEmpty then none
      else unbound (scope.find node.op) ("set! of undefined variable '" ++ node.op ++ "'")
  | .repeatForm => single (expectInteger "repeat count" checkCount) values
  | .drive | .backward => driveObjection values
  | .turnLeft | .turnRight => single (expectInteger "degrees" checkDegrees) values
  | .wait => single (expectInteger "duration_ms" checkDuration) values
  | .light => single lightObjection values
  | .compare => compareObjection values
  | .arithmetic => arithmeticObjection node.op values
  | _ => none

/-- The integers among values that are all integers. -/
def integersOf : List Value → Option (List Int64)
  | [] => some []
  | .integer number :: rest => (integersOf rest).map (number :: ·)
  | _ :: _ => none

/-- The values of the first operands of an arithmetic expression are combined without a
trap. -/
def Machine.Combines (machine : Machine) (node : Node) (values : List Value) : Prop :=
  node.kind = .arithmetic →
    ∀ operands, integersOf values = some operands → (machine.fold node.op operands).isSome = true

/-- The value an expression computes from those of its operands. -/
def Machine.valueOf (machine : Machine) (scope : Scope) (node : Node) (values : List Value) :
    Option Value :=
  match node.kind, values with
  | .defineFunc, [] => some .none
  | .varRef, [] => scope.find node.op
  | .compare, [.integer x, .integer y] => some (.boolean (compareValues node.op x y))
  | .booleanOp, [value] => some (.boolean (!value.truthy))
  | .arithmetic, _ => ((integersOf values).bind (machine.fold node.op)).map .integer
  | .integerLiteral, [] => some (.integer (node.nums.head?.getD 0))
  | .booleanLiteral, [] => some (.boolean (node.nums.head?.any fun value => value ≠ 0))
  | .colorLiteral, [] => some (.color (Color.ofOrdinal (node.nums.head?.getD 0)))
  | _, _ => none

/-- The call a command makes with the values of its operands. -/
def Node.robotCall (node : Node) (values : List Value) : Option RobotCommand :=
  match node.kind, values with
  | .drive, [.integer speed, .integer duration] =>
      some (.driveForward speed.toInt32 duration.toInt32)
  | .backward, [.integer speed, .integer duration] =>
      some (.driveBackward speed.toInt32 duration.toInt32)
  | .turnLeft, [.integer degrees] => some (.turnLeft degrees.toInt32)
  | .turnRight, [.integer degrees] => some (.turnRight degrees.toInt32)
  | .stop, [] => some .stop
  | .wait, [.integer duration] => some (.waitMs duration.toInt32)
  | .light, [.color color] => some (.setLight color)
  | .beep, [] => some .beep
  | _, _ => none

def SensorReading.value : SensorReading → Value
  | .distanceCm distance => .integer distance.toInt64
  | .button flag | .lineLeft flag | .lineRight flag => .boolean flag

/-- Whether `and` and `or` are over once this value is read. -/
def Node.isDecided (node : Node) (value : Value) : Bool :=
  value.truthy != (node.op = "and")

/-- The value of a row of expressions. -/
def lastValue (values : List Value) : List Value :=
  [values.getLast?.getD .none]

/-! ## Evaluation -/

/-- What is evaluated: an expression, an expression but for its start and end, a row of
expressions, operands of a node behind those with known values, the body of a node a
number of times, or what is left of `and` and `or`. -/
inductive Phrase where
  | expr (node : Node)
  | work (node : Node)
  | row (nodes : List Node)
  | operands (node : Node) (values : List Value) (rest : List Node)
  | rounds (node : Node) (count : Nat)
  | junction (node : Node) (rest : List Node)

/-- The values a phrase yields, or why it fails. -/
abbrev Verdict := Except Complaint (List Value)

inductive Means (machine : Machine) :
    Phrase → Scope → Cost → List Effect → Verdict → Scope → Prop
  | expr {node scope cost effects outcome reached} :
      Means machine (.work node) scope cost effects outcome reached →
      Means machine (.expr node) scope (node.charge.andThen cost) effects outcome reached
  | rowEnd {scope} : Means machine (.row []) scope {} [] (.ok []) scope
  | rowStop {node rest scope cost effects complaint reached} :
      Means machine (.expr node) scope cost effects (.error complaint) reached →
      Means machine (.row (node :: rest)) scope cost effects (.error complaint) reached
  | rowNext {node rest scope cost effects value middle more others outcome reached} :
      Means machine (.expr node) scope cost effects (.ok [value]) middle →
      Means machine (.row rest) middle more others outcome reached →
      Means machine (.row (node :: rest)) scope (cost.andThen more) (effects ++ others)
        (outcome.map (value :: ·)) reached
  | read {node values scope} :
      Means machine (.operands node values []) scope {} [] (.ok values) scope
  | readStop {node values arg rest scope cost effects complaint reached} :
      Means machine (.expr arg) scope cost effects (.error complaint) reached →
      Means machine (.operands node values (arg :: rest)) scope cost effects (.error complaint)
        reached
  | readObject {node values arg rest scope cost effects value middle message} :
      Means machine (.expr arg) scope cost effects (.ok [value]) middle →
      machine.objection middle node (values ++ [value]) = some message →
      Means machine (.operands node values (arg :: rest)) scope cost effects
        (.error ⟨node, message⟩) middle
  | readNext {node values arg rest scope cost effects value middle more others outcome reached} :
      Means machine (.expr arg) scope cost effects (.ok [value]) middle →
      machine.objection middle node (values ++ [value]) = none →
      machine.Combines node (values ++ [value]) →
      Means machine (.operands node (values ++ [value]) rest) middle more others outcome reached →
      Means machine (.operands node values (arg :: rest)) scope (cost.andThen more)
        (effects ++ others) outcome reached
  | object {node scope message} :
      machine.objection scope node [] = some message →
      Means machine (.work node) scope {} [] (.error ⟨node, message⟩) scope
  | refuse {node scope cost effects complaint reached} :
      machine.objection scope node [] = none → node.form ≠ .loop →
      Means machine (.operands node [] node.operands) scope cost effects (.error complaint)
        reached →
      Means machine (.work node) scope cost effects (.error complaint) reached
  | value {node scope cost effects values value reached} :
      machine.objection scope node [] = none → node.form = .value →
      Means machine (.operands node [] node.operands) scope cost effects (.ok values) reached →
      machine.valueOf reached node values = some value →
      Means machine (.work node) scope cost effects (.ok [value]) reached
  | command {node scope cost effects values call reached} :
      node.form = .command →
      Means machine (.operands node [] node.operands) scope cost effects (.ok values) reached →
      node.robotCall values = some call →
      Means machine (.work node) scope cost (effects ++ [.command call]) (.ok [.none]) reached
  | sense {node reading scope} :
      node.form = .sensor → reading.kind = node.kind →
      Means machine (.work node) scope {} [.reading reading] (.ok [reading.value]) scope
  | define {node scope cost effects value reached} :
      node.form = .definition →
      Means machine (.operands node [] node.operands) scope cost effects (.ok [value]) reached →
      Means machine (.work node) scope cost effects (.ok [value]) (reached.define node.op value)
  | assign {node scope cost effects value reached} :
      node.form = .assignment →
      Means machine (.operands node [] node.operands) scope cost effects (.ok [value]) reached →
      Means machine (.work node) scope cost effects (.ok [value]) (reached.assign node.op value)
  | call {node function scope cost effects values middle more others outcome reached} :
      node.form = .call → machine.functions node.op = some function →
      Means machine (.operands node [] node.operands) scope cost effects (.ok values) middle →
      Means machine (.row function.children) (middle.callee function values) more others outcome
        reached →
      Means machine (.work node) scope (cost.andThen more.called) (effects ++ others)
        (outcome.map lastValue) (reached.leave middle)
  | block {node scope cost effects outcome reached} :
      node.form = .block →
      Means machine (.row node.children) scope cost effects outcome reached →
      Means machine (.work node) scope cost effects (outcome.map lastValue) reached
  | skip {node scope cost effects value reached} :
      node.form = .conditional →
      Means machine (.operands node [] node.operands) scope cost effects (.ok [value]) reached →
      value.truthy = false →
      Means machine (.work node) scope cost effects (.ok [.none]) reached
  | enter {node scope cost effects value middle more others outcome reached} :
      node.form = .conditional →
      Means machine (.operands node [] node.operands) scope cost effects (.ok [value]) middle →
      value.truthy = true →
      Means machine (.row node.children) middle more others outcome reached →
      Means machine (.work node) scope (cost.andThen more) (effects ++ others)
        (outcome.map lastValue) reached
  | branch {node yes no scope cost effects value middle more others outcome reached} :
      node.form = .branch → node.args[1]? = some yes → node.args[2]? = some no →
      Means machine (.operands node [] node.operands) scope cost effects (.ok [value]) middle →
      Means machine (.expr (if value.truthy then yes else no)) middle more others outcome
        reached →
      Means machine (.work node) scope (cost.andThen more) (effects ++ others) outcome reached
  | counted {node scope cost effects count middle more others outcome reached} :
      node.form = .counted →
      Means machine (.operands node [] node.operands) scope cost effects (.ok [.integer count])
        middle →
      Means machine (.rounds node count.toInt.toNat) middle more others outcome reached →
      Means machine (.work node) scope (cost.andThen (more.repeated count.toInt.toNat))
        (effects ++ others) (outcome.map fun _ => [.none]) reached
  | roundsEnd {node scope} : Means machine (.rounds node 0) scope {} [] (.ok []) scope
  | roundsStop {node count scope cost effects complaint reached} :
      Means machine (.row node.children) scope cost effects (.error complaint) reached →
      Means machine (.rounds node (count + 1)) scope cost effects (.error complaint) reached
  | roundsNext {node count scope cost effects values middle more others outcome reached} :
      Means machine (.row node.children) scope cost effects (.ok values) middle →
      Means machine (.rounds node count) middle more others outcome reached →
      Means machine (.rounds node (count + 1)) scope (cost.andThen more) (effects ++ others)
        outcome reached
  | loopRefuse {node scope cost effects complaint reached} :
      node.form = .loop →
      Means machine (.operands node [] node.operands) scope cost effects (.error complaint)
        reached →
      Means machine (.work node) scope (Cost.step.andThen cost) effects (.error complaint) reached
  | loopEnd {node scope cost effects value reached} :
      node.form = .loop →
      Means machine (.operands node [] node.operands) scope cost effects (.ok [value]) reached →
      value.truthy = false →
      Means machine (.work node) scope (Cost.step.andThen cost) effects (.ok [.none]) reached
  | loopStop {node scope cost effects value middle more others complaint reached} :
      node.form = .loop →
      Means machine (.operands node [] node.operands) scope cost effects (.ok [value]) middle →
      value.truthy = true →
      Means machine (.row node.children) middle more others (.error complaint) reached →
      Means machine (.work node) scope (Cost.step.andThen (cost.andThen more)) (effects ++ others)
        (.error complaint) reached
  | loopNext {node scope cost effects value middle more others values again last most outcome
      reached} :
      node.form = .loop →
      Means machine (.operands node [] node.operands) scope cost effects (.ok [value]) middle →
      value.truthy = true →
      Means machine (.row node.children) middle more others (.ok values) again →
      Means machine (.work node) again last most outcome reached →
      Means machine (.work node) scope (Cost.step.andThen ((cost.andThen more).andThen last))
        (effects ++ others ++ most) outcome reached
  | junction {node scope cost effects outcome reached} :
      node.form = .junction →
      Means machine (.junction node node.args) scope cost effects outcome reached →
      Means machine (.work node) scope cost effects outcome reached
  | junctionEnd {node scope} :
      Means machine (.junction node []) scope {} [] (.ok [.boolean (node.op = "and")]) scope
  | junctionStop {node arg rest scope cost effects complaint reached} :
      Means machine (.expr arg) scope cost effects (.error complaint) reached →
      Means machine (.junction node (arg :: rest)) scope cost effects (.error complaint) reached
  | junctionDecide {node arg rest scope cost effects value reached} :
      Means machine (.expr arg) scope cost effects (.ok [value]) reached →
      node.isDecided value = true →
      Means machine (.junction node (arg :: rest)) scope cost effects
        (.ok [.boolean (node.op ≠ "and")]) reached
  | junctionNext {node arg rest scope cost effects value middle more others outcome reached} :
      Means machine (.expr arg) scope cost effects (.ok [value]) middle →
      node.isDecided value = false →
      Means machine (.junction node rest) middle more others outcome reached →
      Means machine (.junction node (arg :: rest)) scope (cost.andThen more) (effects ++ others)
        outcome reached

/-- The one kind of node of a form. -/
def Form.kind? : Form → Option NodeKind
  | .definition => some .defineVar
  | .assignment => some .setVar
  | .call => some .call
  | .block => some .doForm
  | .conditional => some .whenForm
  | .branch => some .ifForm
  | .counted => some .repeatForm
  | .loop => some .whileForm
  | .junction => some .booleanOp
  | .value | .command | .sensor => none

theorem kind_of_form {node : Node} {form : Form} {kind : NodeKind} (has : node.form = form)
    (only : form.kind? = some kind) : node.kind = kind := by
  subst has
  rw [Node.form] at only
  cases found : node.kind <;> rw [found] at only <;> first
    | exact Option.some.inj only
    | cases only
    | (dsimp only at only
       split at only
       · cases only
       · exact Option.some.inj only)

/-! ## Objections -/

/-- What is said against values. -/
def valueObjections : List String :=
  [ "expected an integer for repeat count",
    "expected an integer for speed",
    "expected an integer for duration_ms",
    "expected an integer for degrees",
    "repeat count must not be negative",
    "speed must be between 0 and 100",
    "duration_ms must be between 0 and 10000",
    "degrees must be between 0 and 3600",
    "light expects a color",
    "comparison operands must be integers",
    "arithmetic operands must be integers",
    "division by zero" ]

section Objections

variable {message : String} {values : List Value}

theorem expectInteger_text {what : String} {check : Int64 → Option String} {value : Value}
    (objected : expectInteger what check value = some message)
    (listed : "expected an integer for " ++ what ∈ valueObjections)
    (range : ∀ number, check number = some message → message ∈ valueObjections) :
    message ∈ valueObjections := by
  cases value with
  | integer number => exact range number objected
  | none | boolean | color => exact Option.some.inj objected ▸ listed

theorem single_text {objects : Value → Option String}
    (objected : single objects values = some message)
    (listed : ∀ value, objects value = some message → message ∈ valueObjections) :
    message ∈ valueObjections := by
  cases values with
  | nil => cases objected
  | cons value rest =>
      cases rest with
      | nil => exact listed value objected
      | cons => cases objected

theorem if_text {condition : Prop} [Decidable condition] {text : String} {other : Option String}
    (objected : (if condition then some text else other) = some message)
    (listed : text ∈ valueObjections)
    (otherwise : other = some message → message ∈ valueObjections) :
    message ∈ valueObjections := by
  split at objected
  · exact Option.some.inj objected ▸ listed
  · exact otherwise objected

theorem duration_text {duration : Int64} (objected : checkDuration duration = some message) :
    message ∈ valueObjections :=
  if_text objected (by decide) fun other => nomatch other

theorem drive_text (objected : driveObjection values = some message) :
    message ∈ valueObjections := by
  rw [driveObjection.eq_def] at objected
  split at objected
  · exact expectInteger_text objected (by decide) fun _ checked => nomatch checked
  · apply expectInteger_text objected (by decide)
    exact fun _ checked => if_text checked (by decide) duration_text
  · cases objected

theorem light_text {color : Value} (objected : lightObjection color = some message) :
    message ∈ valueObjections := by
  cases color with
  | color => cases objected
  | none | integer | boolean => exact Option.some.inj objected ▸ (by decide)

theorem compare_text (objected : compareObjection values = some message) :
    message ∈ valueObjections := by
  rw [compareObjection.eq_def] at objected
  split at objected
  · cases objected
  · exact Option.some.inj objected ▸ (by decide)
  · cases objected

theorem arithmetic_text {op : String} (objected : arithmeticObjection op values = some message) :
    message ∈ valueObjections := by
  rw [arithmeticObjection] at objected
  split at objected
  · cases objected
  · exact if_text objected (by decide) fun other => nomatch other
  · exact Option.some.inj objected ▸ (by decide)

theorem unbound_text {bound : Option Value} {text : String}
    (objected : unbound bound text = some message) : bound = none ∧ message = text := by
  rw [unbound] at objected
  split at objected
  next missing => exact ⟨Option.isNone_iff_eq_none.mp missing, (Option.some.inj objected).symm⟩
  next => cases objected

/-- Every objection is against a value, or about a name that nothing is bound to. -/
theorem objection_text {machine : Machine} {scope : Scope} {node : Node}
    (objected : machine.objection scope node values = some message) :
    message ∈ valueObjections ∨ message = "undefined function '" ++ node.op ++ "'" ∨
      scope.find node.op = none ∧
        (message = "undefined variable '" ++ node.op ++ "'" ∨
          message = "set! of undefined variable '" ++ node.op ++ "'") := by
  rw [Machine.objection] at objected
  split at objected
  · split at objected
    · exact .inr (.inl (Option.some.inj objected).symm)
    · cases objected
  · rcases unbound_text objected with ⟨missing, text⟩
    exact .inr (.inr ⟨missing, .inl text⟩)
  · split at objected
    · cases objected
    · rcases unbound_text objected with ⟨missing, text⟩
      exact .inr (.inr ⟨missing, .inr text⟩)
  · exact .inl (single_text objected fun _ objects => expectInteger_text objects (by decide)
      fun _ checked => if_text checked (by decide) fun other => nomatch other)
  · exact .inl (drive_text objected)
  · exact .inl (drive_text objected)
  · exact .inl (single_text objected fun _ objects => expectInteger_text objects (by decide)
      fun _ checked => if_text checked (by decide) fun other => nomatch other)
  · exact .inl (single_text objected fun _ objects => expectInteger_text objects (by decide)
      fun _ checked => if_text checked (by decide) fun other => nomatch other)
  · exact .inl (single_text objected fun _ objects => expectInteger_text objects (by decide)
      fun _ checked => duration_text checked)
  · exact .inl (single_text objected fun _ objects => light_text objects)
  · exact .inl (compare_text objected)
  · exact .inl (arithmetic_text objected)
  · cases objected

/-- How a text about a name starts does not depend on the name. -/
theorem take_accusation {start name : String} {count : Nat} (short : count ≤ start.toList.length) :
    (start ++ name ++ "'").toList.take count = start.toList.take count := by
  rw [String.toList_append, String.toList_append, List.append_assoc,
    List.take_append_of_le_length short]

end Objections

end CardCode
