import Mathlib.Algebra.Order.Ring.Int

/-! # The card manifest (`app/src/manifest.js`, `cardcode-default.manifest.json`)

Of a card only what projection reads is kept; of its parameters, the names.
-/

namespace CardCode.App

inductive CardKind where
  | command
  | control
  | expression
  | binding
  | generic
  deriving Repr, DecidableEq

structure ManifestCard where
  id : String
  form : String
  kind : CardKind
  category : String
  label : String
  params : List String
  deriving Repr, DecidableEq

structure Manifest where
  cards : List ManifestCard

/-- `byId.get`. -/
def Manifest.byId (manifest : Manifest) (id : String) : Option ManifestCard :=
  manifest.cards.find? fun card => card.id = id

/-- `byForm.get`, with an empty list for a form that has no card. -/
def Manifest.byForm (manifest : Manifest) (form : String) : List ManifestCard :=
  manifest.cards.filter fun card => card.form = form

def defaultManifest : Manifest where
  cards := [
    ⟨"control.do", "do", .control, "control", "Do", []⟩,
    ⟨"control.repeat", "repeat", .control, "loops", "Repeat", ["count"]⟩,
    ⟨"control.when", "when", .control, "logic", "When", ["condition"]⟩,
    ⟨"control.if", "if", .control, "logic", "If", ["condition"]⟩,
    ⟨"control.while", "while", .control, "loops", "While", ["condition"]⟩,
    ⟨"binding.define-var", "define", .binding, "variables", "Define variable", ["name", "value"]⟩,
    ⟨"binding.define-func", "define", .binding, "functions", "Define function", ["name", "params"]⟩,
    ⟨"binding.set", "set!", .binding, "variables", "Set variable", ["name", "value"]⟩,
    ⟨"robot.drive", "drive", .command, "motion", "Drive", ["speed", "durationMs"]⟩,
    ⟨"robot.backward", "backward", .command, "motion", "Backward", ["speed", "durationMs"]⟩,
    ⟨"robot.turn-left", "turn-left", .command, "motion", "Turn left", ["degrees"]⟩,
    ⟨"robot.turn-right", "turn-right", .command, "motion", "Turn right", ["degrees"]⟩,
    ⟨"robot.stop", "stop", .command, "motion", "Stop", []⟩,
    ⟨"robot.wait", "wait", .command, "time", "Wait", ["durationMs"]⟩,
    ⟨"robot.light", "light", .command, "output", "Light", ["color"]⟩,
    ⟨"robot.beep", "beep", .command, "output", "Beep", []⟩,
    ⟨"sensor.distance-cm", "distance-cm", .expression, "sensors", "Distance cm", []⟩,
    ⟨"sensor.button", "button", .expression, "sensors", "Button", []⟩,
    ⟨"sensor.line-left", "line-left", .expression, "sensors", "Line left", []⟩,
    ⟨"sensor.line-right", "line-right", .expression, "sensors", "Line right", []⟩,
    ⟨"op.lt", "<", .expression, "operators", "Less than", ["left", "right"]⟩,
    ⟨"op.gt", ">", .expression, "operators", "Greater than", ["left", "right"]⟩,
    ⟨"op.eq", "=", .expression, "operators", "Equals", ["left", "right"]⟩,
    ⟨"op.lte", "<=", .expression, "operators", "Less or equal", ["left", "right"]⟩,
    ⟨"op.gte", ">=", .expression, "operators", "Greater or equal", ["left", "right"]⟩,
    ⟨"op.and", "and", .expression, "operators", "And", []⟩,
    ⟨"op.or", "or", .expression, "operators", "Or", []⟩,
    ⟨"op.not", "not", .expression, "operators", "Not", ["value"]⟩,
    ⟨"op.add", "+", .expression, "operators", "Add", []⟩,
    ⟨"op.sub", "-", .expression, "operators", "Subtract", ["left", "right"]⟩,
    ⟨"op.mul", "*", .expression, "operators", "Multiply", []⟩,
    ⟨"op.div", "/", .expression, "operators", "Divide", ["left", "right"]⟩]

example : (defaultManifest.byForm "define").map ManifestCard.id =
    ["binding.define-var", "binding.define-func"] := by decide

end CardCode.App
