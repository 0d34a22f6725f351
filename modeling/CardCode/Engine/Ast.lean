import CardCode.Engine.Diagnostic

/-! # The typed tree (`include/cardcode/ast.hpp`) -/

namespace CardCode

inductive NodeKind where
  | doForm
  | repeatForm
  | whenForm
  | ifForm
  | whileForm
  | defineVar
  | defineFunc
  | setVar
  | varRef
  | call
  | drive
  | backward
  | turnLeft
  | turnRight
  | stop
  | wait
  | light
  | beep
  | distanceCm
  | button
  | lineLeft
  | lineRight
  | compare
  | booleanOp
  | arithmetic
  | integerLiteral
  | booleanLiteral
  | colorLiteral
  deriving Repr, DecidableEq

/-- Highlightable nodes emit start and done events and count as steps. -/
def NodeKind.isHighlightable : NodeKind → Bool
  | .defineFunc | .varRef | .compare | .booleanOp | .arithmetic
  | .integerLiteral | .booleanLiteral | .colorLiteral => false
  | _ => true

/-- The eight forms that make one actuator call each. -/
def NodeKind.isCommand : NodeKind → Bool
  | .drive | .backward | .turnLeft | .turnRight | .stop | .wait | .light | .beep => true
  | _ => false

/-- The four forms that read one sensor each. -/
def NodeKind.isSensor : NodeKind → Bool
  | .distanceCm | .button | .lineLeft | .lineRight => true
  | _ => false

/-- One executable node. `args` holds operands, conditions and branches,
`children` the statements of a body, `params` a function's parameter names. -/
structure Node where
  id : UInt32 := 0
  kind : NodeKind
  span : SourceSpan
  op : String := ""
  args : List Node := []
  children : List Node := []
  nums : List Int64 := []
  params : List String := []
  deriving Repr

namespace Node

/-- The nodes directly below a node, in the order ids are assigned. -/
def parts (node : Node) : List Node :=
  node.args ++ node.children

/-- A property that every node inherits from its parts. -/
theorem induct {Property : Node → Prop}
    (step : ∀ node, (∀ part ∈ node.parts, Property part) → Property node) :
    ∀ node, Property node := by
  intro node
  refine @Node.rec Property (fun nodes => ∀ node ∈ nodes, Property node) ?_ (by simp) ?_
    node
  · intro id kind span op args children nums params argsHold childrenHold
    apply step
    intro part member
    rcases List.mem_append.mp member with member | member
    · exact argsHold part member
    · exact childrenHold part member
  · intro head tail headHolds tailHold node member
    rcases List.mem_cons.mp member with equal | member
    · exact equal ▸ headHolds
    · exact tailHold node member

/-! ## Id assignment -/

mutual

/-- `assign_preorder`: the numbered tree and the next free id. -/
def assignPreorder : Node → UInt32 → Node × UInt32
  | ⟨id, kind, span, op, args, children, nums, params⟩, next =>
      let own := if kind.isHighlightable then (next, next + 1) else (id, next)
      let numberedArgs := assignPreorderAll args own.2
      let numberedChildren := assignPreorderAll children numberedArgs.2
      (⟨own.1, kind, span, op, numberedArgs.1, numberedChildren.1, nums, params⟩,
        numberedChildren.2)

def assignPreorderAll : List Node → UInt32 → List Node × UInt32
  | [], next => ([], next)
  | node :: rest, next =>
      let numbered := assignPreorder node next
      let numberedRest := assignPreorderAll rest numbered.2
      (numbered.1 :: numberedRest.1, numberedRest.2)

end

end Node

def assignNodeIds (root : Node) : Node :=
  (root.assignPreorder 0).1

end CardCode
