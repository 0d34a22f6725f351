import CardCode.App.Projection

/-! # Source from cards (`app/src/generator.js`) -/

namespace CardCode.App

/-- What the generator throws: a value it cannot write, or a parameter a card of
this kind should have. -/
inductive GenerateError where
  | cannotEmit (value : CardValue)
  | missingParam (name : String)

abbrev Generate := Except GenerateError

/-- `ctx`: the source written so far and the spans of the cards written. -/
structure Context where
  source : Text := []
  cardSpans : String → Option Span := fun _ => none

def Context.append (ctx : Context) (text : Text) : Context :=
  { ctx with source := ctx.source ++ text }

def Context.setSpan (ctx : Context) (id : String) (span : Span) : Context :=
  { ctx with cardSpans := fun other => if other = id then some span else ctx.cardSpans other }

abbrev Writer := Context → Generate Context

/-! ## Values -/

/-- `String` of an integer. -/
def integerText (value : Int) : Text :=
  (toString value).toList

/-- `texts.join(' ')`. -/
def joinSpaced : List Text → Text
  | [] => []
  | [text] => text
  | text :: rest => text ++ ' ' :: joinSpaced rest

/-- The arguments of a form, each after a blank. -/
def spacedArgs (args : List Text) : Text :=
  if args.isEmpty then [] else ' ' :: joinSpaced args

mutual

def emitValue : CardValue → Generate Text
  | .null => .ok "()".toList
  | .number value => .ok (integerText value)
  | .boolean value => .ok (if value then "true" else "false").toList
  | .text raw => .ok raw.toList
  | .var name _ => .ok name.toList
  | .call form args _ => do
      let texts ← emitValues args
      pure ('(' :: (form.toList ++ spacedArgs texts ++ [')']))
  | .names names => .error (.cannotEmit (.names names))

def emitValues : List CardValue → Generate (List Text)
  | [] => .ok []
  | value :: rest => do
      let text ← emitValue value
      let texts ← emitValues rest
      pure (text :: texts)

end

/-- A value in a template literal. Objects lose their contents there. -/
def interpolate : CardValue → Text
  | .null => "null".toList
  | .number value => integerText value
  | .boolean value => (if value then "true" else "false").toList
  | .text raw => raw.toList
  | .names names => (String.intercalate "," names).toList
  | .var _ _ => "[object Object]".toList
  | .call _ _ _ => "[object Object]".toList

def pad (indent : Nat) : Text :=
  List.replicate (2 * indent) ' '

/-- `card.params[name].value`. -/
def paramValue (head : CardHead) (name : String) : Generate CardValue :=
  match head.params.lookup name with
  | some param => .ok param.value
  | none => .error (.missingParam name)

/-! ## Cards

The cards below a card arrive as their writers, one for each card, waiting for the
indentation. -/

/-- The cards of a body, each on a line of its own. -/
def writeLines : List (Nat → Writer) → Nat → Writer
  | [], _, ctx => .ok ctx
  | child :: rest, indent, ctx => do
      let ctx ← child indent (ctx.append ['\n'])
      writeLines rest indent ctx

/-- The first argument of a sequence, where there is one, after a blank. -/
def leadText : Option Text → Text
  | none => []
  | some text => ' ' :: text

def writeSequence (children : List (Nat → Writer)) (indent : Nat) (form : Text)
    (firstArg : Option Text) : Writer := fun ctx => do
  let opened := ctx.append (pad indent ++ '(' :: (form ++ leadText firstArg))
  let ctx ← writeLines children (indent + 1) opened
  pure (ctx.append [')'])

def writeBranch (branchCards : List (Nat → Writer)) (indent : Nat) : Writer := fun ctx =>
  match branchCards with
  | [] => .ok (ctx.append (pad indent ++ "(do)".toList))
  | [card] => card indent ctx
  | _ => do
      let ctx ← writeLines branchCards (indent + 1) (ctx.append (pad indent ++ "(do".toList))
      pure (ctx.append [')'])

def writeIf (head : CardHead) (thenCards elseCards : List (Nat → Writer)) (indent : Nat) :
    Writer := fun ctx => do
  let condition ← emitValue (← paramValue head "condition")
  let ctx := ctx.append (pad indent ++ "(if ".toList ++ condition)
  let ctx ← writeBranch thenCards (indent + 1) (ctx.append ['\n'])
  let ctx ← writeBranch elseCards (indent + 1) (ctx.append ['\n'])
  pure (ctx.append [')'])

/-- `card.params.params.value.join(' ')`. -/
def joinedNames (head : CardHead) : Generate Text := do
  match ← paramValue head "params" with
  | .names names => pure (joinSpaced (names.map String.toList))
  | value => .error (.cannotEmit value)

def writeFunction (head : CardHead) (children : List (Nat → Writer)) (indent : Nat) : Writer :=
  fun ctx => do
    let params ← joinedNames head
    let name ← paramValue head "name"
    let ctx := ctx.append (pad indent ++ "(define (".toList ++ interpolate name ++
      (if params.isEmpty then [] else ' ' :: params) ++ [')'])
    let ctx ← writeLines children (indent + 1) ctx
    pure (ctx.append [')'])

/-- `define` of a variable and `set!`: the name goes into the template as it is. -/
def writeBinding (head : CardHead) (form : String) (indent : Nat) : Writer := fun ctx => do
  let name ← paramValue head "name"
  let value ← emitValue (← paramValue head "value")
  pure (ctx.append (pad indent ++ '(' :: (form.toList ++ ' ' :: (interpolate name ++
    ' ' :: (value ++ [')'])))))

/-- A form whose arguments are values: `generic.form` and `writeSimpleForm`. -/
def writeArgs (form : String) (args : List CardValue) (indent : Nat) : Writer := fun ctx => do
  let texts ← emitValues args
  pure (ctx.append (pad indent ++ '(' :: (form.toList ++ spacedArgs texts ++ [')'])))

/-- A sequence whose first argument is a parameter of the card. -/
def writeLedSequence (head : CardHead) (children : List (Nat → Writer)) (indent : Nat)
    (form : String) (param : String) : Writer := fun ctx => do
  let first ← emitValue (← paramValue head param)
  writeSequence children indent form.toList (some first) ctx

/-- The `switch` of `writeCard`. -/
def writeForm (head : CardHead) (children thenCards elseCards : List (Nat → Writer))
    (indent : Nat) : Writer :=
  if head.cardId = "control.do" then writeSequence children indent "do".toList none
  else if head.cardId = "control.repeat" then
    writeLedSequence head children indent "repeat" "count"
  else if head.cardId = "control.when" then
    writeLedSequence head children indent "when" "condition"
  else if head.cardId = "control.while" then
    writeLedSequence head children indent "while" "condition"
  else if head.cardId = "control.if" then writeIf head thenCards elseCards indent
  else if head.cardId = "binding.define-func" then writeFunction head children indent
  else if head.cardId = "binding.define-var" then writeBinding head "define" indent
  else if head.cardId = "binding.set" then writeBinding head "set!" indent
  else if head.cardId = "generic.form" then writeArgs head.form head.args indent
  else writeArgs head.form (head.params.map fun param => param.2.value) indent

/-- Record where a card was written. -/
def withSpan (id : String) (writer : Writer) : Writer := fun ctx => do
  let written ← writer ctx
  let span := spanFromOffsets written.source (textLength ctx.source) (textLength written.source)
  pure (written.setSpan id span)

mutual

def writeCard : Card → Nat → Writer
  | .leaf head, indent => withSpan head.id (writeForm head [] [] [] indent)
  | .body head children, indent =>
      withSpan head.id (writeForm head (writersOf children) [] [] indent)
  | .fork head thenCards elseCards, indent =>
      withSpan head.id (writeForm head [] (writersOf thenCards) (writersOf elseCards) indent)

def writersOf : List Card → List (Nat → Writer)
  | [] => []
  | card :: rest => writeCard card :: writersOf rest

end

/-- The loop of `generateProgram` after the first card. -/
def writeProgram : List Card → Bool → Writer
  | [], _, ctx => .ok ctx
  | card :: rest, isFirst, ctx => do
      let ctx ← writeCard card 0 (if isFirst then ctx else ctx.append ['\n'])
      writeProgram rest false ctx

def generateProgram (cards : List Card) : Generate Context :=
  writeProgram cards true {}

/-- `canonicalize` in `applySourceToState`: parse, project and write back. -/
def canonicalSource (manifest : Manifest) (exprs : List Expr) : Generate Text := do
  let ctx ← generateProgram (projectProgram exprs manifest)
  pure ctx.source

end CardCode.App
