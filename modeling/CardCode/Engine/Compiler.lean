import CardCode.Engine.Ast
import CardCode.Engine.Parser
import CardCode.Engine.Value

/-! # The engine's compiler (`src/compiler.cpp`)

Every expression is compiled by `compileExpr`; `top_level` only decides whether
a function may be defined there. A form receives each operand together with its
own compilation, so that the recursion follows the raw tree.
-/

namespace CardCode

/-! ## Diagnostics as an output -/

/-- A result together with the diagnostics pushed on the way to it. -/
structure Compile (α : Type) where
  value : α
  diagnostics : List Diagnostic := []

namespace Compile

def bind (first : Compile α) (next : α → Compile β) : Compile β where
  value := (next first.value).value
  diagnostics := first.diagnostics ++ (next first.value).diagnostics

instance : Monad Compile where
  pure value := { value }
  bind := bind

@[simp] theorem pure_value (value : α) : (pure value : Compile α).value = value := rfl

@[simp] theorem pure_diagnostics (value : α) :
    (pure value : Compile α).diagnostics = [] := rfl

@[simp] theorem bind_value (first : Compile α) (next : α → Compile β) :
    (first >>= next).value = (next first.value).value := rfl

@[simp] theorem bind_diagnostics (first : Compile α) (next : α → Compile β) :
    (first >>= next).diagnostics =
      first.diagnostics ++ (next first.value).diagnostics := rfl

end Compile

def err (span : SourceSpan) (message : String) : Compile Unit where
  value := ()
  diagnostics := [{ severity := .error, span, message }]

@[simp] theorem err_diagnostics (span : SourceSpan) (message : String) :
    (err span message).diagnostics = [{ severity := .error, span, message }] := rfl

/-- Report an error and give up on the expression. -/
def reject (span : SourceSpan) (message : String) : Compile (Option Node) := do
  err span message
  pure none

@[simp] theorem reject_diagnostics (span : SourceSpan) (message : String) :
    (reject span message).diagnostics = [{ severity := .error, span, message }] := rfl

/-! ## Names -/

def speedMin : Int64 := 0
def speedMax : Int64 := 100
def durationMax : Int64 := 10000
def turnMax : Int64 := 3600
def waitMax : Int64 := 10000
def repeatMax : Int64 := 100

def isComparison (op : String) : Bool :=
  op = "<" || op = ">" || op = "=" || op = "<=" || op = ">="

def isBooleanOp (op : String) : Bool :=
  op = "and" || op = "or" || op = "not"

def isArithmetic (op : String) : Bool :=
  op = "+" || op = "-" || op = "*" || op = "/"

def isSensor (op : String) : Bool :=
  op = "distance-cm" || op = "button" || op = "line-left" || op = "line-right"

def isCommand (op : String) : Bool :=
  op = "drive" || op = "backward" || op = "turn-left" || op = "turn-right" ||
    op = "stop" || op = "wait" || op = "light" || op = "beep"

def isControl (op : String) : Bool :=
  op = "do" || op = "repeat" || op = "when" || op = "if" || op = "while" ||
    op = "define" || op = "set!"

def isReserved (name : String) : Bool :=
  name = "true" || name = "false" || (Color.fromName name).isSome

/-- Names a user function may not take. -/
def isBuiltinName (op : String) : Bool :=
  isCommand op || isControl op || isSensor op || isComparison op ||
    isBooleanOp op || isArithmetic op || isReserved op

/-- Function name to parameter count, collected before compilation. -/
abbrev ArityTable := List (String × Nat)

/-! ## Forms -/

/-- An operand of a form: its raw expression and what `compile_value` makes of it. -/
structure Operand where
  raw : RawExpr
  compileValue : Compile (Option Node)

/-- Compile the operands in order, keeping those that gave a node. -/
def compileOperands : List Operand → Compile (List Node)
  | [] => pure []
  | operand :: rest => do
      let node ← operand.compileValue
      let nodes ← compileOperands rest
      pure (node.toList ++ nodes)

/-- The node, unless some argument was lost on the way. -/
def keepIf (complete : Bool) (node : Node) : Compile (Option Node) :=
  pure (if complete then some node else none)

def compileCall (arity : ArityTable) (span headSpan : SourceSpan) (op : String)
    (operands : List Operand) : Compile (Option Node) :=
  match arity.lookup op with
  | none => reject headSpan ("unknown operation or function '" ++ op ++ "'")
  | some expected =>
      if operands.length ≠ expected then
        reject span ("function '" ++ op ++ "' expects " ++ toString expected ++
          " argument(s) but got " ++ toString operands.length)
      else do
        let args ← compileOperands operands
        keepIf (args.length = operands.length) { kind := .call, span, op, args }

/-- The parameter names of a function definition, without those refused. -/
def compileParams : List RawExpr → Compile (List String)
  | [] => pure []
  | .symbol span name :: rest =>
      if isReserved name then do
        err span ("'" ++ name ++ "' is reserved and cannot be a parameter")
        compileParams rest
      else do
        let names ← compileParams rest
        pure (name :: names)
  | param :: rest => do
      err param.span "function parameters must be names"
      compileParams rest

def compileDefine (span : SourceSpan) (operands : List Operand) (topLevel : Bool) :
    Compile (Option Node) :=
  match operands with
  | [] => reject span "'define' expects a name and a value"
  | target :: body =>
      match target.raw with
      | .list targetSpan items =>
          if !topLevel then reject span "functions must be defined at the top level"
          else
            match items with
            | .symbol nameSpan name :: params =>
                if isBuiltinName name then
                  reject nameSpan ("cannot redefine built-in '" ++ name ++ "'")
                else do
                  let params ← compileParams params
                  let children ← compileOperands body
                  pure (some { kind := .defineFunc, span, op := name, children, params })
            | _ => reject targetSpan "function definition needs a name"
      | .symbol targetSpan name =>
          if operands.length ≠ 2 then
            reject span "'define' expects a name and a value"
          else if isReserved name then
            reject targetSpan
              ("'" ++ name ++ "' is reserved and cannot be a variable name")
          else do
            let args ← compileOperands body
            keepIf (args.length = 1) { kind := .defineVar, span, op := name, args }
      | .integer targetSpan _ => reject targetSpan "'define' expects a name"

/-- Range-check an argument that is a literal. -/
def litCheck (operand : Operand) (low high : Int64) (message : String) : Compile Unit :=
  match operand.raw with
  | .integer span value =>
      if value < low || value > high then err span message else pure ()
  | _ => pure ()

/-- The kind of a command and how many arguments it wants. -/
def commandKind (op : String) : NodeKind × Nat :=
  if op = "drive" then (.drive, 2)
  else if op = "backward" then (.backward, 2)
  else if op = "turn-left" then (.turnLeft, 1)
  else if op = "turn-right" then (.turnRight, 1)
  else if op = "wait" then (.wait, 1)
  else if op = "light" then (.light, 1)
  else if op = "stop" then (.stop, 0)
  else (.beep, 0)

def commandChecks : NodeKind → List Operand → Compile Unit
  | .drive, speed :: duration :: _ | .backward, speed :: duration :: _ => do
      litCheck speed speedMin speedMax "speed must be between 0 and 100"
      litCheck duration 0 durationMax
        ("duration_ms must be between 0 and " ++ toString durationMax.toInt)
  | .turnLeft, degrees :: _ | .turnRight, degrees :: _ =>
      litCheck degrees 0 turnMax
        ("degrees must be between 0 and " ++ toString turnMax.toInt)
  | .wait, duration :: _ =>
      litCheck duration 0 waitMax
        ("duration_ms must be between 0 and " ++ toString waitMax.toInt)
  | _, _ => pure ()

def compileCommand (span : SourceSpan) (op : String) (operands : List Operand) :
    Compile (Option Node) :=
  let kind := (commandKind op).1
  let want := (commandKind op).2
  if operands.length ≠ want then
    reject span ("'" ++ op ++ "' expects " ++ toString want ++
      " argument(s) but got " ++ toString operands.length)
  else do
    commandChecks kind operands
    let args ← compileOperands operands
    keepIf (args.length = operands.length) { kind, span, op, args }

def compileOperator (span : SourceSpan) (op : String) (operands : List Operand) :
    Compile (Option Node) :=
  let build (kind : NodeKind) : Compile (Option Node) := do
    let args ← compileOperands operands
    keepIf (args.length = operands.length) { kind, span, op, args }
  if isComparison op then
    if operands.length ≠ 2 then reject span ("'" ++ op ++ "' expects 2 arguments")
    else build .compare
  else if isArithmetic op then
    if (op = "-" || op = "/") && operands.length ≠ 2 then
      reject span ("'" ++ op ++ "' expects 2 arguments")
    else if (op = "+" || op = "*") && operands.length < 2 then
      reject span ("'" ++ op ++ "' expects at least 2 arguments")
    else build .arithmetic
  else if op = "not" then
    if operands.length ≠ 1 then reject span "'not' expects 1 argument"
    else build .booleanOp
  else if operands.length < 2 then
    reject span ("'" ++ op ++ "' expects at least 2 arguments")
  else build .booleanOp

/-- `when`, `while` and `repeat`: one leading argument, then a body. -/
def compileBlock (kind : NodeKind) (span : SourceSpan) (op : String)
    (leading : Operand) (body : List Operand) : Compile (Option Node) := do
  let args ← compileOperands [leading]
  let children ← compileOperands body
  keepIf (args.length = 1) { kind, span, op, args, children }

def repeatCheck (count : Operand) : Compile Unit :=
  match count.raw with
  | .integer span value =>
      if value < 0 then err span "repeat count must not be negative"
      else if value > repeatMax then
        err span ("repeat count must be between 0 and " ++ toString repeatMax.toInt)
      else pure ()
  | _ => pure ()

def sensorKind (op : String) : NodeKind :=
  if op = "distance-cm" then .distanceCm
  else if op = "button" then .button
  else if op = "line-left" then .lineLeft
  else .lineRight

def compileSet (span : SourceSpan) (operands : List Operand) : Compile (Option Node) :=
  match operands with
  | [target, value] =>
      match target.raw with
      | .symbol targetSpan name =>
          if isReserved name then
            reject targetSpan ("'" ++ name ++ "' is reserved and cannot be assigned")
          else do
            let args ← compileOperands [value]
            keepIf (args.length = 1) { kind := .setVar, span, op := name, args }
      | _ => reject span "'set!' expects a variable name and a value"
  | _ => reject span "'set!' expects a variable name and a value"

def compileForm (arity : ArityTable) (span headSpan : SourceSpan) (op : String)
    (operands : List Operand) (topLevel : Bool) : Compile (Option Node) :=
  if op = "do" then do
    let children ← compileOperands operands
    pure (some { kind := .doForm, span, op, children })
  else if op = "repeat" then
    match operands with
    | [] => reject span "'repeat' expects a count and a body"
    | count :: body => do
        repeatCheck count
        compileBlock .repeatForm span op count body
  else if op = "when" then
    match operands with
    | [] => reject span "'when' expects a condition and a body"
    | condition :: body => compileBlock .whenForm span op condition body
  else if op = "if" then
    if operands.length ≠ 3 then
      reject span "'if' expects 3 arguments: condition, then, else"
    else do
      let args ← compileOperands operands
      keepIf (args.length = 3) { kind := .ifForm, span, op, args }
  else if op = "while" then
    match operands with
    | [] => reject span "'while' expects a condition and a body"
    | condition :: body => compileBlock .whileForm span op condition body
  else if op = "define" then compileDefine span operands topLevel
  else if op = "set!" then compileSet span operands
  else if isCommand op then compileCommand span op operands
  else if isSensor op then
    if operands.length ≠ 0 then reject span ("'" ++ op ++ "' takes no arguments")
    else pure (some { kind := sensorKind op, span, op })
  else if isComparison op || isBooleanOp op || isArithmetic op then
    compileOperator span op operands
  else compileCall arity span headSpan op operands

def compileSymbol (span : SourceSpan) (name : String) : Node :=
  if name = "true" || name = "false" then
    { kind := .booleanLiteral, span, op := name,
      nums := [if name = "true" then 1 else 0] }
  else
    match Color.fromName name with
    | some color => { kind := .colorLiteral, span, op := name, nums := [color.ordinal] }
    | none => { kind := .varRef, span, op := name }

mutual

/-- `compile_expr`. -/
def compileExpr (arity : ArityTable) : RawExpr → Bool → Compile (Option Node)
  | .integer span value, _ =>
      pure (some { kind := .integerLiteral, span, nums := [value] })
  | .symbol span name, _ => pure (some (compileSymbol span name))
  | .list span [], _ => reject span "empty list is not a valid expression"
  | .list span (.symbol headSpan op :: args), topLevel =>
      compileForm arity span headSpan op (operandsOf arity args) topLevel
  | .list _ (head :: _), _ => reject head.span "expected an operation name"

def operandsOf (arity : ArityTable) : List RawExpr → List Operand
  | [] => []
  | raw :: rest => ⟨raw, compileExpr arity raw false⟩ :: operandsOf arity rest

end

/-! ## Programs -/

/-- The function a top-level expression defines, as `collect_arity` reads it:
where its name stands, the name, and its number of parameters. -/
def signature? : RawExpr → Option (SourceSpan × String × Nat)
  | .list _ (.symbol _ "define" :: .list _ (.symbol nameSpan name :: params) :: _) =>
      some (nameSpan, name, params.length)
  | _ => none

def collectArity : List RawExpr → ArityTable → Compile ArityTable
  | [], table => pure table
  | top :: rest, table =>
      match signature? top with
      | none => collectArity rest table
      | some (nameSpan, name, count) =>
          if (table.lookup name).isSome then do
            err nameSpan ("function '" ++ name ++ "' is defined more than once")
            collectArity rest table
          else collectArity rest (table ++ [(name, count)])

def compileTops (arity : ArityTable) : List RawExpr → Compile (List Node)
  | [] => pure []
  | top :: rest => do
      let node ← compileExpr arity top true
      let nodes ← compileTops arity rest
      pure (node.toList ++ nodes)

/-- The items of a program that is a single explicit `(do ...)`. -/
def singleDo? : List RawExpr → Option (SourceSpan × List RawExpr)
  | [.list span (.symbol _ "do" :: items)] => some (span, items)
  | _ => none

/-- From the start of the first to the end of the last top-level expression. -/
def spanOfTops (first : RawExpr) (exprs : List RawExpr) : SourceSpan :=
  first.span.join (exprs.getLastD first).span

structure CompileResult where
  root : Option Node
  diagnostics : List Diagnostic

def CompileResult.ok (result : CompileResult) : Bool :=
  result.root.isSome && !hasErrors result.diagnostics

/-- The root `compile` builds from at least one parsed expression. -/
def compileExprs (first : RawExpr) (exprs : List RawExpr) : Compile (Option Node) :=
  match singleDo? exprs with
  | some (span, items) => do
      let arity ← collectArity items []
      let children ← compileTops arity items
      pure (some { kind := .doForm, span, op := "do", children })
  | none => do
      let arity ← collectArity exprs []
      let children ← compileTops arity exprs
      if exprs.length = 1 then pure children.head?
      else
        pure (some
          { kind := .doForm, span := spanOfTops first exprs, op := "do", children })

/-- `compile`, or `none` where `parse` never returns. -/
def compile (source : Bytes) : Option CompileResult :=
  (parse source).map fun parsed =>
    match parsed.exprs with
    | [] =>
        { root := none
          diagnostics :=
            if hasErrors parsed.diagnostics then parsed.diagnostics
            else parsed.diagnostics ++
              [{ severity := .error, span := {}, message := "program is empty" }] }
    | first :: rest =>
        let compiled := compileExprs first (first :: rest)
        { root := compiled.value.map assignNodeIds
          diagnostics := parsed.diagnostics ++ compiled.diagnostics }

/-- Source text the engine accepts, with the tree it compiles to. -/
structure Program where
  source : Bytes
  root : Node
  diagnostics : List Diagnostic
  compiled : compile source = some ⟨some root, diagnostics⟩
  accepted : hasErrors diagnostics = false

/-- Compile a source text, where the engine accepts it. -/
def Program.ofSource? (source : Bytes) : Option Program :=
  match compiled : compile source with
  | some ⟨some root, diagnostics⟩ =>
      if accepted : hasErrors diagnostics = false then
        some { source, root, diagnostics, compiled, accepted }
      else none
  | _ => none

end CardCode
