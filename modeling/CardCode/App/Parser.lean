import CardCode.Engine.Diagnostic

/-! # The user interface's parser (`app/src/parser.js`)

A JavaScript string is a list of characters here; offsets and columns count its
UTF-16 code units, of which a character beyond the basic plane takes two.
-/

namespace CardCode.App

abbrev Text := List Char

def codeUnits (c : Char) : Nat :=
  if c.toNat < 0x10000 then 1 else 2

/-- `source.length`. -/
def textLength : Text → Nat
  | [] => 0
  | c :: rest => codeUnits c + textLength rest

/-- `/\s/`. -/
def isSpace (c : Char) : Bool :=
  let code := c.toNat
  (9 ≤ code && code ≤ 13) || code = 0x20 || code = 0xA0 || code = 0x1680 ||
    (0x2000 ≤ code && code ≤ 0x200A) || code = 0x2028 || code = 0x2029 ||
    code = 0x202F || code = 0x205F || code = 0x3000 || code = 0xFEFF

/-- `/\d/`. -/
def isDecimal (c : Char) : Bool :=
  '0' ≤ c && c ≤ '9'

/-- `/^-?\d+$/`. -/
def isIntegerText : Text → Bool
  | '-' :: digits => !digits.isEmpty && digits.all isDecimal
  | digits => !digits.isEmpty && digits.all isDecimal

/-! ## Spans -/

structure Span where
  startOffset : Nat
  endOffset : Nat
  startLine : Nat
  startColumn : Nat
  endLine : Nat
  endColumn : Nat
  deriving Repr, DecidableEq, Inhabited

/-- The loop of `lineColumnAt`: the line and column after `offset` more units. -/
def lineColumnFrom : Text → Nat → Nat → Nat → Nat × Nat
  | [], offset, line, column => (line, column + offset)
  | c :: rest, offset, line, column =>
      if offset = 0 then (line, column)
      else if c = '\n' then lineColumnFrom rest (offset - 1) (line + 1) 1
      else lineColumnFrom rest (offset - codeUnits c) line (column + min offset (codeUnits c))

def lineColumnAt (source : Text) (offset : Nat) : Nat × Nat :=
  lineColumnFrom source offset 1 1

def spanFromOffsets (source : Text) (startOffset endOffset : Nat) : Span :=
  let start := lineColumnAt source startOffset
  let stop := lineColumnAt source endOffset
  { startOffset, endOffset, startLine := start.1, startColumn := start.2,
    endLine := stop.1, endColumn := stop.2 }

/-! ## Trees -/

/-- An expression: a list, or an atom with the text it was written as. -/
inductive Expr where
  | list (children : List Expr) (span : Span)
  | integer (raw : String) (span : Span)
  | symbol (raw : String) (span : Span)
  deriving Repr

namespace Expr

def span : Expr → Span
  | .list _ span => span
  | .integer _ span => span
  | .symbol _ span => span

/-- A property of an expression that every list inherits from its children. -/
theorem induct {Property : Expr → Prop}
    (list : ∀ children span, (∀ child ∈ children, Property child) →
      Property (.list children span))
    (integer : ∀ raw span, Property (.integer raw span))
    (symbol : ∀ raw span, Property (.symbol raw span)) :
    ∀ expr, Property expr := by
  intro expr
  refine @Expr.rec Property (fun children => ∀ child ∈ children, Property child)
    list integer symbol (by simp) ?_ expr
  intro head tail headHolds tailHold child member
  rcases List.mem_cons.mp member with equal | member
  · exact equal ▸ headHolds
  · exact tailHold child member

end Expr

/-- The error `Parser.error` builds. -/
structure ParseError where
  message : String
  span : Span
  deriving Repr, DecidableEq

inductive ParseFailure where
  | outOfFuel
  | thrown (error : ParseError)
  deriving Repr, DecidableEq

abbrev Parse := Except ParseFailure

/-! ## The parser -/

/-- The parser's state: its offset and the text from there on. -/
structure Cursor where
  offset : Nat
  rest : Text
  deriving Repr, DecidableEq

def parserError (source : Text) (message : String) (offset : Nat) : ParseError :=
  let span := spanFromOffsets source offset (min (textLength source) (offset + 1))
  { message := message ++ " at " ++ toString span.startLine ++ ":" ++ toString span.startColumn
    span }

/-- `skipIgnored`, in a comment where `inside` says so. The newline that ends a
comment is skipped as the blank it is. -/
def skipIgnored (inside : Bool) : Nat → Text → Cursor
  | offset, [] => ⟨offset, []⟩
  | offset, c :: rest =>
      if inside then skipIgnored (c ≠ '\n') (offset + codeUnits c) rest
      else if isSpace c then skipIgnored false (offset + codeUnits c) rest
      else if c = ';' then skipIgnored true (offset + codeUnits c) rest
      else ⟨offset, c :: rest⟩

/-- `/\s|\(|\)|;/`. -/
def endsAtom (c : Char) : Bool :=
  isSpace c || c = '(' || c = ')' || c = ';'

/-- The loop of `parseAtom`: what it takes and where it stops. -/
def takeAtom : Nat → Text → Text × Cursor
  | offset, [] => ([], ⟨offset, []⟩)
  | offset, c :: rest =>
      if endsAtom c then ([], ⟨offset, c :: rest⟩)
      else
        let tail := takeAtom (offset + codeUnits c) rest
        (c :: tail.1, tail.2)

/-- The expression an atom's text is read as. -/
def atomExpr (raw : Text) (span : Span) : Expr :=
  if isIntegerText raw then .integer (String.ofList raw) span
  else .symbol (String.ofList raw) span

def parseAtom (source : Text) (cursor : Cursor) : Expr × Cursor :=
  let atom := takeAtom cursor.offset cursor.rest
  (atomExpr atom.1 (spanFromOffsets source cursor.offset atom.2.offset), atom.2)

mutual

def parseExpr (source : Text) : Nat → Cursor → Parse (Expr × Cursor)
  | 0, _ => .error .outOfFuel
  | fuel + 1, cursor =>
      let start := skipIgnored false cursor.offset cursor.rest
      match start.rest with
      | '(' :: rest => parseList source fuel start.offset [] ⟨start.offset + 1, rest⟩
      | ')' :: _ => .error (.thrown (parserError source "unexpected ')'" start.offset))
      | _ => .ok (parseAtom source start)

/-- The loop of `parseList`, with the children read so far. -/
def parseList (source : Text) : Nat → Nat → List Expr → Cursor → Parse (Expr × Cursor)
  | 0, _, _, _ => .error .outOfFuel
  | fuel + 1, start, children, cursor =>
      let next := skipIgnored false cursor.offset cursor.rest
      match next.rest with
      | [] => .error (.thrown (parserError source "expected ')'" next.offset))
      | ')' :: rest =>
          let span := spanFromOffsets source start (next.offset + 1)
          .ok (.list children span, ⟨next.offset + 1, rest⟩)
      | _ => do
          let child ← parseExpr source fuel next
          parseList source fuel start (children ++ [child.1]) child.2

end

/-- The loop of `parseCardCode`: `budget` bounds its iterations, `fuel` each
expression. -/
def parseProgram (source : Text) (fuel : Nat) : Nat → Cursor → Parse (List Expr)
  | 0, cursor => if cursor.rest.isEmpty then .ok [] else .error .outOfFuel
  | budget + 1, cursor =>
      if cursor.rest.isEmpty then .ok []
      else
        let next := skipIgnored false cursor.offset cursor.rest
        if next.rest.isEmpty then .ok []
        else do
          let child ← parseExpr source fuel next
          let children ← parseProgram source fuel budget child.2
          pure (child.1 :: children)

structure ProgramAst where
  children : List Expr
  span : Span

/-- `parseCardCode`; every call and every iteration consumes a character, so the
length of the source bounds both. -/
def parseCardCode (source : Text) : Parse ProgramAst := do
  let children ← parseProgram source (source.length + 1) (source.length + 1) ⟨0, source⟩
  pure { children, span := spanFromOffsets source 0 (textLength source) }

end CardCode.App
