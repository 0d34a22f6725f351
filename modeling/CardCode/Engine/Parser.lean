import CardCode.Engine.Lexer

/-! # The engine's parser (`src/parser.cpp`) -/

namespace CardCode

/-- Untyped S-expression tree. -/
inductive RawExpr where
  | list (span : SourceSpan) (items : List RawExpr)
  | symbol (span : SourceSpan) (name : String)
  | integer (span : SourceSpan) (value : Int64)
  deriving Repr

namespace RawExpr

def span : RawExpr → SourceSpan
  | .list span _ => span
  | .symbol span _ => span
  | .integer span _ => span

/-- A property of an expression that every list inherits from its items. -/
theorem induct {Property : RawExpr → Prop}
    (list : ∀ span items, (∀ item ∈ items, Property item) → Property (.list span items))
    (symbol : ∀ span name, Property (.symbol span name))
    (integer : ∀ span value, Property (.integer span value)) :
    ∀ raw, Property raw := by
  intro raw
  refine @RawExpr.rec Property (fun items => ∀ item ∈ items, Property item)
    list symbol integer (by simp) ?_ raw
  intro head tail headHolds tailHold item member
  rcases List.mem_cons.mp member with equal | member
  · exact equal ▸ headHolds
  · exact tailHold item member

end RawExpr

/-- What `parse_expr` leaves behind: the expression unless it returned false,
the unread tokens, and the diagnostics it pushed. -/
structure Parsed where
  expr : Option RawExpr
  rest : List Token
  diagnostics : List Diagnostic

def Parsed.prepend (diagnostics : List Diagnostic) (parsed : Parsed) : Parsed :=
  { parsed with diagnostics := diagnostics ++ parsed.diagnostics }

/-- `ParserState::next`: the current token, which is not passed when it is the
End token. `none` is a read past the token vector. -/
def nextToken : List Token → Option (Token × List Token)
  | [] => none
  | token :: rest => some (token, if token.kind = .end then token :: rest else rest)

mutual

/-- `parse_expr`; `none` where the token vector is overrun or `fuel` runs out. -/
def parseExpr : Nat → List Token → Option Parsed
  | 0, _ => none
  | fuel + 1, tokens =>
      match nextToken tokens with
      | none => none
      | some (token, rest) =>
          match token.kind with
          | .lParen => parseList fuel token.span token.span [] rest
          | .symbol => some ⟨some (.symbol token.span token.text), rest, []⟩
          | .integer => some ⟨some (.integer token.span token.integer), rest, []⟩
          | .rParen => some ⟨none, rest, [⟨.error, token.span, "unexpected ')'"⟩]⟩
          | .end =>
              some ⟨none, rest, [⟨.error, token.span, "unexpected end of input"⟩]⟩

/-- The loop of `parse_list`, with the span joined and the items read so far. -/
def parseList : Nat → SourceSpan → SourceSpan → List RawExpr → List Token →
    Option Parsed
  | 0, _, _, _, _ => none
  | _ + 1, _, _, _, [] => none
  | fuel + 1, lparen, span, items, token :: rest =>
      match token.kind with
      | .rParen => some ⟨some (.list (span.join token.span) items), rest, []⟩
      | .end => some ⟨none, token :: rest,
          [⟨.error, lparen, "missing closing parenthesis"⟩]⟩
      | _ =>
          match parseExpr fuel (token :: rest) with
          | none => none
          | some ⟨none, rest, diagnostics⟩ => some ⟨none, rest, diagnostics⟩
          | some ⟨some child, rest, diagnostics⟩ =>
              (parseList fuel lparen (span.join child.span) (items ++ [child]) rest).map
                (.prepend diagnostics)

end

structure ParseResult where
  exprs : List RawExpr
  diagnostics : List Diagnostic

/-- The loop of `parse`: `budget` bounds its iterations, `fuel` each expression. -/
def parseLoop (fuel : Nat) : Nat → List Token → Option ParseResult
  | _, [] => none
  | budget, token :: rest =>
      if token.kind = .end then some ⟨[], []⟩
      else
        match budget with
        | 0 => none
        | budget + 1 =>
            match parseExpr fuel (token :: rest) with
            | none => none
            | some parsed =>
                (parseLoop fuel budget parsed.rest).map fun tail =>
                  ⟨parsed.expr.toList ++ tail.exprs,
                    parsed.diagnostics ++ tail.diagnostics⟩

def parseTokens (tokens : List Token) : Option ParseResult :=
  parseLoop (2 * tokens.length) tokens.length tokens

/-- `parse`, or `none` where `lex` never returns. -/
def parse (source : Bytes) : Option ParseResult :=
  match lex source with
  | none => none
  | some lexed =>
      (parseTokens lexed.tokens).map fun parsed =>
        ⟨parsed.exprs, lexed.diagnostics ++ parsed.diagnostics⟩

end CardCode
