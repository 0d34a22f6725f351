import CardCode.Semantics.Relabelling
import CardCode.Syntax.Trees

/-! # Parsing elsewhere

The parser hands spans on and never looks at them: tokens that stand elsewhere are read
as the same expressions, and the same is reported about them.
-/

namespace CardCode

variable (labels : Relabelling)

/-- A token that stands elsewhere; only an integer token keeps a value. -/
def Token.relabel (token : Token) : Token :=
  { token with
    span := labels.span token.span
    integer := if token.kind = .integer then token.integer else 0 }

namespace RawExpr

mutual

def relabel : RawExpr → RawExpr
  | .list span items => .list (labels.span span) (relabelAll items)
  | .symbol span name => .symbol (labels.span span) name
  | .integer span value => .integer (labels.span span) value

def relabelAll : List RawExpr → List RawExpr
  | [] => []
  | raw :: rest => raw.relabel :: relabelAll rest

end

theorem relabelAll_eq (items : List RawExpr) :
    relabelAll labels items = items.map (relabel labels) := by
  induction items with
  | nil => rfl
  | cons raw rest induction => rw [relabelAll, induction, List.map_cons]

@[simp] theorem relabel_list (span : SourceSpan) (items : List RawExpr) :
    (RawExpr.list span items).relabel labels =
      .list (labels.span span) (items.map (relabel labels)) := by
  rw [relabel, relabelAll_eq]

@[simp] theorem relabel_symbol (span : SourceSpan) (name : String) :
    (RawExpr.symbol span name).relabel labels = .symbol (labels.span span) name := by
  rw [relabel]

@[simp] theorem relabel_integer (span : SourceSpan) (value : Int64) :
    (RawExpr.integer span value).relabel labels = .integer (labels.span span) value := by
  rw [relabel]

@[simp] theorem span_relabel (raw : RawExpr) :
    (raw.relabel labels).span = labels.span raw.span := by
  cases raw with
  | list span items => rw [relabel_list]; rfl
  | symbol span name => rw [relabel_symbol]; rfl
  | integer span value => rw [relabel_integer]; rfl

end RawExpr

def Parsed.relabel (parsed : Parsed) : Parsed where
  expr := parsed.expr.map (RawExpr.relabel labels)
  rest := parsed.rest.map (Token.relabel labels)
  diagnostics := parsed.diagnostics.map (Diagnostic.relabel labels)

def ParseResult.relabel (parsed : ParseResult) : ParseResult where
  exprs := parsed.exprs.map (RawExpr.relabel labels)
  diagnostics := parsed.diagnostics.map (Diagnostic.relabel labels)

theorem Parsed.relabel_prepend (diagnostics : List Diagnostic) (parsed : Parsed) :
    (parsed.prepend diagnostics).relabel labels =
      (parsed.relabel labels).prepend (diagnostics.map (Diagnostic.relabel labels)) := by
  rw [Parsed.prepend, Parsed.relabel, List.map_append]
  rfl

theorem nextToken_relabel (token : Token) (rest : List Token) :
    nextToken ((token :: rest).map (Token.relabel labels)) =
      some (token.relabel labels, (if token.kind = .end then token :: rest else rest).map
        (Token.relabel labels)) := by
  rw [List.map_cons, nextToken, ← List.map_cons, apply_ite (List.map (Token.relabel labels))]
  rfl

theorem parse_relabel (fuel : Nat) :
    (∀ tokens, parseExpr fuel (tokens.map (Token.relabel labels)) =
      (parseExpr fuel tokens).map (Parsed.relabel labels)) ∧
    ∀ lparen span items tokens,
      parseList fuel (labels.span lparen) (labels.span span)
          (items.map (RawExpr.relabel labels)) (tokens.map (Token.relabel labels)) =
        (parseList fuel lparen span items tokens).map (Parsed.relabel labels) := by
  induction fuel with
  | zero => exact ⟨fun _ => rfl, fun _ _ _ _ => rfl⟩
  | succ fuel induction =>
      rcases induction with ⟨exprs, lists⟩
      constructor
      · intro tokens
        cases tokens with
        | nil => rfl
        | cons token rest =>
            have moved : (token.relabel labels).kind = token.kind := rfl
            rw [parseExpr, parseExpr, nextToken_relabel, nextToken]
            dsimp only
            rw [moved]
            cases kind : token.kind with
            | lParen => exact lists token.span token.span [] rest
            | symbol =>
                rw [if_neg (by simp), Option.map_some, Parsed.relabel, Option.map_some,
                  RawExpr.relabel_symbol]
                rfl
            | integer =>
                have held : (token.relabel labels).integer = token.integer := if_pos kind
                rw [if_neg (by simp), Option.map_some, Parsed.relabel, Option.map_some,
                  RawExpr.relabel_integer, held]
                rfl
            | rParen => rfl
            | «end» => rfl
      · intro lparen span items tokens
        cases tokens with
        | nil => rfl
        | cons token rest =>
            by_cases close : token.kind = .rParen
            · have moved : (token.relabel labels).kind = .rParen := close
              rw [List.map_cons, parseList, parseList, moved, close]
              dsimp only
              rw [Option.map_some, Parsed.relabel, Option.map_some, RawExpr.relabel_list,
                labels.span_join]
              rfl
            · by_cases isEnd : token.kind = .end
              · have moved : (token.relabel labels).kind = .end := isEnd
                rw [List.map_cons, parseList, parseList, moved, isEnd]
                rfl
              · have found := exprs (token :: rest)
                have notClose : (token.relabel labels).kind ≠ .rParen := close
                have notEnd : (token.relabel labels).kind ≠ .end := isEnd
                rw [List.map_cons] at found ⊢
                rw [parseList_item notClose notEnd, parseList_item close isEnd, found]
                cases parseExpr fuel (token :: rest) with
                | none => rfl
                | some parsed =>
                    rcases parsed with ⟨expr, unread, diagnostics⟩
                    cases expr with
                    | none => rfl
                    | some child =>
                        have following := lists lparen (span.join child.span) (items ++ [child])
                          unread
                        rw [labels.span_join, ← RawExpr.span_relabel, List.map_append] at following
                        dsimp only [Option.map_some, Parsed.relabel]
                        rw [← List.map_singleton, following, Option.map_map, Option.map_map]
                        congr 1
                        funext parsed
                        exact (Parsed.relabel_prepend labels diagnostics parsed).symm

theorem parseLoop_relabel (fuel budget : Nat) (tokens : List Token) :
    parseLoop fuel budget (tokens.map (Token.relabel labels)) =
      (parseLoop fuel budget tokens).map (ParseResult.relabel labels) := by
  induction budget generalizing tokens with
  | zero =>
      cases tokens with
      | nil => rfl
      | cons token rest =>
          have moved : (token.relabel labels).kind = token.kind := rfl
          rw [List.map_cons, parseLoop, parseLoop, moved]
          split
          · rfl
          · rfl
  | succ budget induction =>
      cases tokens with
      | nil => rfl
      | cons token rest =>
          have moved : (token.relabel labels).kind = token.kind := rfl
          have found := (parse_relabel labels fuel).1 (token :: rest)
          rw [List.map_cons] at found ⊢
          rw [parseLoop, parseLoop, moved, found]
          split
          · rfl
          · cases parseExpr fuel (token :: rest) with
            | none => rfl
            | some parsed =>
                dsimp only [Option.map_some, Parsed.relabel]
                rw [induction, Option.map_map, Option.map_map]
                congr 1
                funext tail
                cases parsed.expr with
                | none => simp [ParseResult.relabel]
                | some raw => simp [ParseResult.relabel]

theorem parseTokens_relabel (tokens : List Token) :
    parseTokens (tokens.map (Token.relabel labels)) =
      (parseTokens tokens).map (ParseResult.relabel labels) := by
  rw [parseTokens, parseTokens, parseLoop_relabel, List.length_map]

/-! ## Tokens of the same text -/

/-- A token as its kind and text determine it. -/
def tokenOf (word : TokenKind × String) : Token where
  kind := word.1
  span := {}
  text := word.2
  integer := if word.1 = .integer then (parseInt word.2.toList).getD 0 else 0

def Token.word (token : Token) : TokenKind × String :=
  (token.kind, token.text)

/-- But for where it stands, a token is what its kind and text make it. -/
theorem relabel_eq_tokenOf {labels : Relabelling} (blank : ∀ span, labels.span span = {})
    {source : Bytes} {lexed : LexResult} (found : lex source = some lexed)
    (clean : hasErrors lexed.diagnostics = false) :
    lexed.tokens.map (Token.relabel labels) = (lexed.tokens.map Token.word).map tokenOf := by
  rcases lex_scans found clean with ⟨body, last, tokens, isEnd, -, classified⟩
  rw [List.map_map]
  apply List.map_congr_left
  intro token member
  have held : token.kind = .integer → parseInt token.text.toList = some token.integer := by
    rw [tokens] at member
    rcases List.mem_append.mp member with member | member
    · exact (classified token member).value
    · intro integer
      rw [List.mem_singleton.mp member, isEnd] at integer
      cases integer
  rw [Token.relabel, Function.comp_apply, tokenOf, Token.word, blank]
  split
  next integer =>
    rw [held integer]
    rfl
  next => rfl

/-- A text without lexical errors is parsed as the kinds and texts of its tokens say. -/
theorem parse_words {labels : Relabelling} (blank : ∀ span, labels.span span = {})
    {source : Bytes} {lexed : LexResult} {parsed : ParseResult} (lexes : lex source = some lexed)
    (clean : lexed.diagnostics = []) (parses : parse source = some parsed) :
    parseTokens ((lexed.tokens.map Token.word).map tokenOf) = some (parsed.relabel labels) := by
  rw [← relabel_eq_tokenOf blank lexes (by rw [clean]; rfl), parseTokens_relabel]
  rw [parse, lexes] at parses
  rcases Option.map_eq_some_iff.mp parses with ⟨found, loop, rfl⟩
  rw [loop, clean]
  rfl

end CardCode
