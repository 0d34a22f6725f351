import CardCode.Engine.Parser
import CardCode.Foundation.TokenTree
import CardCode.Syntax.Positions
import CardCode.Syntax.Totality

/-! # The trees the engine's parser builds

Where the parser reports no error it splits its tokens into bracketed trees, and
every expression is read off one of them.
-/

namespace CardCode

open TokenTree

def Token.IsAtom (token : Token) : Prop :=
  token.kind = .symbol ∨ token.kind = .integer

/-- A tree over the engine's tokens with the brackets where they belong. -/
def WellBracketed : TokenTree Token → Prop :=
  Bracketed Token.IsAtom (fun token => token.kind = .lParen) fun token => token.kind = .rParen

/-- The expression a single token is read as. -/
def Token.toRaw (token : Token) : RawExpr :=
  if token.kind = .integer then .integer token.span token.integer
  else .symbol token.span token.text

namespace TokenTree

mutual

/-- The expression a tree is read as. -/
def toRaw : TokenTree Token → RawExpr
  | .leaf token => token.toRaw
  | .group opening items closing =>
      .list (opening.span.join closing.span) (toRawAll items)

def toRawAll : List (TokenTree Token) → List RawExpr
  | [] => []
  | tree :: rest => toRaw tree :: toRawAll rest

end

theorem toRawAll_eq (trees : List (TokenTree Token)) :
    toRawAll trees = trees.map toRaw := by
  induction trees with
  | nil => rw [toRawAll, List.map_nil]
  | cons tree rest induction => rw [toRawAll, List.map_cons, induction]

theorem toRaw_group (opening closing : Token) (items : List (TokenTree Token)) :
    toRaw (.group opening items closing) =
      .list (opening.span.join closing.span) (items.map toRaw) := by
  rw [toRaw, toRawAll_eq]

end TokenTree

theorem join_join (first second third : SourceSpan) :
    (first.join second).join third = first.join third :=
  rfl

/-! ## Expressions -/

/-- A parsed expression stands for the tokens taken to read it. -/
def Parsed.Takes (parsed : Parsed) (tokens : List Token) : Prop :=
  ∃ tree, parsed.expr = some (toRaw tree) ∧ WellBracketed tree ∧
    tokens = tree.flatten ++ parsed.rest

/-- So does the rest of a list whose first items were read before. -/
def Parsed.TakesList (parsed : Parsed) (span : SourceSpan) (items : List RawExpr)
    (tokens : List Token) : Prop :=
  ∃ trees closing, parsed.expr =
      some (.list (span.join closing.span) (items ++ trees.map toRaw)) ∧
    (∀ tree ∈ trees, WellBracketed tree) ∧ closing.kind = .rParen ∧
    tokens = flattenAll trees ++ closing :: parsed.rest

theorem Token.toRaw_leaf {token : Token} {rest : List Token} (atom : token.IsAtom) :
    (Parsed.mk (some token.toRaw) rest []).Takes (token :: rest) := by
  refine ⟨.leaf token, ?_, .leaf atom, by simp⟩
  rw [TokenTree.toRaw]

theorem parse_takes (fuel : Nat) :
    (∀ tokens parsed, parseExpr fuel tokens = some parsed →
      hasErrors parsed.diagnostics = false → parsed.Takes tokens) ∧
    (∀ lparen span items tokens parsed,
      parseList fuel lparen span items tokens = some parsed →
      hasErrors parsed.diagnostics = false → parsed.TakesList span items tokens) := by
  induction fuel with
  | zero =>
      constructor
      · intro tokens parsed found
        rw [parseExpr] at found
        cases found
      · intro lparen span items tokens parsed found
        rw [parseList] at found
        cases found
  | succ fuel induction =>
      constructor
      · intro tokens parsed found clean
        cases tokens with
        | nil => cases found
        | cons token rest =>
            rw [parseExpr, nextToken] at found
            dsimp only at found
            cases kind : token.kind with
            | lParen =>
                simp only [kind, reduceCtorEq, if_false] at found
                rcases induction.2 _ _ _ _ _ found clean with
                  ⟨trees, closing, expr, bracketed, close, split⟩
                refine ⟨.group token trees closing, ?_, .group kind bracketed close, ?_⟩
                · rw [expr, toRaw_group, List.nil_append]
                · rw [split]
                  simp
            | symbol =>
                simp only [kind, reduceCtorEq, if_false, Option.some.injEq] at found
                have leaf := @Token.toRaw_leaf token rest (.inl kind)
                rw [Token.toRaw, if_neg (by simp [kind])] at leaf
                exact found ▸ leaf
            | integer =>
                simp only [kind, reduceCtorEq, if_false, Option.some.injEq] at found
                have leaf := @Token.toRaw_leaf token rest (.inr kind)
                rw [Token.toRaw, if_pos kind] at leaf
                exact found ▸ leaf
            | rParen =>
                simp only [kind, Option.some.injEq] at found
                rw [← found, hasErrors_error] at clean
                cases clean
            | «end» =>
                simp only [kind, Option.some.injEq] at found
                rw [← found, hasErrors_error] at clean
                cases clean
      · intro lparen span items tokens parsed found clean
        cases tokens with
        | nil => cases found
        | cons token rest =>
            rw [parseList] at found
            split at found
            next close =>
              cases found
              exact ⟨[], token, by simp, by simp, close, by simp⟩
            next =>
              cases found
              rw [hasErrors_error] at clean
              cases clean
            next =>
              split at found
              next => cases found
              next unread diagnostics failed =>
                cases found
                rcases induction.1 _ _ failed clean with ⟨tree, expr, -⟩
                cases expr
              next child unread diagnostics read =>
                rcases Option.map_eq_some_iff.mp found with ⟨tail, tailRead, rfl⟩
                have both := clean
                rw [Parsed.prepend, hasErrors_append, Bool.or_eq_false_iff] at both
                rcases induction.1 _ _ read both.1 with ⟨tree, expr, bracketed, split⟩
                rcases induction.2 _ _ _ _ _ tailRead both.2 with
                  ⟨trees, closing, list, bracketedAll, close, splitAll⟩
                cases expr
                refine ⟨tree :: trees, closing, ?_, ?_, close, ?_⟩
                · rw [Parsed.prepend, list, join_join]
                  simp
                · exact List.forall_mem_cons.mpr ⟨bracketed, bracketedAll⟩
                · rw [split, splitAll, flattenAll_cons, List.append_assoc]
                  rfl

/-! ## Programs -/

theorem parseLoop_trees {fuel budget : Nat} {tokens : List Token} {parsed : ParseResult}
    (found : parseLoop fuel budget tokens = some parsed)
    (clean : hasErrors parsed.diagnostics = false) :
    ∃ trees last rest, parsed.exprs = trees.map toRaw ∧
      (∀ tree ∈ trees, WellBracketed tree) ∧ last.kind = .end ∧
      tokens = flattenAll trees ++ last :: rest := by
  induction budget generalizing tokens parsed with
  | zero =>
      cases tokens with
      | nil => cases found
      | cons token rest =>
          rw [parseLoop] at found
          split at found
          next isEnd =>
            cases found
            exact ⟨[], token, rest, by simp, by simp, isEnd, by simp⟩
          next => cases found
  | succ budget induction =>
      cases tokens with
      | nil => cases found
      | cons token rest =>
          rw [parseLoop] at found
          split at found
          next isEnd =>
            cases found
            exact ⟨[], token, rest, by simp, by simp, isEnd, by simp⟩
          next =>
            split at found
            next => cases found
            next first read =>
              rcases Option.map_eq_some_iff.mp found with ⟨tail, tailRead, rfl⟩
              have both := clean
              rw [hasErrors_append, Bool.or_eq_false_iff] at both
              rcases (parse_takes fuel).1 _ _ read both.1 with ⟨tree, expr, bracketed, split⟩
              rcases induction tailRead both.2 with
                ⟨trees, last, unread, exprs, bracketedAll, isEnd, splitAll⟩
              refine ⟨tree :: trees, last, unread, ?_, ?_, isEnd, ?_⟩
              · rw [expr, exprs]
                rfl
              · exact List.forall_mem_cons.mpr ⟨bracketed, bracketedAll⟩
              · rw [split, splitAll, flattenAll_cons, List.append_assoc]

/-- A row of tokens has one first End token. -/
theorem eq_of_first_end {body front rest : List Token} {last other : Token}
    (split : body ++ [last] = front ++ other :: rest) (isEnd : other.kind = .end)
    (inner : ∀ token ∈ body, token.kind ≠ .end) : front = body := by
  rcases List.append_eq_append_iff.mp split with ⟨extra, rfl, equal⟩ | ⟨extra, rfl, equal⟩
  · cases extra with
    | nil => simp
    | cons first extra => simp at equal
  · cases extra with
    | nil => simp
    | cons first extra =>
        cases equal
        exact absurd isEnd (inner _ (by simp))

/-- What a source text without lexical and syntactic errors is read as. -/
structure Reading (source : Bytes) (exprs : List RawExpr) where
  trees : List (TokenTree Token)
  exprs_eq : exprs = trees.map toRaw
  bracketed : ∀ tree ∈ trees, WellBracketed tree
  classified : ∀ token ∈ flattenAll trees, token.Classified
  scans : Scans engineAlphabet 0 (source.map Char.ofUInt8)
    ((flattenAll trees).map Token.lexeme)
  fits : source.length < 2 ^ 32

/-- The trees hold all tokens of the text but the End token. -/
theorem parse_tokens {source : Bytes} {parsed : ParseResult}
    (found : parse source = some parsed) (clean : hasErrors parsed.diagnostics = false) :
    ∃ (reading : Reading source parsed.exprs) (lexed : LexResult) (last : Token),
      lex source = some lexed ∧ lexed.tokens = flattenAll reading.trees ++ [last] := by
  have fits : source.length < 2 ^ 32 := by
    rw [← parse_isSome_iff, found]
    rfl
  rw [parse] at found
  split at found
  next => cases found
  next lexed lexes =>
    rcases Option.map_eq_some_iff.mp found with ⟨result, loop, rfl⟩
    rw [hasErrors_append, Bool.or_eq_false_iff] at clean
    rcases lex_scans lexes clean.1 with ⟨body, last, tokens, -, scans, classified⟩
    rcases parseLoop_trees loop clean.2 with ⟨trees, other, rest, exprs, bracketed, isEnd, split⟩
    have same : flattenAll trees = body := by
      rw [tokens] at split
      exact eq_of_first_end split isEnd fun token member => (classified token member).notEnd
    refine ⟨⟨trees, exprs, bracketed, by rwa [same], by rwa [same], fits⟩, lexed, last, lexes, ?_⟩
    rw [tokens, same]

theorem parse_reads {source : Bytes} {parsed : ParseResult}
    (found : parse source = some parsed) (clean : hasErrors parsed.diagnostics = false) :
    Nonempty (Reading source parsed.exprs) := by
  rcases parse_tokens found clean with ⟨reading, -⟩
  exact ⟨reading⟩

end CardCode
