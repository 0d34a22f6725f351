import CardCode.Engine.Compiler

/-! # The front end always returns

Every loop of the lexer and the parser consumes what it reads, so the fuel they
are given is never used up: only a source whose length does not fit the lexer's
32-bit offset makes them run forever.
-/

namespace CardCode

/-! ## The lexer -/

/-- Tokens that end with the End token and hold no other. -/
inductive Closed : List Token → Prop
  | last {token} : token.kind = .end → Closed [token]
  | cons {token rest} : token.kind ≠ .end → Closed rest → Closed (token :: rest)

theorem skipComment_length (position : Position) (text : List Char) :
    (skipComment position text).2.length ≤ text.length := by
  induction text generalizing position with
  | nil => exact Nat.le_refl _
  | cons c rest induction =>
      rw [skipComment]
      split
      · exact Nat.le_refl _
      · have tail := induction (position.advance c)
        rw [List.length_cons]
        omega

theorem takeWord_length (position : Position) (text : List Char) :
    (takeWord position text).2.2.length ≤ text.length := by
  induction text generalizing position with
  | nil => exact Nat.le_refl _
  | cons c rest induction =>
      rw [takeWord]
      split
      · have tail := induction (position.advance c)
        dsimp only
        rw [List.length_cons]
        omega
      · exact Nat.le_refl _

theorem wordToken_kind (span : SourceSpan) (word : List Char) :
    (wordToken span word).1.kind ≠ .end := by
  rw [wordToken]
  split
  · split <;> exact TokenKind.noConfusion
  · split <;> exact TokenKind.noConfusion

theorem lexLoop_total (fuel : Nat) (position : Position) (text : List Char)
    (enough : text.length ≤ fuel) :
    ∃ result, lexLoop fuel position text = some result ∧ Closed result.tokens := by
  induction fuel generalizing position text with
  | zero =>
      rw [List.length_eq_zero_iff.mp (Nat.le_zero.mp enough)]
      exact ⟨_, rfl, .last rfl⟩
  | succ fuel induction =>
      cases text with
      | nil => exact ⟨_, rfl, .last rfl⟩
      | cons c rest =>
          have short : rest.length ≤ fuel := Nat.le_of_succ_le_succ enough
          rw [lexLoop]
          split
          · exact induction _ rest short
          split
          next comment =>
            apply induction
            have newline : c ≠ '\n' := by rw [comment]; decide
            rw [skipComment, if_neg newline]
            exact Nat.le_trans (skipComment_length _ _) short
          split
          next paren =>
            rcases induction (position.advance c) rest short with ⟨tail, found, closed⟩
            dsimp only
            rw [found]
            refine ⟨_, rfl, .cons ?_ closed⟩
            dsimp only
            split <;> exact TokenKind.noConfusion
          split
          next symbol =>
            have word : (takeWord position (c :: rest)).2.2.length ≤ fuel := by
              rw [takeWord, if_pos symbol]
              exact Nat.le_trans (takeWord_length _ _) short
            rcases induction (takeWord position (c :: rest)).2.1 _ word with
              ⟨tail, found, closed⟩
            dsimp only
            rw [found]
            exact ⟨_, rfl, .cons (wordToken_kind _ _) closed⟩
          · rcases induction (position.advance c) rest short with ⟨tail, found, closed⟩
            dsimp only
            rw [found]
            exact ⟨_, rfl, closed⟩

theorem lex_total {source : Bytes} (fits : source.length < 2 ^ 32) :
    ∃ result, lex source = some result ∧ Closed result.tokens := by
  rw [lex, if_pos fits]
  exact lexLoop_total _ _ _ (by simp)

/-! ## The parser -/

/-- What a call of the parser leaves unread: less than it was given, unless it
was given the End token alone. -/
def Advances (tokens : List Token) (rest : List Token) : Prop :=
  Closed rest ∧ rest.length ≤ tokens.length ∧
    (tokens.length ≠ 1 → rest.length < tokens.length)

theorem Closed.length_pos {tokens : List Token} (closed : Closed tokens) :
    0 < tokens.length := by
  cases closed <;> simp

/-- `parse_list` at a token that neither closes the list nor ends the input. -/
theorem parseList_item {fuel : Nat} {lparen span : SourceSpan} {items : List RawExpr}
    {token : Token} {rest : List Token} (notClose : token.kind ≠ .rParen)
    (notEnd : token.kind ≠ .end) :
    parseList (fuel + 1) lparen span items (token :: rest) =
      match parseExpr fuel (token :: rest) with
      | none => none
      | some ⟨none, rest, diagnostics⟩ => some ⟨none, rest, diagnostics⟩
      | some ⟨some child, rest, diagnostics⟩ =>
          (parseList fuel lparen (span.join child.span) (items ++ [child]) rest).map
            (.prepend diagnostics) := by
  rw [parseList]
  cases kind : token.kind with
  | rParen => exact absurd kind notClose
  | «end» => exact absurd kind notEnd
  | lParen => rfl
  | symbol => rfl
  | integer => rfl

theorem parse_total (fuel : Nat) :
    (∀ tokens, Closed tokens → 2 * tokens.length ≤ fuel + 1 →
      ∃ parsed, parseExpr fuel tokens = some parsed ∧ Advances tokens parsed.rest) ∧
    (∀ lparen span items tokens, Closed tokens → 2 * tokens.length ≤ fuel →
      ∃ parsed, parseList fuel lparen span items tokens = some parsed ∧
        Closed parsed.rest ∧ parsed.rest.length ≤ tokens.length) := by
  induction fuel with
  | zero =>
      constructor
      · intro tokens closed enough
        have positive := closed.length_pos
        omega
      · intro _ _ _ tokens closed enough
        have positive := closed.length_pos
        omega
  | succ fuel induction =>
      constructor
      · intro tokens closed enough
        cases closed with
        | @last token isEnd =>
            rw [parseExpr, nextToken]
            simp only [isEnd, if_true]
            exact ⟨_, rfl, .last isEnd, Nat.le_refl _, fun other => absurd rfl other⟩
        | @cons token rest notEnd closed =>
            have shorter : Advances (token :: rest) rest :=
              ⟨closed, by simp, fun _ => by simp⟩
            rw [parseExpr, nextToken]
            simp only [notEnd, if_false]
            cases kind : token.kind with
            | lParen =>
                rw [List.length_cons] at enough
                rcases induction.2 token.span token.span [] rest closed (by omega) with
                  ⟨parsed, found, restClosed, length⟩
                exact ⟨parsed, found, restClosed, by simp; omega, fun _ => by simp; omega⟩
            | symbol => exact ⟨_, rfl, shorter⟩
            | integer => exact ⟨_, rfl, shorter⟩
            | rParen => exact ⟨_, rfl, shorter⟩
            | «end» => exact absurd kind notEnd
      · intro lparen span items tokens closed enough
        cases closed with
        | @last token isEnd =>
            rw [parseList]
            simp only [isEnd]
            exact ⟨_, rfl, .last isEnd, Nat.le_refl _⟩
        | @cons token rest notEnd closed =>
            by_cases close : token.kind = .rParen
            · rw [parseList]
              simp only [close]
              exact ⟨_, rfl, closed, by simp⟩
            · rw [parseList_item close notEnd]
              rw [List.length_cons] at enough
              have whole : Closed (token :: rest) := .cons notEnd closed
              rcases induction.1 (token :: rest) whole (by rw [List.length_cons]; omega) with
                ⟨⟨expr, unread, diagnostics⟩, found, restClosed, _, shorter⟩
              have positive := closed.length_pos
              have less : unread.length < rest.length + 1 :=
                shorter (by rw [List.length_cons]; omega)
              rw [found]
              cases expr with
              | none => exact ⟨_, rfl, restClosed, by simp; omega⟩
              | some child =>
                  rcases induction.2 lparen (span.join child.span) (items ++ [child]) unread
                    restClosed (by omega) with ⟨parsed, again, againClosed, length⟩
                  dsimp only
                  rw [again]
                  exact ⟨_, rfl, againClosed, by simp [Parsed.prepend]; omega⟩

theorem parseLoop_total {fuel budget : Nat} {tokens : List Token} (closed : Closed tokens)
    (fuelEnough : 2 * tokens.length ≤ fuel + 1) (budgetEnough : tokens.length ≤ budget + 1) :
    ∃ parsed, parseLoop fuel budget tokens = some parsed := by
  induction budget generalizing tokens with
  | zero =>
      cases closed with
      | last isEnd => exact ⟨_, by rw [parseLoop, if_pos isEnd]⟩
      | cons _ closed =>
          have positive := closed.length_pos
          rw [List.length_cons] at budgetEnough
          omega
  | succ budget induction =>
      rcases (parse_total fuel).1 tokens closed fuelEnough with
        ⟨parsed, found, restClosed, _, shorter⟩
      cases closed with
      | last isEnd => exact ⟨_, by rw [parseLoop, if_pos isEnd]⟩
      | @cons token rest notEnd closed =>
          have positive := closed.length_pos
          have less := shorter (by rw [List.length_cons]; omega)
          rcases induction restClosed (by omega) (by omega) with ⟨tail, again⟩
          rw [parseLoop, if_neg notEnd, found]
          dsimp only
          rw [again]
          exact ⟨_, rfl⟩

theorem parse_returns {source : Bytes} (fits : source.length < 2 ^ 32) :
    ∃ parsed, parse source = some parsed := by
  rcases lex_total fits with ⟨lexed, found, closed⟩
  have parses : ∃ parsed, parseTokens lexed.tokens = some parsed :=
    parseLoop_total closed (by omega) (by omega)
  rcases parses with ⟨parsed, parses⟩
  rw [parse, found]
  dsimp only
  rw [parses]
  exact ⟨_, rfl⟩

/-- The source texts on which the front end returns. -/
theorem parse_isSome_iff (source : Bytes) :
    (parse source).isSome = true ↔ source.length < 2 ^ 32 := by
  constructor
  · intro returns
    by_contra long
    rw [parse, lex, if_neg long] at returns
    cases returns
  · intro fits
    rcases parse_returns fits with ⟨parsed, found⟩
    rw [found]
    rfl

theorem compile_isSome_iff (source : Bytes) :
    (compile source).isSome = true ↔ source.length < 2 ^ 32 := by
  rw [compile, Option.isSome_map]
  exact parse_isSome_iff source

end CardCode
