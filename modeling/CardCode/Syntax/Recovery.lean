import CardCode.Foundation.Partners
import CardCode.Syntax.Trees

/-! # What the parser makes of unbalanced input

The parser reports every right parenthesis without a partner and goes on after it.
At a left one without a partner it reads on to the end, where only the last list it
was in complains.
-/

namespace CardCode

open TokenTree

def TokenKind.side : TokenKind → Side
  | .lParen => .opening
  | .rParen => .closing
  | _ => .neutral

def Token.side (token : Token) : Side :=
  token.kind.side

theorem WellBracketed.sided {tree : TokenTree Token} (bracketed : WellBracketed tree) :
    tree.Sided Token.side := by
  induction bracketed with
  | leaf atom =>
      apply Bracketed.leaf
      rcases atom with symbol | integer
      · rw [Token.side, symbol]
        rfl
      · rw [Token.side, integer]
        rfl
  | group isOpening _ isClosing induction =>
      apply Bracketed.group _ induction
      · rw [Token.side, isClosing]
        rfl
      · rw [Token.side, isOpening]
        rfl

def unexpectedClosing (token : Token) : Diagnostic :=
  ⟨.error, token.span, "unexpected ')'"⟩

def missingClosing (token : Token) : Diagnostic :=
  ⟨.error, token.span, "missing closing parenthesis"⟩

/-! ## Expressions -/

/-- What `parse_expr` does before the End token `finish`: read a tree, or run into
the end inside a list. -/
inductive ExprOutcome (finish : Token) : List Token → Parsed → Prop
  | read {tree rest} :
      WellBracketed tree →
      ExprOutcome finish (tree.flatten ++ rest) ⟨some (toRaw tree), rest ++ [finish], []⟩
  | broken {opening row last} :
      opening.kind = .lParen → Unclosed Token.side opening row last →
      ExprOutcome finish (opening :: row) ⟨none, [finish], [missingClosing last]⟩

/-- What `parse_list` does after `opening` and the items read so far. -/
inductive ListOutcome (finish opening : Token) (span : SourceSpan) (items : List RawExpr) :
    List Token → Parsed → Prop
  | read {trees closing rest} :
      (∀ tree ∈ trees, WellBracketed tree) → closing.kind = .rParen →
      ListOutcome finish opening span items (flattenAll trees ++ closing :: rest)
        ⟨some (.list (span.join closing.span) (items ++ trees.map toRaw)),
          rest ++ [finish], []⟩
  | broken {row last} :
      Unclosed Token.side opening row last →
      ListOutcome finish opening span items row ⟨none, [finish], [missingClosing last]⟩

/-- One more tree in front of what is left of a list. -/
theorem ListOutcome.prepend {finish opening : Token} {span : SourceSpan}
    {items : List RawExpr} {tree : TokenTree Token} {row : List Token} {parsed : Parsed}
    (bracketed : WellBracketed tree)
    (outcome : ListOutcome finish opening (span.join (toRaw tree).span)
      (items ++ [toRaw tree]) row parsed) :
    ListOutcome finish opening span items (tree.flatten ++ row) (parsed.prepend []) := by
  cases outcome with
  | @read trees closing rest more isClosing =>
      have all : ∀ other ∈ tree :: trees, WellBracketed other :=
        List.forall_mem_cons.mpr ⟨bracketed, more⟩
      have whole := @ListOutcome.read finish opening span items _ _ rest all isClosing
      simpa [Parsed.prepend, join_join] using whole
  | broken unclosed =>
      have sided : ∀ other ∈ [tree], other.Sided Token.side := by
        intro other member
        rw [List.mem_singleton.mp member]
        exact bracketed.sided
      have whole := unclosed.prepend sided
      rw [flattenAll_cons, flattenAll_nil, List.append_nil] at whole
      exact .broken whole

theorem parse_outcome (finish : Token) (isEnd : finish.kind = .end) (fuel : Nat) :
    (∀ token row parsed, (∀ other ∈ token :: row, other.kind ≠ .end) →
      token.kind ≠ .rParen → parseExpr fuel (token :: row ++ [finish]) = some parsed →
      ExprOutcome finish (token :: row) parsed) ∧
    (∀ opening span items row parsed, (∀ other ∈ row, other.kind ≠ .end) →
      parseList fuel opening.span span items (row ++ [finish]) = some parsed →
      ListOutcome finish opening span items row parsed) := by
  induction fuel with
  | zero =>
      constructor
      · intro token row parsed _ _ found
        rw [parseExpr] at found
        cases found
      · intro opening span items row parsed _ found
        rw [parseList] at found
        cases found
  | succ fuel induction =>
      constructor
      · intro token row parsed inner notClosing found
        have atom (kind : token.IsAtom) (raw : RawExpr) (equal : token.toRaw = raw) :
            ExprOutcome finish (token :: row) ⟨some raw, row ++ [finish], []⟩ := by
          have read := @ExprOutcome.read finish (.leaf token) row (.leaf kind)
          rw [flatten_leaf, TokenTree.toRaw, equal] at read
          exact read
        rw [List.cons_append, parseExpr, nextToken,
          if_neg (inner token List.mem_cons_self)] at found
        dsimp only at found
        cases kind : token.kind with
        | lParen =>
            simp only [kind] at found
            have rest : ∀ other ∈ row, other.kind ≠ .end :=
              fun other member => inner other (List.mem_cons_of_mem _ member)
            cases induction.2 token _ _ _ _ rest found with
            | @read trees closing unread bracketed isClosing =>
                have read := @ExprOutcome.read finish (.group token trees closing) unread
                  (.group kind bracketed isClosing)
                rw [flatten_group, toRaw_group] at read
                simpa using read
            | broken unclosed => exact .broken kind unclosed
        | symbol =>
            simp only [kind, Option.some.injEq] at found
            rw [← found]
            exact atom (.inl kind) _ (by rw [Token.toRaw, if_neg (by simp [kind])])
        | integer =>
            simp only [kind, Option.some.injEq] at found
            rw [← found]
            exact atom (.inr kind) _ (by rw [Token.toRaw, if_pos kind])
        | rParen => exact absurd kind notClosing
        | «end» => exact absurd kind (inner token List.mem_cons_self)
      · intro opening span items row parsed inner found
        cases row with
        | nil =>
            rw [List.nil_append, parseList, isEnd] at found
            cases found
            have here := @Unclosed.here _ Token.side opening [] (by simp)
            rw [flattenAll_nil] at here
            exact .broken here
        | cons token row =>
            by_cases isClosing : token.kind = .rParen
            · rw [List.cons_append, parseList, isClosing] at found
              cases found
              have read := @ListOutcome.read finish opening span items [] token row (by simp)
                isClosing
              simpa using read
            · have notEnd := inner token List.mem_cons_self
              rw [List.cons_append, parseList_item isClosing notEnd] at found
              split at found
              · cases found
              next unread diagnostics failed =>
                cases found
                have outcome := induction.1 token row _ inner isClosing failed
                generalize whole : token :: row = tokens at outcome ⊢
                generalize nothing : Parsed.mk none unread diagnostics = parsed at outcome ⊢
                cases outcome with
                | read => cases nothing
                | @broken token row last isOpening unclosed =>
                    have sort : token.side = .opening := by rw [Token.side, isOpening]; rfl
                    have whole := @Unclosed.deeper _ Token.side opening [] token row _ (by simp)
                      sort unclosed
                    rw [flattenAll_nil, List.nil_append] at whole
                    exact .broken whole
              next child unread diagnostics read =>
                rcases Option.map_eq_some_iff.mp found with ⟨tail, tailRead, rfl⟩
                have outcome := induction.1 token row _ inner isClosing read
                generalize whole : token :: row = tokens at outcome inner ⊢
                cases outcome with
                | read bracketed =>
                    have rest := fun other member => inner other (List.mem_append_right _ member)
                    exact (induction.2 opening _ _ _ _ rest tailRead).prepend bracketed

theorem parseExpr_closing {fuel : Nat} {token : Token} {rest : List Token} {parsed : Parsed}
    (isClosing : token.kind = .rParen) (found : parseExpr fuel (token :: rest) = some parsed) :
    parsed = ⟨none, rest, [unexpectedClosing token]⟩ := by
  cases fuel with
  | zero =>
      rw [parseExpr] at found
      cases found
  | succ fuel =>
      rw [parseExpr, nextToken] at found
      simp only [isClosing, reduceCtorEq, if_false, Option.some.injEq] at found
      exact found.symm

/-! ## Programs -/

/-- What `parse` makes of the tokens before the End token `finish`. -/
structure Recovers (tokens : List Token) (result : ParseResult) where
  trees : List (TokenTree Token)
  bracketed : ∀ tree ∈ trees, WellBracketed tree
  exprs_eq : result.exprs = trees.map toRaw
  flatten_eq : flattenAll trees = paired Token.side 0 tokens
  diagnostics_eq : result.diagnostics =
    (strayClosings Token.side 0 tokens).map unexpectedClosing ++
      ((strayOpenings Token.side tokens).getLast?.map missingClosing).toList

theorem parseLoop_end {fuel budget : Nat} {finish : Token} {rest : List Token}
    (isEnd : finish.kind = .end) : parseLoop fuel budget (finish :: rest) = some ⟨[], []⟩ := by
  cases budget with
  | zero => rw [parseLoop, if_pos isEnd]
  | succ budget => rw [parseLoop, if_pos isEnd]

theorem parseLoop_recovers {finish : Token} (isEnd : finish.kind = .end) {fuel budget : Nat}
    {tokens : List Token} {result : ParseResult}
    (inner : ∀ token ∈ tokens, token.kind ≠ .end)
    (found : parseLoop fuel budget (tokens ++ [finish]) = some result) :
    Nonempty (Recovers tokens result) := by
  induction budget generalizing tokens result with
  | zero =>
      cases tokens with
      | nil =>
          rw [List.nil_append, parseLoop_end isEnd] at found
          cases found
          exact ⟨[], by simp, rfl, by simp [paired], rfl⟩
      | cons token tokens =>
          rw [List.cons_append, parseLoop, if_neg (inner token List.mem_cons_self)] at found
          cases found
  | succ budget induction =>
      cases tokens with
      | nil =>
          rw [List.nil_append, parseLoop_end isEnd] at found
          cases found
          exact ⟨[], by simp, rfl, by simp [paired], rfl⟩
      | cons token tokens =>
          have notEnd := inner token List.mem_cons_self
          have later : ∀ other ∈ tokens, other.kind ≠ .end :=
            fun other member => inner other (List.mem_cons_of_mem _ member)
          rw [List.cons_append, parseLoop, if_neg notEnd] at found
          split at found
          · cases found
          next parsed read =>
            rcases Option.map_eq_some_iff.mp found with ⟨tail, tailRead, rfl⟩
            by_cases isClosing : token.kind = .rParen
            · rw [parseExpr_closing isClosing read] at tailRead ⊢
              have sort : token.side = .closing := by rw [Token.side, isClosing]; rfl
              rcases induction later tailRead with ⟨trees, bracketed, exprs, flat, diagnostics⟩
              refine ⟨trees, bracketed, ?_, ?_, ?_⟩
              · exact exprs
              · rw [flat, paired, sort]
                rfl
              · rw [diagnostics, strayClosings, strayOpenings, sort]
                rfl
            · have outcome := (parse_outcome finish isEnd fuel).1 token tokens parsed inner
                isClosing read
              generalize whole : token :: tokens = row at outcome inner ⊢
              cases outcome with
              | @read tree rest bracketed =>
                  have inert := bracketed.sided.inert
                  have others := fun other member => inner other (List.mem_append_right _ member)
                  rcases induction others tailRead with
                    ⟨trees, more, exprs, flat, diagnostics⟩
                  refine ⟨tree :: trees, List.forall_mem_cons.mpr ⟨bracketed, more⟩, ?_, ?_, ?_⟩
                  · rw [exprs]
                    rfl
                  · rw [flattenAll_cons, flat, inert.kept]
                  · rw [inert.closings, inert.openings]
                    exact diagnostics
              | @broken opening row last isOpening unclosed =>
                  have sort : opening.side = .opening := by rw [Token.side, isOpening]; rfl
                  rw [parseLoop_end isEnd] at tailRead
                  cases tailRead
                  refine ⟨[], by simp, rfl, ?_, ?_⟩
                  · rw [unclosed.paired_eq sort, flattenAll_nil]
                  · rw [strayClosings, sort]
                    dsimp only
                    rw [unclosed.strayClosings_eq, unclosed.strayOpenings_eq sort]
                    rfl

theorem closed_of_body {body : List Token} {finish : Token}
    (inner : ∀ token ∈ body, token.kind ≠ .end) (isEnd : finish.kind = .end) :
    Closed (body ++ [finish]) := by
  induction body with
  | nil => exact .last isEnd
  | cons token body induction =>
      exact .cons (inner token List.mem_cons_self)
        (induction fun other member => inner other (List.mem_cons_of_mem _ member))

theorem Recovers.diagnostics_nil_iff {tokens : List Token} {result : ParseResult}
    (recovers : Recovers tokens result) :
    result.diagnostics = [] ↔ Balanced (bracketWord Token.side tokens) := by
  have strays : result.diagnostics = [] ↔ strayClosings Token.side 0 tokens = [] ∧
      strayOpenings Token.side tokens = [] := by
    rw [recovers.diagnostics_eq, List.append_eq_nil_iff, List.map_eq_nil_iff,
      Option.toList_eq_nil_iff, Option.map_eq_none_iff, List.getLast?_eq_none_iff]
  rw [strays]
  constructor
  · intro none
    have whole := recovers.flatten_eq
    rw [paired_eq_self none.1 none.2] at whole
    rw [← whole]
    exact (inert_flattenAll fun tree member => (recovers.bracketed tree member).sided).balanced
  · exact Balanced.no_strays

/-- The parser reads every row of tokens up to its End token: it returns the trees
the row consists of once stray right parentheses and whatever follows a stray left
one are dropped, and it reports the former and the last of the latter. It reports
nothing exactly on balanced rows, which it reads whole. -/
theorem parseTokens_recovers (body : List Token) (finish : Token)
    (inner : ∀ token ∈ body, token.kind ≠ .end) (isEnd : finish.kind = .end) :
    ∃ result trees, parseTokens (body ++ [finish]) = some result ∧
      result.exprs = trees.map toRaw ∧ (∀ tree ∈ trees, WellBracketed tree) ∧
      flattenAll trees = paired Token.side 0 body ∧
      result.diagnostics = (strayClosings Token.side 0 body).map unexpectedClosing ++
        ((strayOpenings Token.side body).getLast?.map missingClosing).toList ∧
      (∀ diagnostic ∈ result.diagnostics, diagnostic.message ≠ "unexpected end of input") ∧
      (result.diagnostics = [] ↔ Balanced (bracketWord Token.side body)) ∧
      (result.diagnostics = [] → flattenAll trees = body) := by
  have parses : ∃ result, parseTokens (body ++ [finish]) = some result :=
    parseLoop_total (closed_of_body inner isEnd) (by omega) (by omega)
  rcases parses with ⟨result, found⟩
  rcases parseLoop_recovers isEnd inner found with ⟨recovers⟩
  refine ⟨result, recovers.trees, found, recovers.exprs_eq, recovers.bracketed,
    recovers.flatten_eq, recovers.diagnostics_eq, ?_, recovers.diagnostics_nil_iff, ?_⟩
  · intro diagnostic member
    rw [recovers.diagnostics_eq] at member
    rcases List.mem_append.mp member with member | member
    · rcases List.mem_map.mp member with ⟨token, -, rfl⟩
      simp [unexpectedClosing]
    · rcases Option.map_eq_some_iff.mp (Option.mem_toList.mp member) with ⟨token, -, rfl⟩
      simp [missingClosing]
  · intro none
    have strays := recovers.diagnostics_nil_iff.mp none |>.no_strays
    rw [recovers.flatten_eq, paired_eq_self strays.1 strays.2]

/-- A token without a text, at some offset. -/
def punctuation (kind : TokenKind) (offset : UInt32) : Token :=
  ⟨kind, { startOffset := offset, endOffset := offset + 1 }, "", 0⟩

/-- The parentheses of `)()((`. -/
def lopsided : List Token :=
  [punctuation .rParen 0, punctuation .lParen 1, punctuation .rParen 2,
    punctuation .lParen 3, punctuation .lParen 4]

theorem lopsided_recovers :
    ∃ result trees, parseTokens (lopsided ++ [punctuation .end 5]) = some result ∧
      result.exprs = trees.map toRaw ∧ (∀ tree ∈ trees, WellBracketed tree) ∧
      flattenAll trees = paired Token.side 0 lopsided ∧
      result.diagnostics = (strayClosings Token.side 0 lopsided).map unexpectedClosing ++
        ((strayOpenings Token.side lopsided).getLast?.map missingClosing).toList ∧
      (∀ diagnostic ∈ result.diagnostics, diagnostic.message ≠ "unexpected end of input") ∧
      (result.diagnostics = [] ↔ Balanced (bracketWord Token.side lopsided)) ∧
      (result.diagnostics = [] → flattenAll trees = lopsided) :=
  parseTokens_recovers lopsided (punctuation .end 5) (by decide) rfl

example : strayClosings Token.side 0 lopsided = [punctuation .rParen 0] ∧
    (strayOpenings Token.side lopsided).getLast? = some (punctuation .lParen 4) ∧
    paired Token.side 0 lopsided = [punctuation .lParen 1, punctuation .rParen 2] := by
  decide

end CardCode
