import CardCode.App.Values

/-! # The texts the user interface's parser accepts

Every text is scanned as a row of lexemes. Where the parser returns expressions it
has bracketed that row into trees, so it accepts the texts whose lexemes are
balanced and no others.
-/

namespace CardCode.App

open TokenTree

theorem appAlphabet_covers (c : Char) :
    appAlphabet.isBlank c = true ∨ isMark c = true ∨ appAlphabet.isWord c = true := by
  by_cases ends : endsAtom c = true
  · simp only [endsAtom, Bool.or_eq_true, decide_eq_true_eq] at ends
    rcases ends with ((space | rfl) | rfl) | rfl
    · exact .inl space
    all_goals exact .inr (.inl (by decide))
  · refine .inr (.inr ?_)
    simp [appAlphabet, ends]

/-- What a computation that returns has returned on the way. -/
theorem exists_of_bind_ok {Error α β : Type} {first : Except Error α} {next : α → Except Error β}
    {result : β} (returns : (first >>= next) = .ok result) :
    ∃ value, first = .ok value ∧ next value = .ok result := by
  cases first with
  | error failure => cases returns
  | ok value => exact ⟨value, rfl, returns⟩

/-- The lexemes begin with a tree that is read as the expression. -/
def ReadsTree (source : Text) (lexemes : List Lexeme) (expr : Expr) (after : Cursor) : Prop :=
  ∃ tree rest, lexemes = tree.flatten ++ rest ∧ LexemesBracketed tree ∧
    expr = treeExpr source tree ∧ Scans appAlphabet after.offset after.rest rest

/-- The lexemes begin with the further children of a list and its closing bracket. -/
def ReadsItems (source : Text) (start : Nat) (children : List Expr) (lexemes : List Lexeme)
    (expr : Expr) (after : Cursor) : Prop :=
  ∃ items closing rest, lexemes = flattenAll items ++ closing :: rest ∧
    closing.kind = .closing ∧ (∀ item ∈ items, LexemesBracketed item) ∧
    expr = .list (children ++ items.map (treeExpr source))
      (spanFromOffsets source start closing.stop) ∧
    Scans appAlphabet after.offset after.rest rest

section Steps

variable {source : Text} {fuel : Nat}

def InvertsExpr (source : Text) (fuel : Nat) : Prop :=
  ∀ cursor lexemes expr after, lexemes ≠ [] →
    Scans appAlphabet cursor.offset cursor.rest lexemes →
    parseExpr source fuel cursor = .ok (expr, after) → ReadsTree source lexemes expr after

def InvertsList (source : Text) (fuel : Nat) : Prop :=
  ∀ start children cursor lexemes expr after,
    Scans appAlphabet cursor.offset cursor.rest lexemes →
    parseList source fuel start children cursor = .ok (expr, after) →
    ReadsItems source start children lexemes expr after

theorem parseExpr_inverts (list : InvertsList source fuel) : InvertsExpr source (fuel + 1) := by
  intro cursor lexemes expr after some scans parsed
  have atLexeme := skip_scans scans
  generalize next : skipIgnored false cursor.offset cursor.rest = start at atLexeme
  cases atLexeme with
  | done => exact absurd rfl some
  | @opening offset text lexemes inner =>
      rw [parseExpr_opening next] at parsed
      rcases list offset [] _ _ expr after inner parsed with
        ⟨items, closing, rest, rfl, close, bracketed, rfl, tail⟩
      refine ⟨.group ⟨.opening, ['('], offset, offset + 1⟩ items closing, rest, ?_,
        .group rfl bracketed close, ?_, tail⟩
      · rw [flatten_group]
        simp
      · rw [treeExpr_group, List.nil_append]
  | closing =>
      rw [parseExpr_closing next] at parsed
      cases parsed
  | @word offset word text lexemes nonempty letters ends tail =>
      rw [parseExpr_word next nonempty letters ends] at parsed
      cases parsed
      exact ⟨.leaf ⟨.word, word, offset, offset + appAlphabet.extent word⟩, lexemes, rfl,
        .leaf rfl, by rw [treeExpr], tail⟩

theorem parseList_inverts (inner : InvertsExpr source fuel) (list : InvertsList source fuel) :
    InvertsList source (fuel + 1) := by
  intro start children cursor lexemes expr after scans parsed
  have atLexeme := skip_scans scans
  have again := atLexeme.scans
  have child (some : lexemes ≠ []) {c : Char} {text : Text}
      (first : (skipIgnored false cursor.offset cursor.rest).rest = c :: text)
      (notClose : c ≠ ')') : ReadsItems source start children lexemes expr after := by
    rw [parseList_child first notClose] at parsed
    rcases exists_of_bind_ok parsed with ⟨found, read, parsed⟩
    rcases inner _ _ _ _ some again read with ⟨tree, rest, rfl, bracketed, same, tail⟩
    rcases list _ _ _ _ _ _ tail parsed with
      ⟨items, closing, rest, rfl, close, others, rfl, scans⟩
    refine ⟨tree :: items, closing, rest, ?_, close,
      List.forall_mem_cons.mpr ⟨bracketed, others⟩, ?_, scans⟩
    · rw [flattenAll_cons, List.append_assoc]
    · rw [List.map_cons, ← same, List.append_assoc, List.singleton_append]
  generalize next : skipIgnored false cursor.offset cursor.rest = cursor' at atLexeme child
  cases atLexeme with
  | done =>
      rw [parseList_end next] at parsed
      cases parsed
  | opening => exact child (List.cons_ne_nil _ _) rfl (by decide)
  | @closing offset text lexemes tail =>
      rw [parseList_closing next] at parsed
      cases parsed
      exact ⟨[], _, lexemes, rfl, rfl, List.forall_mem_nil _, by rw [List.map_nil, List.append_nil],
        tail⟩
  | @word offset word text lexemes nonempty letters ends tail =>
      rcases List.exists_cons_of_ne_nil nonempty with ⟨c, word, rfl⟩
      refine child (List.cons_ne_nil _ _) rfl ?_
      intro close
      have letter := letters c List.mem_cons_self
      rw [close] at letter
      cases letter

theorem parser_inverts (source : Text) (fuel : Nat) :
    InvertsExpr source fuel ∧ InvertsList source fuel := by
  induction fuel with
  | zero =>
      constructor
      · intro cursor lexemes expr after _ _ parsed
        rw [parseExpr] at parsed
        cases parsed
      · intro start children cursor lexemes expr after _ parsed
        rw [parseList] at parsed
        cases parsed
  | succ fuel induction =>
      exact ⟨parseExpr_inverts induction.2, parseList_inverts induction.1 induction.2⟩

end Steps

/-! ## Programs -/

theorem exists_parsed {source : Text} (accepted : (parseCardCode source).toOption.isSome = true) :
    ∃ ast, parseCardCode source = .ok ast := by
  generalize parseCardCode source = result at accepted ⊢
  cases result with
  | error failure => cases accepted
  | ok ast => exact ⟨ast, rfl⟩

theorem scans_empty {offset : Nat} {text : Text} {lexemes : List Lexeme}
    (scans : Scans appAlphabet offset text lexemes) (empty : text.isEmpty = true) :
    lexemes = [] := by
  rw [List.isEmpty_iff.mp empty] at scans
  exact List.eq_nil_of_length_eq_zero (Nat.le_zero.mp scans.length_le)

theorem parseProgram_inverts {source : Text} {fuel budget : Nat} {cursor : Cursor}
    {lexemes : List Lexeme} {exprs : List Expr}
    (scans : Scans appAlphabet cursor.offset cursor.rest lexemes)
    (parsed : parseProgram source fuel budget cursor = .ok exprs) :
    ∃ trees, lexemes = flattenAll trees ∧ (∀ tree ∈ trees, LexemesBracketed tree) ∧
      exprs = trees.map (treeExpr source) := by
  induction budget generalizing cursor lexemes exprs with
  | zero =>
      rw [parseProgram] at parsed
      split at parsed
      next empty =>
        cases parsed
        exact ⟨[], scans_empty scans empty, List.forall_mem_nil _, rfl⟩
      next => cases parsed
  | succ budget induction =>
      have atLexeme := skip_scans scans
      rw [parseProgram] at parsed
      split at parsed
      next empty =>
        cases parsed
        exact ⟨[], scans_empty scans empty, List.forall_mem_nil _, rfl⟩
      next =>
        dsimp only at parsed
        split at parsed
        next empty =>
          cases parsed
          exact ⟨[], scans_empty atLexeme.scans empty, List.forall_mem_nil _, rfl⟩
        next unread =>
          have some : lexemes ≠ [] := by
            intro none
            rw [none] at atLexeme
            generalize skipIgnored false cursor.offset cursor.rest = start at atLexeme unread
            cases atLexeme with
            | done => exact unread rfl
          rcases exists_of_bind_ok parsed with ⟨child, read, parsed⟩
          rcases exists_of_bind_ok parsed with ⟨children, others, returned⟩
          cases returned
          rcases (parser_inverts source fuel).1 _ _ _ _ some atLexeme.scans read with
            ⟨tree, rest, rfl, bracketed, same, tail⟩
          rcases induction tail others with ⟨trees, rfl, othersBracketed, rfl⟩
          refine ⟨tree :: trees, ?_, List.forall_mem_cons.mpr ⟨bracketed, othersBracketed⟩, ?_⟩
          · rw [flattenAll_cons]
          · rw [List.map_cons, ← same]

/-- A text that is parsed is one whose lexemes bracket into trees. -/
theorem parseCardCode_inverts {source : Text} {ast : ProgramAst}
    (parsed : parseCardCode source = .ok ast) :
    ∃ trees, (∀ tree ∈ trees, LexemesBracketed tree) ∧
      Scans appAlphabet 0 source (flattenAll trees) ∧
      ast.children = trees.map (treeExpr source) := by
  rcases Scans.exists_of_covers appAlphabet_covers _ source (Nat.le_refl _) 0 with
    ⟨lexemes, scans⟩
  rcases exists_of_bind_ok parsed with ⟨children, read, returned⟩
  rcases @parseProgram_inverts _ _ _ ⟨0, source⟩ _ _ scans read with
    ⟨trees, rfl, bracketed, rfl⟩
  cases returned
  exact ⟨trees, bracketed, scans, rfl⟩

end CardCode.App
