import CardCode.App.Agreement
import CardCode.Foundation.Layout
import CardCode.Syntax.Literals
import CardCode.Syntax.Recovery

/-! # Texts the engine reads without errors

The lexer objects to words that begin like a number and are none, and to integers out of
range. A text of other words between brackets with partners is read without errors.
-/

namespace CardCode.App

open TokenTree

/-! ## Words -/

/-- A word that the lexer does not object to. -/
def IsLexed (word : Text) : Prop :=
  if isIntegerWord word then (parseInt word).isSome = true else word.head?.any isDigit = false

theorem wordToken_clean_iff (span : SourceSpan) (word : Text) :
    hasErrors (wordToken span word).2 = false ↔ IsLexed word := by
  rw [wordToken, IsLexed]
  by_cases integer : isIntegerWord word = true
  · rw [if_pos integer, if_pos integer]
    cases parseInt word with
    | none => simp [hasErrors_error]
    | some value => simp [hasErrors_nil]
  · rw [if_neg integer, if_neg integer]
    by_cases digit : word.head?.any isDigit = true
    · simp [hasErrors_error, digit]
    · rw [Bool.not_eq_true] at digit
      simp [hasErrors_nil, digit]

theorem wordToken_text (span : SourceSpan) (word : Text) :
    (wordToken span word).1.text = String.ofList word := by
  rw [wordToken]
  split
  · split <;> rfl
  · split <;> rfl

theorem isLexed_nil : IsLexed [] := by
  rw [IsLexed, if_neg (by decide)]
  rfl

/-! ## Lexing -/

/-- A scanned text has no unknown characters, so only its words can be objected to. -/
theorem lexes_clean {before text : List Char} {result : LexResult}
    (lexes : Lexes before text result) :
    ∀ {offset lexemes}, Scans engineAlphabet offset text lexemes →
      (∀ lexeme ∈ lexemes, lexeme.kind = .word → IsLexed lexeme.text) →
      hasErrors result.diagnostics = false := by
  induction lexes with
  | done => exact fun _ _ => rfl
  | blank blank _ induction => exact fun scans => induction (scans.of_blank blank)
  | comment inside ends _ induction => exact fun scans => induction (scans.of_comment inside ends)
  | bracket bracket _ induction =>
      intro offset lexemes scans lexed
      rcases bracket with rfl | rfl
      · rcases scans.of_opening with ⟨later, rfl, tail⟩
        exact induction tail fun lexeme member => lexed lexeme (List.mem_cons_of_mem _ member)
      · rcases scans.of_closing with ⟨later, rfl, tail⟩
        exact induction tail fun lexeme member => lexed lexeme (List.mem_cons_of_mem _ member)
  | word nonempty letters ends _ induction =>
      intro offset lexemes scans lexed
      rcases scans.of_word nonempty letters ends with ⟨later, rfl, tail⟩
      rw [LexResult.prepend, hasErrors_append, Bool.or_eq_false_iff]
      exact ⟨(wordToken_clean_iff _ _).mpr (lexed _ List.mem_cons_self rfl),
        induction tail fun lexeme member => lexed lexeme (List.mem_cons_of_mem _ member)⟩
  | unknown notBlank notMark notLetter _ _ =>
      intro offset lexemes scans lexed
      rcases scans.head _ rfl with blank | mark | letter
      · exact absurd (blank.symm.trans notBlank) (by decide)
      · exact absurd (mark.symm.trans notMark) (by decide)
      · exact absurd (letter.symm.trans notLetter) (by decide)

/-- Where the lexer reports no error it objects to none of its words. -/
theorem lexes_lexed {before text : List Char} {result : LexResult}
    (lexes : Lexes before text result) :
    hasErrors result.diagnostics = false →
      ∀ token ∈ result.tokens, token.kind.lexeme = .word → IsLexed token.text.toList := by
  induction lexes with
  | done =>
      intro _ token member _
      rw [List.mem_singleton.mp member]
      exact isLexed_nil
  | blank _ _ induction => exact induction
  | comment _ _ _ induction => exact induction
  | @bracket before c rest _ bracket _ induction =>
      intro clean token member isWord
      rcases List.mem_cons.mp member with rfl | member
      · dsimp only at isWord
        split at isWord <;> cases isWord
      · exact induction clean token member isWord
  | word _ _ _ _ induction =>
      intro clean token member isWord
      rw [LexResult.prepend, hasErrors_append, Bool.or_eq_false_iff] at clean
      rcases List.mem_cons.mp member with rfl | member
      · rw [wordToken_text, String.toList_ofList]
        exact (wordToken_clean_iff _ _).mp clean.1
      · exact induction clean.2 token member isWord
  | unknown _ _ _ _ _ =>
      intro clean
      rw [LexResult.prepend, hasErrors_append, hasErrors_error] at clean
      cases clean

/-! ## Parsing -/

theorem sided_of_lexemes {tree : TokenTree Token}
    (bracketed : LexemesBracketed (tree.map Token.lexeme)) : tree.Sided Token.side := by
  have kinds := Bracketed.of_map tree bracketed
  have side {kind : TokenKind} : (kind.lexeme = .word → kind.side = .neutral) ∧
      (kind.lexeme = .opening → kind.side = .opening) ∧
      (kind.lexeme = .closing → kind.side = .closing) := by
    cases kind <;> simp [TokenKind.lexeme, TokenKind.side]
  have sides : (tree.map id).Sided Token.side :=
    @Bracketed.map Token Token _ _ _ (fun token => token.side = .neutral)
      (fun token => token.side = .opening) (fun token => token.side = .closing) id
      (fun _ => side.1) (fun _ => side.2.1) (fun _ => side.2.2) tree kinds
  rwa [map_id] at sides

/-- A text of lexed words between brackets with partners is parsed without errors. -/
theorem parse_bracketed {source : Bytes} {trees : List (TokenTree Lexeme)}
    (fits : source.length < 2 ^ 32) (bracketed : ∀ tree ∈ trees, LexemesBracketed tree)
    (scans : Scans engineAlphabet 0 (source.map Char.ofUInt8) (flattenAll trees))
    (lexed : ∀ lexeme ∈ flattenAll trees, lexeme.kind = .word → IsLexed lexeme.text) :
    ∃ parsed, parse source = some parsed ∧ hasErrors parsed.diagnostics = false := by
  rcases lex_total fits with ⟨result, lexes, closed⟩
  have clean := lexes_clean (lex_lexes lexes) scans lexed
  rcases lex_scans lexes clean with ⟨body, last, tokens, isEnd, again, classified⟩
  have inner := fun token member => (classified token member).notEnd
  have same : body.map Token.lexeme = (flattenAll trees).map id := by
    rw [List.map_id]
    exact scans.unique again
  rcases exists_relabelAll (fun tree _ => exists_relabel id Token.lexeme tree) body same with
    ⟨relabelled, flat, mapped⟩
  have sided : ∀ tree ∈ relabelled, tree.Sided Token.side := by
    intro tree member
    apply sided_of_lexemes
    have image : tree.map Token.lexeme ∈ trees.map (map id) :=
      mapped ▸ List.mem_map_of_mem member
    rcases List.mem_map.mp image with ⟨original, present, equal⟩
    rw [← equal, map_id]
    exact bracketed original present
  have balanced := (inert_flattenAll sided).balanced
  rw [flat] at balanced
  have parses : ∃ parsed, parseTokens (body ++ [last]) = some parsed :=
    parseLoop_total (closed_of_body inner isEnd) (by omega) (by omega)
  rcases parses with ⟨parsed, found⟩
  rcases parseLoop_recovers isEnd inner found with ⟨recovers⟩
  refine ⟨⟨parsed.exprs, result.diagnostics ++ parsed.diagnostics⟩, ?_, ?_⟩
  · rw [parse, lexes]
    dsimp only
    rw [tokens, found]
    rfl
  · rw [hasErrors_append, clean, recovers.diagnostics_nil_iff.mpr balanced]
    rfl

/-! ## Shapes -/

/-- Every name and every integer of the shape has a word that the lexer takes. -/
inductive Shape.IsSaid : Shape → Prop
  | list {items} : (∀ item ∈ items, IsSaid item) → IsSaid (.list items)
  | symbol {name} :
      (∀ c ∈ name.toList, isSymbolChar c = true) → IsLexed name.toList → IsSaid (.symbol name)
  | integer {value : Int} : (value.natAbs : Int) ≤ int64Max → IsSaid (.integer value)

theorem wordShape_said {word : Text} (letters : ∀ c ∈ word, isSymbolChar c = true)
    (lexed : IsLexed word) : (wordShape word).IsSaid := by
  rw [wordShape]
  split
  next integer =>
    rw [isIntegerText_eq] at integer
    rw [IsLexed, if_pos integer, parseInt_eq integer] at lexed
    split at lexed
    next fits => exact .integer fits
    next => cases lexed
  next =>
    apply Shape.IsSaid.symbol
    · rwa [String.toList_ofList]
    · rwa [String.toList_ofList]

/-- What is read as such a shape is such a word. -/
theorem said_word {word : Text} (said : (wordShape word).IsSaid) :
    (∀ c ∈ word, isSymbolChar c = true) ∧ IsLexed word := by
  rw [wordShape] at said
  split at said
  next integer =>
    rw [isIntegerText_eq] at integer
    cases said with
    | integer fits =>
        refine ⟨(integerWord_letters integer).2, ?_⟩
        rw [IsLexed, if_pos integer, parseInt_eq integer, magnitude, if_pos fits]
        rfl
  next =>
    cases said with
    | symbol letters lexed =>
        rw [String.toList_ofList] at letters lexed
        exact ⟨letters, lexed⟩

theorem treeShape_said {tree : TokenTree Token} (bracketed : WellBracketed tree)
    (words : ∀ token ∈ tree.flatten, token.kind.lexeme = .word →
      (∀ c ∈ token.text.toList, isSymbolChar c = true) ∧ IsLexed token.text.toList) :
    (treeShape (tree.map fun token => token.lexeme.form)).IsSaid := by
  induction bracketed with
  | @leaf token atom =>
      have isWord : token.kind.lexeme = .word := by
        rcases atom with symbol | integer
        · rw [symbol]
          rfl
        · rw [integer]
          rfl
      rcases words token (by simp) isWord with ⟨letters, lexed⟩
      rw [map_leaf, treeShape_leaf]
      exact wordShape_said letters lexed
  | group _ _ _ induction =>
      rw [map_group, treeShape_group, List.map_map]
      apply Shape.IsSaid.list
      intro shape member
      rcases List.mem_map.mp member with ⟨item, present, rfl⟩
      exact induction item present fun token inside => words token (mem_group present inside)

/-- What the engine reads without errors is made of words that its lexer takes. -/
theorem parse_said {source : Bytes} {parsed : ParseResult}
    (found : parse source = some parsed) (clean : hasErrors parsed.diagnostics = false) :
    ∀ raw ∈ parsed.exprs, (rawShape raw).IsSaid := by
  rcases parse_tokens found clean with ⟨reading, lexed, last, lexes, tokens⟩
  have lexedClean : hasErrors lexed.diagnostics = false := by
    rw [parse, lexes] at found
    rcases Option.map_eq_some_iff.mp found with ⟨result, _, rfl⟩
    rw [hasErrors_append, Bool.or_eq_false_iff] at clean
    exact clean.1
  have all := lexes_lexed (lex_lexes lexes) lexedClean
  intro raw member
  rw [reading.exprs_eq] at member
  rcases List.mem_map.mp member with ⟨tree, present, rfl⟩
  have inside {token : Token} (isInside : token ∈ tree.flatten) :
      token ∈ flattenAll reading.trees :=
    mem_flattenAll.mpr ⟨tree, present, isInside⟩
  rw [rawShape_toRaw (reading.bracketed tree present) fun token isInside =>
    reading.classified token (inside isInside)]
  apply treeShape_said (reading.bracketed tree present)
  intro token isInside isWord
  constructor
  · exact (reading.scans.words _ (List.mem_map_of_mem (inside isInside)) isWord).2
  · refine all token ?_ isWord
    rw [tokens]
    exact List.mem_append_left _ (inside isInside)

end CardCode.App
