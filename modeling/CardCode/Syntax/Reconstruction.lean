import CardCode.Syntax.Positions
import CardCode.Syntax.Totality
import Mathlib.Data.List.Induction

/-! # Tokens reconstruct their source

The tokens of a source are pieces of it, one behind the other, and whatever lies
between them is blank, in a comment, or reported.
-/

namespace CardCode

/-! ## Pieces of a text -/

/-- The characters from one offset up to another. -/
def slice (text : List Char) (start stop : Nat) : List Char :=
  (text.drop start).take (stop - start)

theorem slice_piece (before piece rest : List Char) :
    slice (before ++ (piece ++ rest)) before.length (before.length + piece.length) = piece := by
  rw [slice, List.drop_left, Nat.add_sub_cancel_left, List.take_left]

/-- A character of a piece is found at its offset in the text. -/
theorem getElem?_piece {before piece rest : List Char} {offset : Nat}
    (lower : before.length ≤ offset) (upper : offset < before.length + piece.length) :
    (before ++ (piece ++ rest))[offset]? = piece[offset - before.length]? := by
  rw [List.getElem?_append_right lower, List.getElem?_append_left (by omega)]

theorem getElem?_behind (before piece rest : List Char) :
    (before ++ (piece ++ rest))[before.length + piece.length]? = rest.head? := by
  rw [← List.append_assoc, ← List.length_append, List.getElem?_append_right (Nat.le_refl _),
    Nat.sub_self, List.head?_eq_getElem?]

theorem getElem?_ahead {before rest : List Char} (positive : 0 < before.length) :
    (before ++ rest)[before.length - 1]? = before.getLast? := by
  rw [List.getElem?_append_left (by omega), List.getLast?_eq_getElem?]

/-! ## What the tokens say of the text -/

def SourceSpan.Covers (span : SourceSpan) (offset : Nat) : Prop :=
  span.startOffset.toNat ≤ offset ∧ offset < span.endOffset.toNat

/-- A longest run of symbol characters. -/
structure IsRun (text : List Char) (start stop : Nat) : Prop where
  letters : ∀ c ∈ slice text start stop, isSymbolChar c = true
  before : ∀ c, 0 < start → text[start - 1]? = some c → isSymbolChar c = false
  after : ∀ c, text[stop]? = some c → isSymbolChar c = false

/-- The token is what stands in the text at its span. -/
structure Token.Spells (token : Token) (text : List Char) : Prop where
  notEnd : token.kind ≠ .end
  nonempty : token.span.startOffset.toNat < token.span.endOffset.toNat
  inside : token.span.endOffset.toNat ≤ text.length
  slice : token.text.toList =
    slice text token.span.startOffset.toNat token.span.endOffset.toNat
  run : token.kind = .symbol ∨ token.kind = .integer →
    IsRun text token.span.startOffset.toNat token.span.endOffset.toNat

/-- Behind a semicolon on the same line. -/
def InComment (text : List Char) (offset : Nat) : Prop :=
  ∃ start, start ≤ offset ∧ text[start]? = some ';' ∧ '\n' ∉ slice text start (offset + 1)

/-- A character the lexer does not know, and one diagnostic with its span. -/
structure IsReported (diagnostics : List Diagnostic) (offset : Nat) (c : Char) : Prop where
  unknown : isBlank c = false ∧ isMark c = false ∧ isSymbolChar c = false
  once : ∃ span, diagnostics.filter (fun diagnostic =>
      diagnostic.span.startOffset.toNat = offset &&
        diagnostic.span.endOffset.toNat = offset + 1) =
    [⟨.error, span, "unexpected character '" ++ String.singleton c ++ "'"⟩]

/-- From an offset on, the text is made up of the tokens and what lies outside them. -/
structure Reconstructs (text : List Char) (first : Nat) (body : List Token) (last : Token)
    (diagnostics : List Diagnostic) : Prop where
  isEnd : last.kind = .end
  atEnd : last.span.startOffset.toNat = text.length ∧ last.span.endOffset.toNat = text.length
  spells : ∀ token ∈ body, token.Spells text
  ordered : body.Pairwise fun left right =>
    left.span.endOffset.toNat ≤ right.span.startOffset.toNat
  outside : ∀ offset c, first ≤ offset → text[offset]? = some c →
    (∃ token ∈ body, token.span.Covers offset) ∨ isBlank c = true ∨ InComment text offset ∨
      IsReported diagnostics offset c
  tokensBehind : ∀ token ∈ body, first ≤ token.span.startOffset.toNat
  reportsBehind : ∀ diagnostic ∈ diagnostics, first ≤ diagnostic.span.startOffset.toNat

section Extend

variable {text : List Char} {first stop : Nat} {body : List Token} {last : Token}
  {diagnostics : List Diagnostic}

/-- What a piece of the text adds. -/
structure AddsPiece (text : List Char) (first stop : Nat) (tokens : List Token)
    (reports : List Diagnostic) : Prop where
  forward : first ≤ stop
  spells : ∀ token ∈ tokens, token.Spells text ∧ first ≤ token.span.startOffset.toNat ∧
    token.span.endOffset.toNat ≤ stop
  single : tokens.length ≤ 1
  within : ∀ report ∈ reports, first ≤ report.span.startOffset.toNat ∧
    report.span.startOffset.toNat < stop
  outside : ∀ offset c, first ≤ offset → offset < stop → text[offset]? = some c →
    (∃ token ∈ tokens, token.span.Covers offset) ∨ isBlank c = true ∨ InComment text offset ∨
      IsReported reports offset c

/-- The diagnostics before and after a piece of the text are not about it. -/
theorem IsReported.append {before after : List Diagnostic} {offset : Nat} {c : Char}
    {reports : List Diagnostic} (reported : IsReported reports offset c)
    (earlier : ∀ report ∈ before, report.span.startOffset.toNat ≠ offset)
    (later : ∀ report ∈ after, report.span.startOffset.toNat ≠ offset) :
    IsReported (before ++ reports ++ after) offset c := by
  have none {others : List Diagnostic}
      (apart : ∀ report ∈ others, report.span.startOffset.toNat ≠ offset) :
      others.filter (fun diagnostic => diagnostic.span.startOffset.toNat = offset &&
        diagnostic.span.endOffset.toNat = offset + 1) = [] := by
    rw [List.filter_eq_nil_iff]
    intro report member
    simp [apart report member]
  rcases reported.once with ⟨span, once⟩
  refine ⟨reported.unknown, span, ?_⟩
  rw [List.filter_append, List.filter_append, none earlier, none later, once, List.nil_append,
    List.append_nil]

theorem Reconstructs.extend {tokens : List Token} {reports : List Diagnostic}
    (rest : Reconstructs text stop body last diagnostics)
    (adds : AddsPiece text first stop tokens reports) :
    Reconstructs text first (tokens ++ body) last (reports ++ diagnostics) := by
  refine ⟨rest.isEnd, rest.atEnd, ?_, ?_, ?_, ?_, ?_⟩
  · intro token member
    rcases List.mem_append.mp member with member | member
    · exact (adds.spells token member).1
    · exact rest.spells token member
  · refine List.pairwise_append.mpr ⟨?_, rest.ordered, ?_⟩
    · have single := adds.single
      cases tokens with
      | nil => exact .nil
      | cons token others =>
          have none : others = [] := List.eq_nil_of_length_eq_zero (by
            rw [List.length_cons] at single
            omega)
          rw [none]
          exact List.pairwise_singleton _ _
    · intro left inTokens right inBody
      exact (adds.spells left inTokens).2.2.trans (rest.tokensBehind right inBody)
  · intro offset c lower found
    by_cases before : offset < stop
    · rcases adds.outside offset c lower before found with covered | blank | comment | reported
      · rcases covered with ⟨token, member, covers⟩
        exact .inl ⟨token, List.mem_append_left _ member, covers⟩
      · exact .inr (.inl blank)
      · exact .inr (.inr (.inl comment))
      · refine .inr (.inr (.inr ?_))
        apply @IsReported.append [] diagnostics offset c reports reported
        · exact List.forall_mem_nil _
        · intro report member
          have behind := rest.reportsBehind report member
          omega
    · rcases rest.outside offset c (by omega) found with covered | blank | comment | reported
      · rcases covered with ⟨token, member, covers⟩
        exact .inl ⟨token, List.mem_append_right _ member, covers⟩
      · exact .inr (.inl blank)
      · exact .inr (.inr (.inl comment))
      · refine .inr (.inr (.inr ?_))
        have appended : IsReported (reports ++ diagnostics ++ []) offset c := by
          apply reported.append
          · intro report member
            have within := adds.within report member
            omega
          · exact List.forall_mem_nil _
        rw [List.append_nil] at appended
        exact appended
  · intro token member
    rcases List.mem_append.mp member with member | member
    · exact (adds.spells token member).2.1
    · exact adds.forward.trans (rest.tokensBehind token member)
  · intro report member
    rcases List.mem_append.mp member with member | member
    · exact (adds.within report member).1
    · exact adds.forward.trans (rest.reportsBehind report member)

end Extend

/-! ## Pieces -/

section Pieces

variable {before piece rest : List Char}

theorem covers_piece (fits : (before ++ (piece ++ rest)).length < 2 ^ 32) {offset : Nat}
    (lower : before.length ≤ offset) (upper : offset < before.length + piece.length) :
    (spanAround before piece).Covers offset := by
  rcases spanAround_offsets (pieceFits fits) with ⟨start, stop⟩
  rw [SourceSpan.Covers, start, stop]
  exact ⟨lower, upper⟩

/-- A piece without tokens and diagnostics. -/
theorem addsNothing
    (outside : ∀ offset c, before.length ≤ offset → offset < before.length + piece.length →
      piece[offset - before.length]? = some c →
      isBlank c = true ∨ InComment (before ++ (piece ++ rest)) offset) :
    AddsPiece (before ++ (piece ++ rest)) before.length (before.length + piece.length) [] [] := by
  refine ⟨Nat.le_add_right _ _, List.forall_mem_nil _, Nat.zero_le _, List.forall_mem_nil _, ?_⟩
  intro offset c lower upper found
  rw [getElem?_piece lower upper] at found
  rcases outside offset c lower upper found with blank | comment
  · exact .inr (.inl blank)
  · exact .inr (.inr (.inl comment))

/-- A piece that is a token. -/
theorem addsToken {token : Token} {reports : List Diagnostic}
    (fits : (before ++ (piece ++ rest)).length < 2 ^ 32)
    (span : token.span = spanAround before piece) (some : piece ≠ [])
    (notEnd : token.kind ≠ .end) (text : token.text.toList = piece)
    (run : token.kind = .symbol ∨ token.kind = .integer →
      IsRun (before ++ (piece ++ rest)) before.length (before.length + piece.length))
    (reported : ∀ report ∈ reports, report.span = spanAround before piece) :
    AddsPiece (before ++ (piece ++ rest)) before.length (before.length + piece.length) [token]
      reports := by
  rcases spanAround_offsets (pieceFits fits) with ⟨start, stop⟩
  have positive := List.length_pos_iff.mpr some
  refine ⟨Nat.le_add_right _ _, ?_, Nat.le_refl _, ?_, ?_⟩
  · refine List.forall_mem_singleton.mpr ⟨⟨notEnd, ?_, ?_, ?_, ?_⟩, ?_, ?_⟩
    · rw [span, start, stop]
      omega
    · rw [span, stop, List.length_append, List.length_append]
      omega
    · rw [span, start, stop, slice_piece, text]
    · rw [span, start, stop]
      exact run
    · rw [span, start]
    · rw [span, stop]
  · intro report member
    rw [reported report member, start]
    omega
  · intro offset c lower upper _
    refine .inl ⟨token, List.mem_singleton_self _, ?_⟩
    rw [span]
    exact covers_piece fits lower upper

end Pieces

theorem addsBracket {before rest : List Char} {c : Char} {kind : TokenKind}
    (fits : (before ++ ([c] ++ rest)).length < 2 ^ 32) (isParen : kind = .lParen ∨ kind = .rParen) :
    AddsPiece (before ++ ([c] ++ rest)) before.length (before.length + 1)
      [⟨kind, spanAround before [c], String.singleton c, 0⟩] [] := by
  have notEnd : kind ≠ .end := by
    rcases isParen with rfl | rfl <;> exact TokenKind.noConfusion
  have notWord : ¬ (kind = .symbol ∨ kind = .integer) := by
    rcases isParen with rfl | rfl <;> simp
  exact @addsToken before [c] rest ⟨kind, spanAround before [c], String.singleton c, 0⟩ [] fits rfl
    (List.cons_ne_nil _ _) notEnd (String.toList_singleton c) (fun isWord => absurd isWord notWord)
    (List.forall_mem_nil _)

theorem addsUnknown {before rest : List Char} {c : Char}
    (fits : (before ++ ([c] ++ rest)).length < 2 ^ 32)
    (unknown : isBlank c = false ∧ isMark c = false ∧ isSymbolChar c = false) :
    AddsPiece (before ++ ([c] ++ rest)) before.length (before.length + 1) []
      [⟨.error, spanAround before [c], "unexpected character '" ++ String.singleton c ++ "'"⟩] := by
  rcases spanAround_offsets (pieceFits fits) with ⟨start, stop⟩
  refine ⟨Nat.le_succ _, List.forall_mem_nil _, Nat.zero_le _, ?_, ?_⟩
  · refine List.forall_mem_singleton.mpr ?_
    rw [start]
    exact ⟨Nat.le_refl _, Nat.lt_succ_self _⟩
  · intro offset other lower upper found
    have here : offset = before.length := by omega
    rw [@getElem?_piece before [c] rest offset lower upper, here, Nat.sub_self] at found
    cases found
    refine .inr (.inr (.inr ⟨unknown, spanAround before [c], ?_⟩))
    rw [List.filter_singleton, start, stop, here]
    simp

/-! ## Runs of the lexer -/

/-- No word goes on from one text to the next. -/
def Boundary (before rest : List Char) : Prop :=
  ∀ c, before.getLast? = some c → isSymbolChar c = true →
    ∀ d, rest.head? = some d → isSymbolChar d = false

theorem boundary_of_last {before rest : List Char} {c : Char} (plain : isSymbolChar c = false) :
    Boundary (before ++ [c]) rest := by
  intro other last letter
  rw [List.getLast?_concat] at last
  rw [← Option.some.inj last, plain] at letter
  cases letter

/-- A word is a run where the texts around it do not go on with it. -/
theorem word_isRun {before word rest : List Char} (some : word ≠ [])
    (letters : ∀ c ∈ word, isSymbolChar c = true) (ends : engineAlphabet.EndsWord rest)
    (boundary : Boundary before (word ++ rest)) :
    IsRun (before ++ (word ++ rest)) before.length (before.length + word.length) := by
  constructor
  · rw [slice_piece]
    exact letters
  · intro c positive found
    rw [getElem?_ahead positive] at found
    rcases List.exists_cons_of_ne_nil some with ⟨first, others, rfl⟩
    have letter := letters first List.mem_cons_self
    by_contra symbol
    rw [boundary c found (Bool.eq_true_of_not_eq_false symbol) first rfl] at letter
    cases letter
  · intro c found
    rw [getElem?_behind] at found
    exact ends c found

theorem wordToken_facts (span : SourceSpan) (word : List Char) :
    (wordToken span word).1.kind ≠ .end ∧ (wordToken span word).1.text.toList = word ∧
      ∀ report ∈ (wordToken span word).2, report.span = span := by
  rw [wordToken]
  split
  · split
    · exact ⟨TokenKind.noConfusion, String.toList_ofList, List.forall_mem_nil _⟩
    · exact ⟨TokenKind.noConfusion, String.toList_ofList, List.forall_mem_singleton.mpr rfl⟩
  · split
    · exact ⟨TokenKind.noConfusion, String.toList_ofList, List.forall_mem_singleton.mpr rfl⟩
    · exact ⟨TokenKind.noConfusion, String.toList_ofList, List.forall_mem_nil _⟩

theorem comment_outside {before body rest : List Char} (plain : '\n' ∉ body) {offset : Nat}
    (lower : before.length ≤ offset) (upper : offset < before.length + (';' :: body).length) :
    InComment (before ++ (';' :: body ++ rest)) offset := by
  refine ⟨before.length, lower, ?_, ?_⟩
  · rw [getElem?_piece (Nat.le_refl _) (by rw [List.length_cons]; omega), Nat.sub_self]
    rfl
  · intro member
    rw [slice, List.drop_left, List.take_append_of_le_length (by omega)] at member
    rcases List.mem_cons.mp (List.mem_of_mem_take member) with equal | inside
    · exact absurd equal (by decide)
    · exact plain inside

theorem Lexes.reconstructs {before text : List Char} {result : LexResult}
    (lexes : Lexes before text result) (fits : (before ++ text).length < 2 ^ 32)
    (boundary : Boundary before text) :
    ∃ body last, result.tokens = body ++ [last] ∧
      Reconstructs (before ++ text) before.length body last result.diagnostics := by
  -- The rest of a text is taken apart behind the first piece of it.
  have behind {before piece rest : List Char} {tokens body : List Token} {last : Token}
      {reports diagnostics : List Diagnostic}
      (tail : Reconstructs (before ++ piece ++ rest) (before ++ piece).length body last diagnostics)
      (adds : AddsPiece (before ++ (piece ++ rest)) before.length (before.length + piece.length)
        tokens reports) :
      Reconstructs (before ++ (piece ++ rest)) before.length (tokens ++ body) last
        (reports ++ diagnostics) := by
    rw [List.append_assoc, List.length_append] at tail
    exact tail.extend adds
  induction lexes with
  | done before =>
      rw [List.append_nil] at fits ⊢
      rcases @spanAround_offsets before [] (by rw [List.append_nil]; exact fits) with ⟨start, stop⟩
      refine ⟨[], _, rfl, rfl, ⟨start, stop⟩, List.forall_mem_nil _, .nil, ?_,
        List.forall_mem_nil _, List.forall_mem_nil _⟩
      intro offset c lower found
      rw [List.getElem?_eq_none lower] at found
      cases found
  | @blank before c rest result blank _ induction =>
      have plain : isSymbolChar c = false := by
        by_contra letter
        have apart := (engineAlphabet.wordApart c (Bool.eq_true_of_not_eq_false letter)).1
        change isBlank c = false at apart
        rw [blank] at apart
        cases apart
      rcases induction (by rw [List.append_assoc]; exact fits) (boundary_of_last plain) with
        ⟨body, last, tokens, tail⟩
      refine ⟨body, last, tokens,
        behind tail (addsNothing fun offset other lower upper found => ?_)⟩
      have here : offset - before.length = 0 := by
        rw [List.length_singleton] at upper
        omega
      rw [here] at found
      cases found
      exact .inl blank
  | @comment before body rest result plain ends _ induction =>
      have apart : Boundary (before ++ ';' :: body) rest := by
        intro c _ _ d found
        rw [ends d found]
        decide
      rcases induction (by rw [List.append_assoc]; exact fits) apart with
        ⟨tokens, last, split, tail⟩
      exact ⟨tokens, last, split, behind tail (addsNothing fun offset c lower upper _ =>
        .inr (comment_outside plain lower upper))⟩
  | @bracket before c rest result paren _ induction =>
      have plain : isSymbolChar c = false := by
        rcases paren with rfl | rfl <;> decide
      have kind : (if c = '(' then TokenKind.lParen else .rParen) = .lParen ∨
          (if c = '(' then TokenKind.lParen else .rParen) = .rParen := by
        split
        · exact .inl rfl
        · exact .inr rfl
      rcases induction (by rw [List.append_assoc]; exact fits) (boundary_of_last plain) with
        ⟨body, last, tokens, tail⟩
      exact ⟨_ :: body, last, congrArg (List.cons _) tokens,
        @behind before [c] rest [_] body last [] _ tail (addsBracket fits kind)⟩
  | @word before word rest result some letters ends _ induction =>
      have apart : Boundary (before ++ word) rest := fun _ _ _ d found => ends d found
      rcases induction (by rw [List.append_assoc]; exact fits) apart with
        ⟨body, last, tokens, tail⟩
      rcases wordToken_facts (spanAround before word) word with ⟨notEnd, text, reported⟩
      exact ⟨_ :: body, last, congrArg (List.cons _) tokens, behind tail
        (addsToken fits (wordToken_span _ _) some notEnd text
          (fun _ => word_isRun some letters ends boundary) reported)⟩
  | @unknown before c rest result notBlank notMark notLetter _ induction =>
      rcases induction (by rw [List.append_assoc]; exact fits) (boundary_of_last notLetter) with
        ⟨body, last, tokens, tail⟩
      exact ⟨body, last, tokens, behind tail (addsUnknown fits ⟨notBlank, notMark, notLetter⟩)⟩

/-! ## Lines and columns -/

/-- The line of an offset: one more than the newlines before it. -/
def lineAt (text : List Char) (offset : Nat) : Nat :=
  (text.take offset).count '\n' + 1

/-- The column of an offset: one more than the bytes before it on its line. -/
def columnAt (text : List Char) (offset : Nat) : Nat :=
  ((text.take offset).reverse.takeWhile (· ≠ '\n')).length + 1

theorem lineColumn_eq (text : List Char) :
    lineColumn text = (text.count '\n' + 1, (text.reverse.takeWhile (· ≠ '\n')).length + 1) := by
  induction text using List.reverseRecOn with
  | nil => rfl
  | append_singleton text c induction =>
      have step : lineColumn (text ++ [c]) = stepLine (lineColumn text) c := by
        rw [lineColumn, List.foldl_append]
        rfl
      rw [step, induction, stepLine, List.count_append, List.reverse_append]
      by_cases newline : c = '\n'
      · simp [newline]
      · simp [newline]

theorem lineColumn_take (text : List Char) (offset : Nat) :
    lineColumn (text.take offset) = (lineAt text offset, columnAt text offset) :=
  lineColumn_eq _

/-- The lines and columns of a span are those of its offsets, in 32 bits. -/
structure Counted (text : List Char) (span : SourceSpan) : Prop where
  startLine : span.startLine.toNat = lineAt text span.startOffset.toNat % 2 ^ 32
  startColumn : span.startColumn.toNat = columnAt text span.startOffset.toNat % 2 ^ 32
  endLine : span.endLine.toNat = lineAt text span.endOffset.toNat % 2 ^ 32
  endColumn : span.endColumn.toNat = columnAt text span.endOffset.toNat % 2 ^ 32

/-- The lines and columns of a span are those of its offsets. -/
structure CountedExactly (text : List Char) (span : SourceSpan) : Prop where
  startLine : span.startLine.toNat = lineAt text span.startOffset.toNat
  startColumn : span.startColumn.toNat = columnAt text span.startOffset.toNat
  endLine : span.endLine.toNat = lineAt text span.endOffset.toNat
  endColumn : span.endColumn.toNat = columnAt text span.endOffset.toNat

/-- A text of one line, or of nothing but newlines, that is as long as can be: its end
has the column or the line 2^32. -/
def Wraps (text : List Char) : Prop :=
  text.length = 2 ^ 32 - 1 ∧ ('\n' ∉ text ∨ ∀ c ∈ text, c = '\n')

theorem spanAround_counted {before word text : List Char} (inside : before ++ word <+: text)
    (fits : text.length < 2 ^ 32) : Counted text (spanAround before word) := by
  rcases inside with ⟨rest, rfl⟩
  have shorter : (before ++ word).length < 2 ^ 32 := by
    rw [List.length_append] at fits
    omega
  rcases spanAround_offsets shorter with ⟨start, stop⟩
  have first : (before ++ word ++ rest).take before.length = before := by
    rw [List.append_assoc, List.take_left]
  have second : (before ++ word ++ rest).take (before.length + word.length) = before ++ word := by
    rw [← List.length_append, List.take_left]
  have atStart := lineColumn_take (before ++ word ++ rest) before.length
  have atEnd := lineColumn_take (before ++ word ++ rest) (before.length + word.length)
  rw [first] at atStart
  rw [second] at atEnd
  constructor
  · rw [start, spanAround, positionAfter_eq, atStart]
    exact UInt32.toNat_ofNat'
  · rw [start, spanAround, positionAfter_eq, atStart]
    exact UInt32.toNat_ofNat'
  · rw [stop, spanAround, positionAfter_eq (before ++ word), atEnd]
    exact UInt32.toNat_ofNat'
  · rw [stop, spanAround, positionAfter_eq (before ++ word), atEnd]
    exact UInt32.toNat_ofNat'

/-- Lines and columns stay below 2^32 but at the end of a text that wraps. -/
theorem counts_fit {text : List Char} (fits : text.length < 2 ^ 32) (plain : ¬ Wraps text)
    (offset : Nat) : lineAt text offset < 2 ^ 32 ∧ columnAt text offset < 2 ^ 32 := by
  have bounds := lineColumn_le (text.take offset)
  have length := List.length_take_le' offset text
  rw [lineColumn_take] at bounds
  dsimp only at bounds
  by_cases whole : (text.take offset).length = 2 ^ 32 - 1
  · have long : text.length = 2 ^ 32 - 1 := by
      rw [List.length_take] at whole
      omega
    have same : text.take offset = text := by
      apply List.take_of_length_le
      rw [List.length_take] at whole
      omega
    constructor
    · by_contra large
      apply plain
      refine ⟨long, .inr fun c member => ?_⟩
      have count : text.count '\n' = text.length := by
        have most : text.count '\n' ≤ text.length := List.count_le_length
        rw [lineAt, same] at large
        omega
      exact (List.count_eq_length.mp count c member).symm
    · by_contra large
      apply plain
      refine ⟨long, .inl fun member => ?_⟩
      have count : (text.reverse.takeWhile (· ≠ '\n')).length = text.reverse.length := by
        have most : (text.reverse.takeWhile (· ≠ '\n')).length ≤ text.reverse.length :=
          (List.takeWhile_sublist _).length_le
        rw [columnAt, same] at large
        rw [List.length_reverse] at most ⊢
        omega
      have all := (List.takeWhile_prefix (· ≠ '\n')).eq_of_length count
      have letter := List.mem_takeWhile_imp (all ▸ List.mem_reverse.mpr member)
      simp at letter
  · omega

/-! ## Every source -/

/-- The spans the lexer returns. -/
def LexResult.spans (result : LexResult) : List SourceSpan :=
  result.tokens.map Token.span ++ result.diagnostics.map Diagnostic.span

theorem Lexes.reports_counted {before text : List Char} {result : LexResult}
    (lexes : Lexes before text result) (fits : (before ++ text).length < 2 ^ 32) :
    ∀ report ∈ result.diagnostics, Counted (before ++ text) report.span := by
  induction lexes with
  | done before => exact List.forall_mem_nil _
  | blank _ _ induction =>
      rw [List.append_assoc] at induction
      exact induction fits
  | comment _ _ _ induction =>
      rw [List.append_assoc] at induction
      exact induction fits
  | bracket _ _ induction =>
      rw [List.append_assoc] at induction
      exact induction fits
  | @word before word rest result _ _ _ _ induction =>
      rw [List.append_assoc] at induction
      intro report member
      rcases List.mem_append.mp member with member | member
      · rw [(wordToken_facts _ _).2.2 report member]
        exact spanAround_counted (by simp) fits
      · exact induction fits report member
  | @unknown before c rest result _ _ _ _ induction =>
      rw [List.append_assoc] at induction
      intro report member
      rcases List.mem_append.mp member with member | member
      · rw [List.mem_singleton.mp member]
        exact spanAround_counted (by simp) fits
      · exact induction fits report member

theorem lex_counted {source : Bytes} {lexed : LexResult} (found : lex source = some lexed)
    (fits : source.length < 2 ^ 32) :
    ∀ span ∈ lexed.spans, Counted (source.map Char.ofUInt8) span := by
  have length : (source.map Char.ofUInt8).length < 2 ^ 32 := by
    rw [List.length_map]
    exact fits
  intro span member
  rcases List.mem_append.mp member with member | member
  · rcases List.mem_map.mp member with ⟨token, present, rfl⟩
    rcases lex_stands found token present with ⟨before, word, inside, same⟩
    rw [same]
    exact spanAround_counted inside length
  · rcases List.mem_map.mp member with ⟨report, present, rfl⟩
    exact (lex_lexes found).reports_counted length report present

/-- Without wrapping the counters are the lines and columns themselves. -/
theorem Counted.exactly {text : List Char} {span : SourceSpan} (counted : Counted text span)
    (fits : text.length < 2 ^ 32) (plain : ¬ Wraps text) : CountedExactly text span := by
  have start := counts_fit fits plain span.startOffset.toNat
  have stop := counts_fit fits plain span.endOffset.toNat
  constructor
  · rw [counted.startLine, Nat.mod_eq_of_lt start.1]
  · rw [counted.startColumn, Nat.mod_eq_of_lt start.2]
  · rw [counted.endLine, Nat.mod_eq_of_lt stop.1]
  · rw [counted.endColumn, Nat.mod_eq_of_lt stop.2]

theorem lex_reconstructed {source : Bytes} (fits : source.length < 2 ^ 32) :
    ∃ body last diagnostics, lex source = some ⟨body ++ [last], diagnostics⟩ ∧
      Reconstructs (source.map Char.ofUInt8) 0 body last diagnostics := by
  rcases lex_total fits with ⟨⟨tokens, diagnostics⟩, found, -⟩
  have length : ([] ++ source.map Char.ofUInt8).length < 2 ^ 32 := by
    rw [List.nil_append, List.length_map]
    exact fits
  have boundary : Boundary [] (source.map Char.ofUInt8) := fun _ last => by cases last
  rcases (lex_lexes found).reconstructs length boundary with ⟨body, last, rfl, reconstructs⟩
  exact ⟨body, last, diagnostics, found, reconstructs⟩

/-- The lexer returns on every source whose offsets fit 32 bits. Its tokens and the
blanks, comments and reported characters between them make up the source, and lines and
columns are counted in 32 bits, which shows only at the end of a text that wraps. -/
theorem lex_reconstructs (source : Bytes) (fits : source.length < 2 ^ 32) :
    ∃ body last diagnostics, lex source = some ⟨body ++ [last], diagnostics⟩ ∧
      Reconstructs (source.map Char.ofUInt8) 0 body last diagnostics ∧
      (∀ span ∈ LexResult.spans ⟨body ++ [last], diagnostics⟩,
        Counted (source.map Char.ofUInt8) span) ∧
      (¬ Wraps (source.map Char.ofUInt8) →
        ∀ span ∈ LexResult.spans ⟨body ++ [last], diagnostics⟩,
          CountedExactly (source.map Char.ofUInt8) span) := by
  rcases lex_reconstructed fits with ⟨body, last, diagnostics, found, reconstructs⟩
  have counted := lex_counted found fits
  refine ⟨body, last, diagnostics, found, reconstructs, counted, ?_⟩
  intro plain span member
  apply (counted span member).exactly _ plain
  rw [List.length_map]
  exact fits

theorem beep_reconstructs :
    ∃ body last diagnostics, lex (bytes "(beep %) ;x") = some ⟨body ++ [last], diagnostics⟩ ∧
      Reconstructs ((bytes "(beep %) ;x").map Char.ofUInt8) 0 body last diagnostics ∧
      ∀ span ∈ LexResult.spans ⟨body ++ [last], diagnostics⟩,
        CountedExactly ((bytes "(beep %) ;x").map Char.ofUInt8) span := by
  rcases lex_reconstructs (bytes "(beep %) ;x") (by decide) with
    ⟨body, last, diagnostics, found, reconstructs, -, counted⟩
  refine ⟨body, last, diagnostics, found, reconstructs, counted ?_⟩
  intro wraps
  exact absurd wraps.1 (by decide)

/-- The longest source without a newline that the lexer returns on. -/
def longestLine : Bytes :=
  List.replicate (2 ^ 32 - 1) 32

/-- The column at its end is 2^32, which no counter of 32 bits holds. -/
theorem longest_not_counted :
    ¬ ∀ source : Bytes, source.length < 2 ^ 32 →
      ∃ body last diagnostics, lex source = some ⟨body ++ [last], diagnostics⟩ ∧
        Reconstructs (source.map Char.ofUInt8) 0 body last diagnostics ∧
        ∀ span ∈ LexResult.spans ⟨body ++ [last], diagnostics⟩,
          CountedExactly (source.map Char.ofUInt8) span := by
  intro always
  have length : longestLine.length = 2 ^ 32 - 1 := List.length_replicate
  have text : longestLine.map Char.ofUInt8 = List.replicate (2 ^ 32 - 1) ' ' := by
    rw [longestLine, List.map_replicate]
    rfl
  rcases always longestLine (by rw [length]; decide) with
    ⟨body, last, diagnostics, -, reconstructs, counted⟩
  have column := (counted last.span (by simp [LexResult.spans])).startColumn
  have count : columnAt (longestLine.map Char.ofUInt8) (longestLine.map Char.ofUInt8).length =
      2 ^ 32 := by
    rw [columnAt, List.take_length, text, List.reverse_replicate,
      List.takeWhile_replicate, if_pos (by decide), List.length_replicate]
    exact Nat.sub_add_cancel (by decide)
  rw [reconstructs.atEnd.1, count] at column
  have small := last.span.startColumn.toNat_lt
  omega

end CardCode
