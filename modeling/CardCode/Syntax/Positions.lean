import CardCode.Syntax.Lexemes

/-! # Where the engine's tokens stand

The lexer's three counters after a piece of text depend on that text alone, so the
span of a token is fixed by what stands before it and by the token itself. Where the
lexer reports no error, its tokens are the lexemes of the text.
-/

namespace CardCode

/-! ## Lines and columns -/

/-- The line and column after one more character. -/
def stepLine (place : Nat × Nat) (c : Char) : Nat × Nat :=
  if c = '\n' then (place.1 + 1, 1) else (place.1, place.2 + 1)

/-- The line and column after a text, both counted from one. -/
def lineColumn (text : List Char) : Nat × Nat :=
  text.foldl stepLine (1, 1)

theorem foldl_stepLine_plain {text : List Char} (plain : '\n' ∉ text) (place : Nat × Nat) :
    text.foldl stepLine place = (place.1, place.2 + text.length) := by
  induction text generalizing place with
  | nil => rfl
  | cons c rest induction =>
      have different : c ≠ '\n' := fun equal => plain (equal ▸ List.mem_cons_self)
      rw [List.foldl_cons, stepLine, if_neg different,
        induction fun member => plain (List.mem_cons_of_mem _ member), List.length_cons]
      exact Prod.ext rfl (by dsimp only; omega)

/-- Within a line only the column grows. -/
theorem lineColumn_append {before word : List Char} (plain : '\n' ∉ word) :
    lineColumn (before ++ word) =
      ((lineColumn before).1, (lineColumn before).2 + word.length) := by
  rw [lineColumn, List.foldl_append, foldl_stepLine_plain plain]
  rfl

theorem foldl_stepLine_le (text : List Char) (place : Nat × Nat) (positive : 1 ≤ place.2) :
    place.1 ≤ (text.foldl stepLine place).1 ∧ 1 ≤ (text.foldl stepLine place).2 ∧
      (text.foldl stepLine place).1 + (text.foldl stepLine place).2 ≤
        place.1 + place.2 + text.length := by
  induction text generalizing place with
  | nil => exact ⟨Nat.le_refl _, positive, Nat.le_refl _⟩
  | cons c rest induction =>
      have next : place.1 ≤ (stepLine place c).1 ∧ 1 ≤ (stepLine place c).2 ∧
          (stepLine place c).1 + (stepLine place c).2 ≤ place.1 + place.2 + 1 := by
        rw [stepLine]
        split
        · exact ⟨Nat.le_succ _, Nat.le_refl 1, by dsimp only; omega⟩
        · exact ⟨Nat.le_refl _, Nat.le_add_left 1 _, Nat.le_refl _⟩
      have tail := induction (stepLine place c) next.2.1
      rw [List.foldl_cons, List.length_cons]
      omega

/-- There are no more lines and columns than characters. -/
theorem lineColumn_le (text : List Char) :
    1 ≤ (lineColumn text).1 ∧ 1 ≤ (lineColumn text).2 ∧
      (lineColumn text).1 + (lineColumn text).2 ≤ 2 + text.length :=
  foldl_stepLine_le text (1, 1) (Nat.le_refl 1)

/-! ## The lexer's counters -/

def positionAfter (text : List Char) : Position :=
  text.foldl Position.advance {}

theorem positionAfter_append (before word : List Char) :
    positionAfter (before ++ word) = word.foldl Position.advance (positionAfter before) :=
  List.foldl_append

/-- The counters are those of the text, in 32 bits. -/
theorem foldl_advance_eq (text : List Char) (offset : Nat) (place : Nat × Nat) :
    text.foldl Position.advance
        ⟨UInt32.ofNat offset, UInt32.ofNat place.1, UInt32.ofNat place.2⟩ =
      ⟨UInt32.ofNat (offset + text.length), UInt32.ofNat (text.foldl stepLine place).1,
        UInt32.ofNat (text.foldl stepLine place).2⟩ := by
  induction text generalizing offset place with
  | nil => rfl
  | cons c rest induction =>
      have one (number : Nat) : UInt32.ofNat number + 1 = UInt32.ofNat (number + 1) :=
        (UInt32.ofNat_add number 1).symm
      have step : Position.advance
            ⟨UInt32.ofNat offset, UInt32.ofNat place.1, UInt32.ofNat place.2⟩ c =
          ⟨UInt32.ofNat (offset + 1), UInt32.ofNat (stepLine place c).1,
            UInt32.ofNat (stepLine place c).2⟩ := by
        rw [Position.advance, stepLine]
        split
        · simp only [one]
          rfl
        · simp only [one]
      rw [List.foldl_cons, List.foldl_cons, step, induction, List.length_cons]
      congr 2
      omega

theorem positionAfter_eq (text : List Char) :
    positionAfter text =
      ⟨UInt32.ofNat text.length, UInt32.ofNat (lineColumn text).1,
        UInt32.ofNat (lineColumn text).2⟩ := by
  have counted := foldl_advance_eq text 0 (1, 1)
  rw [Nat.zero_add] at counted
  exact counted

/-- The span from before to after a piece of text. -/
def spanAround (before word : List Char) : SourceSpan :=
  (positionAfter before).spanTo (positionAfter (before ++ word))

/-- The token's span is that of a piece of the text. -/
def Token.Stands (token : Token) (text : List Char) : Prop :=
  ∃ before word, before ++ word <+: text ∧ token.span = spanAround before word

theorem skipComment_position (position : Position) (text : List Char) :
    ∃ body rest, text = body ++ rest ∧ '\n' ∉ body ∧ Alphabet.EndsLine rest ∧
      skipComment position text = (body.foldl Position.advance position, rest) := by
  induction text generalizing position with
  | nil => exact ⟨[], [], rfl, List.not_mem_nil, (fun _ found => by cases found), rfl⟩
  | cons c rest induction =>
      by_cases newline : c = '\n'
      · refine ⟨[], c :: rest, rfl, List.not_mem_nil, ?_, ?_⟩
        · intro other head
          cases head
          exact newline
        · rw [skipComment, if_pos newline]
          rfl
      · rcases induction (position.advance c) with ⟨body, tail, split, plain, ends, skipped⟩
        refine ⟨c :: body, tail, congrArg (List.cons c) split, ?_, ends, ?_⟩
        · exact List.not_mem_cons_of_ne_of_not_mem (fun equal => newline equal.symm) plain
        · rw [skipComment, if_neg newline, skipped]
          rfl

theorem takeWord_position (position : Position) (text : List Char) :
    ∃ word rest, text = word ++ rest ∧ (∀ c ∈ word, isSymbolChar c = true) ∧
      engineAlphabet.EndsWord rest ∧
      takeWord position text = (word, word.foldl Position.advance position, rest) := by
  induction text generalizing position with
  | nil => exact ⟨[], [], rfl, List.forall_mem_nil _, (fun _ found => by cases found), rfl⟩
  | cons c rest induction =>
      by_cases letter : isSymbolChar c = true
      · rcases induction (position.advance c) with ⟨word, tail, split, letters, ends, taken⟩
        refine ⟨c :: word, tail, congrArg (List.cons c) split,
          List.forall_mem_cons.mpr ⟨letter, letters⟩, ends, ?_⟩
        rw [takeWord, if_pos letter, taken]
        rfl
      · refine ⟨[], c :: rest, rfl, List.forall_mem_nil _, ?_, ?_⟩
        · intro other head
          cases head
          exact Bool.not_eq_true _ ▸ letter
        · rw [takeWord, if_neg letter]
          rfl

/-! ## Runs of the lexer -/

/-- What the lexer returns for a text that stands behind another, piece by piece. -/
inductive Lexes : List Char → List Char → LexResult → Prop
  | done (before) : Lexes before [] ⟨[⟨.end, spanAround before [], "", 0⟩], []⟩
  | blank {before c rest result} : isBlank c = true → Lexes (before ++ [c]) rest result →
      Lexes before (c :: rest) result
  | comment {before body rest result} : '\n' ∉ body → Alphabet.EndsLine rest →
      Lexes (before ++ ';' :: body) rest result → Lexes before (';' :: body ++ rest) result
  | bracket {before c rest result} : (c = '(' ∨ c = ')') → Lexes (before ++ [c]) rest result →
      Lexes before (c :: rest) (result.prepend
        [⟨if c = '(' then .lParen else .rParen, spanAround before [c], String.singleton c, 0⟩] [])
  | word {before word rest result} : word ≠ [] → (∀ c ∈ word, isSymbolChar c = true) →
      engineAlphabet.EndsWord rest → Lexes (before ++ word) rest result →
      Lexes before (word ++ rest) (result.prepend
        [(wordToken (spanAround before word) word).1] (wordToken (spanAround before word) word).2)
  | unknown {before c rest result} : isBlank c = false → isMark c = false →
      isSymbolChar c = false → Lexes (before ++ [c]) rest result →
      Lexes before (c :: rest) (result.prepend []
        [⟨.error, spanAround before [c], "unexpected character '" ++ String.singleton c ++ "'"⟩])

theorem lexLoop_lexes {fuel : Nat} {before text : List Char} {result : LexResult}
    (found : lexLoop fuel (positionAfter before) text = some result) :
    Lexes before text result := by
  have ends (before : List Char) : Lexes before []
      ⟨[⟨.end, (positionAfter before).spanTo (positionAfter before), "", 0⟩], []⟩ := by
    have done := Lexes.done before
    rw [spanAround, List.append_nil] at done
    exact done
  induction fuel generalizing before text result with
  | zero =>
      cases text with
      | nil =>
          cases found
          exact ends before
      | cons c rest => cases found
  | succ fuel induction =>
      cases text with
      | nil =>
          cases found
          exact ends before
      | cons c rest =>
          have next : (positionAfter before).advance c = positionAfter (before ++ [c]) :=
            (positionAfter_append before [c]).symm
          rw [lexLoop] at found
          split at found
          next blank =>
            rw [next] at found
            exact .blank blank (induction found)
          split at found
          next semicolon =>
            rcases skipComment_position (positionAfter before) (c :: rest) with
              ⟨body, tail, split, plain, endsLine, skipped⟩
            rw [skipped] at found
            dsimp only at found
            rw [← positionAfter_append] at found
            cases body with
            | nil =>
                rw [List.nil_append] at split
                rw [← split, semicolon] at endsLine
                exact absurd (endsLine ';' rfl) (by decide)
            | cons first body =>
                rw [List.cons_append, List.cons.injEq] at split
                rw [← split.1, semicolon] at found plain
                rw [split.2, semicolon]
                exact .comment (List.not_mem_of_not_mem_cons plain) endsLine (induction found)
          split at found
          next paren =>
            rcases Option.map_eq_some_iff.mp found with ⟨tail, tailFound, rfl⟩
            rw [next] at tailFound ⊢
            simp only [Bool.or_eq_true, decide_eq_true_eq] at paren
            exact .bracket paren (induction tailFound)
          split at found
          next letter =>
            rcases Option.map_eq_some_iff.mp found with ⟨tail, tailFound, rfl⟩
            rcases takeWord_position (positionAfter before) (c :: rest) with
              ⟨word, unread, split, letters, endsWord, taken⟩
            rw [taken, ← positionAfter_append] at tailFound ⊢
            rw [split]
            refine .word ?_ letters endsWord (induction tailFound)
            intro empty
            rw [empty, List.nil_append] at split
            rw [← split] at endsWord
            exact absurd (endsWord c rfl) (by simp [engineAlphabet, letter])
          next notBlank notComment notParen notLetter =>
            rcases Option.map_eq_some_iff.mp found with ⟨tail, tailFound, rfl⟩
            rw [next] at tailFound ⊢
            simp only [Bool.or_eq_true, decide_eq_true_eq, not_or] at notParen
            refine .unknown (Bool.eq_false_of_not_eq_true notBlank) ?_
              (Bool.eq_false_of_not_eq_true notLetter) (induction tailFound)
            simp [isMark, notComment, notParen.1, notParen.2]

theorem lex_lexes {source : Bytes} {lexed : LexResult} (found : lex source = some lexed) :
    Lexes [] (source.map Char.ofUInt8) lexed := by
  rw [lex] at found
  split at found
  next => exact @lexLoop_lexes _ [] _ _ found
  next => cases found

/-! ## Lexemes -/

/-- A span of a text that fits the counters starts and ends where the piece does. -/
theorem spanAround_offsets {before piece : List Char}
    (fits : (before ++ piece).length < 2 ^ 32) :
    (spanAround before piece).startOffset.toNat = before.length ∧
      (spanAround before piece).endOffset.toNat = before.length + piece.length := by
  rw [List.length_append] at fits
  rw [spanAround, positionAfter_eq, positionAfter_eq, List.length_append]
  constructor
  · apply UInt32.toNat_ofNat_of_lt'
    exact Nat.lt_of_le_of_lt (Nat.le_add_right _ _) fits
  · exact UInt32.toNat_ofNat_of_lt' fits

theorem pieceFits {before piece rest : List Char}
    (fits : (before ++ (piece ++ rest)).length < 2 ^ 32) : (before ++ piece).length < 2 ^ 32 := by
  rw [List.length_append, List.length_append] at fits
  rw [List.length_append]
  omega

/-- A token in front of those of the rest of the text. -/
theorem LexResult.Scans.cons {result : LexResult} {before piece rest : List Char} {token : Token}
    {diagnostics : List Diagnostic} (scans : result.Scans (before ++ piece).length rest)
    (classified : token.Classified)
    (adds : ∀ lexemes, CardCode.Scans engineAlphabet (before.length + piece.length) rest lexemes →
      CardCode.Scans engineAlphabet before.length (piece ++ rest) (token.lexeme :: lexemes)) :
    (result.prepend [token] diagnostics).Scans before.length (piece ++ rest) := by
  rcases scans with ⟨body, last, tokens, isEnd, lexemes, all⟩
  rw [List.length_append] at lexemes
  exact ⟨token :: body, last, by rw [LexResult.prepend, tokens]; rfl, isEnd, adds _ lexemes,
    List.forall_mem_cons.mpr ⟨classified, all⟩⟩

theorem Lexes.scans {before text : List Char} {result : LexResult}
    (lexes : Lexes before text result) :
    hasErrors result.diagnostics = false → (before ++ text).length < 2 ^ 32 →
      result.Scans before.length text := by
  induction lexes with
  | done before => exact fun _ _ => ⟨[], _, rfl, rfl, .done, List.forall_mem_nil _⟩
  | @blank before c rest _ blank _ induction =>
      intro clean fits
      rw [List.append_assoc] at induction
      rcases induction clean fits with ⟨body, last, tokens, isEnd, scans, all⟩
      rw [List.length_append] at scans
      exact ⟨body, last, tokens, isEnd, .blank blank scans, all⟩
  | @comment before body rest _ inside ends _ induction =>
      intro clean fits
      rw [List.append_assoc] at induction
      rcases induction clean fits with ⟨tokens, last, split, isEnd, scans, all⟩
      rw [List.length_append, ← engineAlphabet_extent (';' :: body)] at scans
      exact ⟨tokens, last, split, isEnd, .comment inside ends scans, all⟩
  | @bracket before c rest _ bracket _ induction =>
      intro clean fits
      rw [List.append_assoc] at induction
      refine @LexResult.Scans.cons _ before [c] rest _ [] (induction clean fits) ⟨?_, ?_, ?_⟩ ?_
      · dsimp only
        split <;> exact TokenKind.noConfusion
      · dsimp only
        split <;> exact fun word => nomatch word
      · dsimp only
        split <;> exact fun integer => nomatch integer
      · intro lexemes scans
        rcases spanAround_offsets (@pieceFits before [c] rest fits) with ⟨start, stop⟩
        rw [bracket_lexeme, start, stop]
        rcases bracket with rfl | rfl
        · exact .opening scans
        · exact .closing scans
  | @word before word rest _ nonempty letters ends _ induction =>
      intro clean fits
      rw [List.append_assoc] at induction
      rw [LexResult.prepend, hasErrors_append, Bool.or_eq_false_iff] at clean
      rcases wordToken_classified clean.1 with ⟨classified, lexeme⟩
      refine (induction clean.2 fits).cons classified ?_
      intro lexemes scans
      rcases spanAround_offsets (pieceFits fits) with ⟨start, stop⟩
      rw [← engineAlphabet_extent word] at scans stop
      rw [lexeme, start, stop]
      exact .word nonempty letters ends scans
  | unknown _ _ _ _ induction =>
      intro clean _
      rw [LexResult.prepend, hasErrors_append, hasErrors_error] at clean
      cases clean

theorem lex_scans {source : Bytes} {lexed : LexResult} (found : lex source = some lexed)
    (clean : hasErrors lexed.diagnostics = false) :
    lexed.Scans 0 (source.map Char.ofUInt8) := by
  have lexes := lex_lexes found
  rw [lex] at found
  split at found
  next fits => exact lexes.scans clean (by simpa using fits)
  next => cases found

/-! ## Tokens -/

theorem wordToken_span (span : SourceSpan) (word : List Char) :
    (wordToken span word).1.span = span := by
  rw [wordToken]
  split
  · split
    · rfl
    · rfl
  · split
    · rfl
    · rfl

/-- A token of one piece of a text, and those of what follows it. -/
theorem stands_cons {before piece rest : List Char} {token : Token} {tokens : List Token}
    (span : token.span = spanAround before piece)
    (others : ∀ other ∈ tokens, other.Stands (before ++ piece ++ rest)) :
    ∀ other ∈ token :: tokens, other.Stands (before ++ (piece ++ rest)) := by
  rw [← List.append_assoc]
  intro other member
  rcases List.mem_cons.mp member with equal | member
  · rw [equal]
    exact ⟨before, piece, List.prefix_append _ _, span⟩
  · exact others other member

theorem Lexes.stands {before text : List Char} {result : LexResult}
    (lexes : Lexes before text result) :
    ∀ token ∈ result.tokens, token.Stands (before ++ text) := by
  induction lexes with
  | done before =>
      intro token member
      rw [List.mem_singleton.mp member]
      exact ⟨before, [], List.prefix_refl _, rfl⟩
  | blank _ _ induction =>
      rw [List.append_assoc] at induction
      exact induction
  | comment _ _ _ induction =>
      rw [List.append_assoc] at induction
      exact induction
  | bracket _ _ induction => exact stands_cons rfl induction
  | word _ _ _ _ induction => exact stands_cons (wordToken_span _ _) induction
  | unknown _ _ _ _ induction =>
      rw [List.append_assoc] at induction
      exact induction

/-- Every token stands somewhere in the text it was lexed from. -/
theorem lex_stands {source : Bytes} {lexed : LexResult} (found : lex source = some lexed) :
    ∀ token ∈ lexed.tokens, token.Stands (source.map Char.ofUInt8) :=
  (lex_lexes found).stands

end CardCode
