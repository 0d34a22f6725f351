import CardCode.Engine.Lexer
import CardCode.Foundation.Scanning

/-! # The lexemes of the engine's tokens

A token is a lexeme with its span, and a word is classified by its own characters alone.
-/

namespace CardCode

/-- Symbol characters are printable and none of `(`, `)` and `;`. -/
theorem symbolChar_code {c : Char} (letter : isSymbolChar c = true) :
    33 ≤ c.toNat ∧ c.toNat ≤ 122 ∧ c.toNat ≠ 40 ∧ c.toNat ≠ 41 ∧ c.toNat ≠ 59 := by
  have between {low high : Char} (bounds : low ≤ c ∧ c ≤ high) :
      low.toNat ≤ c.toNat ∧ c.toNat ≤ high.toNat :=
    ⟨UInt32.le_iff_toNat_le.mp bounds.1, UInt32.le_iff_toNat_le.mp bounds.2⟩
  simp only [isSymbolChar, Bool.or_eq_true, Bool.and_eq_true, decide_eq_true_eq] at letter
  rcases letter with ((((((((((((upper | lower) | digit) | rfl) | rfl) | rfl) | rfl) | rfl) |
    rfl) | rfl) | rfl) | rfl) | rfl) | rfl
  · have bounds : 65 ≤ c.toNat ∧ c.toNat ≤ 90 := between upper
    omega
  · have bounds : 97 ≤ c.toNat ∧ c.toNat ≤ 122 := between lower
    omega
  · have bounds : 48 ≤ c.toNat ∧ c.toNat ≤ 57 := between digit
    omega
  all_goals decide

theorem ascii_of_symbolChar {c : Char} (letter : isSymbolChar c = true) : c.toNat < 128 := by
  have code := symbolChar_code letter
  omega

def engineAlphabet : Alphabet where
  isBlank := isBlank
  isWord := isSymbolChar
  width := fun _ => 1
  newline := by decide
  blankApart := by
    intro c blank
    simp only [isBlank, Bool.or_eq_true, decide_eq_true_eq] at blank
    rcases blank with ((rfl | rfl) | rfl) | rfl <;> decide
  wordApart := by
    intro c letter
    constructor
    · by_contra blank
      rw [Bool.not_eq_false] at blank
      simp only [isBlank, Bool.or_eq_true, decide_eq_true_eq] at blank
      rcases blank with ((rfl | rfl) | rfl) | rfl <;> revert letter <;> decide
    · by_contra mark
      rw [Bool.not_eq_false] at mark
      simp only [isMark, Bool.or_eq_true, decide_eq_true_eq] at mark
      rcases mark with (rfl | rfl) | rfl <;> revert letter <;> decide

theorem engineAlphabet_extent (text : List Char) :
    engineAlphabet.extent text = text.length := by
  induction text with
  | nil => rfl
  | cons c rest induction =>
      rw [Alphabet.extent_cons, induction, List.length_cons]
      exact Nat.add_comm _ _

def TokenKind.lexeme : TokenKind → LexemeKind
  | .lParen => .opening
  | .rParen => .closing
  | _ => .word

def Token.lexeme (token : Token) : Lexeme where
  kind := token.kind.lexeme
  text := token.text.toList
  start := token.span.startOffset.toNat
  stop := token.span.endOffset.toNat

/-- A word token is an integer exactly when its characters are those of one,
and then it holds the integer they denote. -/
structure Token.Classified (token : Token) : Prop where
  notEnd : token.kind ≠ .end
  integer : token.kind.lexeme = .word →
    (token.kind = .integer ↔ isIntegerWord token.text.toList = true)
  value : token.kind = .integer → parseInt token.text.toList = some token.integer

/-! ## Tokens -/

theorem wordToken_classified {span : SourceSpan} {word : List Char}
    (clean : hasErrors (wordToken span word).2 = false) :
    (wordToken span word).1.Classified ∧
      (wordToken span word).1.lexeme =
        ⟨.word, word, span.startOffset.toNat, span.endOffset.toNat⟩ := by
  rw [wordToken] at clean ⊢
  split at clean
  next integer =>
    split at clean
    next value parsed =>
      simp only [integer, if_true]
      exact ⟨⟨by simp, by simp [integer], by simp [parsed]⟩,
        by simp [Token.lexeme, TokenKind.lexeme]⟩
    next =>
      rw [hasErrors_error] at clean
      cases clean
  next other =>
    split at clean
    next =>
      rw [hasErrors_error] at clean
      cases clean
    next plain =>
      simp only [other, plain]
      exact ⟨⟨by simp, by simp [other], by simp⟩, by simp [Token.lexeme, TokenKind.lexeme]⟩

theorem bracket_lexeme {kind : TokenKind} {span : SourceSpan} {c : Char} :
    (Token.mk kind span (String.singleton c) 0).lexeme =
      ⟨kind.lexeme, [c], span.startOffset.toNat, span.endOffset.toNat⟩ := by
  simp [Token.lexeme]

/-- The tokens of a text without lexical errors are its lexemes. -/
def LexResult.Scans (result : LexResult) (offset : Nat) (text : List Char) : Prop :=
  ∃ body last, result.tokens = body ++ [last] ∧ last.kind = .end ∧
    CardCode.Scans engineAlphabet offset text (body.map Token.lexeme) ∧
    ∀ token ∈ body, token.Classified

end CardCode
