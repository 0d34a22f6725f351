import CardCode.App.Parser
import CardCode.Engine.Lexer
import CardCode.Foundation.Utf8
import CardCode.Syntax.Lexemes

/-! # From the user interface's text to the engine's bytes

A program travels to the engine as UTF-8. What the engine accepts holds
characters beyond ASCII in comments only, so both sides scan the same lexemes.
-/

namespace CardCode.App

/-- The bytes a text is sent as. -/
def utf8 (text : Text) : Bytes :=
  text.flatMap String.utf8EncodeChar

/-- The characters the engine's lexer sees, one for each byte. -/
def engineText (text : Text) : List Char :=
  (utf8 text).map Char.ofUInt8

def encoded (c : Char) : List Char :=
  (String.utf8EncodeChar c).map Char.ofUInt8

@[simp] theorem engineText_nil : engineText [] = [] := rfl

theorem engineText_cons (c : Char) (rest : Text) :
    engineText (c :: rest) = encoded c ++ engineText rest := by
  simp [engineText, utf8, encoded]

theorem engineText_append (first second : Text) :
    engineText (first ++ second) = engineText first ++ engineText second := by
  simp [engineText, utf8]

theorem ofUInt8_toNat (byte : UInt8) : (Char.ofUInt8 byte).toNat = byte.toNat := rfl

/-- A character is encoded as itself or by bytes that no ASCII character has. -/
theorem encoded_cases (c : Char) :
    (c.toNat < 128 ∧ encoded c = [c]) ∨
      (128 ≤ c.toNat ∧ encoded c ≠ [] ∧ ∀ d ∈ encoded c, 128 ≤ d.toNat) := by
  by_cases ascii : c.toNat < 128
  · left
    refine ⟨ascii, ?_⟩
    rw [encoded, String.utf8EncodeChar_eq_singleton (utf8Size_of_ascii ascii), List.map_singleton]
    congr 1
    apply Char.toNat_inj.mp
    rw [ofUInt8_toNat]
    exact Nat.mod_eq_of_lt (Nat.lt_trans ascii (by decide))
  · right
    refine ⟨by omega, by simp [encoded, String.utf8EncodeChar_ne_nil], ?_⟩
    intro d member
    rcases List.mem_map.mp member with ⟨byte, present, rfl⟩
    rw [ofUInt8_toNat]
    exact high_bytes (by omega) byte present

theorem engineText_ascii {text : Text} (ascii : ∀ c ∈ text, c.toNat < 128) :
    engineText text = text := by
  induction text with
  | nil => rfl
  | cons c rest induction =>
      rw [engineText_cons, induction fun d member => ascii d (List.mem_cons_of_mem _ member)]
      rcases encoded_cases c with ⟨-, same⟩ | ⟨wide, -⟩
      · rw [same]
        rfl
      · have narrow := ascii c List.mem_cons_self
        omega

/-- A character of the encoded text that is in ASCII stands for itself. -/
theorem engineText_eq_cons {text : Text} {c : Char} {rest : List Char}
    (split : engineText text = c :: rest) (ascii : c.toNat < 128) :
    ∃ tail, text = c :: tail ∧ engineText tail = rest := by
  cases text with
  | nil => cases split
  | cons first tail =>
      rw [engineText_cons] at split
      rcases encoded_cases first with ⟨-, same⟩ | ⟨-, nonempty, high⟩
      · rw [same] at split
        cases split
        exact ⟨tail, rfl, rfl⟩
      · cases bytes : encoded first with
        | nil => exact absurd bytes nonempty
        | cons d more =>
            rw [bytes] at split high
            cases split
            have wide := high c List.mem_cons_self
            omega

/-- So does a whole word of such characters. -/
theorem engineText_eq_append {text : Text} {word rest : List Char}
    (split : engineText text = word ++ rest) (ascii : ∀ c ∈ word, c.toNat < 128) :
    ∃ tail, text = word ++ tail ∧ engineText tail = rest := by
  induction word generalizing text with
  | nil => exact ⟨text, rfl, split⟩
  | cons c word induction =>
      rcases engineText_eq_cons split (ascii c List.mem_cons_self) with ⟨middle, rfl, found⟩
      rcases induction found (fun d member => ascii d (List.mem_cons_of_mem _ member)) with
        ⟨tail, rfl, rest⟩
      exact ⟨tail, rfl, rest⟩

/-- A comment ends between two characters of the text. -/
theorem engineText_comment {text : Text} {body rest : List Char}
    (split : engineText text = body ++ rest) (ends : Alphabet.EndsLine rest) :
    ∃ comment tail, text = comment ++ tail ∧ engineText comment = body ∧
      engineText tail = rest := by
  induction text generalizing body with
  | nil =>
      rcases List.append_eq_nil_iff.mp split.symm with ⟨rfl, rfl⟩
      exact ⟨[], [], rfl, rfl, rfl⟩
  | cons c tail induction =>
      rw [engineText_cons] at split
      by_cases empty : body = []
      · rw [empty, List.nil_append, ← engineText_cons] at split
        exact ⟨[], c :: tail, rfl, empty.symm, split⟩
      · rcases List.append_eq_append_iff.mp split with ⟨more, rfl, found⟩ | ⟨more, whole, found⟩
        · rcases induction found with ⟨comment, last, rfl, inside, rest⟩
          exact ⟨c :: comment, last, rfl, by rw [engineText_cons, inside], rest⟩
        · cases more with
          | nil =>
              rw [List.append_nil] at whole
              have text : engineText [c] = body := by
                rw [engineText_cons, engineText_nil, List.append_nil, whole]
              exact ⟨[c], tail, rfl, text, by simpa using found.symm⟩
          | cons d more =>
              -- A newline would stand in the middle of a character's bytes.
              have newline : d = '\n' := ends d (by rw [found]; rfl)
              rcases encoded_cases c with ⟨-, same⟩ | ⟨-, -, high⟩
              · rw [same] at whole
                cases body with
                | nil => exact absurd rfl empty
                | cons e body => simp at whole
              · have wide := high d (by rw [whole]; simp)
                rw [newline] at wide
                exact absurd wide (by decide)

/-! ## Scanning -/

theorem ascii_of_blank {c : Char} (blank : CardCode.isBlank c = true) : c.toNat < 128 := by
  simp only [CardCode.isBlank, Bool.or_eq_true, decide_eq_true_eq] at blank
  rcases blank with ((rfl | rfl) | rfl) | rfl <;> decide

/-- The engine's words and blanks in a text, at the offsets its bytes have. -/
def byteAlphabet : Alphabet where
  isBlank := CardCode.isBlank
  isWord := isSymbolChar
  width := Char.utf8Size
  newline := engineAlphabet.newline
  blankApart := engineAlphabet.blankApart
  wordApart := engineAlphabet.wordApart

theorem byteAlphabet_extent (text : Text) :
    byteAlphabet.extent text = (engineText text).length := by
  induction text with
  | nil => rfl
  | cons c rest induction =>
      rw [Alphabet.extent_cons, induction, engineText_cons, List.length_append, encoded,
        List.length_map, String.length_utf8EncodeChar]
      rfl

theorem byteAlphabet_width {c : Char} (ascii : c.toNat < 128) : byteAlphabet.width c = 1 :=
  utf8Size_of_ascii ascii

theorem byteAlphabet_word {word : Text} (ascii : ∀ c ∈ word, c.toNat < 128) :
    byteAlphabet.extent word = word.length := by
  induction word with
  | nil => rfl
  | cons c word induction =>
      rw [Alphabet.extent_cons, byteAlphabet_width (ascii c List.mem_cons_self),
        induction fun d member => ascii d (List.mem_cons_of_mem _ member), List.length_cons]
      exact Nat.add_comm _ _

/-- What the engine scans in the bytes of a text, it scans in the text itself. -/
theorem scans_text {offset : Nat} {chars : List Char} {lexemes : List Lexeme}
    (scans : Scans engineAlphabet offset chars lexemes) :
    ∀ text, engineText text = chars → Scans byteAlphabet offset text lexemes := by
  induction scans with
  | done =>
      intro text same
      cases text with
      | nil => exact .done
      | cons c rest =>
          rw [engineText_cons] at same
          have empty := (List.append_eq_nil_iff.mp same).1
          simp [encoded, String.utf8EncodeChar_ne_nil] at empty
  | @blank offset c rest lexemes blank _ induction =>
      intro text same
      rcases engineText_eq_cons same (ascii_of_blank blank) with ⟨tail, rfl, found⟩
      apply @Scans.blank byteAlphabet offset c tail lexemes blank
      rw [byteAlphabet_width (ascii_of_blank blank)]
      exact induction tail found
  | @comment offset body rest lexemes inside ends _ induction =>
      intro text same
      rcases engineText_eq_cons same (by decide) with ⟨middle, rfl, found⟩
      rcases engineText_comment found ends with ⟨comment, tail, rfl, commentText, tailText⟩
      apply @Scans.comment byteAlphabet offset comment tail lexemes
      · intro newline
        apply inside
        rcases List.append_of_mem newline with ⟨before, after, rfl⟩
        rw [← commentText, engineText_append, engineText_cons]
        simp [show encoded '\n' = ['\n'] by decide]
      · intro c head
        cases tail with
        | nil => cases head
        | cons first tail =>
            cases head
            rw [engineText_cons] at tailText
            rcases encoded_cases c with ⟨-, same⟩ | ⟨-, nonempty, high⟩
            · exact ends c (by rw [← tailText, same]; rfl)
            · cases bytes : encoded c with
              | nil => exact absurd bytes nonempty
              | cons d more =>
                  have newline := ends d (by rw [← tailText, bytes]; rfl)
                  have wide := high d (by rw [bytes]; exact List.mem_cons_self)
                  rw [newline] at wide
                  exact absurd wide (by decide)
      · have extent : byteAlphabet.extent (';' :: comment) =
            engineAlphabet.extent (';' :: body) := by
          rw [engineAlphabet_extent, Alphabet.extent_cons, byteAlphabet_extent, commentText,
            List.length_cons, byteAlphabet_width (by decide)]
          exact Nat.add_comm _ _
        rw [extent]
        exact induction tail tailText
  | @opening offset rest lexemes _ induction =>
      intro text same
      rcases engineText_eq_cons same (by decide) with ⟨tail, rfl, found⟩
      exact @Scans.opening byteAlphabet offset tail lexemes (induction tail found)
  | @closing offset rest lexemes _ induction =>
      intro text same
      rcases engineText_eq_cons same (by decide) with ⟨tail, rfl, found⟩
      exact @Scans.closing byteAlphabet offset tail lexemes (induction tail found)
  | @word offset word rest lexemes nonempty letters ends _ induction =>
      intro text same
      have ascii : ∀ c ∈ word, c.toNat < 128 :=
        fun c member => ascii_of_symbolChar (letters c member)
      rcases engineText_eq_append same ascii with ⟨tail, rfl, found⟩
      have extent : engineAlphabet.extent word = byteAlphabet.extent word := by
        rw [engineAlphabet_extent, byteAlphabet_word ascii]
      rw [extent] at induction ⊢
      apply @Scans.word byteAlphabet offset word tail lexemes nonempty letters
      · intro c head
        by_contra letter
        rw [Bool.not_eq_false] at letter
        cases tail with
        | nil => cases head
        | cons first tail =>
            cases head
            rcases encoded_cases c with ⟨-, same⟩ | ⟨wide, -⟩
            · have ended := ends c (by rw [← found, engineText_cons, same]; rfl)
              rw [show engineAlphabet.isWord c = true from letter] at ended
              cases ended
            · have narrow := ascii_of_symbolChar letter
              omega
      · exact induction tail found

end CardCode.App
