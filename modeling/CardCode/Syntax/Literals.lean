import CardCode.App.Agreement
import CardCode.App.Values

/-! # Integer literals

A literal is read digit by digit, and given up before a step would leave the range of
an `int64`. The magnitude is read without its sign, so the least integer of the range
is given up with those beyond it.
-/

namespace CardCode

open App

def int64Min : Int := -9223372036854775808

def FitsInt64 (value : Int) : Prop :=
  int64Min ≤ value ∧ value ≤ int64Max

instance (value : Int) : Decidable (FitsInt64 value) :=
  inferInstanceAs (Decidable (_ ∧ _))

/-! ## Digits -/

/-- What the loop of `parse_int` computes on its way, the guard included. -/
def digitSteps : Int → List Char → List Int
  | _, [] => []
  | value, c :: rest =>
      let digit : Int := c.toNat - '0'.toNat
      [int64Max - digit, (int64Max - digit).tdiv 10] ++
        (if value > (int64Max - digit).tdiv 10 then []
        else [value * 10, value * 10 + digit] ++ digitSteps (value * 10 + digit) rest)

/-- What `parse_int` computes, with the negation at its end. -/
def parseSteps : List Char → List Int
  | '-' :: digits => digitSteps 0 digits ++ ((parseDigits 0 digits).map Int.neg).toList
  | digits => digitSteps 0 digits

/-- The number that a row of digits denotes behind others. -/
def digitsFrom (start : Nat) (digits : List Char) : Nat :=
  digits.foldl (fun value c => 10 * value + (c.toNat - '0'.toNat)) start

theorem digitsFrom_cons (start : Nat) (c : Char) (rest : List Char) :
    digitsFrom start (c :: rest) = digitsFrom (10 * start + (c.toNat - '0'.toNat)) rest := by
  rw [digitsFrom, List.foldl_cons, digitsFrom]

theorem digitsFrom_le (start : Nat) (digits : List Char) : start ≤ digitsFrom start digits := by
  induction digits generalizing start with
  | nil => exact Nat.le_refl _
  | cons c rest induction =>
      have next := induction (10 * start + (c.toNat - '0'.toNat))
      rw [digitsFrom_cons]
      omega

section Digit

variable {c : Char} {start : Nat}

/-- The guard tells whether the next value is beyond the range. -/
theorem guard_iff (digit : isDigit c = true) :
    (start : Int) > (int64Max - ((c.toNat : Int) - '0'.toNat)).tdiv 10 ↔
      int64Max < (10 * start + (c.toNat - '0'.toNat) : Nat) := by
  have bounds := isDigit_bounds digit
  have zero : '0'.toNat = 48 := rfl
  rw [zero, Int.tdiv_eq_ediv_of_nonneg (by rw [int64Max]; omega), int64Max]
  omega

theorem next_eq (digit : isDigit c = true) :
    (start : Int) * 10 + ((c.toNat : Int) - '0'.toNat) =
      ((10 * start + (c.toNat - '0'.toNat) : Nat) : Int) := by
  have bounds := isDigit_bounds digit
  have zero : '0'.toNat = 48 := rfl
  rw [zero]
  omega

end Digit

/-- The loop returns the number exactly where it is in range. -/
theorem parseDigits_eq {digits : List Char} {start : Nat} (plain : digits.all isDigit = true)
    (upper : (start : Int) ≤ int64Max) :
    parseDigits start digits =
      if (digitsFrom start digits : Int) ≤ int64Max then some (digitsFrom start digits : Int)
      else none := by
  induction digits generalizing start with
  | nil => rw [parseDigits, digitsFrom, List.foldl_nil, if_pos upper]
  | cons c rest induction =>
      rw [List.all_cons, Bool.and_eq_true] at plain
      rw [parseDigits, digitsFrom_cons]
      by_cases beyond : int64Max < (10 * start + (c.toNat - '0'.toNat) : Nat)
      · have grows := digitsFrom_le (10 * start + (c.toNat - '0'.toNat)) rest
        rw [if_pos ((guard_iff plain.1).mpr beyond), if_neg (by omega)]
      · rw [if_neg (fun guard => beyond ((guard_iff plain.1).mp guard)), next_eq plain.1,
          induction plain.2 (by omega)]

theorem digitSteps_inRange {digits : List Char} {start : Nat}
    (plain : digits.all isDigit = true) :
    ∀ step ∈ digitSteps start digits, FitsInt64 step := by
  induction digits generalizing start with
  | nil =>
      rw [digitSteps]
      exact List.forall_mem_nil _
  | cons c rest induction =>
      rw [List.all_cons, Bool.and_eq_true] at plain
      have bounds := isDigit_bounds plain.1
      have zero : '0'.toNat = 48 := rfl
      have division : (int64Max - ((c.toNat : Int) - '0'.toNat)).tdiv 10 =
          (int64Max - ((c.toNat : Int) - '0'.toNat)) / 10 :=
        Int.tdiv_eq_ediv_of_nonneg (by rw [int64Max, zero]; omega)
      have both {first second : Int} (one : FitsInt64 first) (two : FitsInt64 second) :
          ∀ step ∈ [first, second], FitsInt64 step :=
        List.forall_mem_cons.mpr ⟨one, List.forall_mem_singleton.mpr two⟩
      rw [digitSteps]
      refine List.forall_mem_append.mpr ?_
      constructor
      · apply both
        · rw [FitsInt64, int64Min, int64Max, zero]
          omega
        · rw [division, FitsInt64, int64Min, int64Max, zero]
          omega
      · split
        next => exact List.forall_mem_nil _
        next passes =>
          have below : ¬ int64Max < (10 * start + (c.toNat - '0'.toNat) : Nat) :=
            fun beyond => passes ((guard_iff plain.1).mpr beyond)
          rw [int64Max] at below
          rw [next_eq plain.1]
          refine List.forall_mem_append.mpr ?_
          constructor
          · apply both
            · rw [FitsInt64, int64Min, int64Max]
              omega
            · rw [FitsInt64, int64Min, int64Max]
              omega
          · exact induction plain.2

/-! ## Words -/

/-- The number a word is made of, whatever its sign. -/
def magnitude (word : List Char) : Nat :=
  (integerValue word).natAbs

/-- An integer word is a row of digits, with or without a sign. -/
theorem integerWord_cases {word : List Char} (integer : isIntegerWord word = true) :
    (∃ digits, word = '-' :: digits ∧ digits.all isDigit = true) ∨
      (∀ digits, word = '-' :: digits → False) ∧ word ≠ [] ∧ word.all isDigit = true := by
  by_cases minus : ∃ digits, word = '-' :: digits
  · rcases minus with ⟨digits, rfl⟩
    rw [isIntegerWord, Bool.and_eq_true] at integer
    exact .inl ⟨digits, rfl, integer.2⟩
  · have plain : ∀ digits, word = '-' :: digits → False := fun digits equal =>
      minus ⟨digits, equal⟩
    rw [isIntegerWord.eq_2 _ plain, Bool.and_eq_true, Bool.not_eq_true'] at integer
    exact .inr ⟨plain, List.isEmpty_eq_false_iff.mp integer.1, integer.2⟩

theorem parseInt_eq {word : List Char} (integer : isIntegerWord word = true) :
    parseInt word =
      if (magnitude word : Int) ≤ int64Max then some (Int64.ofInt (integerValue word))
      else none := by
  have start : ((0 : Nat) : Int) ≤ int64Max := by decide
  rcases integerWord_cases integer with ⟨digits, rfl, allDigits⟩ | ⟨plain, -, allDigits⟩
  · have same : magnitude ('-' :: digits) = digitsFrom 0 digits := by
      rw [magnitude, integerValue, Int.natAbs_neg, Int.natAbs_natCast]
      rfl
    have parsed := parseDigits_eq allDigits start
    rw [Int.natCast_zero] at parsed
    rw [parseInt, parsed, same, integerValue]
    split <;> rfl
  · have same : magnitude word = digitsFrom 0 word := by
      rw [magnitude, integerValue.eq_2 _ plain, Int.natAbs_natCast]
      rfl
    have parsed := parseDigits_eq allDigits start
    rw [Int.natCast_zero] at parsed
    rw [parseInt.eq_2 _ plain, parsed, same, integerValue.eq_2 _ plain]
    split <;> rfl

/-- The range without its least integer is that of the magnitudes. -/
theorem magnitude_iff (word : List Char) :
    (magnitude word : Int) ≤ int64Max ↔
      FitsInt64 (integerValue word) ∧ integerValue word ≠ int64Min := by
  rw [magnitude, FitsInt64, int64Min, int64Max]
  omega

theorem parseSteps_inRange {word : List Char} (integer : isIntegerWord word = true) :
    ∀ step ∈ parseSteps word, FitsInt64 step := by
  have start : ((0 : Nat) : Int) ≤ int64Max := by decide
  rcases integerWord_cases integer with ⟨digits, rfl, allDigits⟩ | ⟨plain, -, allDigits⟩
  · have parsed := parseDigits_eq allDigits start
    rw [Int.natCast_zero] at parsed
    have steps := @digitSteps_inRange digits 0 allDigits
    rw [Int.natCast_zero] at steps
    rw [parseSteps, parsed]
    intro step member
    rcases List.mem_append.mp member with member | member
    · exact steps step member
    · split at member
      next fits =>
        rw [List.mem_singleton.mp member, FitsInt64, int64Min, int64Max] at *
        change -9223372036854775808 ≤ -(digitsFrom 0 digits : Int) ∧
          -(digitsFrom 0 digits : Int) ≤ 9223372036854775807
        omega
      next => cases member
  · have steps := @digitSteps_inRange word 0 allDigits
    rw [Int.natCast_zero] at steps
    rw [parseSteps.eq_2 _ plain]
    exact steps

theorem integerWord_letters {word : List Char} (integer : isIntegerWord word = true) :
    word ≠ [] ∧ ∀ c ∈ word, isSymbolChar c = true := by
  have letters {digits : List Char} (plain : digits.all isDigit = true) :
      ∀ c ∈ digits, isSymbolChar c = true := by
    intro c member
    have digit := List.all_eq_true.mp plain c member
    rw [isDigit] at digit
    simp [isSymbolChar, digit]
  rcases integerWord_cases integer with ⟨digits, rfl, allDigits⟩ | ⟨-, nonempty, allDigits⟩
  · exact ⟨List.cons_ne_nil _ _, List.forall_mem_cons.mpr ⟨by decide, letters allDigits⟩⟩
  · exact ⟨nonempty, letters allDigits⟩

/-! ## Lexing -/

theorem takeWord_all {word : List Char} (letters : ∀ c ∈ word, isSymbolChar c = true)
    (position : Position) :
    takeWord position word = (word, word.foldl Position.advance position, []) := by
  induction word generalizing position with
  | nil => rfl
  | cons c rest induction =>
      rcases List.forall_mem_cons.mp letters with ⟨letter, others⟩
      rw [takeWord, if_pos letter, induction others, List.foldl_cons]

/-- A text that is one word is lexed as the token of that word. -/
theorem lexLoop_word {word : List Char} (some : word ≠ [])
    (letters : ∀ c ∈ word, isSymbolChar c = true) (fuel : Nat) (position : Position) :
    ∃ span last, last.kind = .end ∧ lexLoop (fuel + 1) position word =
      Option.some ⟨[(wordToken span word).1, last], (wordToken span word).2⟩ := by
  rcases List.exists_cons_of_ne_nil some with ⟨c, rest, rfl⟩
  have letter := letters c List.mem_cons_self
  rcases engineAlphabet.wordApart c letter with ⟨notBlank, notMark⟩
  have apart : ¬ isBlank c = true := by
    change isBlank c = false at notBlank
    simp [notBlank]
  simp only [isMark, Bool.or_eq_false_iff, decide_eq_false_iff_not] at notMark
  rcases notMark with ⟨⟨notComment, notOpening⟩, notClosing⟩
  rw [lexLoop, if_neg apart, if_neg notComment, if_neg (by simp [notOpening, notClosing]),
    if_pos letter, takeWord_all letters]
  dsimp only
  rw [lexLoop]
  exact ⟨_, _, rfl, by rw [Option.map_some, LexResult.prepend, List.append_nil]; rfl⟩

theorem wordToken_integer {word : List Char} (integer : isIntegerWord word = true)
    (span : SourceSpan) :
    wordToken span word =
      if (magnitude word : Int) ≤ int64Max then
        (⟨.integer, span, String.ofList word, Int64.ofInt (integerValue word)⟩, [])
      else
        (⟨.integer, span, String.ofList word, 0⟩,
          [⟨.error, span, "integer literal out of range: " ++ String.ofList word⟩]) := by
  rw [wordToken, parseInt_eq integer, if_pos integer]
  by_cases fits : (magnitude word : Int) ≤ int64Max
  · rw [if_pos fits, if_pos fits]
  · rw [if_neg fits, if_neg fits]

/-- The word is lexed as the integer it denotes where that is an `int64`, and reported
where it is not, and nothing overflows on the way. -/
def LexesExactly (word : Bytes) : Prop :=
  ∃ lexed token last, lex word = some lexed ∧ lexed.tokens = [token, last] ∧
    last.kind = .end ∧ token.kind = .integer ∧
    (FitsInt64 (integerValue (word.map Char.ofUInt8)) →
      token.integer.toInt = integerValue (word.map Char.ofUInt8) ∧ lexed.diagnostics = []) ∧
    (¬ FitsInt64 (integerValue (word.map Char.ofUInt8)) →
      lexed.diagnostics =
        [⟨.error, token.span, "integer literal out of range: " ++ token.text⟩]) ∧
    ∀ step ∈ parseSteps (word.map Char.ofUInt8), FitsInt64 step

theorem lex_integer {word : Bytes} (integer : isIntegerWord (word.map Char.ofUInt8) = true)
    (fits : word.length < 2 ^ 32) :
    ∃ span last, last.kind = .end ∧ lex word =
      some ⟨[(wordToken span (word.map Char.ofUInt8)).1, last],
        (wordToken span (word.map Char.ofUInt8)).2⟩ := by
  rcases integerWord_letters integer with ⟨nonempty, letters⟩
  have length : word.length = word.length - 1 + 1 := by
    have positive := List.length_pos_iff.mpr nonempty
    rw [List.length_map] at positive
    omega
  rw [lex, if_pos fits, length]
  exact lexLoop_word nonempty letters _ _

/-- The least integer is reported as out of range. -/
theorem least_reported {word : Bytes} {lexed : LexResult}
    (integer : isIntegerWord (word.map Char.ofUInt8) = true) (fits : word.length < 2 ^ 32)
    (least : integerValue (word.map Char.ofUInt8) = int64Min) (found : lex word = some lexed) :
    lexed.diagnostics ≠ [] := by
  rcases lex_integer integer fits with ⟨span, last, -, result⟩
  have large : ¬ (magnitude (word.map Char.ofUInt8) : Int) ≤ int64Max := fun small =>
    ((magnitude_iff _).mp small).2 least
  rw [wordToken_integer integer, if_neg large, found] at result
  rw [Option.some.inj result]
  exact List.cons_ne_nil _ _

/-- A literal is lexed as it should be exactly where it is short enough for the offsets
of the lexer and is not the least integer. -/
theorem lexesExactly_iff {word : Bytes}
    (integer : isIntegerWord (word.map Char.ofUInt8) = true) :
    LexesExactly word ↔
      word.length < 2 ^ 32 ∧ integerValue (word.map Char.ofUInt8) ≠ int64Min := by
  constructor
  · intro exactly
    rcases exactly with ⟨lexed, token, last, found, tokens, isEnd, kind, inside, _, _⟩
    have fits : word.length < 2 ^ 32 := by
      by_contra long
      rw [lex, if_neg long] at found
      cases found
    refine ⟨fits, fun least => ?_⟩
    exact least_reported integer fits least found (inside (by rw [least]; decide)).2
  · intro condition
    rcases lex_integer integer condition.1 with ⟨span, last, isEnd, found⟩
    rw [wordToken_integer integer] at found
    have inRange : FitsInt64 (integerValue (word.map Char.ofUInt8)) ↔
        (magnitude (word.map Char.ofUInt8) : Int) ≤ int64Max := by
      rw [magnitude_iff]
      exact (and_iff_left condition.2).symm
    rw [LexesExactly, inRange]
    by_cases small : (magnitude (word.map Char.ofUInt8) : Int) ≤ int64Max
    · rw [if_pos small] at found
      refine ⟨_, _, _, found, rfl, isEnd, rfl, fun _ => ⟨?_, rfl⟩, fun large => absurd small large,
        parseSteps_inRange integer⟩
      have bounds := inRange.mpr small
      rw [FitsInt64, int64Min, int64Max] at bounds
      exact Int64.toInt_ofInt_of_le bounds.1 (by omega)
    · rw [if_neg small] at found
      exact ⟨_, _, _, found, rfl, isEnd, rfl, fun fits => absurd fits small, fun _ => rfl,
        parseSteps_inRange integer⟩

/-! ## Printed integers -/

/-- An integer in decimal. -/
def printed (value : Int64) : Bytes :=
  utf8 (integerText value.toInt)

/-- The integer is lexed back from its decimal text. -/
def LexesBack (value : Int64) : Prop :=
  ∃ lexed token last, lex (printed value) = some lexed ∧ lexed.tokens = [token, last] ∧
    last.kind = .end ∧ token.kind = .integer ∧ token.integer = value ∧ lexed.diagnostics = []

theorem printed_text (value : Int64) :
    (printed value).map Char.ofUInt8 = integerText value.toInt := by
  rcases integerText_word value.toInt with ⟨-, isInteger, -⟩
  apply engineText_ascii
  intro c member
  exact ascii_of_symbolChar ((integerWord_letters isInteger).2 c member)

theorem printed_fits (value : Int64) : (printed value).length < 2 ^ 32 := by
  have length := congrArg List.length (printed_text value)
  have lower := value.le_toInt
  have upper := value.toInt_lt
  have digits (number : Nat) (small : number < 10 ^ 20) :
      (Nat.toDigits 10 number).length ≤ 20 :=
    (Nat.length_toDigits_le_iff (by decide) (by decide)).mpr small
  rw [List.length_map, integerText, Int.toString_eq_repr, Int.repr_eq_if] at length
  rw [length]
  split
  next =>
    rw [Nat.toList_repr]
    have short := digits value.toInt.toNat (by omega)
    omega
  next =>
    rw [String.toList_append, Nat.toList_repr, List.length_append]
    have short := digits (-value.toInt).toNat (by omega)
    have minus : "-".toList.length = 1 := by decide
    omega

theorem lexesBack_iff (value : Int64) : LexesBack value ↔ value ≠ Int64.minValue := by
  have text := printed_text value
  rcases integerText_word value.toInt with ⟨-, isInteger, denotes⟩
  have exactly := @lexesExactly_iff (printed value) (by rw [text]; exact isInteger)
  have inside : FitsInt64 (integerValue ((printed value).map Char.ofUInt8)) := by
    rw [text, denotes]
    exact ⟨value.le_toInt, Int.le_of_lt_add_one value.toInt_lt⟩
  have least : integerValue ((printed value).map Char.ofUInt8) ≠ int64Min ↔
      value ≠ Int64.minValue := by
    rw [text, denotes, ne_eq, ne_eq, ← Int64.toInt_inj]
    rfl
  rw [← least]
  constructor
  · intro back same
    rcases back with ⟨lexed, token, last, found, -, -, -, -, clean⟩
    exact least_reported (by rw [text]; exact isInteger) (printed_fits value) same found clean
  · intro different
    rcases exactly.mpr ⟨printed_fits value, different⟩ with
      ⟨lexed, token, last, found, tokens, isEnd, kind, held, -, -⟩
    rcases held inside with ⟨same, clean⟩
    refine ⟨lexed, token, last, found, tokens, isEnd, kind, ?_, clean⟩
    rw [text, denotes] at same
    exact Int64.toInt_inj.mp same

/-- What is lexed as it should be: every literal that is short enough for the offsets
of the lexer, and every printed integer, but the least. -/
theorem integers_lex_iff (word : Bytes)
    (integer : isIntegerWord (word.map Char.ofUInt8) = true) (value : Int64) :
    (LexesExactly word ↔
      word.length < 2 ^ 32 ∧ integerValue (word.map Char.ofUInt8) ≠ int64Min) ∧
    (LexesBack value ↔ value ≠ Int64.minValue) :=
  ⟨lexesExactly_iff integer, lexesBack_iff value⟩

def greatestWord : Bytes :=
  bytes "9223372036854775807"

theorem greatest_lexes_iff :
    (LexesExactly greatestWord ↔ greatestWord.length < 2 ^ 32 ∧
      integerValue (greatestWord.map Char.ofUInt8) ≠ int64Min) ∧
    (LexesBack 0 ↔ (0 : Int64) ≠ Int64.minValue) :=
  integers_lex_iff greatestWord (by decide) 0

def leastWord : Bytes :=
  bytes "-9223372036854775808"

/-- The least integer of the range is reported as out of range. -/
theorem least_not_lexed :
    ¬ ((∀ word : Bytes, isIntegerWord (word.map Char.ofUInt8) = true → LexesExactly word) ∧
      ∀ value : Int64, LexesBack value) := by
  intro always
  rcases always.1 leastWord (by decide) with ⟨lexed, token, last, found, -, -, -, inside, -, -⟩
  have clean := (inside (by decide)).2
  have reported : (lex leastWord).map (fun lexed => lexed.diagnostics.length) = some 1 := by
    decide +kernel
  rw [found, Option.map_some, clean] at reported
  cases reported

end CardCode
