import Mathlib.Algebra.Order.Ring.Int
import Mathlib.Data.List.Basic
import Mathlib.Data.List.TakeWhile

/-! # Scanning text for brackets and words

The lexical structure of S-expressions, over any choice of blank and word
characters: a text is scanned when all of it is blanks, comments, brackets and
longest words. Offsets count in the alphabet's own units.
-/

namespace CardCode

def isMark (c : Char) : Bool :=
  c = ';' || c = '(' || c = ')'

/-- Which characters separate words, which make them up, and how far apart the
offsets before and after a character are. -/
structure Alphabet where
  isBlank : Char → Bool
  isWord : Char → Bool
  width : Char → Nat
  newline : isBlank '\n' = true
  blankApart : ∀ c, isBlank c = true → isMark c = false
  wordApart : ∀ c, isWord c = true → isBlank c = false ∧ isMark c = false

inductive LexemeKind where
  | opening
  | closing
  | word
  deriving Repr, DecidableEq

structure Lexeme where
  kind : LexemeKind
  text : List Char
  start : Nat
  stop : Nat
  deriving Repr, DecidableEq

/-- What a lexeme is, wherever it stands. -/
def Lexeme.form (lexeme : Lexeme) : LexemeKind × List Char :=
  (lexeme.kind, lexeme.text)

namespace Alphabet

variable (alphabet : Alphabet)

def extent : List Char → Nat
  | [] => 0
  | c :: rest => alphabet.width c + extent rest

@[simp] theorem extent_nil : alphabet.extent [] = 0 := rfl

@[simp] theorem extent_cons (c : Char) (rest : List Char) :
    alphabet.extent (c :: rest) = alphabet.width c + alphabet.extent rest := rfl

theorem extent_append (first second : List Char) :
    alphabet.extent (first ++ second) = alphabet.extent first + alphabet.extent second := by
  induction first with
  | nil => simp
  | cons c rest induction =>
      rw [List.cons_append, extent_cons, extent_cons, induction]
      omega

/-- A comment runs up to a newline or the end of the text. -/
def EndsLine (rest : List Char) : Prop :=
  ∀ c ∈ rest.head?, c = '\n'

/-- A word is not followed by another word character. -/
def EndsWord (rest : List Char) : Prop :=
  ∀ c ∈ rest.head?, alphabet.isWord c = false

end Alphabet

inductive Scans (alphabet : Alphabet) : Nat → List Char → List Lexeme → Prop
  | done {offset} : Scans alphabet offset [] []
  | blank {offset c rest lexemes} :
      alphabet.isBlank c = true → Scans alphabet (offset + alphabet.width c) rest lexemes →
      Scans alphabet offset (c :: rest) lexemes
  | comment {offset body rest lexemes} :
      '\n' ∉ body → Alphabet.EndsLine rest →
      Scans alphabet (offset + alphabet.extent (';' :: body)) rest lexemes →
      Scans alphabet offset (';' :: (body ++ rest)) lexemes
  | opening {offset rest lexemes} :
      Scans alphabet (offset + alphabet.width '(') rest lexemes →
      Scans alphabet offset ('(' :: rest)
        (⟨.opening, ['('], offset, offset + alphabet.width '('⟩ :: lexemes)
  | closing {offset rest lexemes} :
      Scans alphabet (offset + alphabet.width ')') rest lexemes →
      Scans alphabet offset (')' :: rest)
        (⟨.closing, [')'], offset, offset + alphabet.width ')'⟩ :: lexemes)
  | word {offset word rest lexemes} :
      word ≠ [] → (∀ c ∈ word, alphabet.isWord c = true) → alphabet.EndsWord rest →
      Scans alphabet (offset + alphabet.extent word) rest lexemes →
      Scans alphabet offset (word ++ rest)
        (⟨.word, word, offset, offset + alphabet.extent word⟩ :: lexemes)

/-- The lexemes begin one after another, none before the offset. -/
def Ascending (offset : Nat) (lexemes : List Lexeme) : Prop :=
  (∀ lexeme ∈ lexemes, offset ≤ lexeme.start) ∧
    (lexemes.map Lexeme.start).Pairwise (· < ·)

theorem Ascending.later {offset next : Nat} {lexemes : List Lexeme}
    (ascending : Ascending next lexemes) (le : offset ≤ next) : Ascending offset lexemes :=
  ⟨fun lexeme member => Nat.le_trans le (ascending.1 lexeme member), ascending.2⟩

theorem Ascending.cons {lexeme : Lexeme} {next : Nat} {rest : List Lexeme}
    (ascending : Ascending next rest) (wide : lexeme.start < next) :
    Ascending lexeme.start (lexeme :: rest) := by
  refine ⟨?_, List.pairwise_cons.mpr ⟨?_, ascending.2⟩⟩
  · intro other member
    rcases List.mem_cons.mp member with equal | member
    · rw [equal]
    · exact Nat.le_trans (Nat.le_of_lt wide) (ascending.1 other member)
  · intro start member
    rcases List.mem_map.mp member with ⟨other, inside, rfl⟩
    exact Nat.lt_of_lt_of_le wide (ascending.1 other inside)

namespace Scans

variable {alphabet : Alphabet} {offset : Nat} {text : List Char} {lexemes : List Lexeme}

/-- Every lexeme of the word kind is a word. -/
theorem words (scans : Scans alphabet offset text lexemes) :
    ∀ lexeme ∈ lexemes, lexeme.kind = .word →
      lexeme.text ≠ [] ∧ ∀ c ∈ lexeme.text, alphabet.isWord c = true := by
  induction scans with
  | done => exact fun _ member => nomatch member
  | blank _ _ induction => exact induction
  | comment _ _ _ induction => exact induction
  | opening _ induction | closing _ induction =>
      intro lexeme member kind
      rcases List.mem_cons.mp member with equal | member
      · rw [equal] at kind
        cases kind
      · exact induction lexeme member kind
  | word nonempty letters _ _ induction =>
      intro lexeme member kind
      rcases List.mem_cons.mp member with equal | member
      · rw [equal]
        exact ⟨nonempty, letters⟩
      · exact induction lexeme member kind

/-- A text has at least as many characters as lexemes. -/
theorem length_le (scans : Scans alphabet offset text lexemes) :
    lexemes.length ≤ text.length := by
  induction scans with
  | done => exact Nat.le_refl _
  | blank _ _ induction =>
      rw [List.length_cons]
      omega
  | comment _ _ _ induction =>
      rw [List.length_cons, List.length_append]
      omega
  | opening _ induction | closing _ induction =>
      rw [List.length_cons, List.length_cons]
      omega
  | word nonempty _ _ _ induction =>
      have positive := List.length_pos_iff.mpr nonempty
      rw [List.length_cons, List.length_append]
      omega

/-- Lexemes ascend where every character has a width. -/
theorem ascending (positive : ∀ c, 0 < alphabet.width c)
    (scans : Scans alphabet offset text lexemes) : Ascending offset lexemes := by
  induction scans with
  | done => exact ⟨nofun, .nil⟩
  | blank _ _ induction | comment _ _ _ induction => exact induction.later (Nat.le_add_right _ _)
  | opening _ induction | closing _ induction =>
      exact induction.cons (Nat.lt_add_of_pos_right (positive _))
  | @word _ word _ _ nonempty _ _ _ induction =>
      apply induction.cons
      rcases List.exists_cons_of_ne_nil nonempty with ⟨c, rest, rfl⟩
      have first := positive c
      rw [Alphabet.extent_cons]
      dsimp only
      omega

/-- Where every character has a width every lexeme ends behind its start. -/
theorem ordered (positive : ∀ c, 0 < alphabet.width c)
    (scans : Scans alphabet offset text lexemes) :
    ∀ lexeme ∈ lexemes, lexeme.start < lexeme.stop := by
  induction scans with
  | done => exact nofun
  | blank _ _ induction | comment _ _ _ induction => exact induction
  | opening _ induction | closing _ induction =>
      exact List.forall_mem_cons.mpr ⟨Nat.lt_add_of_pos_right (positive _), induction⟩
  | @word _ word _ _ nonempty _ _ _ induction =>
      refine List.forall_mem_cons.mpr ⟨?_, induction⟩
      rcases List.exists_cons_of_ne_nil nonempty with ⟨c, rest, rfl⟩
      have first := positive c
      rw [Alphabet.extent_cons]
      dsimp only
      omega

/-- Where every character has a width no lexeme begins before another one has ended. -/
theorem successive (positive : ∀ c, 0 < alphabet.width c)
    (scans : Scans alphabet offset text lexemes) :
    lexemes.Pairwise fun first second => first.stop ≤ second.start := by
  induction scans with
  | done => exact .nil
  | blank _ _ induction | comment _ _ _ induction => exact induction
  | opening rest induction | closing rest induction | word _ _ _ rest induction =>
      exact List.pairwise_cons.mpr ⟨(rest.ascending positive).1, induction⟩

/-- What a scanned text may begin with. -/
theorem head (scans : Scans alphabet offset text lexemes) :
    ∀ c ∈ text.head?, alphabet.isBlank c = true ∨ isMark c = true ∨ alphabet.isWord c = true := by
  intro c found
  cases scans with
  | done => cases found
  | blank blank _ =>
      cases found
      exact .inl blank
  | comment _ _ _ | opening _ | closing _ =>
      cases found
      exact .inr (.inl (by decide))
  | @word _ word _ _ nonempty letters _ _ =>
      cases word with
      | nil => exact absurd rfl nonempty
      | cons first _ =>
          cases found
          exact .inr (.inr (letters _ (by simp)))

end Scans

/-! ## Places -/

/-- Where a lexeme stands in a text, whatever offsets count. -/
structure Place where
  kind : LexemeKind
  before : List Char
  word : List Char

namespace Place

def lexeme (alphabet : Alphabet) (offset : Nat) (place : Place) : Lexeme where
  kind := place.kind
  text := place.word
  start := offset + alphabet.extent place.before
  stop := offset + alphabet.extent (place.before ++ place.word)

/-- The same place in a text that goes on at the front. -/
def shift (front : List Char) (place : Place) : Place :=
  { place with before := front ++ place.before }

/-- The first lexeme ends before the second one begins. -/
def Precedes (first second : Place) : Prop :=
  first.before ++ first.word <+: second.before

theorem lexeme_shift (alphabet : Alphabet) (offset : Nat) (front : List Char) (place : Place) :
    (place.shift front).lexeme alphabet offset =
      place.lexeme alphabet (offset + alphabet.extent front) := by
  rw [lexeme, lexeme, shift]
  simp only [List.append_assoc, Alphabet.extent_append, Nat.add_assoc]

end Place

/-- The places of lexemes in a text, from left to right. -/
structure Places (text : List Char) (places : List Place) : Prop where
  inside : ∀ place ∈ places, place.before ++ place.word <+: text
  solid : ∀ place ∈ places, place.word ≠ [] ∧ '\n' ∉ place.word
  ordered : places.Pairwise Place.Precedes

theorem Places.nil (text : List Char) : Places text [] :=
  ⟨fun _ member => absurd member List.not_mem_nil, fun _ member => absurd member List.not_mem_nil,
    .nil⟩

theorem Places.shift {rest : List Char} {places : List Place} (placed : Places rest places)
    (front : List Char) : Places (front ++ rest) (places.map (Place.shift front)) := by
  constructor
  · intro place member
    rcases List.mem_map.mp member with ⟨inner, present, rfl⟩
    rw [Place.shift, List.append_assoc]
    exact (List.prefix_append_right_inj front).mpr (placed.inside inner present)
  · intro place member
    rcases List.mem_map.mp member with ⟨inner, present, rfl⟩
    exact placed.solid inner present
  · apply List.pairwise_map.mpr
    apply placed.ordered.imp
    intro first second precedes
    rw [Place.Precedes, Place.shift, Place.shift, List.append_assoc]
    exact (List.prefix_append_right_inj front).mpr precedes

/-- A lexeme at the front of a text whose rest is placed. -/
theorem Places.cons {word rest : List Char} {places : List Place} (placed : Places rest places)
    (kind : LexemeKind) (solid : word ≠ [] ∧ '\n' ∉ word) :
    Places (word ++ rest) (⟨kind, [], word⟩ :: places.map (Place.shift word)) := by
  have moved := placed.shift word
  constructor
  · intro place member
    rcases List.mem_cons.mp member with equal | member
    · rw [equal]
      exact List.prefix_append word rest
    · exact moved.inside place member
  · intro place member
    rcases List.mem_cons.mp member with equal | member
    · rw [equal]
      exact solid
    · exact moved.solid place member
  · apply List.pairwise_cons.mpr
    refine ⟨?_, moved.ordered⟩
    intro place member
    rcases List.mem_map.mp member with ⟨inner, -, rfl⟩
    exact List.prefix_append word inner.before

namespace Scans

variable {alphabet other : Alphabet} {offset : Nat} {text : List Char} {lexemes : List Lexeme}

/-- Lexemes at places of a text, over either of two alphabets. -/
structure Placed (alphabet other : Alphabet) (offset : Nat) (text : List Char)
    (lexemes : List Lexeme) (places : List Place) : Prop where
  apart : Places text places
  lexemes_eq : lexemes = places.map (Place.lexeme alphabet offset)
  scans : ∀ start, Scans other start text (places.map (Place.lexeme other start))

/-- What is skipped at the front moves every place. -/
theorem Placed.skip {front rest : List Char} {places : List Place}
    (placed : Placed alphabet other (offset + alphabet.extent front) rest lexemes places)
    (skips : ∀ {start found}, Scans other (start + other.extent front) rest found →
      Scans other start (front ++ rest) found) :
    Placed alphabet other offset (front ++ rest) lexemes (places.map (Place.shift front)) := by
  refine ⟨placed.apart.shift front, ?_, ?_⟩
  · rw [placed.lexemes_eq, List.map_map]
    exact List.map_congr_left fun place _ => (place.lexeme_shift alphabet offset front).symm
  · intro start
    have scans := skips (placed.scans (start + other.extent front))
    rw [List.map_map]
    have same : places.map (Place.lexeme other start ∘ Place.shift front) =
        places.map (Place.lexeme other (start + other.extent front)) :=
      List.map_congr_left fun place _ => place.lexeme_shift other start front
    rwa [same]

/-- So does a lexeme. -/
theorem Placed.lexeme {word rest : List Char} {places : List Place} {kind : LexemeKind}
    (placed : Placed alphabet other (offset + alphabet.extent word) rest lexemes places)
    (solid : word ≠ [] ∧ '\n' ∉ word)
    (reads : ∀ {start found}, Scans other (start + other.extent word) rest found →
      Scans other start (word ++ rest)
        (⟨kind, word, start, start + other.extent word⟩ :: found)) :
    Placed alphabet other offset (word ++ rest)
      (⟨kind, word, offset, offset + alphabet.extent word⟩ :: lexemes)
      (⟨kind, [], word⟩ :: places.map (Place.shift word)) := by
  refine ⟨placed.apart.cons kind solid, ?_, ?_⟩
  · rw [placed.lexemes_eq, List.map_cons, List.map_map]
    congr 1
    exact List.map_congr_left fun place _ => (place.lexeme_shift alphabet offset word).symm
  · intro start
    have scans := reads (placed.scans (start + other.extent word))
    rw [List.map_cons, List.map_map]
    have same : places.map (Place.lexeme other start ∘ Place.shift word) =
        places.map (Place.lexeme other (start + other.extent word)) :=
      List.map_congr_left fun place _ => place.lexeme_shift other start word
    rwa [same]

/-- The same text scans alike over an alphabet that knows all of its blanks and
words: the lexemes stand at the same places. -/
theorem placed (blanks : ∀ c, alphabet.isBlank c = true → other.isBlank c = true)
    (letters : ∀ c, alphabet.isWord c = true → other.isWord c = true)
    (scans : Scans alphabet offset text lexemes) :
    ∃ places, Placed alphabet other offset text lexemes places := by
  induction scans with
  | done => exact ⟨[], Places.nil [], rfl, fun _ => .done⟩
  | @blank _ c rest _ blank _ induction =>
      rcases induction with ⟨places, placed⟩
      exact ⟨_, @Placed.skip _ _ _ _ [c] rest places placed fun scans =>
        .blank (blanks c blank) scans⟩
  | @comment _ body rest _ inside ends _ induction =>
      rcases induction with ⟨places, placed⟩
      exact ⟨_, @Placed.skip _ _ _ _ (';' :: body) rest places placed fun scans =>
        .comment inside ends scans⟩
  | @opening _ rest _ _ induction =>
      rcases induction with ⟨places, placed⟩
      exact ⟨_, @Placed.lexeme _ _ _ _ ['('] rest places .opening placed (by decide) .opening⟩
  | @closing _ rest _ _ induction =>
      rcases induction with ⟨places, placed⟩
      exact ⟨_, @Placed.lexeme _ _ _ _ [')'] rest places .closing placed (by decide) .closing⟩
  | @word _ word rest _ nonempty wordLetters ends tail induction =>
      rcases induction with ⟨places, placed⟩
      have solid : '\n' ∉ word := by
        intro member
        have apart := alphabet.wordApart _ (wordLetters _ member)
        rw [alphabet.newline] at apart
        exact absurd apart.1 (by decide)
      have otherEnds : other.EndsWord rest := by
        intro c found
        by_contra letter
        have apart := other.wordApart c (by simpa using letter)
        rcases tail.head c found with blank | mark | letter
        · rw [blanks c blank] at apart
          exact absurd apart.1 (by decide)
        · rw [mark] at apart
          exact absurd apart.2 (by decide)
        · rw [ends c found] at letter
          cases letter
      exact ⟨_, placed.lexeme ⟨nonempty, solid⟩
        (.word nonempty (fun c member => letters c (wordLetters c member)) otherEnds)⟩

theorem transfer (blanks : ∀ c, alphabet.isBlank c = true → other.isBlank c = true)
    (letters : ∀ c, alphabet.isWord c = true → other.isWord c = true)
    (scans : Scans alphabet offset text lexemes) (start : Nat) :
    ∃ moved, Scans other start text moved ∧
      moved.map Lexeme.form = lexemes.map Lexeme.form := by
  rcases scans.placed blanks letters with ⟨places, placed⟩
  refine ⟨_, placed.scans start, ?_⟩
  rw [placed.lexemes_eq, List.map_map, List.map_map]
  rfl

end Scans

/-! ## Any text -/

/-- A text splits after its longest front of characters of a sort. -/
theorem exists_split (isSort : Char → Bool) (text : List Char) :
    ∃ front back, text = front ++ back ∧ (∀ c ∈ front, isSort c = true) ∧
      ∀ c ∈ back.head?, isSort c = false := by
  refine ⟨text.takeWhile isSort, text.dropWhile isSort, List.takeWhile_append_dropWhile.symm,
    fun c member => List.mem_takeWhile_imp member, ?_⟩
  intro c found
  have stops := List.head?_dropWhile_not isSort text
  rw [Option.mem_def.mp found] at stops
  exact stops

/-- A text has one longest front of characters of a sort. -/
theorem split_unique {isSort : Char → Bool} {front back other rest : List Char}
    (sorted : ∀ c ∈ front, isSort c = true) (ends : ∀ c ∈ back.head?, isSort c = false)
    (otherSorted : ∀ c ∈ other, isSort c = true) (otherEnds : ∀ c ∈ rest.head?, isSort c = false)
    (same : front ++ back = other ++ rest) : front = other ∧ back = rest := by
  have taken {front back : List Char} (sorted : ∀ c ∈ front, isSort c = true)
      (ends : ∀ c ∈ back.head?, isSort c = false) :
      (front ++ back).takeWhile isSort = front := by
    rw [List.takeWhile_append_of_pos sorted]
    cases back with
    | nil => rw [List.takeWhile_nil, List.append_nil]
    | cons c back => rw [List.takeWhile_cons_of_neg (by simp [ends c rfl]), List.append_nil]
  have fronts : front = other := by
    rw [← taken sorted ends, same, taken otherSorted otherEnds]
  rw [fronts] at same
  exact ⟨fronts, List.append_cancel_left same⟩

/-- Over an alphabet that knows every character, every text is scanned. -/
theorem Scans.exists_of_covers {alphabet : Alphabet}
    (covers : ∀ c, alphabet.isBlank c = true ∨ isMark c = true ∨ alphabet.isWord c = true)
    (count : Nat) : ∀ text : List Char, text.length ≤ count →
      ∀ offset, ∃ lexemes, Scans alphabet offset text lexemes := by
  induction count with
  | zero =>
      intro text short offset
      rw [List.eq_nil_of_length_eq_zero (Nat.le_zero.mp short)]
      exact ⟨[], .done⟩
  | succ count induction =>
      intro text short offset
      cases text with
      | nil => exact ⟨[], .done⟩
      | cons c rest =>
          have shorter : rest.length ≤ count := Nat.le_of_succ_le_succ short
          rcases covers c with blank | mark | letter
          · rcases induction rest shorter (offset + alphabet.width c) with ⟨lexemes, scans⟩
            exact ⟨lexemes, .blank blank scans⟩
          · simp only [isMark, Bool.or_eq_true, decide_eq_true_eq] at mark
            rcases mark with (rfl | rfl) | rfl
            · rcases exists_split (fun d => d ≠ '\n') rest with ⟨body, tail, rfl, inside, ends⟩
              rw [List.length_append] at shorter
              rcases induction tail (by omega) (offset + alphabet.extent (';' :: body)) with
                ⟨lexemes, scans⟩
              refine ⟨lexemes, .comment ?_ ?_ scans⟩
              · intro newline
                simpa using inside _ newline
              · intro d found
                simpa using ends d found
            · rcases induction rest shorter (offset + alphabet.width '(') with ⟨lexemes, scans⟩
              exact ⟨_, .opening scans⟩
            · rcases induction rest shorter (offset + alphabet.width ')') with ⟨lexemes, scans⟩
              exact ⟨_, .closing scans⟩
          · rcases exists_split alphabet.isWord rest with ⟨word, tail, rfl, letters, ends⟩
            rw [List.length_append] at shorter
            rcases induction tail (by omega) (offset + alphabet.extent (c :: word)) with
              ⟨lexemes, scans⟩
            exact ⟨_, .word (List.cons_ne_nil c word)
              (List.forall_mem_cons.mpr ⟨letter, letters⟩) ends scans⟩

/-! ## One scan -/

namespace Scans

variable {alphabet : Alphabet} {offset : Nat} {text rest : List Char} {lexemes : List Lexeme}
  {c : Char}

theorem of_blank (blank : alphabet.isBlank c = true)
    (scans : Scans alphabet offset (c :: rest) lexemes) :
    Scans alphabet (offset + alphabet.width c) rest lexemes := by
  have notMark := alphabet.blankApart c blank
  generalize whole : c :: rest = text at scans
  cases scans with
  | done => cases whole
  | blank _ tail =>
      cases whole
      exact tail
  | comment | opening | closing =>
      cases whole
      cases notMark
  | @word _ word _ _ nonempty letters =>
      rcases List.exists_cons_of_ne_nil nonempty with ⟨first, others, rfl⟩
      cases whole
      rw [(alphabet.wordApart c (letters c List.mem_cons_self)).1] at blank
      cases blank

/-- A mark is neither skipped as a blank nor taken into a word. -/
theorem of_mark (mark : isMark c = true) (scans : Scans alphabet offset (c :: rest) lexemes) :
    (∃ body tail, c = ';' ∧ rest = body ++ tail ∧ '\n' ∉ body ∧ Alphabet.EndsLine tail ∧
      Scans alphabet (offset + alphabet.extent (';' :: body)) tail lexemes) ∨
    (c = '(' ∧ ∃ later, lexemes = ⟨.opening, ['('], offset, offset + alphabet.width '('⟩ :: later ∧
      Scans alphabet (offset + alphabet.width '(') rest later) ∨
    (c = ')' ∧ ∃ later, lexemes = ⟨.closing, [')'], offset, offset + alphabet.width ')'⟩ :: later ∧
      Scans alphabet (offset + alphabet.width ')') rest later) := by
  generalize whole : c :: rest = text at scans
  cases scans with
  | done => cases whole
  | blank blank =>
      cases whole
      rw [alphabet.blankApart c blank] at mark
      cases mark
  | @comment _ body tail _ inside ends later =>
      cases whole
      exact .inl ⟨body, tail, rfl, rfl, inside, ends, later⟩
  | opening later =>
      cases whole
      exact .inr (.inl ⟨rfl, _, rfl, later⟩)
  | closing later =>
      cases whole
      exact .inr (.inr ⟨rfl, _, rfl, later⟩)
  | @word _ word _ _ nonempty letters =>
      rcases List.exists_cons_of_ne_nil nonempty with ⟨first, others, rfl⟩
      cases whole
      rw [(alphabet.wordApart c (letters c List.mem_cons_self)).2] at mark
      cases mark

theorem of_word {word : List Char} (nonempty : word ≠ [])
    (letters : ∀ c ∈ word, alphabet.isWord c = true) (ends : alphabet.EndsWord rest)
    (scans : Scans alphabet offset (word ++ rest) lexemes) :
    ∃ later, lexemes = ⟨.word, word, offset, offset + alphabet.extent word⟩ :: later ∧
      Scans alphabet (offset + alphabet.extent word) rest later := by
  rcases List.exists_cons_of_ne_nil nonempty with ⟨first, others, split⟩
  have letter : alphabet.isWord first = true := letters first (split ▸ List.mem_cons_self)
  have apart := alphabet.wordApart first letter
  generalize whole : word ++ rest = text at scans
  have start : ∀ c ∈ text.head?, c = first := by
    rw [← whole, split]
    intro c found
    exact (Option.some.inj found).symm
  cases scans with
  | done => rw [split] at whole; cases whole
  | blank blank =>
      rw [start _ rfl, apart.1] at blank
      cases blank
  | comment | opening | closing =>
      rw [← start _ rfl] at apart
      cases apart.2
  | @word _ other tail later _ otherLetters otherEnds scans =>
      rcases split_unique letters ends otherLetters otherEnds whole with ⟨rfl, rfl⟩
      exact ⟨later, rfl, scans⟩

theorem of_comment {body : List Char} (inside : '\n' ∉ body) (ends : Alphabet.EndsLine rest)
    (scans : Scans alphabet offset (';' :: (body ++ rest)) lexemes) :
    Scans alphabet (offset + alphabet.extent (';' :: body)) rest lexemes := by
  have inLine {row : List Char} (plain : '\n' ∉ row) : ∀ c ∈ row, decide (c ≠ '\n') = true :=
    fun c member => decide_eq_true fun equal => plain (equal ▸ member)
  have stops {row : List Char} (line : Alphabet.EndsLine row) :
      ∀ c ∈ row.head?, decide (c ≠ '\n') = false :=
    fun c found => decide_eq_false (not_not.mpr (line c found))
  rcases scans.of_mark (by decide) with
    ⟨other, tail, -, same, apart, endsToo, later⟩ | wrong | wrong
  · rcases split_unique (inLine inside) (stops ends) (inLine apart) (stops endsToo) same with
      ⟨rfl, rfl⟩
    exact later
  · cases wrong.1
  · cases wrong.1

theorem of_opening (scans : Scans alphabet offset ('(' :: rest) lexemes) :
    ∃ later, lexemes = ⟨.opening, ['('], offset, offset + alphabet.width '('⟩ :: later ∧
      Scans alphabet (offset + alphabet.width '(') rest later := by
  rcases scans.of_mark (by decide) with ⟨_, _, wrong, -⟩ | right | wrong
  · cases wrong
  · exact right.2
  · cases wrong.1

theorem of_closing (scans : Scans alphabet offset (')' :: rest) lexemes) :
    ∃ later, lexemes = ⟨.closing, [')'], offset, offset + alphabet.width ')'⟩ :: later ∧
      Scans alphabet (offset + alphabet.width ')') rest later := by
  rcases scans.of_mark (by decide) with ⟨_, _, wrong, -⟩ | wrong | right
  · cases wrong
  · cases wrong.1
  · exact right.2

/-- A text is scanned in one way only. -/
theorem unique (scans : Scans alphabet offset text lexemes) :
    ∀ {others}, Scans alphabet offset text others → others = lexemes := by
  induction scans with
  | done =>
      intro others again
      generalize whole : ([] : List Char) = text at again
      cases again with
      | done => rfl
      | word nonempty => exact absurd (List.append_eq_nil_iff.mp whole.symm).1 nonempty
      | blank | comment | opening | closing => cases whole
  | blank blank _ induction =>
      intro others again
      exact induction (again.of_blank blank)
  | comment inside ends _ induction =>
      intro others again
      exact induction (again.of_comment inside ends)
  | opening _ induction =>
      intro others again
      rcases again.of_opening with ⟨later, rfl, tail⟩
      rw [induction tail]
  | closing _ induction =>
      intro others again
      rcases again.of_closing with ⟨later, rfl, tail⟩
      rw [induction tail]
  | word nonempty letters ends _ induction =>
      intro others again
      rcases again.of_word nonempty letters ends with ⟨later, rfl, tail⟩
      rw [induction tail]

end Scans

end CardCode
