import CardCode.Foundation.Scanning
import CardCode.Foundation.TokenTree

/-! # Laid out text

A layout is a tree of words and brackets, each with the blanks that stand before
it. Its text is scanned as the lexemes of the tree, and no other layout has it.
-/

namespace CardCode

inductive Layout where
  | word (gap text : List Char)
  | group (gap : List Char) (items : List Layout)
  deriving Repr

namespace Layout

/-- A property of a layout that every group inherits from its items. -/
theorem induct {Property : Layout → Prop} (word : ∀ gap text, Property (.word gap text))
    (group : ∀ gap items, (∀ item ∈ items, Property item) → Property (.group gap items)) :
    ∀ layout, Property layout := by
  intro layout
  refine @Layout.rec Property (fun items => ∀ item ∈ items, Property item) word group
    (by simp) ?_ layout
  intro head tail headHolds tailHold item member
  rcases List.mem_cons.mp member with equal | member
  · exact equal ▸ headHolds
  · exact tailHold item member

def gap : Layout → List Char
  | .word gap _ => gap
  | .group gap _ => gap

mutual

def text : Layout → List Char
  | .word gap text => gap ++ text
  | .group gap items => gap ++ '(' :: (rowText items ++ [')'])

def rowText : List Layout → List Char
  | [] => []
  | layout :: rest => text layout ++ rowText rest

end

@[simp] theorem text_word (gap text : List Char) : (word gap text).text = gap ++ text := by
  rw [Layout.text]

@[simp] theorem text_group (gap : List Char) (items : List Layout) :
    (group gap items).text = gap ++ '(' :: (rowText items ++ [')']) := by
  rw [text]

@[simp] theorem rowText_nil : rowText [] = [] := by
  rw [rowText]

@[simp] theorem rowText_cons (layout : Layout) (rest : List Layout) :
    rowText (layout :: rest) = layout.text ++ rowText rest := by
  rw [rowText]

theorem rowText_append (first second : List Layout) :
    rowText (first ++ second) = rowText first ++ rowText second := by
  induction first with
  | nil => simp
  | cons layout rest induction => simp [induction]

/-! ## Spacing -/

section Spacing

variable (alphabet : Alphabet)

/-- Between two items there is a gap. -/
def Apart (items : List Layout) : Prop :=
  ∀ item ∈ items.tail, item.gap ≠ []

/-- Gaps are blank and words are words, and only the first item of a group may
follow without a gap. -/
inductive WellSpaced : Layout → Prop
  | word {gap text} :
      (∀ c ∈ gap, alphabet.isBlank c = true) → text ≠ [] →
      (∀ c ∈ text, alphabet.isWord c = true) → WellSpaced (.word gap text)
  | group {gap items} :
      (∀ c ∈ gap, alphabet.isBlank c = true) → (∀ item ∈ items, WellSpaced item) →
      Apart items → WellSpaced (.group gap items)

variable {alphabet}

theorem WellSpaced.gap_blank {layout : Layout} (spaced : WellSpaced alphabet layout) :
    ∀ c ∈ layout.gap, alphabet.isBlank c = true := by
  cases spaced with
  | word blank _ _ => exact blank
  | group blank _ _ => exact blank

theorem blank_not_word {c : Char} (blank : alphabet.isBlank c = true) :
    alphabet.isWord c = false := by
  by_contra letter
  rw [(alphabet.wordApart c (by simpa using letter)).1] at blank
  cases blank

theorem mark_not_blank {c : Char} (mark : isMark c = true) : alphabet.isBlank c = false := by
  by_contra blank
  rw [alphabet.blankApart c (by simpa using blank)] at mark
  cases mark

theorem mark_not_word {c : Char} (mark : isMark c = true) : alphabet.isWord c = false := by
  by_contra letter
  rw [(alphabet.wordApart c (by simpa using letter)).2] at mark
  cases mark

theorem endsWord_mark {c : Char} (mark : isMark c = true) (rest : List Char) :
    alphabet.EndsWord (c :: rest) := by
  intro d found
  cases found
  exact mark_not_word mark

/-- A gap ends the word before it. -/
theorem WellSpaced.endsWord {layout : Layout} (spaced : WellSpaced alphabet layout)
    (some : layout.gap ≠ []) (rest : List Char) : alphabet.EndsWord (layout.text ++ rest) := by
  have begins : ∃ tail, layout.text = layout.gap ++ tail := by
    cases layout with
    | word gap text => exact ⟨text, text_word gap text⟩
    | group gap items => exact ⟨_, text_group gap items⟩
  rcases begins with ⟨tail, same⟩
  rcases List.exists_cons_of_ne_nil some with ⟨c, gap, split⟩
  intro d found
  rw [same, split] at found
  cases found
  exact blank_not_word (spaced.gap_blank c (split ▸ List.mem_cons_self))

/-- What follows the first item of a row ends its last word. -/
theorem rest_endsWord {layout : Layout} {items : List Layout} {rest : List Char}
    (spaced : ∀ item ∈ items, WellSpaced alphabet item) (apart : Apart (layout :: items))
    (ends : alphabet.EndsWord rest) : alphabet.EndsWord (rowText items ++ rest) := by
  cases items with
  | nil => exact ends
  | cons item items =>
      rw [rowText_cons, List.append_assoc]
      exact (spaced item List.mem_cons_self).endsWord (apart item List.mem_cons_self) _

theorem Apart.tail {layout : Layout} {items : List Layout} (apart : Apart (layout :: items)) :
    Apart items :=
  fun item member => apart item (List.mem_of_mem_tail member)

end Spacing

/-! ## Scanning -/

section Scanning

variable (alphabet : Alphabet)

mutual

/-- The lexemes of a layout whose text begins at an offset. -/
def lexemes : Nat → Layout → TokenTree Lexeme
  | offset, .word gap text =>
      .leaf ⟨.word, text, offset + alphabet.extent gap,
        offset + alphabet.extent gap + alphabet.extent text⟩
  | offset, .group gap items =>
      let start := offset + alphabet.extent gap
      let inner := start + alphabet.width '('
      let stop := inner + alphabet.extent (rowText items)
      .group ⟨.opening, ['('], start, inner⟩ (rowLexemes inner items)
        ⟨.closing, [')'], stop, stop + alphabet.width ')'⟩

def rowLexemes : Nat → List Layout → List (TokenTree Lexeme)
  | _, [] => []
  | offset, layout :: rest =>
      lexemes offset layout :: rowLexemes (offset + alphabet.extent layout.text) rest

end

variable {alphabet}

theorem skip_gap {gap rest : List Char} {offset : Nat} {found : List Lexeme}
    (blank : ∀ c ∈ gap, alphabet.isBlank c = true)
    (scans : Scans alphabet (offset + alphabet.extent gap) rest found) :
    Scans alphabet offset (gap ++ rest) found := by
  induction gap generalizing offset with
  | nil => exact scans
  | cons c gap induction =>
      rw [Alphabet.extent_cons, ← Nat.add_assoc] at scans
      exact .blank (blank c List.mem_cons_self)
        (induction (fun d member => blank d (List.mem_cons_of_mem _ member)) scans)

/-- Wherever it stands, the text of a layout is scanned as its lexemes. -/
def IsScanned (alphabet : Alphabet) (layout : Layout) : Prop :=
  ∀ offset rest found, alphabet.EndsWord rest →
    Scans alphabet (offset + alphabet.extent layout.text) rest found →
    Scans alphabet offset (layout.text ++ rest) ((lexemes alphabet offset layout).flatten ++ found)

theorem row_isScanned {items : List Layout} (each : ∀ item ∈ items, IsScanned alphabet item)
    (spaced : ∀ item ∈ items, WellSpaced alphabet item) :
    Apart items → ∀ offset rest found, alphabet.EndsWord rest →
      Scans alphabet (offset + alphabet.extent (rowText items)) rest found →
      Scans alphabet offset (rowText items ++ rest)
        (TokenTree.flattenAll (rowLexemes alphabet offset items) ++ found) := by
  induction items with
  | nil =>
      intro _ offset rest found _ scans
      rw [rowLexemes, TokenTree.flattenAll_nil]
      exact scans
  | cons layout items induction =>
      intro apart offset rest found ends scans
      have others := fun item member => spaced item (List.mem_cons_of_mem _ member)
      rw [rowText_cons, Alphabet.extent_append, ← Nat.add_assoc] at scans
      rw [rowLexemes, TokenTree.flattenAll_cons, rowText_cons, List.append_assoc, List.append_assoc]
      apply each layout List.mem_cons_self _ _ _ (rest_endsWord others apart ends)
      exact induction (fun item member => each item (List.mem_cons_of_mem _ member)) others
        apart.tail _ _ _ ends scans

theorem WellSpaced.isScanned {layout : Layout} (spaced : WellSpaced alphabet layout) :
    IsScanned alphabet layout := by
  induction spaced with
  | word blank nonempty letters =>
      intro offset rest found ends scans
      rw [text_word, Alphabet.extent_append, ← Nat.add_assoc] at scans
      rw [lexemes, TokenTree.flatten_leaf, text_word, List.append_assoc]
      exact skip_gap blank (.word nonempty letters ends scans)
  | group blank items apart induction =>
      intro offset rest found _ scans
      rw [text_group, Alphabet.extent_append, Alphabet.extent_cons, Alphabet.extent_append,
        Alphabet.extent_cons, Alphabet.extent_nil, Nat.add_zero, ← Nat.add_assoc, ← Nat.add_assoc,
        ← Nat.add_assoc] at scans
      rw [lexemes, TokenTree.flatten_group, text_group]
      simp only [List.append_assoc, List.cons_append, List.nil_append]
      apply skip_gap blank
      apply Scans.opening
      exact row_isScanned induction items apart _ _ _ (endsWord_mark (by decide) _)
        (.closing scans)

/-- The text of a row of layouts is scanned as their lexemes. -/
theorem row_scans {items : List Layout} (spaced : ∀ item ∈ items, WellSpaced alphabet item)
    (apart : Apart items) :
    Scans alphabet 0 (rowText items) (TokenTree.flattenAll (rowLexemes alphabet 0 items)) := by
  have ends : alphabet.EndsWord [] := fun _ found => by cases found
  have scans := row_isScanned (fun item member => (spaced item member).isScanned) spaced apart 0 []
    [] ends .done
  rwa [List.append_nil, List.append_nil] at scans

end Scanning

/-! ## Other alphabets -/

/-- All gaps are filled with characters of a sort. -/
inductive Filled (isFiller : Char → Prop) : Layout → Prop
  | word {gap text} : (∀ c ∈ gap, isFiller c) → Filled isFiller (.word gap text)
  | group {gap items} : (∀ c ∈ gap, isFiller c) → (∀ item ∈ items, Filled isFiller item) →
      Filled isFiller (.group gap items)

/-- All words are of a sort. -/
inductive Worded (isSort : List Char → Prop) : Layout → Prop
  | word {gap text} : isSort text → Worded isSort (.word gap text)
  | group {gap items} : (∀ item ∈ items, Worded isSort item) → Worded isSort (.group gap items)

theorem Worded.mono {isSort other : List Char → Prop} {layout : Layout}
    (worded : Worded isSort layout) (implies : ∀ word, isSort word → other word) :
    Worded other layout := by
  induction worded with
  | word sort => exact .word (implies _ sort)
  | group _ induction => exact .group induction

section Others

variable {alphabet other : Alphabet}

theorem row_chars {isSort : Char → Prop} {items : List Layout}
    (each : ∀ item ∈ items, ∀ c ∈ item.text, isSort c) : ∀ c ∈ rowText items, isSort c := by
  induction items with
  | nil => exact List.forall_mem_nil _
  | cons item items induction =>
      rw [rowText_cons]
      exact List.forall_mem_append.mpr ⟨each item List.mem_cons_self,
        induction fun other member => each other (List.mem_cons_of_mem _ member)⟩

/-- The alphabet knows every character of a well spaced layout. -/
theorem WellSpaced.known {layout : Layout} (spaced : WellSpaced alphabet layout) :
    ∀ c ∈ layout.text,
      alphabet.isBlank c = true ∨ isMark c = true ∨ alphabet.isWord c = true := by
  induction spaced with
  | word blank _ letters =>
      rw [text_word]
      exact List.forall_mem_append.mpr ⟨fun c member => .inl (blank c member),
        fun c member => .inr (.inr (letters c member))⟩
  | group blank _ _ induction =>
      rw [text_group]
      refine List.forall_mem_append.mpr ⟨fun c member => .inl (blank c member), ?_⟩
      refine List.forall_mem_cons.mpr ⟨.inr (.inl rfl), ?_⟩
      exact List.forall_mem_append.mpr ⟨row_chars induction,
        List.forall_mem_singleton.mpr (.inr (.inl rfl))⟩

/-- A layout is well spaced over every alphabet that has its gaps for blank and its words
for words. -/
theorem WellSpaced.over {layout : Layout} (spaced : WellSpaced alphabet layout)
    (filled : Filled (fun c => other.isBlank c = true) layout)
    (worded : Worded (fun text => ∀ c ∈ text, other.isWord c = true) layout) :
    WellSpaced other layout := by
  induction spaced with
  | word _ nonempty _ =>
      cases filled with
      | word blank =>
          cases worded with
          | word letters => exact .word blank nonempty letters
  | group _ _ apart induction =>
      cases filled with
      | group blank items =>
          cases worded with
          | group words =>
              exact .group blank
                (fun item member => induction item member (items item member) (words item member))
                apart

theorem row_worded {isSort : List Char → Prop} {items : List Layout}
    (each : ∀ item ∈ items, ∀ offset, ∀ lexeme ∈ (lexemes alphabet offset item).flatten,
      lexeme.kind = .word → isSort lexeme.text) :
    ∀ offset, ∀ lexeme ∈ TokenTree.flattenAll (rowLexemes alphabet offset items),
      lexeme.kind = .word → isSort lexeme.text := by
  induction items with
  | nil =>
      intro offset lexeme member
      rw [rowLexemes, TokenTree.flattenAll_nil] at member
      cases member
  | cons item items induction =>
      intro offset lexeme member
      rw [rowLexemes, TokenTree.flattenAll_cons] at member
      rcases List.mem_append.mp member with member | member
      · exact each item List.mem_cons_self offset lexeme member
      · exact induction (fun other present => each other (List.mem_cons_of_mem _ present)) _ lexeme
          member

/-- The words of a layout are the words among its lexemes. -/
theorem Worded.lexemes {isSort : List Char → Prop} {layout : Layout}
    (worded : Worded isSort layout) :
    ∀ offset, ∀ lexeme ∈ (lexemes alphabet offset layout).flatten,
      lexeme.kind = .word → isSort lexeme.text := by
  induction worded with
  | word sort =>
      intro offset lexeme member isWord
      rw [Layout.lexemes, TokenTree.flatten_leaf] at member
      rw [List.mem_singleton.mp member]
      exact sort
  | group _ induction =>
      intro offset lexeme member isWord
      rw [Layout.lexemes, TokenTree.flatten_group] at member
      simp only [List.mem_append, List.mem_cons, List.not_mem_nil, or_false] at member
      rcases member with rfl | inner | rfl
      · cases isWord
      · exact row_worded induction _ lexeme inner isWord
      · cases isWord

end Others

/-! ## Reading back -/

section Unique

variable {alphabet : Alphabet}

/-- No other layout has the text, whatever follows. -/
def IsUnique (alphabet : Alphabet) (layout : Layout) : Prop :=
  ∀ other, WellSpaced alphabet other → ∀ rest last, alphabet.EndsWord rest →
    alphabet.EndsWord last → layout.text ++ rest = other.text ++ last →
    layout = other ∧ rest = last

/-- Behind its gap a layout begins with a bracket or a letter. -/
theorem WellSpaced.begins {layout : Layout} (spaced : WellSpaced alphabet layout) :
    ∃ c tail, layout.text = layout.gap ++ c :: tail ∧ alphabet.isBlank c = false ∧ c ≠ ')' := by
  cases spaced with
  | @word gap text _ nonempty letters =>
      rcases List.exists_cons_of_ne_nil nonempty with ⟨c, tail, rfl⟩
      have apart := alphabet.wordApart c (letters c List.mem_cons_self)
      refine ⟨c, tail, text_word _ _, apart.1, ?_⟩
      intro same
      rw [same] at apart
      exact absurd apart.2 (by decide)
  | group => exact ⟨'(', _, text_group _ _, mark_not_blank (by decide), by decide⟩

theorem gap_unique {gap other : List Char} {c d : Char} {rest last : List Char}
    (blank : ∀ c ∈ gap, alphabet.isBlank c = true) (solid : alphabet.isBlank c = false)
    (otherBlank : ∀ c ∈ other, alphabet.isBlank c = true) (otherSolid : alphabet.isBlank d = false)
    (same : gap ++ c :: rest = other ++ d :: last) : gap = other ∧ c :: rest = d :: last := by
  refine split_unique blank ?_ otherBlank ?_ same
  · intro e found
    cases found
    exact solid
  · intro e found
    cases found
    exact otherSolid

/-- A row of layouts up to a closing bracket has its text to itself. -/
theorem row_unique {items : List Layout} (each : ∀ item ∈ items, IsUnique alphabet item)
    (spaced : ∀ item ∈ items, WellSpaced alphabet item) :
    Apart items → ∀ others, (∀ other ∈ others, WellSpaced alphabet other) → Apart others →
      ∀ rest last, rowText items ++ ')' :: rest = rowText others ++ ')' :: last →
        items = others ∧ rest = last := by
  have closes {layout : Layout} (spaced : WellSpaced alphabet layout) (rest tail : List Char) :
      ')' :: rest ≠ layout.text ++ tail := by
    intro same
    rcases spaced.begins with ⟨c, front, split, _, notClose⟩
    rw [split, List.append_assoc, List.cons_append] at same
    cases empty : layout.gap with
    | nil =>
        rw [empty] at same
        exact notClose (List.cons.inj same).1.symm
    | cons d gap =>
        rw [empty] at same
        have blank := spaced.gap_blank d (empty ▸ List.mem_cons_self)
        rw [← (List.cons.inj same).1, mark_not_blank (by decide)] at blank
        cases blank
  induction items with
  | nil =>
      intro _ others otherSpaced _ rest last same
      cases others with
      | nil => exact ⟨rfl, (List.cons.inj same).2⟩
      | cons other others =>
          rw [rowText_nil, List.nil_append, rowText_cons, List.append_assoc] at same
          exact absurd same (closes (otherSpaced other List.mem_cons_self) _ _)
  | cons layout items induction =>
      intro apart others otherSpaced otherApart rest last same
      cases others with
      | nil =>
          rw [rowText_nil, List.nil_append, rowText_cons, List.append_assoc] at same
          exact absurd same.symm (closes (spaced layout List.mem_cons_self) _ _)
      | cons other others =>
          have tailSpaced := fun item member => spaced item (List.mem_cons_of_mem _ member)
          have othersSpaced := fun item member => otherSpaced item (List.mem_cons_of_mem _ member)
          rw [rowText_cons, rowText_cons, List.append_assoc, List.append_assoc] at same
          rcases each layout List.mem_cons_self other (otherSpaced other List.mem_cons_self) _ _
            (rest_endsWord tailSpaced apart (endsWord_mark (by decide) _))
            (rest_endsWord othersSpaced otherApart (endsWord_mark (by decide) _)) same with
            ⟨rfl, tails⟩
          rcases induction (fun item member => each item (List.mem_cons_of_mem _ member)) tailSpaced
            apart.tail others othersSpaced otherApart.tail rest last tails with ⟨rfl, rests⟩
          exact ⟨rfl, rests⟩

theorem WellSpaced.isUnique {layout : Layout} (spaced : WellSpaced alphabet layout) :
    IsUnique alphabet layout := by
  induction spaced with
  | @word gap text blank nonempty letters =>
      intro other otherSpaced rest last ends otherEnds same
      rcases List.exists_cons_of_ne_nil nonempty with ⟨c, tail, rfl⟩
      have solid := (alphabet.wordApart c (letters c List.mem_cons_self)).1
      rw [text_word, List.append_assoc, List.cons_append] at same
      cases otherSpaced with
      | @word otherGap otherText otherBlank otherNonempty otherLetters =>
          rcases List.exists_cons_of_ne_nil otherNonempty with ⟨d, otherTail, rfl⟩
          have otherSolid := (alphabet.wordApart d (otherLetters d List.mem_cons_self)).1
          rw [text_word, List.append_assoc, List.cons_append] at same
          rcases gap_unique blank solid otherBlank otherSolid same with ⟨rfl, words⟩
          rcases split_unique letters ends otherLetters otherEnds words with ⟨texts, rests⟩
          exact ⟨by rw [texts], rests⟩
      | @group otherGap items otherBlank _ _ =>
          rw [text_group, List.append_assoc, List.cons_append] at same
          rcases gap_unique blank solid otherBlank (mark_not_blank (by decide)) same with
            ⟨-, words⟩
          have letter := letters c List.mem_cons_self
          rw [(List.cons.inj words).1, mark_not_word (by decide)] at letter
          cases letter
  | @group gap items blank spaced apart induction =>
      intro other otherSpaced rest last ends otherEnds same
      have bracket : alphabet.isBlank '(' = false := mark_not_blank (by decide)
      cases otherSpaced with
      | @word otherGap otherText otherBlank otherNonempty otherLetters =>
          rcases List.exists_cons_of_ne_nil otherNonempty with ⟨d, otherTail, rfl⟩
          have otherSolid := (alphabet.wordApart d (otherLetters d List.mem_cons_self)).1
          simp only [text_group, text_word, List.append_assoc, List.cons_append] at same
          rcases gap_unique blank bracket otherBlank otherSolid same with ⟨-, words⟩
          have letter := otherLetters d List.mem_cons_self
          rw [← (List.cons.inj words).1, mark_not_word (by decide)] at letter
          cases letter
      | @group otherGap others otherBlank othersSpaced otherApart =>
          simp only [text_group, List.append_assoc, List.cons_append, List.nil_append] at same
          rcases gap_unique blank bracket otherBlank bracket same with ⟨rfl, words⟩
          rcases row_unique induction spaced apart others othersSpaced otherApart rest last
            (List.cons.inj words).2 with ⟨rfl, rests⟩
          exact ⟨rfl, rests⟩

/-- Rows of layouts are told apart by their texts. -/
theorem rowText_injective {items others : List Layout}
    (spaced : ∀ item ∈ items, WellSpaced alphabet item) (apart : Apart items)
    (othersSpaced : ∀ other ∈ others, WellSpaced alphabet other) (othersApart : Apart others)
    (same : rowText items = rowText others) : items = others :=
  (row_unique (fun item member => (spaced item member).isUnique) spaced apart others othersSpaced
    othersApart [] [] (by rw [same])).1

end Unique

end Layout

end CardCode
