import CardCode.App.Encoding
import CardCode.Foundation.TokenTree
import CardCode.Syntax.Trees

/-! # What the user interface's parser reads

On a text whose lexemes bracket into trees the parser returns one expression for
each tree, with the spans of its lexemes.
-/

namespace CardCode.App

open TokenTree

def appAlphabet : Alphabet where
  isBlank := isSpace
  isWord := fun c => !endsAtom c
  width := codeUnits
  newline := by decide
  blankApart := by
    intro c blank
    by_contra mark
    rw [Bool.not_eq_false] at mark
    simp only [isMark, Bool.or_eq_true, decide_eq_true_eq] at mark
    rcases mark with (rfl | rfl) | rfl <;> revert blank <;> decide
  wordApart := by
    intro c letter
    simp only [endsAtom, Bool.not_eq_true', Bool.or_eq_false_iff, decide_eq_false_iff_not] at letter
    refine ⟨letter.1.1.1, ?_⟩
    simp [isMark, letter]

theorem codeUnits_pos (c : Char) : 0 < codeUnits c := by
  rw [codeUnits]
  split
  · exact Nat.one_pos
  · exact Nat.two_pos

theorem appAlphabet_extent (text : Text) : appAlphabet.extent text = textLength text := by
  induction text with
  | nil => rfl
  | cons c rest induction =>
      rw [Alphabet.extent_cons, induction]
      rfl

theorem textLength_append (first second : Text) :
    textLength (first ++ second) = textLength first + textLength second := by
  rw [← appAlphabet_extent, Alphabet.extent_append, appAlphabet_extent, appAlphabet_extent]

/-! ## Skipping -/

theorem skipIgnored_comment {body rest : Text} {offset : Nat} (inside : '\n' ∉ body)
    (ends : Alphabet.EndsLine rest) :
    skipIgnored true offset (body ++ rest) =
      skipIgnored false (offset + appAlphabet.extent body) rest := by
  induction body generalizing offset with
  | nil =>
      cases rest with
      | nil => rfl
      | cons c rest =>
          have newline : c = '\n' := ends c rfl
          rw [newline]
          rfl
  | cons c body induction =>
      have different : c ≠ '\n' := fun equal => inside (equal ▸ List.mem_cons_self)
      rw [List.cons_append, skipIgnored, if_pos rfl, decide_eq_true different,
        induction fun member => inside (List.mem_cons_of_mem _ member), Alphabet.extent_cons,
        Nat.add_assoc]
      rfl

/-- Where a text goes on once everything ignored is skipped. -/
inductive AtLexeme : Cursor → List Lexeme → Prop
  | done {offset} : AtLexeme ⟨offset, []⟩ []
  | opening {offset rest lexemes} :
      Scans appAlphabet (offset + 1) rest lexemes →
      AtLexeme ⟨offset, '(' :: rest⟩ (⟨.opening, ['('], offset, offset + 1⟩ :: lexemes)
  | closing {offset rest lexemes} :
      Scans appAlphabet (offset + 1) rest lexemes →
      AtLexeme ⟨offset, ')' :: rest⟩ (⟨.closing, [')'], offset, offset + 1⟩ :: lexemes)
  | word {offset word rest lexemes} :
      word ≠ [] → (∀ c ∈ word, endsAtom c = false) → appAlphabet.EndsWord rest →
      Scans appAlphabet (offset + appAlphabet.extent word) rest lexemes →
      AtLexeme ⟨offset, word ++ rest⟩
        (⟨.word, word, offset, offset + appAlphabet.extent word⟩ :: lexemes)

theorem skip_scans {offset : Nat} {text : Text} {lexemes : List Lexeme}
    (scans : Scans appAlphabet offset text lexemes) :
    AtLexeme (skipIgnored false offset text) lexemes := by
  induction scans with
  | done => exact .done
  | blank blank _ induction =>
      rw [skipIgnored, if_neg (by decide)]
      exact (if_pos blank).symm ▸ induction
  | comment inside ends _ induction =>
      rw [skipIgnored, if_neg (by decide), if_neg (by decide), if_pos rfl,
        skipIgnored_comment inside ends, Nat.add_assoc]
      exact induction
  | opening scans _ =>
      rw [skipIgnored, if_neg (by decide), if_neg (by decide), if_neg (by decide)]
      exact .opening scans
  | closing scans _ =>
      rw [skipIgnored, if_neg (by decide), if_neg (by decide), if_neg (by decide)]
      exact .closing scans
  | @word offset word rest lexemes nonempty letters ends scans _ =>
      have plain : ∀ c ∈ word, endsAtom c = false := by
        intro c member
        simpa [appAlphabet] using letters c member
      have stays : skipIgnored false offset (word ++ rest) = ⟨offset, word ++ rest⟩ := by
        cases word with
        | nil => exact absurd rfl nonempty
        | cons c word =>
            have first := plain c List.mem_cons_self
            simp only [endsAtom, Bool.or_eq_false_iff, decide_eq_false_iff_not] at first
            rw [List.cons_append, skipIgnored, if_neg (by decide), if_neg (by simp [first]),
              if_neg first.2]
      rw [stays]
      exact .word nonempty plain ends scans

/-- What stands at a lexeme is scanned as such. -/
theorem AtLexeme.scans {cursor : Cursor} {lexemes : List Lexeme}
    (atLexeme : AtLexeme cursor lexemes) :
    Scans appAlphabet cursor.offset cursor.rest lexemes := by
  cases atLexeme with
  | done => exact .done
  | opening scans => exact .opening scans
  | closing scans => exact .closing scans
  | word nonempty letters ends scans =>
      exact .word nonempty (fun c member => by simp [appAlphabet, letters c member]) ends scans

theorem takeAtom_word {offset : Nat} {word rest : Text}
    (letters : ∀ c ∈ word, endsAtom c = false) (ends : appAlphabet.EndsWord rest) :
    takeAtom offset (word ++ rest) = (word, ⟨offset + appAlphabet.extent word, rest⟩) := by
  induction word generalizing offset with
  | nil =>
      cases rest with
      | nil => rfl
      | cons c rest =>
          have stop : endsAtom c = true := by simpa [appAlphabet] using ends c rfl
          rw [List.nil_append, takeAtom, if_pos stop]
          rfl
  | cons c word induction =>
      rw [List.cons_append, takeAtom, if_neg (by simp [letters c List.mem_cons_self]),
        induction fun d member => letters d (List.mem_cons_of_mem _ member), Alphabet.extent_cons,
        Nat.add_assoc]
      rfl

/-! ## Trees -/

/-- A tree of lexemes with the brackets where they belong. -/
def LexemesBracketed : TokenTree Lexeme → Prop :=
  Bracketed (fun lexeme => lexeme.kind = .word) (fun lexeme => lexeme.kind = .opening)
    fun lexeme => lexeme.kind = .closing

mutual

/-- The expression a tree of lexemes is read as. -/
def treeExpr (source : Text) : TokenTree Lexeme → Expr
  | .leaf lexeme => atomExpr lexeme.text (spanFromOffsets source lexeme.start lexeme.stop)
  | .group opening items closing =>
      .list (treeExprs source items) (spanFromOffsets source opening.start closing.stop)

def treeExprs (source : Text) : List (TokenTree Lexeme) → List Expr
  | [] => []
  | tree :: rest => treeExpr source tree :: treeExprs source rest

end

theorem treeExprs_eq (source : Text) (trees : List (TokenTree Lexeme)) :
    treeExprs source trees = trees.map (treeExpr source) := by
  induction trees with
  | nil => rw [treeExprs, List.map_nil]
  | cons tree rest induction => rw [treeExprs, List.map_cons, induction]

theorem treeExpr_group (source : Text) (opening closing : Lexeme)
    (items : List (TokenTree Lexeme)) :
    treeExpr source (.group opening items closing) =
      .list (items.map (treeExpr source)) (spanFromOffsets source opening.start closing.stop) := by
  rw [treeExpr, treeExprs_eq]

/-- The parser returns `expr` and goes on where `lexemes` are left. -/
def Parses (result : Parse (Expr × Cursor)) (expr : Expr) (lexemes : List Lexeme) : Prop :=
  ∃ cursor, result = .ok (expr, cursor) ∧ Scans appAlphabet cursor.offset cursor.rest lexemes

/-- The parser reads a tree, wherever it is met with enough fuel. -/
def IsRead (source : Text) (tree : TokenTree Lexeme) : Prop :=
  ∀ fuel cursor lexemes, tree.flatten.length ≤ fuel →
    Scans appAlphabet cursor.offset cursor.rest (tree.flatten ++ lexemes) →
    Parses (parseExpr source fuel cursor) (treeExpr source tree) lexemes

/-- Where a tree begins, there is a character that closes nothing. -/
theorem AtLexeme.first {cursor : Cursor} {tree : TokenTree Lexeme} {lexemes : List Lexeme}
    (bracketed : LexemesBracketed tree) (atLexeme : AtLexeme cursor (tree.flatten ++ lexemes)) :
    ∃ c rest, cursor.rest = c :: rest ∧ c ≠ ')' := by
  cases bracketed with
  | leaf isWord =>
      rw [flatten_leaf, List.singleton_append] at atLexeme
      cases atLexeme with
      | opening => cases isWord
      | closing => cases isWord
      | @word offset word rest lexemes nonempty letters _ _ =>
          cases word with
          | nil => exact absurd rfl nonempty
          | cons c word =>
              refine ⟨c, word ++ rest, rfl, ?_⟩
              intro equal
              have letter := letters c List.mem_cons_self
              rw [equal] at letter
              cases letter
  | group isOpening _ _ =>
      rw [flatten_group, List.cons_append] at atLexeme
      cases atLexeme with
      | opening => exact ⟨_, _, rfl, by decide⟩
      | closing => cases isOpening
      | word => cases isOpening

/-! ## Steps of the parser -/

section Steps

variable {source : Text} {fuel start offset : Nat} {children : List Expr} {cursor : Cursor}
  {rest : Text}

theorem parseExpr_opening
    (next : skipIgnored false cursor.offset cursor.rest = ⟨offset, '(' :: rest⟩) :
    parseExpr source (fuel + 1) cursor = parseList source fuel offset [] ⟨offset + 1, rest⟩ := by
  rw [parseExpr, next]
  rfl

theorem parseExpr_closing
    (next : skipIgnored false cursor.offset cursor.rest = ⟨offset, ')' :: rest⟩) :
    parseExpr source (fuel + 1) cursor =
      .error (.thrown (parserError source "unexpected ')'" offset)) := by
  rw [parseExpr, next]
  rfl

theorem parseExpr_word {word : Text}
    (next : skipIgnored false cursor.offset cursor.rest = ⟨offset, word ++ rest⟩)
    (nonempty : word ≠ []) (letters : ∀ c ∈ word, endsAtom c = false)
    (ends : appAlphabet.EndsWord rest) :
    parseExpr source (fuel + 1) cursor =
      .ok (atomExpr word (spanFromOffsets source offset (offset + appAlphabet.extent word)),
        ⟨offset + appAlphabet.extent word, rest⟩) := by
  have atom : parseAtom source ⟨offset, word ++ rest⟩ =
      (atomExpr word (spanFromOffsets source offset (offset + appAlphabet.extent word)),
        ⟨offset + appAlphabet.extent word, rest⟩) := by
    rw [parseAtom, takeAtom_word letters ends]
  rw [parseExpr, next]
  cases word with
  | nil => exact absurd rfl nonempty
  | cons c word =>
      have letter := letters c List.mem_cons_self
      split
      next opened =>
        cases opened
        cases letter
      next closed =>
        cases closed
        cases letter
      next => rw [atom]

theorem parseList_end
    (next : skipIgnored false cursor.offset cursor.rest = ⟨offset, []⟩) :
    parseList source (fuel + 1) start children cursor =
      .error (.thrown (parserError source "expected ')'" offset)) := by
  rw [parseList, next]

theorem parseList_closing
    (next : skipIgnored false cursor.offset cursor.rest = ⟨offset, ')' :: rest⟩) :
    parseList source (fuel + 1) start children cursor =
      .ok (.list children (spanFromOffsets source start (offset + 1)), ⟨offset + 1, rest⟩) := by
  rw [parseList, next]
  rfl

/-- The loop of `parseList` at the start of a further child. -/
theorem parseList_child {c : Char}
    (next : (skipIgnored false cursor.offset cursor.rest).rest = c :: rest)
    (notClose : c ≠ ')') :
    parseList source (fuel + 1) start children cursor =
      (do
        let child ← parseExpr source fuel (skipIgnored false cursor.offset cursor.rest)
        parseList source fuel start (children ++ [child.1]) child.2) := by
  rw [parseList]
  split
  next empty => rw [empty] at next; cases next
  next tail close =>
    rw [close] at next
    cases next
    exact absurd rfl notClose
  next => rfl

end Steps

theorem parseList_reads {source : Text} {start : Nat} {items : List (TokenTree Lexeme)}
    {closing : Lexeme} (close : closing.kind = .closing)
    (bracketed : ∀ item ∈ items, LexemesBracketed item)
    (each : ∀ item ∈ items, IsRead source item) :
    ∀ fuel cursor children lexemes, (flattenAll items).length + 1 ≤ fuel →
      Scans appAlphabet cursor.offset cursor.rest (flattenAll items ++ closing :: lexemes) →
      Parses (parseList source fuel start children cursor)
        (.list (children ++ items.map (treeExpr source))
          (spanFromOffsets source start closing.stop)) lexemes := by
  induction items with
  | nil =>
      intro fuel cursor children lexemes enough scans
      cases fuel with
      | zero => omega
      | succ fuel =>
          have atLexeme := skip_scans scans
          generalize next : skipIgnored false cursor.offset cursor.rest = start at atLexeme
          rw [flattenAll_nil, List.nil_append] at atLexeme
          cases atLexeme with
          | opening => cases close
          | @closing offset rest _ scans =>
              rw [parseList_closing next, List.map_nil, List.append_nil]
              exact ⟨⟨offset + 1, rest⟩, rfl, scans⟩
          | word => cases close
  | cons item items induction =>
      intro fuel cursor children lexemes enough scans
      cases fuel with
      | zero => omega
      | succ fuel =>
          have atLexeme := skip_scans scans
          rw [flattenAll_cons, List.append_assoc] at atLexeme
          rw [flattenAll_cons, List.length_append] at enough
          have positive := item.flatten_length_pos
          rcases atLexeme.first (bracketed item List.mem_cons_self) with ⟨c, rest, next, notClose⟩
          rcases each item List.mem_cons_self fuel _ _ (by omega) atLexeme.scans with
            ⟨after, parsed, tail⟩
          rcases induction (fun other member => bracketed other (List.mem_cons_of_mem _ member))
            (fun other member => each other (List.mem_cons_of_mem _ member)) fuel after
            (children ++ [treeExpr source item]) lexemes (by omega) tail with
            ⟨last, parsedRest, scansRest⟩
          refine ⟨last, ?_, scansRest⟩
          rw [parseList_child next notClose, parsed, List.map_cons]
          rw [List.append_assoc, List.singleton_append] at parsedRest
          exact parsedRest

theorem tree_isRead (source : Text) (tree : TokenTree Lexeme) :
    LexemesBracketed tree → IsRead source tree := by
  induction tree using TokenTree.induct with
  | leaf lexeme =>
      intro bracketed fuel cursor lexemes enough scans
      cases bracketed with
      | leaf isWord =>
          cases fuel with
          | zero => simp at enough
          | succ fuel =>
              have atLexeme := skip_scans scans
              generalize next : skipIgnored false cursor.offset cursor.rest = start at atLexeme
              rw [flatten_leaf, List.singleton_append] at atLexeme
              cases atLexeme with
              | opening => cases isWord
              | closing => cases isWord
              | word nonempty letters ends scans =>
                  rw [parseExpr_word next nonempty letters ends, treeExpr]
                  exact ⟨_, rfl, scans⟩
  | group opening items closing induction =>
      intro bracketed fuel cursor lexemes enough scans
      cases bracketed with
      | group isOpening inner isClosing =>
          cases fuel with
          | zero => simp at enough
          | succ fuel =>
              have atLexeme := skip_scans scans
              generalize next : skipIgnored false cursor.offset cursor.rest = start at atLexeme
              rw [flatten_group, List.cons_append, List.append_assoc, List.singleton_append]
                at atLexeme
              rw [flatten_group, List.length_cons, List.length_append, List.length_singleton]
                at enough
              cases atLexeme with
              | closing => cases isOpening
              | word => cases isOpening
              | opening scans =>
                  rw [parseExpr_opening next, treeExpr_group]
                  exact parseList_reads isClosing inner
                    (fun item member => induction item member (inner item member))
                    fuel _ [] lexemes (by omega) scans

/-! ## Programs -/

theorem parseProgram_reads {source : Text} {fuel : Nat} {trees : List (TokenTree Lexeme)}
    (bracketed : ∀ tree ∈ trees, LexemesBracketed tree)
    (enough : (flattenAll trees).length ≤ fuel) :
    ∀ budget cursor, trees.length < budget →
      Scans appAlphabet cursor.offset cursor.rest (flattenAll trees) →
      parseProgram source fuel budget cursor = .ok (trees.map (treeExpr source)) := by
  induction trees with
  | nil =>
      intro budget cursor positive scans
      cases budget with
      | zero => omega
      | succ budget =>
          have atLexeme := skip_scans scans
          rw [parseProgram]
          split
          next => rfl
          next =>
            generalize skipIgnored false cursor.offset cursor.rest = next at atLexeme ⊢
            cases atLexeme with
            | done => rfl
  | cons tree trees induction =>
      intro budget cursor room scans
      cases budget with
      | zero => omega
      | succ budget =>
          have atLexeme := skip_scans scans
          rw [flattenAll_cons] at atLexeme
          rw [flattenAll_cons, List.length_append] at enough
          rw [List.length_cons] at room
          rcases atLexeme.first (bracketed tree List.mem_cons_self) with ⟨c, rest, next, -⟩
          rcases tree_isRead source tree (bracketed tree List.mem_cons_self) fuel _ _ (by omega)
            atLexeme.scans with ⟨after, parsed, tail⟩
          have children := induction
            (fun other member => bracketed other (List.mem_cons_of_mem _ member)) (by omega)
            budget after (by omega) tail
          have unread : cursor.rest.isEmpty = false := by
            cases cursor with
            | mk offset text =>
                cases text with
                | nil => cases next
                | cons => rfl
          rw [parseProgram, if_neg (by simp [unread])]
          dsimp only
          rw [if_neg (by simp [next]), parsed]
          dsimp only [Bind.bind, Except.bind]
          rw [children]
          rfl

theorem length_le_flattenAll (trees : List (TokenTree Lexeme)) :
    trees.length ≤ (flattenAll trees).length := by
  induction trees with
  | nil => simp
  | cons tree trees induction =>
      have positive := tree.flatten_length_pos
      rw [flattenAll_cons, List.length_append, List.length_cons]
      omega

/-- A text whose lexemes bracket into trees is parsed into those trees. -/
theorem parseCardCode_reads {source : Text} {trees : List (TokenTree Lexeme)}
    (bracketed : ∀ tree ∈ trees, LexemesBracketed tree)
    (scans : Scans appAlphabet 0 source (flattenAll trees)) :
    parseCardCode source = .ok
      { children := trees.map (treeExpr source)
        span := spanFromOffsets source 0 (textLength source) } := by
  have length := scans.length_le
  have count := length_le_flattenAll trees
  rw [parseCardCode, parseProgram_reads bracketed (by omega) _ ⟨0, source⟩ (by omega) scans]
  rfl

end CardCode.App
