import CardCode.App.Sightings
import Mathlib.Data.List.Forall2

/-! # The two parsers agree

The user interface reads every text the engine accepts as the same trees, and where
it throws, the engine reports an error. Only a text too long for the lexer's offset
keeps the engine from reporting anything.
-/

namespace CardCode.App

open TokenTree

/-- The user interface's expression is nested as the engine's tree is, and each leaf
has the class and the text of its token. -/
inductive ReadsAlike : TokenTree Token → Expr → Prop
  | symbol {token span} :
      token.kind = .symbol → ReadsAlike (.leaf token) (.symbol token.text span)
  | integer {token span} :
      token.kind = .integer → token.integer.toInt = integerValue token.text.toList →
      ReadsAlike (.leaf token) (.integer token.text span)
  | list {opening items closing children span} :
      List.Forall₂ ReadsAlike items children →
      ReadsAlike (.group opening items closing) (.list children span)

/-- Both parsers take the same words for integers. -/
theorem Sighting.Sound.isInteger_iff {text : Text} {token : Token} {place : Place}
    (sound : Sighting.Sound text (token, place)) (atom : token.IsAtom) :
    token.kind = .integer ↔ isIntegerText place.word = true := by
  have isWord : token.kind.lexeme = .word := by
    rcases atom with symbol | integer
    · rw [symbol]
      rfl
    · rw [integer]
      rfl
  have written : token.text.toList = place.word := sound.word
  rw [isIntegerText_eq, ← written]
  exact sound.classified.integer isWord

theorem token_readsAlike {text : Text} {token : Token} {place : Place} (span : Span)
    (sound : Sighting.Sound text (token, place)) (atom : token.IsAtom) :
    ReadsAlike (.leaf token) (atomExpr place.word span) := by
  have isInteger := sound.isInteger_iff atom
  have written : place.word = token.text.toList := sound.word.symm
  rw [written] at isInteger
  rw [atomExpr, written, String.ofList_toList]
  split
  next digits =>
    have integer := isInteger.mpr digits
    exact .integer integer (parseInt_value digits (sound.classified.value integer))
  next other =>
    apply ReadsAlike.symbol
    rcases atom with symbol | integer
    · exact symbol
    · exact absurd (isInteger.mp integer) other

/-- The user interface's expression for a tree of sightings. -/
def sightingExpr (text : Text) (tree : TokenTree Sighting) : Expr :=
  treeExpr text (tree.map Sighting.lexeme)

theorem sightingExpr_group (text : Text) (opening closing : Sighting)
    (items : List (TokenTree Sighting)) :
    sightingExpr text (.group opening items closing) =
      .list (items.map (sightingExpr text))
        (spanFromOffsets text (Sighting.lexeme opening).start (Sighting.lexeme closing).stop) := by
  rw [sightingExpr, map_group, treeExpr_group, List.map_map]
  rfl

theorem sighting_readsAlike {text : Text} (tree : TokenTree Sighting) :
    WellBracketed (tree.map Prod.fst) → (∀ sighting ∈ tree.flatten, Sighting.Sound text sighting) →
      ReadsAlike (tree.map Prod.fst) (sightingExpr text tree) := by
  induction tree using TokenTree.induct with
  | leaf sighting =>
      intro bracketed sound
      rw [map_leaf] at bracketed ⊢
      rw [sightingExpr, map_leaf, treeExpr]
      cases bracketed with
      | leaf atom => exact token_readsAlike _ (sound sighting (by simp)) atom
  | group opening items closing induction =>
      intro bracketed sound
      rw [map_group] at bracketed ⊢
      rw [sightingExpr_group]
      cases bracketed with
      | group _ inner _ =>
          apply ReadsAlike.list
          rw [List.forall₂_map_left_iff, List.forall₂_map_right_iff, List.forall₂_same]
          intro item member
          exact induction item member (inner _ (List.mem_map_of_mem member)) fun sighting inside =>
            sound sighting (mem_group member inside)

/-- How many code units the longest strings of V8 and of SpiderMonkey have at most. -/
def maxStringLength : Nat :=
  2 ^ 30 - 2

/-- A code unit takes three bytes at most. -/
theorem utf8_length_le (text : Text) : (utf8 text).length ≤ 3 * textLength text := by
  induction text with
  | nil => exact Nat.le_refl 0
  | cons c rest induction =>
      have first : (String.utf8EncodeChar c).length ≤ 3 * codeUnits c := by
        have four := c.utf8Size_le_four
        rw [String.length_utf8EncodeChar, codeUnits]
        split
        next low =>
          have three : c.utf8Size ≠ 4 := by
            intro beyond
            have high := UInt32.lt_iff_toNat_lt.mp (Char.utf8Size_eq_four_iff.mp beyond)
            exact absurd low (Nat.not_lt_of_le high)
          omega
        next => omega
      rw [utf8, List.flatMap_cons, List.length_append, textLength, ← utf8]
      omega

/-- Whatever the engine accepts the user interface reads as the same trees; and a
text it throws on is one the engine reports an error for. That is so of every string of
V8 and SpiderMonkey, and of the longer strings other engines allow up to 2^32 bytes. -/
theorem parsers_agree (text : Text) :
    (∀ parsed, parse (utf8 text) = some parsed → hasErrors parsed.diagnostics = false →
      ∃ ast lexed trees last, parseCardCode text = .ok ast ∧ lex (utf8 text) = some lexed ∧
        lexed.tokens = flattenAll trees ++ [last] ∧ parsed.exprs = trees.map toRaw ∧
        List.Forall₂ ReadsAlike trees ast.children) ∧
    ∀ failure, textLength text ≤ maxStringLength ∨ (utf8 text).length < 2 ^ 32 →
      parseCardCode text = .error failure →
      ∃ parsed, parse (utf8 text) = some parsed ∧ hasErrors parsed.diagnostics = true := by
  constructor
  · intro parsed found clean
    rcases shared_reading found clean with ⟨reading⟩
    refine ⟨_, reading.lexed, reading.trees.map (map Prod.fst), reading.last, reading.parses,
      reading.lexes, reading.tokens_eq, ?_, ?_⟩
    · rw [List.map_map]
      exact reading.exprs_eq
    · rw [List.forall₂_map_left_iff, List.forall₂_map_right_iff, List.forall₂_same]
      intro tree member
      apply sighting_readsAlike tree (reading.bracketed tree member)
      intro sighting inside
      exact reading.sound sighting (mem_flattenAll.mpr ⟨tree, member, inside⟩)
  · intro failure held thrown
    have short : (utf8 text).length < 2 ^ 32 := by
      rcases held with held | short
      · have size := utf8_length_le text
        rw [maxStringLength] at held
        omega
      · exact short
    rcases parse_returns short with ⟨parsed, found⟩
    refine ⟨parsed, found, ?_⟩
    by_contra clean
    rw [Bool.not_eq_true] at clean
    rcases shared_reading found clean with ⟨reading⟩
    have parses := reading.parses
    rw [thrown] at parses
    cases parses

/-- A program with leading zeros in an integer and a comment beyond ASCII. -/
def commentedText : Text :=
  "(wait 007) ; é".toList

theorem commented_parses :
    ∃ parsed, parse (utf8 commentedText) = some parsed ∧
      hasErrors parsed.diagnostics = false := by
  have checked : (parse (utf8 commentedText)).map (fun parsed => hasErrors parsed.diagnostics) =
      some false := by decide +kernel
  exact Option.map_eq_some_iff.mp checked

theorem commented_parsers_agree :
    (∃ parsed ast lexed trees last, parse (utf8 commentedText) = some parsed ∧
      parseCardCode commentedText = .ok ast ∧ lex (utf8 commentedText) = some lexed ∧
      lexed.tokens = flattenAll trees ++ [last] ∧ parsed.exprs = trees.map toRaw ∧
      List.Forall₂ ReadsAlike trees ast.children) ∧
    ∃ failure parsed, parseCardCode [')'] = .error failure ∧
      parse (utf8 [')']) = some parsed ∧ hasErrors parsed.diagnostics = true := by
  have held : textLength [')'] ≤ maxStringLength := by decide +kernel
  constructor
  · rcases commented_parses with ⟨parsed, found, clean⟩
    rcases (parsers_agree commentedText).1 parsed found clean with
      ⟨ast, lexed, trees, last, rest⟩
    exact ⟨parsed, ast, lexed, trees, last, found, rest⟩
  · rcases (parsers_agree [')']).2 _ (.inl held) rfl with ⟨parsed, found, failed⟩
    exact ⟨_, parsed, rfl, found, failed⟩

end CardCode.App
