import CardCode.App.Projection
import CardCode.App.Reading

/-! # Both parsers read the same program

What a program is, whichever parser reads it: nested lists of names and integers.
A text the engine accepts is read by the user interface as the same nested lists.
-/

namespace CardCode.App

open TokenTree

/-- An expression without its spans and with its integers as values. -/
inductive Shape where
  | list (items : List Shape)
  | symbol (name : String)
  | integer (value : Int)
  deriving Repr

mutual

def Expr.shape : Expr → Shape
  | .list children _ => .list (shapeAll children)
  | .integer raw _ => .integer (integerValue raw.toList)
  | .symbol raw _ => .symbol raw

def shapeAll : List Expr → List Shape
  | [] => []
  | expr :: rest => Expr.shape expr :: shapeAll rest

end

theorem shapeAll_eq (exprs : List Expr) : shapeAll exprs = exprs.map Expr.shape := by
  induction exprs with
  | nil => rw [shapeAll, List.map_nil]
  | cons expr rest induction => rw [shapeAll, List.map_cons, induction]

@[simp] theorem shape_list (children : List Expr) (span : Span) :
    (Expr.list children span).shape = .list (children.map Expr.shape) := by
  rw [Expr.shape, shapeAll_eq]

@[simp] theorem shape_integer (raw : String) (span : Span) :
    (Expr.integer raw span).shape = .integer (integerValue raw.toList) := by
  rw [Expr.shape]

@[simp] theorem shape_symbol (raw : String) (span : Span) :
    (Expr.symbol raw span).shape = .symbol raw := by
  rw [Expr.shape]

mutual

def rawShape : RawExpr → Shape
  | .list _ items => .list (rawShapeAll items)
  | .integer _ value => .integer value.toInt
  | .symbol _ name => .symbol name

def rawShapeAll : List RawExpr → List Shape
  | [] => []
  | raw :: rest => rawShape raw :: rawShapeAll rest

end

theorem rawShapeAll_eq (raws : List RawExpr) : rawShapeAll raws = raws.map rawShape := by
  induction raws with
  | nil => rw [rawShapeAll, List.map_nil]
  | cons raw rest induction => rw [rawShapeAll, List.map_cons, induction]

@[simp] theorem rawShape_list (span : SourceSpan) (items : List RawExpr) :
    rawShape (.list span items) = .list (items.map rawShape) := by
  rw [rawShape, rawShapeAll_eq]

@[simp] theorem rawShape_symbol (span : SourceSpan) (name : String) :
    rawShape (.symbol span name) = .symbol name := by
  rw [rawShape]

/-! ## Trees of words -/

/-- The shape of a word. -/
def wordShape (word : Text) : Shape :=
  if isIntegerText word then .integer (integerValue word) else .symbol (String.ofList word)

mutual

/-- The shape of a tree whose leaves are words. -/
def treeShape : TokenTree (LexemeKind × Text) → Shape
  | .leaf form => wordShape form.2
  | .group _ items _ => .list (treeShapes items)

def treeShapes : List (TokenTree (LexemeKind × Text)) → List Shape
  | [] => []
  | tree :: rest => treeShape tree :: treeShapes rest

end

theorem treeShapes_eq (trees : List (TokenTree (LexemeKind × Text))) :
    treeShapes trees = trees.map treeShape := by
  induction trees with
  | nil => rw [treeShapes, List.map_nil]
  | cons tree rest induction => rw [treeShapes, List.map_cons, induction]

theorem treeShape_leaf (form : LexemeKind × Text) : treeShape (.leaf form) = wordShape form.2 := by
  rw [treeShape]

theorem treeShape_group (opening closing : LexemeKind × Text)
    (items : List (TokenTree (LexemeKind × Text))) :
    treeShape (.group opening items closing) = .list (items.map treeShape) := by
  rw [treeShape, treeShapes_eq]

theorem shape_atomExpr (word : Text) (span : Span) :
    (atomExpr word span).shape = wordShape word := by
  rw [atomExpr, wordShape]
  split
  · rw [shape_integer, String.toList_ofList]
  · rw [shape_symbol]

/-- The user interface's parser keeps the shape of a tree. -/
theorem shape_treeExpr (source : Text) (tree : TokenTree Lexeme) :
    (treeExpr source tree).shape = treeShape (tree.map Lexeme.form) := by
  induction tree using TokenTree.induct with
  | leaf lexeme =>
      rw [treeExpr, shape_atomExpr, map_leaf, treeShape_leaf]
      rfl
  | group opening items closing induction =>
      rw [treeExpr_group, shape_list, map_group, treeShape_group, List.map_map, List.map_map]
      congr 1
      exact List.map_congr_left fun item member => induction item member

/-! ## Integers -/

theorem isIntegerText_eq (word : Text) : isIntegerText word = isIntegerWord word := by
  rfl

theorem isDigit_bounds {c : Char} (digit : isDigit c = true) :
    48 ≤ c.toNat ∧ c.toNat ≤ 57 := by
  rw [isDigit, Bool.and_eq_true, decide_eq_true_eq, decide_eq_true_eq] at digit
  exact ⟨UInt32.le_iff_toNat_le.mp digit.1, UInt32.le_iff_toNat_le.mp digit.2⟩

/-- `parse_int` computes the value of its digits and stays within range. -/
theorem parseDigits_value {digits : List Char} {start : Nat} {result : Int}
    (upper : (start : Int) ≤ int64Max) (plain : digits.all isDigit = true)
    (parsed : parseDigits start digits = some result) :
    result = (digits.foldl (fun value c => 10 * value + (c.toNat - '0'.toNat)) start : Nat) ∧
      result ≤ int64Max := by
  induction digits generalizing start with
  | nil =>
      cases parsed
      exact ⟨rfl, upper⟩
  | cons c rest induction =>
      rw [List.all_cons, Bool.and_eq_true] at plain
      rcases isDigit_bounds plain.1 with ⟨low, high⟩
      have zero : '0'.toNat = 48 := rfl
      rw [parseDigits, zero] at parsed
      have division : (int64Max - ((c.toNat : Int) - (48 : Nat))).tdiv 10 =
          (int64Max - ((c.toNat : Int) - (48 : Nat))) / 10 :=
        Int.tdiv_eq_ediv_of_nonneg (by rw [int64Max]; omega)
      rw [division] at parsed
      split at parsed
      next => cases parsed
      next fits =>
        have next : (start : Int) * 10 + ((c.toNat : Int) - (48 : Nat)) =
            ((10 * start + (c.toNat - 48) : Nat) : Int) := by
          omega
        rw [next] at parsed
        rw [List.foldl_cons, zero]
        exact induction (by rw [← next]; omega) plain.2 parsed

theorem parseInt_value {word : List Char} {value : Int64} (integer : isIntegerWord word = true)
    (parsed : parseInt word = some value) : value.toInt = integerValue word := by
  have inRange {digits : List Char} {result : Int} (plain : digits.all isDigit = true)
      (found : parseDigits 0 digits = some result) :
      result = (digitsValue digits : Int) ∧ 0 ≤ result ∧ result ≤ 9223372036854775807 := by
    have start : ((0 : Nat) : Int) ≤ int64Max := by decide
    rcases parseDigits_value start plain found with ⟨same, upper⟩
    exact ⟨same, by omega, upper⟩
  by_cases minus : ∃ digits, word = '-' :: digits
  · rcases minus with ⟨digits, rfl⟩
    rw [parseInt] at parsed
    rw [isIntegerWord, Bool.and_eq_true] at integer
    rcases Option.map_eq_some_iff.mp parsed with ⟨result, found, rfl⟩
    rcases inRange integer.2 found with ⟨same, lower, upper⟩
    rw [integerValue, Int64.toInt_ofInt_of_le (by omega) (by omega), same]
  · have plain : ∀ digits, word = '-' :: digits → False := fun digits equal =>
      minus ⟨digits, equal⟩
    rw [parseInt.eq_2 _ plain] at parsed
    rw [isIntegerWord.eq_2 _ plain, Bool.and_eq_true] at integer
    rcases Option.map_eq_some_iff.mp parsed with ⟨result, found, rfl⟩
    rcases inRange integer.2 found with ⟨same, lower, upper⟩
    rw [integerValue.eq_2 _ plain, Int64.toInt_ofInt_of_le (by omega) (by omega), same]

/-! ## Accepted programs -/

theorem rawShape_token {token : Token} (classified : token.Classified) (atom : token.IsAtom) :
    rawShape token.toRaw = wordShape token.text.toList := by
  have word : token.kind.lexeme = .word := by
    rcases atom with symbol | integer
    · rw [symbol]
      rfl
    · rw [integer]
      rfl
  have isInteger := classified.integer word
  rw [← isIntegerText_eq] at isInteger
  rw [Token.toRaw, wordShape]
  by_cases integer : token.kind = .integer
  · rw [if_pos integer, if_pos (isInteger.mp integer), rawShape]
    congr 1
    apply parseInt_value _ (classified.value integer)
    rw [← isIntegerText_eq]
    exact isInteger.mp integer
  · rw [if_neg integer, if_neg (integer ∘ isInteger.mpr), rawShape, String.ofList_toList]

/-- The engine's parser keeps the shape of a tree. -/
theorem rawShape_toRaw {tree : TokenTree Token} (bracketed : WellBracketed tree)
    (classified : ∀ token ∈ tree.flatten, token.Classified) :
    rawShape (TokenTree.toRaw tree) =
      treeShape (tree.map fun token => token.lexeme.form) := by
  induction bracketed with
  | @leaf token atom =>
      rw [TokenTree.toRaw, rawShape_token (classified token (by simp)) atom, map_leaf,
        treeShape_leaf]
      rfl
  | @group opening items closing _ _ _ induction =>
      rw [TokenTree.toRaw_group, rawShape_list, map_group, treeShape_group, List.map_map,
        List.map_map]
      congr 1
      apply List.map_congr_left
      intro item member
      exact induction item member fun token inside => classified token (mem_group member inside)

theorem lexemes_bracketed {tree : TokenTree Token} (bracketed : WellBracketed tree)
    {relabelled : TokenTree Lexeme}
    (same : map Lexeme.form relabelled = map (fun token => token.lexeme.form) tree) :
    LexemesBracketed relabelled := by
  have forms : Bracketed (fun form : LexemeKind × Text => form.1 = .word)
      (fun form => form.1 = .opening) (fun form => form.1 = .closing)
      (map (fun token : Token => token.lexeme.form) tree) := by
    apply bracketed.map
    · intro token atom
      rcases atom with symbol | integer
      · simp [Lexeme.form, Token.lexeme, symbol, TokenKind.lexeme]
      · simp [Lexeme.form, Token.lexeme, integer, TokenKind.lexeme]
    · intro token opening
      simp [Lexeme.form, Token.lexeme, opening, TokenKind.lexeme]
    · intro token closing
      simp [Lexeme.form, Token.lexeme, closing, TokenKind.lexeme]
  rw [← same] at forms
  exact Bracketed.of_map relabelled forms

/-- What the user interface reads where the engine reads `exprs`. -/
structure AppReading (source : Text) (exprs : List RawExpr) where
  trees : List (TokenTree Lexeme)
  bracketed : ∀ tree ∈ trees, LexemesBracketed tree
  scans : Scans appAlphabet 0 source (flattenAll trees)
  shapes : trees.map (fun tree => treeShape (tree.map Lexeme.form)) = exprs.map rawShape

theorem isSpace_of_blank {c : Char} (blank : CardCode.isBlank c = true) : isSpace c = true := by
  simp only [CardCode.isBlank, Bool.or_eq_true, decide_eq_true_eq] at blank
  rcases blank with ((rfl | rfl) | rfl) | rfl <;> decide

theorem endsAtom_of_symbolChar {c : Char} (letter : isSymbolChar c = true) :
    endsAtom c = false := by
  have code := symbolChar_code letter
  rw [endsAtom, Bool.or_eq_false_iff, Bool.or_eq_false_iff, Bool.or_eq_false_iff]
  refine ⟨⟨⟨?_, ?_⟩, ?_⟩, ?_⟩
  · simp only [isSpace, Bool.or_eq_false_iff, Bool.and_eq_false_iff, decide_eq_false_iff_not]
    omega
  all_goals
    rw [decide_eq_false_iff_not]
    intro equal
    rw [equal] at code
    exact absurd code (by decide)

/-- A text the engine reads without errors is read by the user interface as
expressions of the same shape. -/
theorem app_reads {text : Text} {exprs : List RawExpr} (reading : Reading (utf8 text) exprs) :
    Nonempty (AppReading text exprs) := by
  have scans := scans_text reading.scans text rfl
  have letters : ∀ c, byteAlphabet.isWord c = true → appAlphabet.isWord c = true := by
    intro c letter
    simp [appAlphabet, endsAtom_of_symbolChar letter]
  rcases @Scans.transfer _ appAlphabet _ _ _ (fun _ => isSpace_of_blank) letters scans 0 with
    ⟨moved, appScans, same⟩
  rw [List.map_map] at same
  rcases exists_relabelAll (fun tree _ => exists_relabel (Lexeme.form ∘ Token.lexeme) Lexeme.form
    tree) moved same with ⟨trees, flat, relabelled⟩
  refine ⟨⟨trees, ?_, by rw [flat]; exact appScans, ?_⟩⟩
  · intro tree member
    have image : map Lexeme.form tree ∈ trees.map (map Lexeme.form) := List.mem_map_of_mem member
    rw [relabelled] at image
    rcases List.mem_map.mp image with ⟨engineTree, present, equal⟩
    exact lexemes_bracketed (reading.bracketed engineTree present) equal.symm
  · have shapes : trees.map (fun tree => treeShape (tree.map Lexeme.form)) =
        (trees.map (map Lexeme.form)).map treeShape := by
      rw [List.map_map]
      rfl
    have raws : exprs.map rawShape = (reading.trees.map TokenTree.toRaw).map rawShape :=
      congrArg (List.map rawShape) reading.exprs_eq
    rw [shapes, relabelled, raws, List.map_map, List.map_map]
    apply List.map_congr_left
    intro tree member
    exact (rawShape_toRaw (reading.bracketed tree member) fun token inside =>
      reading.classified token (mem_flattenAll.mpr ⟨tree, member, inside⟩)).symm

/-- A text the engine reads without errors is parsed by the user interface into
expressions of the same shape. -/
theorem AppReading.parses {source : Text} {exprs : List RawExpr}
    (reading : AppReading source exprs) :
    ∃ ast, parseCardCode source = .ok ast ∧ ast.children.map Expr.shape = exprs.map rawShape := by
  refine ⟨_, parseCardCode_reads reading.bracketed reading.scans, ?_⟩
  rw [List.map_map, ← reading.shapes]
  exact List.map_congr_left fun tree _ => shape_treeExpr source tree

end CardCode.App
