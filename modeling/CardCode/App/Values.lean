import CardCode.App.Agreement
import CardCode.App.Generator

/-! # Spelled expressions

The atoms of an expression are words, as the parser takes them. An expression that the
engine accepts is regular besides: every list is headed by a symbol.
-/

namespace CardCode.App

open TokenTree

/-- A text the parser takes as one atom. -/
def IsWord (text : Text) : Prop :=
  text ≠ [] ∧ ∀ c ∈ text, endsAtom c = false

instance (text : Text) : Decidable (IsWord text) :=
  @instDecidableAnd _ _ inferInstance (List.decidableBAll (fun c => endsAtom c = false) text)

/-- Atoms are words and lists are lists of such expressions. -/
inductive Expr.Spelled : Expr → Prop
  | integer {raw span} :
      isIntegerText raw.toList = true → IsWord raw.toList → Spelled (.integer raw span)
  | symbol {raw span} :
      isIntegerText raw.toList = false → IsWord raw.toList → Spelled (.symbol raw span)
  | list {children span} :
      (∀ child ∈ children, Spelled child) → Spelled (.list children span)

theorem Expr.Spelled.child {children : List Expr} {span : Span}
    (spelled : (Expr.list children span).Spelled) : ∀ child ∈ children, child.Spelled := by
  cases spelled with
  | list each => exact each

theorem Expr.Spelled.isWord {raw : String} {span : Span}
    (spelled : (Expr.symbol raw span).Spelled) : IsWord raw.toList := by
  cases spelled with
  | symbol _ isWord => exact isWord

theorem atomExpr_spelled {word : Text} {span : Span} (isWord : IsWord word) :
    (atomExpr word span).Spelled := by
  have same : (String.ofList word).toList = word := String.toList_ofList
  rw [atomExpr]
  split
  next integer =>
    apply Expr.Spelled.integer
    · rw [same]
      exact integer
    · rw [same]
      exact isWord
  next plain =>
    apply Expr.Spelled.symbol
    · rw [same]
      exact Bool.not_eq_true _ ▸ plain
    · rw [same]
      exact isWord

theorem treeExpr_spelled (source : Text) {tree : TokenTree Lexeme}
    (bracketed : LexemesBracketed tree)
    (words : ∀ lexeme ∈ tree.flatten, lexeme.kind = .word → IsWord lexeme.text) :
    (treeExpr source tree).Spelled := by
  induction bracketed with
  | leaf isWord =>
      rw [treeExpr]
      exact atomExpr_spelled (words _ (by simp) isWord)
  | @group opening items closing _ _ _ induction =>
      rw [treeExpr_group]
      apply Expr.Spelled.list
      intro child member
      rcases List.mem_map.mp member with ⟨item, present, rfl⟩
      exact induction item present fun lexeme inside => words lexeme (mem_group present inside)

/-! ## Integers -/

theorem isDecimal_of_isDigit {c : Char} (digit : c.isDigit = true) : isDecimal c = true := by
  rw [Char.isDigit, Bool.and_eq_true, decide_eq_true_eq, decide_eq_true_eq] at digit
  rw [isDecimal, Bool.and_eq_true, decide_eq_true_eq, decide_eq_true_eq]
  exact digit

theorem decimal_not_endsAtom {c : Char} (digit : isDecimal c = true) : endsAtom c = false := by
  apply endsAtom_of_symbolChar
  rw [isDecimal] at digit
  rw [isSymbolChar]
  simp [digit]

/-- The decimal digits of a natural number. -/
theorem toDigits_text (value : Nat) :
    Nat.toDigits 10 value ≠ [] ∧ (Nat.toDigits 10 value).all isDecimal = true ∧
      digitsValue (Nat.toDigits 10 value) = value := by
  refine ⟨Nat.toDigits_ne_nil, ?_, ?_⟩
  · rw [List.all_eq_true]
    intro c member
    exact isDecimal_of_isDigit (Nat.isDigit_of_mem_toDigits (by decide) (by decide) member)
  · rw [digitsValue, ← Nat.ofDigitChars_eq_foldl]
    exact Nat.ofDigitChars_ten_toDigits

theorem toDigits_head (value : Nat) :
    ∀ digits, Nat.toDigits 10 value = '-' :: digits → False := by
  intro digits equal
  have decimal := (toDigits_text value).2.1
  rw [equal, List.all_cons, Bool.and_eq_true] at decimal
  exact absurd decimal.1 (by decide)

/-- An integer is written as a word that is read as that integer. -/
theorem integerText_word (value : Int) :
    IsWord (integerText value) ∧ isIntegerText (integerText value) = true ∧
      integerValue (integerText value) = value := by
  have letters {digits : Text} (decimal : digits.all isDecimal = true) :
      ∀ c ∈ digits, endsAtom c = false := fun c member =>
    decimal_not_endsAtom (List.all_eq_true.mp decimal c member)
  rw [integerText, Int.toString_eq_repr, Int.repr_eq_if]
  split
  next lower =>
    rcases toDigits_text value.toNat with ⟨nonempty, decimal, same⟩
    have plain := toDigits_head value.toNat
    rw [Nat.toList_repr]
    refine ⟨⟨nonempty, letters decimal⟩, ?_, ?_⟩
    · rw [isIntegerText.eq_2 _ plain, decimal]
      simp [nonempty]
    · rw [integerValue.eq_2 _ plain, same]
      omega
  next upper =>
    rcases toDigits_text (-value).toNat with ⟨nonempty, decimal, same⟩
    rw [String.toList_append, Nat.toList_repr]
    have minus : "-".toList = ['-'] := by decide
    rw [minus, List.singleton_append]
    refine ⟨⟨by simp, ?_⟩, ?_, ?_⟩
    · exact List.forall_mem_cons.mpr ⟨by decide, letters decimal⟩
    · rw [isIntegerText, decimal]
      simp [nonempty]
    · rw [integerValue, same]
      omega

/-! ## Regular expressions of the language -/

/-- What the engine makes sure of in the forms that are projected specially. -/
structure FormRegular (name : String) (args : List Shape) : Prop where
  set : name = "set!" →
    ∃ target value, args = [.symbol target, value] ∧ CardCode.isReserved target = false
  branch : name = "if" → args.length = 3
  define : name = "define" → ∀ items, args.head? = some (.list items) →
    ∀ item ∈ items, ∃ param, item = .symbol param

/-- Every list is headed by a symbol. -/
inductive Regular : Shape → Prop
  | symbol {name} : Regular (.symbol name)
  | integer {value} : Regular (.integer value)
  | list {name args} :
      (∀ arg ∈ args, Regular arg) → FormRegular name args →
      Regular (.list (.symbol name :: args))

/-- A regular list, taken apart. -/
theorem regular_list {children : List Expr} {span : Span}
    (regular : Regular (Expr.list children span).shape) :
    ∃ name headSpan args, children = .symbol name headSpan :: args ∧
      (∀ arg ∈ args, Regular arg.shape) ∧ FormRegular name (args.map Expr.shape) := by
  rw [shape_list] at regular
  generalize shapes : children.map Expr.shape = items at regular
  cases regular with
  | @list name args each form =>
      cases children with
      | nil => cases shapes
      | cons head rest =>
          rw [List.map_cons, List.cons.injEq] at shapes
          rcases shapes with ⟨headShape, rfl⟩
          cases head with
          | symbol raw headSpan =>
              rw [shape_symbol, Shape.symbol.injEq] at headShape
              rw [headShape]
              exact ⟨name, headSpan, rest, rfl,
                fun arg member => each _ (List.mem_map_of_mem member), form⟩
          | integer raw headSpan =>
              rw [shape_integer] at headShape
              cases headShape
          | list inner headSpan =>
              rw [shape_list] at headShape
              cases headShape

end CardCode.App
