import CardCode.App.Generator

/-! # The forms of the language

Some forms have a projection and a writer of their own. The others become the cards that
the manifest has for them, or generic ones, and are written as their arguments.
-/

namespace CardCode.App

section Lists

variable {name : String} {headSpan span : Span} {args : List Expr}

/-! ## Projection -/

theorem projectStatement_form (id : String) :
    projectStatement defaultManifest (.list (.symbol name headSpan :: args) span) id =
      projectForm defaultManifest (.list (.symbol name headSpan :: args) span) name
        (⟨.symbol name headSpan, genericExpressionCard (.symbol name headSpan)⟩ ::
          childrenOf defaultManifest args) id := by
  rw [projectStatement]

def specialForms : List String :=
  ["define", "do", "repeat", "when", "while", "if"]

def specialCards : List String :=
  ["control.do", "control.repeat", "control.when", "control.while", "control.if",
    "binding.define-func", "binding.define-var", "binding.set", "generic.form"]

/-- The cards of the other forms are written as simple forms, save for `set!`. -/
theorem default_cards :
    ∀ card ∈ defaultManifest.cards,
      (card.kind = .command ∨ card.kind = .binding ∨ card.kind = .control) →
      card.form ∉ specialForms → card.form ≠ "set!" → card.id ∉ specialCards := by
  decide +kernel

theorem chooseCard_some {form : String} {card : ManifestCard}
    (found : chooseCard defaultManifest form = some card) :
    card ∈ defaultManifest.cards ∧ card.form = form ∧
      (card.kind = .command ∨ card.kind = .binding ∨ card.kind = .control) := by
  rw [chooseCard] at found
  have member := List.mem_of_find?_eq_some found
  have kind := List.find?_some found
  rw [Manifest.byForm, List.mem_filter, decide_eq_true_eq] at member
  simp only [Bool.or_eq_true, decide_eq_true_eq] at kind
  exact ⟨member.1, member.2, or_assoc.mp kind⟩

theorem childrenOf_length : (childrenOf defaultManifest args).length = args.length := by
  rw [childrenOf_eq, List.length_map]

theorem zipWith_values {params : List String} (count : args.length = params.length) :
    (params.zipWith
        (fun param (child : Child) =>
          (param, (⟨projectValue child.expr, child.expr.span⟩ : Param)))
        (childrenOf defaultManifest args)).map (fun param => param.2.value) =
      args.map projectValue := by
  induction args generalizing params with
  | nil => simp [childrenOf]
  | cons arg args induction =>
      cases params with
      | nil => cases count
      | cons param params =>
          rw [childrenOf, List.zipWith_cons_cons, List.map_cons, List.map_cons,
            induction (Nat.succ.inj count)]

theorem chooseCard_set :
    chooseCard defaultManifest "set!" =
      some ⟨"binding.set", "set!", .binding, "variables", "Set variable", ["name", "value"]⟩ := by
  decide +kernel

/-- The three sequences with a first argument, with their cards and parameters. -/
inductive Led : String → String → String → Prop
  | repeat' : Led "repeat" "control.repeat" "count"
  | when' : Led "when" "control.when" "condition"
  | while' : Led "while" "control.while" "condition"

/-! ## Writers -/

theorem writeForm_generic {head : CardHead} {children thenCards elseCards : List (Nat → Writer)}
    {indent : Nat} (generic : head.cardId = "generic.form") :
    writeForm head children thenCards elseCards indent =
      writeArgs head.form head.args indent := by
  rw [writeForm, generic]
  simp

theorem writeForm_simple {head : CardHead} {children thenCards elseCards : List (Nat → Writer)}
    {indent : Nat} (simple : head.cardId ∉ specialCards) :
    writeForm head children thenCards elseCards indent =
      writeArgs head.form (head.params.map fun param => param.2.value) indent := by
  simp only [specialCards, List.mem_cons, List.not_mem_nil, or_false, not_or] at simple
  rw [writeForm]
  simp [simple]

end Lists

end CardCode.App
