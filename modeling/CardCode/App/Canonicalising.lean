import CardCode.App.Editing
import CardCode.App.Steady

/-! # Source the interface keeps

After an edit that canonicalises, the interface shows one text and has written its
cards as another. The two are the same for the programs that are steady.
-/

namespace CardCode.App

/-- Canonical source is accepted and its own canonical source, and an interface that
canonicalises the source shows what its cards are written as. -/
structure IsIdempotent (source : Text) : Prop where
  again : ∃ canonical ast, canonicalise source = .ok canonical ∧
    parseCardCode canonical = .ok ast ∧ canonicalise canonical = .ok canonical
  shown : ∀ ui, (applySourceToState ui defaultManifest source true).1 = true ∧
    (applySourceToState ui defaultManifest source true).2.state.source =
      (applySourceToState ui defaultManifest source true).2.generatedSource

section Programs

variable {exprs : List Expr}

/-- The text a program is read again from is well spaced as well. -/
theorem reread_spelled (spelled : ∀ expr ∈ exprs, expr.Spelled) :
    ∀ expr ∈ reread exprs, expr.Spelled := by
  rcases canonical_parses spelled with ⟨ast, parsed, children⟩
  rw [← children]
  exact parsed_spelled parsed

/-- A program is written twice alike exactly where it is steady. -/
theorem rewritten_iff (spelled : ∀ expr ∈ exprs, expr.Spelled) :
    Layout.rowText (programLayouts (reread exprs)) = Layout.rowText (programLayouts exprs) ↔
      exprs.all isSteady = true := by
  rw [← program_iff spelled (reread_readsAs exprs)]
  rcases programLayouts_spaced spelled with ⟨spaced, apart⟩
  rcases programLayouts_spaced (reread_spelled spelled) with ⟨againSpaced, againApart⟩
  constructor
  · exact Layout.rowText_injective againSpaced againApart spaced apart
  · intro same
    rw [same]

end Programs

/-- Canonicalisation is idempotent on an accepted text exactly when, in what is
written of its values, nothing follows a list that heads a list. -/
theorem canonicalise_idempotent_iff (source : Text) (ast : ProgramAst)
    (parsed : parseCardCode source = .ok ast) :
    IsIdempotent source ↔ ast.children.all isSteady = true := by
  have spelled := parsed_spelled parsed
  rw [← rewritten_iff spelled]
  have canonical := canonicalise_parsed parsed
  rcases canonical_parses spelled with ⟨again, parsedAgain, children⟩
  have twice := canonicalise_parsed parsedAgain
  rw [children] at twice
  constructor
  · intro idempotent
    rcases idempotent.again with ⟨text, _, first, _, second⟩
    rw [canonical] at first
    cases first
    rw [twice] at second
    exact Except.ok.inj second
  · intro same
    constructor
    · exact ⟨_, again, canonical, parsedAgain, by rw [twice, same]⟩
    · intro ui
      rcases nextProjection_canonical parsed with ⟨generated, next, text⟩
      rw [applySourceToState_ok next]
      refine ⟨rfl, ?_⟩
      dsimp only
      rw [text, same]
      rfl

/-- An argument headed by a list, with one more item. -/
def headedText : Text :=
  "(beep ((f) x))".toList

theorem headed_idempotent_iff :
    ∃ ast, parseCardCode headedText = .ok ast ∧
      (IsIdempotent headedText ↔ ast.children.all isSteady = true) := by
  rcases @exists_parsed headedText (by decide +kernel) with ⟨ast, parsed⟩
  exact ⟨ast, parsed, canonicalise_idempotent_iff headedText ast parsed⟩

/-- The list at the head is lost, and then the blank behind it. -/
theorem headed_not_idempotent :
    ¬ ∀ source ast, parseCardCode source = .ok ast → IsIdempotent source := by
  intro always
  rcases @exists_parsed headedText (by decide +kernel) with ⟨ast, parsed⟩
  rcases (always headedText ast parsed).again with ⟨text, _, first, _, second⟩
  have once : (canonicalise headedText).toOption = some "(beep ( x))".toList := by
    decide +kernel
  have twice : (canonicalise "(beep ( x))".toList).toOption = some "(beep (x))".toList := by
    decide +kernel
  rw [first] at once
  rw [← Option.some.inj once, second] at twice
  have same := (Option.some.inj twice).symm.trans (Option.some.inj once)
  exact absurd same (by decide)

end CardCode.App
