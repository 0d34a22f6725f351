import CardCode.App.Rereading
import CardCode.App.State

/-! # Editing source (`app/src/app.js`) -/

namespace CardCode.App

/-- What `projectSource` throws. -/
inductive SourceError where
  | parse (failure : ParseFailure)
  | generate (error : GenerateError)

/-- A source's cards and what the generator writes for them. -/
structure Projected where
  cards : List Card
  generated : Context

def projectSource (source : Text) (manifest : Manifest) : Except SourceError Projected := do
  let ast ← (parseCardCode source).mapError .parse
  let cards := projectProgram ast.children manifest
  let generated ← (generateProgram cards).mapError .generate
  pure { cards, generated }

/-- A diagnostic that is shown: one the host sent, or the one `applySourceToState`
makes of what was thrown, with its message and its span. -/
inductive ShownDiagnostic where
  | host (diagnostic : Diagnostic)
  | thrown (error : SourceError)

/-- The state with the fields an edit adds to it. Where `localError` is there it is
the state's one diagnostic. -/
structure Ui where
  state : State := {}
  generatedSource : Text := []
  cardSpans : String → Option Span := fun _ => none
  localError : Option SourceError := none

def Ui.diagnostics (ui : Ui) : List ShownDiagnostic :=
  match ui.localError with
  | some error => [.thrown error]
  | none => ui.state.diagnostics.map .host

/-- The source an edit leaves, with its projection. -/
def nextProjection (manifest : Manifest) (source : Text) (canonicalize : Bool) :
    Except SourceError (Text × Projected) := do
  let projected ← projectSource source manifest
  if canonicalize then
    let nextSource := projected.generated.source
    pure (nextSource, ← projectSource nextSource manifest)
  else pure (source, projected)

/-- Whether the source was taken, and the interface after it. -/
def applySourceToState (ui : Ui) (manifest : Manifest) (source : Text) (canonicalize : Bool) :
    Bool × Ui :=
  match nextProjection manifest source canonicalize with
  | .ok (nextSource, projected) =>
      (true,
        { state := reduceState ui.state (.edit nextSource projected.cards)
          generatedSource := projected.generated.source
          cardSpans := projected.generated.cardSpans })
  | .error error =>
      (false,
        { ui with
          state := { ui.state with
            source, diagnostics := [], activeCardIds := ∅, erroredCardIds := ∅ }
          localError := some error })

/-- `generateProgram(projectProgram(parseCardCode(source))).source`. -/
def canonicalise (source : Text) : Except SourceError Text := do
  let projected ← projectSource source defaultManifest
  pure projected.generated.source

theorem applySourceToState_ok {manifest : Manifest} {source nextSource : Text}
    {canonicalize : Bool} {projected : Projected}
    (next : nextProjection manifest source canonicalize = .ok (nextSource, projected)) (ui : Ui) :
    applySourceToState ui manifest source canonicalize =
      (true,
        { state := reduceState ui.state (.edit nextSource projected.cards)
          generatedSource := projected.generated.source
          cardSpans := projected.generated.cardSpans }) := by
  rw [applySourceToState, next]

/-! ## Sources that parse -/

theorem projectSource_failed {source : Text} {manifest : Manifest} {failure : ParseFailure}
    (fails : parseCardCode source = .error failure) :
    projectSource source manifest = .error (.parse failure) := by
  rw [projectSource, fails]
  rfl

/-- A source that parses is projected, and written as the text of its layouts. -/
theorem projectSource_parsed {source : Text} {ast : ProgramAst}
    (parsed : parseCardCode source = .ok ast) :
    ∃ generated,
      projectSource source defaultManifest =
        .ok ⟨projectProgram ast.children defaultManifest, generated⟩ ∧
      generated.source = Layout.rowText (programLayouts ast.children) := by
  rcases generateProgram_source (parsed_spelled parsed) with ⟨generated, result, text⟩
  refine ⟨generated, ?_, text⟩
  rw [projectSource, parsed]
  dsimp only [Except.mapError, Bind.bind, Except.bind]
  rw [result]
  rfl

theorem canonicalise_parsed {source : Text} {ast : ProgramAst}
    (parsed : parseCardCode source = .ok ast) :
    canonicalise source = .ok (Layout.rowText (programLayouts ast.children)) := by
  rcases projectSource_parsed parsed with ⟨generated, result, text⟩
  rw [canonicalise, result, ← text]
  rfl

/-- What canonicalising a source that parses leaves in the interface. -/
theorem nextProjection_canonical {source : Text} {ast : ProgramAst}
    (parsed : parseCardCode source = .ok ast) :
    ∃ generated,
      nextProjection defaultManifest source true =
        .ok (Layout.rowText (programLayouts ast.children),
          ⟨projectProgram (reread ast.children) defaultManifest, generated⟩) ∧
      generated.source = Layout.rowText (programLayouts (reread ast.children)) := by
  rcases projectSource_parsed parsed with ⟨first, projected, text⟩
  rcases canonical_parses (parsed_spelled parsed) with ⟨again, parsedAgain, children⟩
  rcases projectSource_parsed parsedAgain with ⟨generated, projectedAgain, textAgain⟩
  rw [children] at projectedAgain textAgain
  refine ⟨generated, ?_, textAgain⟩
  rw [nextProjection, projected]
  dsimp only [Bind.bind, Except.bind]
  rw [if_pos rfl, text, projectedAgain]
  rfl

/-- A source that parses is taken, and parses again where it is canonicalised. -/
theorem applySourceToState_parsed {source : Text} {ast : ProgramAst}
    (parsed : parseCardCode source = .ok ast) (ui : Ui) (canonicalize : Bool) :
    (applySourceToState ui defaultManifest source canonicalize).1 = true ∧
      ∃ now, parseCardCode
        (applySourceToState ui defaultManifest source canonicalize).2.state.source = .ok now := by
  cases canonicalize with
  | false =>
      rcases projectSource_parsed parsed with ⟨generated, projected, -⟩
      have next : nextProjection defaultManifest source false =
          .ok (source, ⟨projectProgram ast.children defaultManifest, generated⟩) := by
        rw [nextProjection, projected]
        rfl
      rw [applySourceToState_ok next]
      exact ⟨rfl, ast, parsed⟩
  | true =>
      rcases nextProjection_canonical parsed with ⟨generated, next, -⟩
      rcases canonical_parses (parsed_spelled parsed) with ⟨again, parsedAgain, -⟩
      rw [applySourceToState_ok next]
      exact ⟨rfl, again, parsedAgain⟩

/-- A source that does not parse stays in the editor, beside what was thrown. -/
theorem applySourceToState_failed {source : Text} {failure : ParseFailure} {manifest : Manifest}
    (fails : parseCardCode source = .error failure) (ui : Ui) (canonicalize : Bool) :
    applySourceToState ui manifest source canonicalize =
      (false,
        { ui with
          state := { ui.state with
            source, diagnostics := [], activeCardIds := ∅, erroredCardIds := ∅ }
          localError := some (.parse failure) }) := by
  have next : nextProjection manifest source canonicalize = .error (.parse failure) := by
    rw [nextProjection, projectSource_failed fails]
    rfl
  rw [applySourceToState, next]

end CardCode.App
