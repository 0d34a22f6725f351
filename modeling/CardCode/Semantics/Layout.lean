import CardCode.Compilation.Relocation
import CardCode.Semantics.Headroom

/-! # Layout

Texts of the same tokens compile to the same tree and run alike, up to spans: blanks,
line breaks and comments mean nothing.
-/

namespace CardCode

open Process

/-! ## Runs of a tree under other labels -/

/-- A run as it looks under other labels. -/
def relabelRun (labels : Relabelling) (run : Trace × Except Fault ExecutionResult) :
    Trace × Except Fault ExecutionResult :=
  (run.1.map (Action.relabel labels), run.2.map (ExecutionResult.relabel labels))

/-- Under other labels a tree runs as it does. -/
theorem run_relabel (root : Node) (labels : Relabelling) (setting : Setting)
    (schedule : Schedule) :
    schedule.run setting (root.relabel labels) =
      relabelRun labels (schedule.run setting root) := by
  have lockstep : Lockstep labels {} (setting.env root) (setting.env (root.relabel labels)) :=
    lockstep_of_limits root (weakens_refl _) (weakens_refl _) (weakens_refl _)
  apply schedule.run_relabel lockstep fun different => absurd rfl different
  · intro reason _ excused
    rcases excused with free | ⟨_, _, _, free⟩
    · exact free
    · exact free
  · exact fun _ _ => id

/-! ## Texts of the same tokens -/

/-- Without lexical errors a text is compiled as its kinds and texts of tokens say. -/
theorem compile_words {source : Bytes} {lexed : LexResult} (lexes : lex source = some lexed)
    (clean : lexed.diagnostics = []) :
    ∃ result, compile source = some result ∧
      (parseTokens ((lexed.tokens.map Token.word).map tokenOf)).map compileParsed =
        some (result.relabel .withoutSpans) := by
  have fits : source.length < 2 ^ 32 := by
    rw [lex] at lexes
    split at lexes
    next fits => exact fits
    next => cases lexes
  rcases Option.isSome_iff_exists.mp ((parse_isSome_iff source).mpr fits) with ⟨parsed, parses⟩
  refine ⟨compileParsed parsed, by rw [compile_eq, parses]; rfl, ?_⟩
  rw [@parse_words .withoutSpans (fun _ => rfl) _ _ _ lexes clean parses, Option.map_some,
    compileParsed_relabel fun _ => rfl]

/-- Two texts that lex without diagnostics to the same kinds and texts of tokens are
compiled alike up to spans, with the same messages in the same order and the same ids;
where they are accepted, they run alike under the same limits and replies. -/
theorem layout_irrelevant {source other : Bytes} {lexed otherLexed : LexResult}
    (lexes : lex source = some lexed) (otherLexes : lex other = some otherLexed)
    (clean : lexed.diagnostics = []) (otherClean : otherLexed.diagnostics = [])
    (sameWords : otherLexed.tokens.map Token.word = lexed.tokens.map Token.word) :
    (∃ result otherResult, compile source = some result ∧ compile other = some otherResult ∧
      otherResult.relabel .withoutSpans = result.relabel .withoutSpans) ∧
    ∀ program otherProgram : Program, program.source = source → otherProgram.source = other →
      ∀ (setting : Setting) (schedule : Schedule),
        relabelRun .withoutSpans (schedule.run setting otherProgram.root) =
          relabelRun .withoutSpans (schedule.run setting program.root) := by
  rcases compile_words lexes clean with ⟨result, compiles, words⟩
  rcases compile_words otherLexes otherClean with ⟨otherResult, otherCompiles, otherWords⟩
  rw [sameWords, words] at otherWords
  have same : otherResult.relabel .withoutSpans = result.relabel .withoutSpans :=
    (Option.some.inj otherWords).symm
  refine ⟨⟨result, otherResult, compiles, otherCompiles, same⟩, ?_⟩
  intro program otherProgram source_eq other_eq setting schedule
  have compiled := program.compiled
  have otherCompiled := otherProgram.compiled
  rw [source_eq, compiles] at compiled
  rw [other_eq, otherCompiles] at otherCompiled
  cases compiled
  cases otherCompiled
  have roots := congrArg CompileResult.root same
  have root : otherProgram.root.relabel .withoutSpans = program.root.relabel .withoutSpans :=
    Option.some.inj roots
  rw [← run_relabel, ← run_relabel, root]

/-- One program, laid out in two ways. -/
def plainText : Bytes := bytes "(repeat 2 (beep))"

def spacedText : Bytes := bytes "; twice\n(repeat 2\n  (beep) )"

def plainLexed : LexResult := (lex plainText).get (by decide +kernel)

def spacedLexed : LexResult := (lex spacedText).get (by decide +kernel)

theorem spaced_layout_irrelevant :
    (∃ result otherResult, compile plainText = some result ∧
      compile spacedText = some otherResult ∧
      otherResult.relabel .withoutSpans = result.relabel .withoutSpans) ∧
    ∀ program otherProgram : Program, program.source = plainText →
      otherProgram.source = spacedText →
      ∀ (setting : Setting) (schedule : Schedule),
        relabelRun .withoutSpans (schedule.run setting otherProgram.root) =
          relabelRun .withoutSpans (schedule.run setting program.root) := by
  have lexes : lex plainText = some plainLexed := (Option.some_get _).symm
  have otherLexes : lex spacedText = some spacedLexed := (Option.some_get _).symm
  exact layout_irrelevant lexes otherLexes (by decide +kernel) (by decide +kernel)
    (by decide +kernel)

end CardCode
