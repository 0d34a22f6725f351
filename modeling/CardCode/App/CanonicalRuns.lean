import CardCode.App.Acceptance
import CardCode.App.Editing
import CardCode.App.RoundTrip
import CardCode.Semantics.Failures
import CardCode.Semantics.Layout

/-! # Canonical source runs like the source

The interface may replace the text of a program by its canonical source at any edit. The
engine accepts the canonical source of a program whose statements survive, and what it
compiles it to runs as the program did.
-/

namespace CardCode.App

open TokenTree

/-! ## Gaps -/

/-- The gaps are blanks to the engine as well. -/
def GapsFilled (layout : Layout) : Prop :=
  layout.Filled fun c => CardCode.isBlank c = true

theorem space_filled : ∀ c ∈ [' '], CardCode.isBlank c = true :=
  List.forall_mem_singleton.mpr (by decide)

theorem line_filled (indent : Nat) : ∀ c ∈ '\n' :: pad indent, CardCode.isBlank c = true := by
  refine List.forall_mem_cons.mpr ⟨by decide, ?_⟩
  intro c member
  rw [List.eq_of_mem_replicate member]
  decide

theorem word_filled {word : Text} : ∀ item ∈ [Layout.word [' '] word], GapsFilled item :=
  List.forall_mem_singleton.mpr (.word space_filled)

theorem values_filled_of {exprs : List Expr}
    (each : ∀ expr ∈ exprs, ∀ gap, (∀ c ∈ gap, CardCode.isBlank c = true) →
      GapsFilled (valueLayout expr gap)) : ∀ item ∈ valueLayouts exprs, GapsFilled item := by
  intro item member
  rw [valueLayouts_eq] at member
  rcases List.mem_map.mp member with ⟨expr, present, rfl⟩
  exact each expr present [' '] space_filled

theorem value_filled (expr : Expr) : ∀ gap, (∀ c ∈ gap, CardCode.isBlank c = true) →
    GapsFilled (valueLayout expr gap) := by
  induction expr using Expr.induct with
  | integer raw span => exact fun gap blank => .word blank
  | symbol raw span => exact fun gap blank => .word blank
  | list children span induction =>
      intro gap blank
      cases children with
      | nil => exact .group blank (List.forall_mem_nil _)
      | cons head args =>
          rw [valueLayout]
          refine .group blank (List.forall_mem_append.mpr ⟨?_, values_filled_of fun arg member =>
            induction arg (List.mem_cons_of_mem _ member)⟩)
          cases head with
          | list => exact List.forall_mem_nil _
          | integer | symbol =>
              exact List.forall_mem_singleton.mpr (.word (List.forall_mem_nil _))

theorem values_filled (exprs : List Expr) : ∀ item ∈ valueLayouts exprs, GapsFilled item :=
  values_filled_of fun expr _ => value_filled expr

theorem name_filled (target : Expr) : ∀ item ∈ nameLayouts target, GapsFilled item := by
  have object : ∀ item ∈ objectLayouts, GapsFilled item :=
    List.forall_mem_cons.mpr ⟨.word space_filled, word_filled⟩
  cases target with
  | integer => exact word_filled
  | list => exact object
  | symbol raw span =>
      rw [nameLayouts]
      split
      · exact word_filled
      · exact object

theorem binding_filled (args : List Expr) : ∀ item ∈ bindingLayouts args, GapsFilled item := by
  unfold bindingLayouts
  split
  next name value => exact List.forall_mem_append.mpr ⟨name_filled name, values_filled [value]⟩
  next => exact values_filled args

theorem front_filled (expr : Expr) : ∀ item ∈ frontLayouts expr, GapsFilled item := by
  have headed {word : Text} {rest : List Layout} (others : ∀ item ∈ rest, GapsFilled item) :
      ∀ item ∈ Layout.word [] word :: rest, GapsFilled item :=
    List.forall_mem_cons.mpr ⟨.word (List.forall_mem_nil _), others⟩
  unfold frontLayouts
  split
  · apply headed
    split
    · exact binding_filled _
    · exact values_filled _
  · exact headed (values_filled _)
  · exact headed (List.forall_mem_singleton.mpr (value_filled _ _ space_filled))
  · exact headed (List.forall_mem_singleton.mpr (value_filled _ _ space_filled))

theorem statement_filled (expr : Expr) : ∀ indent gap,
    (∀ c ∈ gap, CardCode.isBlank c = true) → GapsFilled (statementLayout expr indent gap) := by
  induction expr using statement_induct with
  | step expr induction =>
      intro indent gap blank
      rw [statementLayout_eq]
      refine .group blank (List.forall_mem_append.mpr ⟨front_filled expr, ?_⟩)
      intro item member
      rcases List.mem_map.mp member with ⟨arg, present, rfl⟩
      exact induction arg present _ _ (line_filled _)

theorem program_filled (exprs : List Expr) : ∀ item ∈ programLayouts exprs, GapsFilled item := by
  cases exprs with
  | nil => exact List.forall_mem_nil _
  | cons first rest =>
      rw [programLayouts]
      refine List.forall_mem_cons.mpr ⟨statement_filled first 0 [] (List.forall_mem_nil _), ?_⟩
      intro item member
      rcases List.mem_map.mp member with ⟨expr, _, rfl⟩
      exact statement_filled expr 0 _ (List.forall_mem_singleton.mpr (by decide))

/-! ## Words -/

/-- The engine's lexer takes the word. -/
def IsTaken (word : Text) : Prop :=
  (∀ c ∈ word, isSymbolChar c = true) ∧ IsLexed word

theorem row_taken_of {items : List Layout} {reads : List Expr}
    (row : List.Forall₂ ReadsAs items reads) (said : ∀ read ∈ reads, read.shape.IsSaid)
    (each : ∀ item ∈ items, ∀ read, ReadsAs item read → read.shape.IsSaid →
      item.Worded IsTaken) : ∀ item ∈ items, item.Worded IsTaken := by
  induction row with
  | nil => exact List.forall_mem_nil _
  | cons head _ induction =>
      refine List.forall_mem_cons.mpr ⟨each _ List.mem_cons_self _ head
        (said _ List.mem_cons_self), ?_⟩
      exact induction (fun read member => said read (List.mem_cons_of_mem _ member))
        fun item member => each item (List.mem_cons_of_mem _ member)

/-- A layout that is read as shapes of taken words has no other words. -/
theorem layout_taken (layout : Layout) : ∀ read, ReadsAs layout read → read.shape.IsSaid →
    layout.Worded IsTaken := by
  induction layout using Layout.induct with
  | word gap word =>
      intro read reads said
      rcases reads.word_eq with ⟨span, rfl⟩
      rw [shape_atomExpr] at said
      exact .word (said_word said)
  | group gap items induction =>
      intro read reads said
      rcases reads.group_eq with ⟨children, span, rfl, row⟩
      rw [shape_list] at said
      cases said with
      | list each =>
          exact .group (row_taken_of row
            (fun child member => each _ (List.mem_map_of_mem member)) induction)

theorem row_taken {items : List Layout} {reads : List Expr}
    (row : List.Forall₂ ReadsAs items reads) (said : ∀ read ∈ reads, read.shape.IsSaid) :
    ∀ item ∈ items, item.Worded IsTaken :=
  row_taken_of row said fun item _ => layout_taken item

/-! ## Acceptance -/

/-- The engine sees a text of its own characters as it is. -/
theorem row_engineText {items : List Layout}
    (spaced : ∀ item ∈ items, Layout.WellSpaced engineAlphabet item) :
    engineText (Layout.rowText items) = Layout.rowText items := by
  apply engineText_ascii
  apply Layout.row_chars
  intro item member c inside
  rcases (spaced item member).known c inside with blank | mark | letter
  · exact ascii_of_blank blank
  · simp only [isMark, Bool.or_eq_true, decide_eq_true_eq] at mark
    rcases mark with (rfl | rfl) | rfl <;> decide
  · exact ascii_of_symbolChar letter

/-- The engine parses a canonical text of its own words, into expressions of the shapes
that the interface reads. -/
theorem canonical_read {exprs : List Expr} (spelled : ∀ expr ∈ exprs, expr.Spelled)
    (said : ∀ read ∈ reread exprs, read.shape.IsSaid)
    (fits : (utf8 (Layout.rowText (programLayouts exprs))).length < 2 ^ 32) :
    ∃ parsed, parse (utf8 (Layout.rowText (programLayouts exprs))) = some parsed ∧
      hasErrors parsed.diagnostics = false ∧
      parsed.exprs.map rawShape = (reread exprs).map Expr.shape := by
  rcases programLayouts_spaced spelled with ⟨spaced, apart⟩
  have taken := row_taken (reread_readsAs exprs) said
  have engineSpaced : ∀ item ∈ programLayouts exprs, Layout.WellSpaced engineAlphabet item := by
    intro item member
    exact (spaced item member).over (program_filled exprs item member)
      ((taken item member).mono fun _ both => both.1)
  have lexed : ∀ item ∈ programLayouts exprs, item.Worded IsLexed := fun item member =>
    (taken item member).mono fun _ both => both.2
  have scans := Layout.row_scans engineSpaced apart
  rw [← row_engineText engineSpaced] at scans
  rcases parse_bracketed fits (row_bracketed (fun item _ => layout_bracketed item) 0) scans
    (Layout.row_worded (fun item member => (lexed item member).lexemes) 0) with
    ⟨parsed, parses, clean⟩
  refine ⟨parsed, parses, clean, ?_⟩
  rcases parse_reads parses clean with ⟨engineReading⟩
  rcases app_reads engineReading with ⟨reading⟩
  rcases reading.parses with ⟨ast, again, shapes⟩
  rcases canonical_parses spelled with ⟨same, parsedAgain, children⟩
  rw [again] at parsedAgain
  cases parsedAgain
  rw [← shapes, children]

/-! ## Expressions of the same shape -/

theorem relabelAll_of_shapes {items : List RawExpr}
    (each : ∀ item ∈ items, ∀ other, rawShape other = rawShape item →
      other.relabel .withoutSpans = item.relabel .withoutSpans) :
    ∀ {others : List RawExpr}, others.map rawShape = items.map rawShape →
      others.map (RawExpr.relabel .withoutSpans) = items.map (RawExpr.relabel .withoutSpans) := by
  induction items with
  | nil =>
      intro others same
      rw [List.map_eq_nil_iff.mp same]
  | cons item items induction =>
      intro others same
      rcases List.map_eq_cons_iff.mp same with ⟨other, rest, rfl, first, later⟩
      rw [List.map_cons, List.map_cons, each item List.mem_cons_self other first,
        induction (fun item member => each item (List.mem_cons_of_mem _ member)) later]

/-- Expressions of the same shape differ in nothing but their spans. -/
theorem relabel_of_shape (raw : RawExpr) : ∀ other, rawShape other = rawShape raw →
    other.relabel .withoutSpans = raw.relabel .withoutSpans := by
  induction raw using RawExpr.induct with
  | symbol span name =>
      intro other same
      cases other with
      | symbol otherSpan otherName =>
          rw [rawShape_symbol, rawShape_symbol, Shape.symbol.injEq] at same
          rw [RawExpr.relabel_symbol, RawExpr.relabel_symbol, same]
          rfl
      | list | integer => simp [rawShape] at same
  | integer span value =>
      intro other same
      cases other with
      | integer otherSpan otherValue =>
          rw [rawShape, rawShape, Shape.integer.injEq] at same
          rw [RawExpr.relabel_integer, RawExpr.relabel_integer, Int64.toInt_inj.mp same]
          rfl
      | list | symbol => simp [rawShape] at same
  | list span items induction =>
      intro other same
      cases other with
      | list otherSpan others =>
          rw [rawShape_list, rawShape_list, Shape.list.injEq] at same
          rw [RawExpr.relabel_list, RawExpr.relabel_list]
          congr 1
          exact relabelAll_of_shapes induction same
      | symbol | integer => simp [rawShape] at same

theorem exprs_of_shapes {exprs others : List RawExpr}
    (same : others.map rawShape = exprs.map rawShape) :
    others.map (RawExpr.relabel .withoutSpans) = exprs.map (RawExpr.relabel .withoutSpans) :=
  relabelAll_of_shapes (fun raw _ => relabel_of_shape raw) same

/-! ## Programs -/

/-- A text that is read as the expressions of a program but for spans is a program, of the
same tree but for spans. -/
theorem exists_relocated (program : Program) {parsed : ParseResult}
    (parses : parse program.source = some parsed) {source : Bytes} {other : ParseResult}
    (otherParses : parse source = some other) (clean : hasErrors other.diagnostics = false)
    (same : other.exprs.map (RawExpr.relabel .withoutSpans) =
      parsed.exprs.map (RawExpr.relabel .withoutSpans)) :
    ∃ relocated : Program, relocated.source = source ∧
      relocated.root.relabel .withoutSpans = program.root.relabel .withoutSpans := by
  have moved (exprs : List RawExpr) :
      compileParsed ((ParseResult.mk exprs []).relabel .withoutSpans) =
        (compileParsed ⟨exprs, []⟩).relabel .withoutSpans :=
    compileParsed_relabel (fun _ => rfl) _
  have alike : (compileParsed ⟨other.exprs, []⟩).relabel .withoutSpans =
      (compileParsed ⟨parsed.exprs, []⟩).relabel .withoutSpans := by
    rw [← moved, ← moved, ParseResult.relabel, ParseResult.relabel, same]
  have compiled := program.compiled
  have otherCompiled : compile source = some (compileParsed other) := by
    rw [compile_eq, otherParses]
    rfl
  rw [compile_eq, parses, Option.map_some, Option.some.injEq] at compiled
  rcases parsed with ⟨exprs, diagnostics⟩
  rcases other with ⟨others, otherDiagnostics⟩
  cases exprs with
  | nil => cases compiled
  | cons first rest =>
      rcases List.map_eq_cons_iff.mp same with ⟨otherFirst, otherRest, rfl, -, -⟩
      have root : (compileParsed ⟨first :: rest, []⟩).root = some program.root :=
        congrArg CompileResult.root compiled
      have accepted : hasErrors (compileParsed ⟨first :: rest, []⟩).diagnostics = false := by
        have all := program.accepted
        rw [← show _ = program.diagnostics from congrArg CompileResult.diagnostics compiled,
          compileParsed, hasErrors_append, Bool.or_eq_false_iff] at all
        exact all.2
      have roots := congrArg CompileResult.root alike
      rw [CompileResult.relabel, CompileResult.relabel] at roots
      dsimp only at roots
      rw [root, Option.map_some] at roots
      rcases Option.map_eq_some_iff.mp roots with ⟨otherRoot, found, relabelled⟩
      have errors := congrArg (hasErrors ∘ CompileResult.diagnostics) alike
      simp only [Function.comp_apply, CompileResult.relabel, hasErrors_relabel, accepted] at errors
      have otherAccepted : hasErrors
          (compileParsed ⟨otherFirst :: otherRest, otherDiagnostics⟩).diagnostics = false := by
        rw [compileParsed, hasErrors_append, clean]
        exact errors
      have whole : compileParsed ⟨otherFirst :: otherRest, otherDiagnostics⟩ =
          ⟨some otherRoot,
            (compileParsed ⟨otherFirst :: otherRest, otherDiagnostics⟩).diagnostics⟩ :=
        congrArg (fun root => CompileResult.mk root _) found
      exact ⟨⟨source, otherRoot, _, otherCompiled.trans (congrArg some whole), otherAccepted⟩, rfl,
        relabelled⟩

/-- The canonical source of a program whose statements survive is a program of the same tree
but for spans. Under the same limits, replies and cancellations it runs alike. -/
theorem canonical_runs_alike (program : Program) {source canonical : Text}
    (encoded : program.source = utf8 source) {parsed : ParseResult}
    (parses : parse program.source = some parsed)
    (survive : ∀ raw ∈ parsed.exprs, (rawShape raw).survives = true)
    (written : canonicalise source = .ok canonical) (fits : (utf8 canonical).length < 2 ^ 32) :
    ∃ rewritten : Program, rewritten.source = utf8 canonical ∧
      rewritten.root.relabel .withoutSpans = program.root.relabel .withoutSpans ∧
      ∀ (setting : Setting) (schedule : Schedule),
        relabelRun .withoutSpans (schedule.run setting rewritten.root) =
          relabelRun .withoutSpans (schedule.run setting program.root) := by
  rcases program.parses with ⟨again, built, found, clean, -⟩
  rw [parses] at found
  cases found
  rcases program.elaborates with ⟨again, found, -, elaborates⟩
  rw [parses] at found
  cases found
  rcases parse_reads parses clean with ⟨engineReading⟩
  rw [encoded] at engineReading
  rcases app_reads engineReading with ⟨appReading⟩
  rcases appReading.parses with ⟨ast, read, shapes⟩
  have spelled := parsed_spelled read
  have shape {expr : Expr} (member : expr ∈ ast.children) :
      ∃ raw ∈ parsed.exprs, rawShape raw = expr.shape :=
    List.mem_map.mp (shapes ▸ List.mem_map_of_mem member)
  have regular : ∀ expr ∈ ast.children, Regular expr.shape := by
    intro expr member
    rcases shape member with ⟨raw, present, same⟩
    exact same ▸ program_regular elaborates raw present
  have alive : ast.children.all App.survives = true := by
    rw [List.all_eq_true]
    intro expr member
    rcases shape member with ⟨raw, present, same⟩
    rw [App.survives, ← same]
    exact survive raw present
  have kept : (reread ast.children).map Expr.shape = parsed.exprs.map rawShape :=
    ((program_shape_iff spelled regular (reread_readsAs _)).mpr alive).trans shapes
  have said : ∀ expr ∈ reread ast.children, expr.shape.IsSaid := by
    intro expr member
    rcases List.mem_map.mp (kept ▸ List.mem_map_of_mem member) with ⟨raw, present, same⟩
    exact same ▸ parse_said parses clean raw present
  rw [canonicalise_parsed read] at written
  cases written
  rcases canonical_read spelled said fits with ⟨other, otherParses, otherClean, otherShapes⟩
  rcases exists_relocated program parses otherParses otherClean
    (exprs_of_shapes (otherShapes.trans kept)) with ⟨rewritten, source_eq, root⟩
  refine ⟨rewritten, source_eq, root, ?_⟩
  intro setting schedule
  rw [← run_relabel, ← run_relabel, root]

/-- A program with a comment, leading zeros and three statements in a line. -/
def untidySource : Text :=
  "(repeat 02 (beep) (wait 007)) ; twice".toList

def untidyProgram : Program :=
  (Program.ofSource? (utf8 untidySource)).get (by decide +kernel)

theorem untidy_runs_alike :
    ∃ canonical, canonicalise untidySource = .ok canonical ∧
      ∃ rewritten : Program, rewritten.source = utf8 canonical ∧
        rewritten.root.relabel .withoutSpans = untidyProgram.root.relabel .withoutSpans ∧
        ∀ (setting : Setting) (schedule : Schedule),
          relabelRun .withoutSpans (schedule.run setting rewritten.root) =
            relabelRun .withoutSpans (schedule.run setting untidyProgram.root) := by
  have written : canonicalise untidySource = .ok "(repeat 2\n  (beep)\n  (wait 7))".toList :=
    ok_of_toOption (by decide +kernel)
  have parses : ∃ parsed, parse untidyProgram.source = some parsed ∧
      ∀ raw ∈ parsed.exprs, (rawShape raw).survives = true :=
    ⟨(parse untidyProgram.source).get (by decide +kernel), (Option.some_get _).symm,
      by decide +kernel⟩
  rcases parses with ⟨parsed, found, survive⟩
  exact ⟨_, written, canonical_runs_alike untidyProgram (by decide +kernel) found survive written
    (by decide +kernel)⟩

end CardCode.App
