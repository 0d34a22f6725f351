import CardCode.App.Rereading

/-! # The spans the generator records

The generator records the span of a card as it writes it, from where the card's line
begins. The parser reads the card's expression back from behind the blanks of the
indentation, so the two agree exactly where nothing is indented.
-/

namespace CardCode.App

open TokenTree

/-! ## A card and its expression -/

/-- The expressions in a written form that stand for the cards below its card. -/
def writtenParts (card : Card) (expr : Expr) : List Expr :=
  expr.items.drop (expr.items.length - card.parts.length)

mutual

/-- Something holds of a card, at its indentation, and the expression it was written as,
and of the cards below it and theirs. -/
inductive CardThroughout (Holds : Nat → Card → Expr → Prop) : Nat → Card → Expr → Prop
  | intro {indent card expr} :
      Holds indent card expr →
      RowThroughout Holds (indent + 1) card.parts (writtenParts card expr) →
      CardThroughout Holds indent card expr

/-- Something holds throughout cards and the expressions they were written as. -/
inductive RowThroughout (Holds : Nat → Card → Expr → Prop) :
    Nat → List Card → List Expr → Prop
  | nil {indent} : RowThroughout Holds indent [] []
  | cons {indent card expr cards exprs} :
      CardThroughout Holds indent card expr → RowThroughout Holds indent cards exprs →
      RowThroughout Holds indent (card :: cards) (expr :: exprs)

end

/-- What slicing the source at a span gives. -/
def StandsAt (source : Text) (span : Span) (text : Text) : Prop :=
  ∃ front back, source = front ++ (text ++ back) ∧ textLength front = span.startOffset ∧
    textLength (front ++ text) = span.endOffset

/-- The text of a card, without the blanks of its indentation. -/
def IsForm (indent : Nat) (card : Card) (form : Text) : Prop :=
  ∃ written, writeCard card indent {} = .ok written ∧ written.source = pad indent ++ form

/-- The span recorded for a card is its expression's, at which the card's form stands. -/
structure SpanAgrees (generated : Context) (indent : Nat) (card : Card) (expr : Expr) :
    Prop where
  recorded : generated.cardSpans card.id = some expr.span
  form : ∃ form, IsForm indent card form ∧ StandsAt generated.source expr.span form

/-- The span recorded for a card begins where its indentation does. -/
structure SpanRecorded (generated : Context) (indent : Nat) (card : Card) (expr : Expr) :
    Prop where
  recorded : generated.cardSpans card.id = some
    (spanFromOffsets generated.source (expr.span.startOffset - 2 * indent) expr.span.endOffset)
  own : expr.span =
    spanFromOffsets generated.source expr.span.startOffset expr.span.endOffset
  indented : 2 * indent ≤ expr.span.startOffset
  form : ∃ form, IsForm indent card form ∧ StandsAt generated.source expr.span form

section Throughout

variable {Holds Other : Nat → Card → Expr → Prop} {indent : Nat} {cards : List Card}
  {exprs : List Expr}

theorem RowThroughout.both (first : RowThroughout Holds indent cards exprs)
    (second : RowThroughout Other indent cards exprs) : ∀ card ∈ cards, ∃ expr,
      CardThroughout Holds indent card expr ∧ CardThroughout Other indent card expr := by
  induction cards generalizing exprs with
  | nil => exact List.forall_mem_nil _
  | cons card rest induction =>
      cases first with
      | cons head others =>
          cases second with
          | cons otherHead otherOthers =>
              exact List.forall_mem_cons.mpr ⟨⟨_, head, otherHead⟩, induction others otherOthers⟩

/-- In a row without cards below, what holds of each card holds throughout. -/
theorem RowThroughout.flat (implies : ∀ card expr, Holds indent card expr →
      Other indent card expr) (throughout : RowThroughout Holds indent cards exprs) :
    (∀ card ∈ cards, card.parts = []) → RowThroughout Other indent cards exprs := by
  induction cards generalizing exprs with
  | nil =>
      intro _
      cases throughout with
      | nil => exact .nil
  | cons card rest induction =>
      intro bare
      rcases List.forall_mem_cons.mp bare with ⟨none, others⟩
      cases throughout with
      | @cons _ _ expr _ _ head tail =>
          refine .cons ?_ (induction tail others)
          cases head with
          | intro holds _ =>
              refine .intro (implies card expr holds) ?_
              rw [writtenParts, none, List.length_nil, Nat.sub_zero, List.drop_length]
              exact .nil

end Throughout

/-- The recorded spans agree exactly where no card has others below it. -/
theorem agrees_iff_flat {generated : Context} {cards : List Card} {exprs : List Expr}
    (recorded : RowThroughout (SpanRecorded generated) 0 cards exprs) :
    RowThroughout (SpanAgrees generated) 0 cards exprs ↔ ∀ card ∈ cards, card.parts = [] := by
  constructor
  · intro agrees card member
    rcases recorded.both agrees card member with ⟨expr, ofCard, agreesOfCard⟩
    cases ofCard with
    | intro _ below =>
        cases agreesOfCard with
        | intro _ agreesBelow =>
            apply List.eq_nil_iff_forall_not_mem.mpr
            intro part inside
            rcases below.both agreesBelow part inside with ⟨item, ofPart, agreesOfPart⟩
            cases ofPart with
            | intro record _ =>
                cases agreesOfPart with
                | intro agree _ =>
                    have spans := record.recorded.symm.trans agree.recorded
                    have starts : item.span.startOffset - 2 * (0 + 1) = item.span.startOffset :=
                      congrArg Span.startOffset (Option.some.inj spans)
                    have indented := record.indented
                    omega
  · intro flat
    refine recorded.flat ?_ flat
    intro card expr record
    refine ⟨?_, record.form⟩
    rw [record.recorded, Nat.mul_zero, Nat.sub_zero, ← record.own]

/-! ## Positions -/

/-- What follows a text does not move the lines and columns in it. -/
theorem lineColumnFrom_append {before : Text} (after : Text) {offset : Nat}
    (inside : offset ≤ textLength before) (line column : Nat) :
    lineColumnFrom (before ++ after) offset line column =
      lineColumnFrom before offset line column := by
  induction before generalizing offset line column with
  | nil =>
      have none : offset = 0 := Nat.le_zero.mp inside
      rw [none]
      cases after with
      | nil => rfl
      | cons c after => rfl
  | cons c before induction =>
      rw [textLength] at inside
      rw [List.cons_append, lineColumnFrom, lineColumnFrom]
      split
      · rfl
      · split
        next newline =>
          have unit : codeUnits c = 1 := by
            rw [newline]
            rfl
          exact induction (by omega) _ _
        next => exact induction (by omega) _ _

theorem spanFromOffsets_prefix {text whole : Text} {start stop : Nat} (isPrefix : text <+: whole)
    (order : start ≤ stop) (inside : stop ≤ textLength text) :
    spanFromOffsets text start stop = spanFromOffsets whole start stop := by
  rcases isPrefix with ⟨rest, rfl⟩
  rw [spanFromOffsets, spanFromOffsets, lineColumnAt, lineColumnAt, lineColumnAt, lineColumnAt,
    lineColumnFrom_append rest (by omega), lineColumnFrom_append rest inside]

/-! ## Forms in a source -/

/-- A statement's text from bracket to bracket. -/
def formText (expr : Expr) (indent : Nat) : Text :=
  '(' :: (Layout.rowText (frontLayouts expr ++ lines expr (indent + 1)) ++ [')'])

theorem statementLayout_text (expr : Expr) (indent : Nat) (gap : Text) :
    (statementLayout expr indent gap).text = gap ++ formText expr indent := by
  rw [statementLayout_eq, Layout.text_group, formText]

theorem textLength_pad (indent : Nat) : textLength (pad indent) = 2 * indent := by
  rw [pad]
  generalize 2 * indent = count
  induction count with
  | zero => rfl
  | succ count induction =>
      rw [List.replicate_succ, textLength, induction, Nat.add_comm]
      rfl

/-- The expression a statement's form is read back as, where its bracket is at an offset. -/
def placed (source : Text) (expr : Expr) (indent start : Nat) : Expr :=
  treeExpr source (Layout.lexemes appAlphabet start (statementLayout expr indent []))

/-- What the lines of statements are read back as. -/
def placedLines (source : Text) (exprs : List Expr) (indent offset : Nat) : List Expr :=
  (Layout.rowLexemes appAlphabet offset (exprs.map fun expr =>
    statementLayout expr indent ('\n' :: pad indent))).map (treeExpr source)

theorem lexemes_gap (expr : Expr) (indent offset : Nat) (gap : Text) :
    Layout.lexemes appAlphabet offset (statementLayout expr indent gap) =
      Layout.lexemes appAlphabet (offset + textLength gap) (statementLayout expr indent []) := by
  rw [statementLayout_eq, statementLayout_eq, Layout.lexemes, Layout.lexemes, appAlphabet_extent]
  rfl

theorem placedLines_cons (source : Text) (expr : Expr) (exprs : List Expr)
    (indent offset : Nat) :
    placedLines source (expr :: exprs) indent offset =
      placed source expr indent (offset + 1 + 2 * indent) ::
        placedLines source exprs indent
          (offset + 1 + 2 * indent + textLength (formText expr indent)) := by
  have gap : textLength ('\n' :: pad indent) = 1 + 2 * indent := by
    rw [textLength, textLength_pad]
    rfl
  rw [placedLines, List.map_cons, Layout.rowLexemes, List.map_cons, lexemes_gap, gap,
    appAlphabet_extent, statementLayout_text, textLength_append, gap, ← Nat.add_assoc,
    ← Nat.add_assoc, ← Nat.add_assoc]
  rfl

theorem rowLexemes_append (first second : List Layout) (offset : Nat) :
    Layout.rowLexemes appAlphabet offset (first ++ second) =
      Layout.rowLexemes appAlphabet offset first ++
        Layout.rowLexemes appAlphabet (offset + textLength (Layout.rowText first)) second := by
  induction first generalizing offset with
  | nil => rfl
  | cons layout rest induction =>
      rw [List.cons_append, Layout.rowLexemes, Layout.rowLexemes, induction, Layout.rowText_cons,
        textLength_append, appAlphabet_extent, ← Nat.add_assoc, List.cons_append]

theorem rowLexemes_length (items : List Layout) (offset : Nat) :
    (Layout.rowLexemes appAlphabet offset items).length = items.length := by
  induction items generalizing offset with
  | nil => rfl
  | cons layout rest induction =>
      rw [Layout.rowLexemes, List.length_cons, induction, List.length_cons]

theorem placed_eq (source : Text) (expr : Expr) (indent start : Nat) :
    placed source expr indent start =
      .list ((Layout.rowLexemes appAlphabet (start + 1)
          (frontLayouts expr ++ lines expr (indent + 1))).map (treeExpr source))
        (spanFromOffsets source start (start + textLength (formText expr indent))) := by
  have stop : start + 1 + textLength (Layout.rowText
      (frontLayouts expr ++ lines expr (indent + 1))) + 1 =
        start + textLength (formText expr indent) := by
    have opening : codeUnits '(' = 1 := rfl
    have closing : textLength [')'] = 1 := rfl
    rw [formText, textLength, textLength_append, opening, closing]
    omega
  rw [placed, statementLayout_eq, Layout.lexemes, treeExpr_group, ← stop, ← appAlphabet_extent]
  rfl

/-- The last items of a form are the lines of the statements in it. -/
theorem placed_parts (source : Text) (expr : Expr) (indent start : Nat) {card : Card}
    (count : card.parts.length = (statementArgs expr).length) :
    writtenParts card (placed source expr indent start) =
      placedLines source (statementArgs expr) (indent + 1)
        (start + 1 + textLength (Layout.rowText (frontLayouts expr))) := by
  have many : (lines expr (indent + 1)).length = (statementArgs expr).length := by
    rw [lines, List.length_map]
  rw [writtenParts, placed_eq, Expr.items, rowLexemes_append, List.map_append, count, ← many,
    List.length_append, List.length_map, List.length_map, rowLexemes_length, rowLexemes_length,
    Nat.add_sub_cancel, List.drop_left' (by rw [List.length_map, rowLexemes_length])]
  rfl

/-! ## Recording -/

theorem writeLines_cons {card : Card} {cards : List Card} {indent : Nat} {ctx last : Context}
    (result : writeLines (writersOf (card :: cards)) indent ctx = .ok last) :
    ∃ middle, writeCard card indent (ctx.append ['\n']) = .ok middle ∧
      writeLines (writersOf cards) indent middle = .ok last := by
  rw [writersOf, writeLines] at result
  exact exists_of_bind_ok result

/-- What writing a card comes to: its lines, and then its own span. -/
theorem framed_inverts {card : Card} {expr : Expr} (framed : Framed card expr) {indent : Nat}
    {ctx result : Context} (written : writeCard card indent ctx = .ok result) :
    ∃ inner, writeLines (writersOf card.parts) (indent + 1)
        (ctx.append (pad indent ++ '(' :: Layout.rowText (frontLayouts expr))) = .ok inner ∧
      result = (inner.append [')']).setSpan card.id
        (spanFromOffsets (inner.append [')']).source (textLength ctx.source)
          (textLength (inner.append [')']).source)) := by
  have inverted := written
  rw [framed.writes, withSpan, writeFramed] at inverted
  rcases exists_of_bind_ok inverted with ⟨closed, framedWrites, -⟩
  rcases exists_of_bind_ok framedWrites with ⟨inner, lines, -⟩
  rw [framed_result framed lines] at written
  exact ⟨inner, lines, (Except.ok.inj written).symm⟩

/-- Writing the card records no other spans than those of the card and the ones below it. -/
def KeepsOthers (card : Card) : Prop :=
  ∀ {indent : Nat} {ctx result : Context}, writeCard card indent ctx = .ok result →
    ∀ id ∉ (flattenCard card).map Card.id, result.cardSpans id = ctx.cardSpans id

/-- What is generated keeps the text and the spans that were there when cards were written. -/
structure Preserves (generated : Context) (cards : List Card) (result : Context) : Prop where
  source : result.source <+: generated.source
  spans : ∀ card ∈ cards, generated.cardSpans card.id = result.cardSpans card.id

/-- The spans of the card and of those below it, once recorded, are still there at the end. -/
def Records (generated : Context) (card : Card) (expr : Expr) : Prop :=
  ((flattenCard card).map Card.id).Nodup → ∀ {indent : Nat} {ctx result : Context},
    writeCard card indent ctx = .ok result →
    Preserves generated (flattenCard card) result →
    CardThroughout (SpanRecorded generated) indent card
      (placed generated.source expr indent (textLength ctx.source + 2 * indent))

structure Recording (generated : Context) (card : Card) (expr : Expr) : Prop where
  written : IsWritten card expr
  keeps : KeepsOthers card
  records : Records generated card expr

section Lines

variable {generated : Context} {cards : List Card} {exprs : List Expr} {indent : Nat}
  {ctx last : Context}

theorem lines_keep (each : List.Forall₂ (Recording generated) cards exprs)
    (result : writeLines (writersOf cards) indent ctx = .ok last) {id : String}
    (absent : id ∉ (flattenCards cards).map Card.id) :
    last.cardSpans id = ctx.cardSpans id := by
  induction each generalizing ctx with
  | nil =>
      rw [writersOf, writeLines] at result
      rw [← Except.ok.inj result]
  | cons head _ induction =>
      rw [flattenCards, List.map_append, List.mem_append, not_or] at absent
      rcases writeLines_cons result with ⟨middle, first, others⟩
      rw [induction others absent.2, head.keeps first id absent.1]
      rfl

theorem lines_source (each : List.Forall₂ (Recording generated) cards exprs)
    (result : writeLines (writersOf cards) indent ctx = .ok last) :
    last.source = ctx.source ++ Layout.rowText
      (exprs.map fun expr => statementLayout expr indent ('\n' :: pad indent)) := by
  rcases lines_written (each.imp fun _ _ recording => recording.written) ctx with
    ⟨written, same, source⟩
  rw [result] at same
  rw [Except.ok.inj same, source]

theorem card_source {card : Card} {expr : Expr} (written : IsWritten card expr)
    (result : writeCard card indent ctx = .ok last) :
    last.source = ctx.source ++ (pad indent ++ formText expr indent) := by
  rcases written indent ctx with ⟨other, same, source⟩
  rw [result] at same
  rw [Except.ok.inj same, source, statementLayout_text]

theorem card_length {card : Card} {expr : Expr} (written : IsWritten card expr)
    (result : writeCard card indent ctx = .ok last) :
    textLength last.source =
      textLength ctx.source + 2 * indent + textLength (formText expr indent) := by
  rw [card_source written result, textLength_append, textLength_append, textLength_pad,
    Nat.add_assoc]

/-- The lines behind a card preserve what was recorded for it. -/
theorem first_preserved {first : List Card} {middle : Context}
    (each : List.Forall₂ (Recording generated) cards exprs)
    (distinct : ((first ++ flattenCards cards).map Card.id).Nodup)
    (result : writeLines (writersOf cards) indent middle = .ok last)
    (preserves : Preserves generated (first ++ flattenCards cards) last) :
    Preserves generated first middle := by
  rw [List.map_append, List.nodup_append] at distinct
  constructor
  · have grown : middle.source <+: last.source := by
      rw [lines_source each result]
      exact List.prefix_append _ _
    exact grown.trans preserves.source
  · intro card member
    rw [preserves.spans card (List.mem_append_left _ member)]
    apply lines_keep each result
    intro present
    exact distinct.2.2 card.id (List.mem_map_of_mem member) card.id present rfl

theorem lines_record (each : List.Forall₂ (Recording generated) cards exprs)
    (distinct : ((flattenCards cards).map Card.id).Nodup)
    (result : writeLines (writersOf cards) indent ctx = .ok last)
    (preserves : Preserves generated (flattenCards cards) last) :
    RowThroughout (SpanRecorded generated) indent cards
      (placedLines generated.source exprs indent (textLength ctx.source)) := by
  induction each generalizing ctx with
  | nil =>
      rw [placedLines, List.map_nil, Layout.rowLexemes]
      exact .nil
  | @cons card expr cards exprs head tail induction =>
      rw [flattenCards] at distinct preserves
      rcases writeLines_cons result with ⟨middle, first, rest⟩
      have newline : textLength (ctx.append ['\n']).source = textLength ctx.source + 1 := by
        rw [Context.append, textLength_append]
        rfl
      rw [placedLines_cons, ← newline, ← card_length head.written first]
      have own := first_preserved tail distinct rest preserves
      rw [List.map_append, List.nodup_append] at distinct
      refine .cons (head.records distinct.1 first own)
        (induction distinct.2.1 rest ⟨preserves.source, ?_⟩)
      intro other member
      exact preserves.spans other (List.mem_append_right _ member)

end Lines

section Statements

variable {generated : Context} {card : Card} {expr : Expr}

theorem framed_keeps (framed : Framed card expr)
    (parts : List.Forall₂ (Recording generated) card.parts (statementArgs expr)) :
    KeepsOthers card := by
  intro indent ctx result written id absent
  rcases framed_inverts framed written with ⟨inner, lines, rfl⟩
  rw [flattenCard_eq, List.map_cons, List.mem_cons, not_or] at absent
  have kept := lines_keep parts lines absent.2
  rw [Context.append] at kept
  rw [Context.setSpan, Context.append]
  dsimp only
  rw [if_neg absent.1]
  exact kept

/-- The form of a card stands in the text that follows it. -/
theorem form_stands (written : IsWritten card expr) {indent : Nat} {ctx result : Context}
    (writes : writeCard card indent ctx = .ok result)
    (isPrefix : result.source <+: generated.source) :
    StandsAt generated.source
      (spanFromOffsets generated.source (textLength ctx.source + 2 * indent)
        (textLength result.source)) (formText expr indent) := by
  have source := card_source written writes
  rcases isPrefix with ⟨rest, whole⟩
  refine ⟨ctx.source ++ pad indent, rest, ?_, ?_, ?_⟩
  · rw [← whole, source]
    simp
  · rw [textLength_append, textLength_pad]
    rfl
  · rw [List.append_assoc, ← source]
    rfl

theorem framed_records (framed : Framed card expr)
    (parts : List.Forall₂ (Recording generated) card.parts (statementArgs expr)) :
    Records generated card expr := by
  intro distinct indent ctx result writes preserves
  have written : IsWritten card expr :=
    framed_written framed (parts.imp fun _ _ recording => recording.written)
  have stands := form_stands written writes preserves.source
  have length := card_length written writes
  rcases framed_inverts framed writes with ⟨inner, lines, rfl⟩
  rw [flattenCard_eq, List.map_cons, List.nodup_cons] at distinct
  rw [flattenCard_eq] at preserves
  have opened : textLength (ctx.append (pad indent ++
      '(' :: Layout.rowText (frontLayouts expr))).source =
        textLength ctx.source + 2 * indent + 1 +
          textLength (Layout.rowText (frontLayouts expr)) := by
    rw [Context.append, textLength_append, textLength_append, textLength_pad, textLength,
      ← Nat.add_assoc, ← Nat.add_assoc]
    rfl
  have own := preserves.spans card List.mem_cons_self
  have closed : inner.source <+: generated.source :=
    (List.prefix_append inner.source [')']).trans preserves.source
  constructor
  · refine ⟨?_, ?_, ?_, formText expr indent, ?_, ?_⟩
    · have recorded : spanFromOffsets (inner.append [')']).source (textLength ctx.source)
          (textLength (inner.append [')']).source) =
            spanFromOffsets generated.source (textLength ctx.source)
              (textLength (inner.append [')']).source) := by
        apply spanFromOffsets_prefix preserves.source _ (Nat.le_refl _)
        change textLength ctx.source ≤ textLength (inner.append [')']).source
        change textLength (inner.append [')']).source = _ at length
        omega
      have start : (spanFromOffsets generated.source (textLength ctx.source + 2 * indent)
          (textLength ctx.source + 2 * indent + textLength (formText expr indent))).startOffset -
            2 * indent = textLength ctx.source := Nat.add_sub_cancel _ _
      rw [own, placed_eq, Expr.span, start, ← length]
      exact (if_pos rfl).trans (congrArg some recorded)
    · rw [placed_eq]
      rfl
    · rw [placed_eq]
      exact Nat.le_add_left _ _
    · rcases written indent {} with ⟨alone, writesAlone, text⟩
      exact ⟨alone, writesAlone, by rw [text, statementLayout_text]; rfl⟩
    · rw [placed_eq, ← length]
      exact stands
  · rw [placed_parts _ _ _ _ parts.length_eq, ← opened]
    refine lines_record parts distinct.2 lines ⟨closed, ?_⟩
    intro part member
    rw [preserves.spans part (List.mem_cons_of_mem card member)]
    apply if_neg
    intro same
    exact distinct.1 (List.mem_map.mpr ⟨part, member, same⟩)

theorem statement_recording (expr : Expr) : expr.Spelled → ∀ id,
    Recording generated (projectStatement defaultManifest expr id) expr := by
  induction expr using statement_induct with
  | step expr induction =>
      intro spelled id
      have framed := statement_framed expr spelled id
      have made : MadeFrom defaultManifest _ _ := framed.parts
      have parts := made.forall₂ fun arg member partId =>
        induction arg member (spelled.arg member) partId
      exact ⟨statement_isWritten expr spelled id, framed_keeps framed parts,
        framed_records framed parts⟩

end Statements

/-! ## Programs -/

/-- What is generated for an accepted text, with all its spans recorded. -/
theorem program_recorded {exprs : List Expr} (spelled : ∀ expr ∈ exprs, expr.Spelled) :
    ∃ generated, generateProgram (projectProgram exprs defaultManifest) = .ok generated ∧
      generated.source = Layout.rowText (programLayouts exprs) ∧
      RowThroughout (SpanRecorded generated) 0 (projectProgram exprs defaultManifest)
        (reread exprs) := by
  rcases generateProgram_source spelled with ⟨generated, program, source⟩
  refine ⟨generated, program, source, ?_⟩
  have distinct := projectProgram_nodup defaultManifest exprs
  have each : List.Forall₂ (Recording generated) (projectProgram exprs defaultManifest) exprs :=
    (projectProgram_madeFrom defaultManifest exprs).forall₂ fun expr member id =>
      statement_recording expr (spelled expr member) id
  rw [generateProgram] at program
  rw [reread, ← source]
  generalize projectProgram exprs defaultManifest = cards at program distinct each ⊢
  cases each with
  | nil => exact .nil
  | @cons card expr cards exprs head tail =>
      rw [flattenCards] at distinct
      rw [writeProgram, if_pos rfl, writeProgram_lines] at program
      rcases exists_of_bind_ok program with ⟨middle, first, rest⟩
      have own := first_preserved tail distinct rest ⟨List.prefix_refl _, fun _ _ => rfl⟩
      have length : textLength middle.source = textLength (formText expr 0) := by
        rw [card_length head.written first, Nat.mul_zero, Nat.add_zero]
        exact Nat.zero_add _
      rw [List.map_append, List.nodup_append] at distinct
      rw [programLayouts, Layout.rowLexemes, List.map_cons, appAlphabet_extent,
        statementLayout_text, List.nil_append, Nat.zero_add, ← length]
      refine .cons (head.records distinct.1 first own) ?_
      exact lines_record tail distinct.2.1 rest ⟨List.prefix_refl _, fun _ _ => rfl⟩

/-- The recorded spans of an accepted text's cards are those of the expressions they were
written as exactly where no card has others below it. -/
theorem recorded_spans_iff (source : Text) (ast : ProgramAst)
    (parsed : parseCardCode source = .ok ast) :
    ∃ generated again, generateProgram (projectProgram ast.children defaultManifest) =
        .ok generated ∧ parseCardCode generated.source = .ok again ∧
      (RowThroughout (SpanAgrees generated) 0 (projectProgram ast.children defaultManifest)
          again.children ↔
        ∀ card ∈ projectProgram ast.children defaultManifest, card.parts = []) := by
  have spelled := parsed_spelled parsed
  rcases program_recorded spelled with ⟨generated, program, text, recorded⟩
  rcases canonical_parses spelled with ⟨again, reparsed, children⟩
  rw [← children] at recorded
  exact ⟨generated, again, program, by rw [text, reparsed], agrees_iff_flat recorded⟩

theorem beep_recorded_spans_iff : ∃ ast generated again,
    parseCardCode "(beep) (beep)".toList = .ok ast ∧
    generateProgram (projectProgram ast.children defaultManifest) = .ok generated ∧
    parseCardCode generated.source = .ok again ∧
    (RowThroughout (SpanAgrees generated) 0 (projectProgram ast.children defaultManifest)
        again.children ↔
      ∀ card ∈ projectProgram ast.children defaultManifest, card.parts = []) := by
  rcases @exists_parsed "(beep) (beep)".toList (by decide +kernel) with ⟨ast, parsed⟩
  rcases recorded_spans_iff _ ast parsed with ⟨generated, again, rest⟩
  exact ⟨ast, generated, again, parsed, rest⟩

/-- A program whose only card has one below it. -/
def nestedText : Text :=
  "(do (beep))".toList

theorem nested_span_differs :
    ¬ ∀ source ast generated again, parseCardCode source = .ok ast →
      generateProgram (projectProgram ast.children defaultManifest) = .ok generated →
      parseCardCode generated.source = .ok again →
      RowThroughout (SpanAgrees generated) 0 (projectProgram ast.children defaultManifest)
        again.children := by
  intro always
  have nested : (parseCardCode nestedText).toOption.map (fun ast =>
      (projectProgram ast.children defaultManifest).map fun card => card.parts.length) =
        some [1] := by decide +kernel
  rcases @exists_parsed nestedText (by decide +kernel) with ⟨ast, parsed⟩
  have spelled := parsed_spelled parsed
  rcases program_recorded spelled with ⟨generated, program, text, recorded⟩
  rcases canonical_parses spelled with ⟨again, reparsed, children⟩
  rw [← text] at reparsed
  rw [← children] at recorded
  have flat := (agrees_iff_flat recorded).mp
    (always nestedText ast generated again parsed program reparsed)
  rw [parsed] at nested
  have counts : (projectProgram ast.children defaultManifest).map
      (fun card => card.parts.length) = [1] := Option.some.inj nested
  rcases List.map_eq_singleton_iff.mp counts with ⟨card, cards, count⟩
  have none := flat card (by simp [cards])
  rw [none] at count
  cases count

end CardCode.App
