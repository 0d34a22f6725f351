import CardCode.App.Likeness

/-! # Sources drawn up by writers

A writer draws an expression when what it writes is read back as an expression alike.
A row of writers that draw expressions draws up a program, whatever cards they come from.
-/

namespace CardCode.App

/-! ## Rows that are read back -/

/-- A row of items that may follow a head, and is read as the expressions. -/
structure ReadBack (items : List Layout) (exprs : List Expr) : Prop where
  gapped : Gapped items
  reads : ∀ reads, List.Forall₂ ReadsAs items reads → List.Forall₂ Expr.Alike exprs reads

theorem ReadBack.nil : ReadBack [] [] := by
  refine ⟨List.forall_mem_nil _, fun reads row => ?_⟩
  cases row with
  | nil => exact .nil

theorem ReadBack.append {first second : List Layout} {exprs others : List Expr}
    (front : ReadBack first exprs) (back : ReadBack second others) :
    ReadBack (first ++ second) (exprs ++ others) := by
  refine ⟨front.gapped.append back.gapped, fun reads row => ?_⟩
  rcases reads_append row with ⟨fronts, backs, rfl, head, tail⟩
  exact List.rel_append (front.reads fronts head) (back.reads backs tail)

/-- What is read off the layout of a headed value is like it. -/
theorem value_alike (expr : Expr) : expr.Spelled → expr.Headed → ∀ gap read,
    ReadsAs (valueLayout expr gap) read → expr.Alike read := by
  induction expr using Expr.induct with
  | integer raw span =>
      intro spelled _ gap read reads
      rcases reads.integer_eq spelled with ⟨readSpan, rfl⟩
      exact .integer (projectIntegerValue_again raw)
  | symbol raw span =>
      intro spelled _ gap read reads
      rcases reads.symbol_eq spelled with ⟨readSpan, rfl⟩
      exact .symbol
  | list children span induction =>
      intro spelled headed gap read reads
      cases headed with
      | @list raw headSpan args _ each =>
          rw [valueLayout, headLayouts, List.singleton_append] at reads
          rcases reads.group_eq with ⟨children, readSpan, rfl, row⟩
          cases row with
          | @cons _ readHead _ readArgs first rest =>
              rcases first.symbol_eq (spelled.child _ List.mem_cons_self) with
                ⟨readHeadSpan, rfl⟩
              rw [valueLayouts_eq] at rest
              refine .list (.cons .symbol (reads_each rest fun arg member => ?_))
              exact induction arg (List.mem_cons_of_mem _ member)
                (spelled.child arg (List.mem_cons_of_mem _ member)) (each arg member) _

theorem values_readBack {exprs : List Expr} (spelled : ∀ expr ∈ exprs, expr.Spelled)
    (headed : ∀ expr ∈ exprs, expr.Headed) : ReadBack (valueLayouts exprs) exprs := by
  refine ⟨values_gapped spelled, fun reads row => ?_⟩
  rw [valueLayouts_eq] at row
  exact reads_each row fun expr member =>
    value_alike expr (spelled expr member) (headed expr member) _

/-! ## Writers -/

/-- What is written is the text of a row of layouts. -/
def Writes (writer : Writer) (items : List Layout) : Prop :=
  ∀ ctx, ∃ written, writer ctx = .ok written ∧
    written.source = ctx.source ++ Layout.rowText items

/-- The writer writes one list, which is read back like the expression. -/
def Draws (writer : Nat → Writer) (expr : Expr) : Prop :=
  ∀ indent, ∃ form items,
    (∀ gap, Writes (fun ctx => writer indent (ctx.append gap))
      [.group (gap ++ pad indent) (.word [] form :: items)]) ∧
    IsWord form ∧ Gapped items ∧
    ∀ reads span, List.Forall₂ ReadsAs (.word [] form :: items) reads →
      expr.Alike (.list reads span)

/-- Writers of which each draws its expression write them line by line. -/
theorem lines_drawn {rows : List (Nat → Writer)} {exprs : List Expr}
    (each : List.Forall₂ Draws rows exprs) (indent : Nat) :
    ∃ items, Writes (writeLines rows indent) items ∧ ReadBack items exprs := by
  induction each with
  | nil =>
      refine ⟨[], fun ctx => ⟨ctx, rfl, ?_⟩, .nil⟩
      rw [Layout.rowText_nil, List.append_nil]
  | @cons row expr rows exprs draws _ induction =>
      rcases draws indent with ⟨form, items, writes, isWord, gapped, reads⟩
      rcases induction with ⟨others, writesOthers, readBack⟩
      have line : ReadBack [.group (['\n'] ++ pad indent) (.word [] form :: items)] [expr] := by
        constructor
        · intro item member
          rw [List.mem_singleton.mp member]
          exact ⟨form_spaced (line_blank indent) isWord gapped, List.cons_ne_nil _ _⟩
        · intro others row
          rcases List.forall₂_cons_left_iff.mp row with ⟨read, _, group, rest, rfl⟩
          cases rest with
          | nil =>
              rcases group.group_eq with ⟨children, span, rfl, inside⟩
              exact .cons (reads children span inside) .nil
      refine ⟨_, fun ctx => ?_, line.append readBack⟩
      rcases writes ['\n'] ctx with ⟨middle, result, source⟩
      rcases writesOthers middle with ⟨last, lastResult, lastSource⟩
      refine ⟨last, ?_, ?_⟩
      · dsimp only at result
        rw [writeLines, result]
        exact lastResult
      · rw [lastSource, source, Layout.rowText_append, List.append_assoc]

/-- A first line, and below it lines of their own. -/
def writeFrame (indent : Nat) (front : Text) (rows : List (Nat → Writer)) : Writer := fun ctx => do
  let ctx ← writeLines rows (indent + 1) (ctx.append (pad indent ++ '(' :: front))
  pure (ctx.append [')'])

/-- A frame draws its head, the values of its first line and what its lines draw. -/
theorem frame_draws {writer : Nat → Writer} {form : String} {front : List Layout}
    {rows : List (Nat → Writer)} {values exprs : List Expr} {headSpan span : Span}
    (writes : ∀ indent, writer indent =
      writeFrame indent (Layout.rowText (.word [] form.toList :: front)) rows)
    (spelled : (Expr.symbol form headSpan).Spelled) (readFront : ReadBack front values)
    (lines : List.Forall₂ Draws rows exprs) :
    Draws writer (.list (.symbol form headSpan :: (values ++ exprs)) span) := by
  intro indent
  rcases lines_drawn lines (indent + 1) with ⟨items, writesLines, readLines⟩
  have whole := readFront.append readLines
  refine ⟨form.toList, front ++ items, ?_, spelled.isWord, whole.gapped, ?_⟩
  · intro gap ctx
    rcases writesLines ((ctx.append gap).append
      (pad indent ++ '(' :: Layout.rowText (.word [] form.toList :: front))) with
      ⟨written, result, source⟩
    refine ⟨written.append [')'], ?_, ?_⟩
    · dsimp only
      rw [writes, writeFrame, result]
      rfl
    · rw [Context.append, source]
      simp [Context.append, Layout.rowText_append]
  · intro reads readSpan row
    rcases List.forall₂_cons_left_iff.mp row with ⟨head, others, first, rest, rfl⟩
    rcases first.symbol_eq spelled with ⟨readHeadSpan, rfl⟩
    exact .list (.cons .symbol (whole.reads others rest))

theorem withSpan_draws {writer : Nat → Writer} {expr : Expr} (id : String)
    (draws : Draws writer expr) : Draws (fun indent => withSpan id (writer indent)) expr := by
  intro indent
  rcases draws indent with ⟨form, items, writes, rest⟩
  refine ⟨form, items, fun gap ctx => ?_, rest⟩
  rcases writes gap ctx with ⟨written, result, source⟩
  dsimp only at result
  refine ⟨written.setSpan id (spanFromOffsets written.source
    (textLength (ctx.append gap).source) (textLength written.source)), ?_, source⟩
  dsimp only
  rw [withSpan, result]
  rfl

/-! ## Programs -/

theorem writeProgram_drawn {cards : List Card} {exprs : List Expr}
    (each : List.Forall₂ Draws (writersOf cards) exprs) :
    ∃ items, Writes (writeProgram cards true) items ∧
      (∀ item ∈ items, Layout.WellSpaced appAlphabet item) ∧ Layout.Apart items ∧
      ∀ reads, List.Forall₂ ReadsAs items reads → List.Forall₂ Expr.Alike exprs reads := by
  cases cards with
  | nil =>
      rw [writersOf] at each
      cases each with
      | nil =>
          refine ⟨[], fun ctx => ⟨ctx, rfl, ?_⟩, List.forall_mem_nil _, List.forall_mem_nil _,
            ReadBack.nil.reads⟩
          rw [Layout.rowText_nil, List.append_nil]
  | cons card cards =>
      rw [writersOf] at each
      cases each with
      | @cons _ expr _ exprs draws others =>
          rcases draws 0 with ⟨form, items, writes, isWord, gapped, reads⟩
          rcases lines_drawn others 0 with ⟨lines, writesLines, readBack⟩
          have blank : ∀ c ∈ [] ++ pad 0, isSpace c = true := List.forall_mem_nil _
          refine ⟨.group ([] ++ pad 0) (.word [] form :: items) :: lines, ?_, ?_, ?_, ?_⟩
          · intro ctx
            rcases writes [] ctx with ⟨middle, result, source⟩
            rcases writesLines middle with ⟨last, lastResult, lastSource⟩
            have same : ctx.append [] = ctx := by rw [Context.append, List.append_nil]
            dsimp only at result
            rw [same] at result
            refine ⟨last, ?_, ?_⟩
            · rw [writeProgram, if_pos rfl, result, writeProgram_lines]
              exact lastResult
            · rw [lastSource, source, Layout.rowText_cons, Layout.rowText_cons, Layout.rowText_nil,
                List.append_nil, List.append_assoc]
          · exact List.forall_mem_cons.mpr ⟨form_spaced blank isWord gapped,
              fun item member => (readBack.gapped item member).1⟩
          · exact fun item member => (readBack.gapped item member).2
          · intro others row
            rcases List.forall₂_cons_left_iff.mp row with ⟨read, rest, group, tail, rfl⟩
            rcases group.group_eq with ⟨children, span, rfl, inside⟩
            exact .cons (reads children span inside) (readBack.reads rest tail)

/-- A program whose cards draw expressions is written, and read back as a program alike. -/
theorem generateProgram_drawn {cards : List Card} {exprs : List Expr}
    (each : List.Forall₂ Draws (writersOf cards) exprs) :
    ∃ generated ast, generateProgram cards = .ok generated ∧
      parseCardCode generated.source = .ok ast ∧
      List.Forall₂ Expr.Alike exprs ast.children := by
  rcases writeProgram_drawn each with ⟨items, writes, spaced, apart, reads⟩
  rcases writes {} with ⟨generated, result, source⟩
  rw [List.nil_append] at source
  have parses := parseCardCode_reads
    (row_bracketed (fun item _ => @layout_bracketed appAlphabet item) 0)
    (Layout.row_scans spaced apart)
  rw [← source] at parses
  exact ⟨generated, _, result, parses,
    reads _ (row_readsAs (fun item _ => layout_readsAs generated.source item) 0)⟩

end CardCode.App
