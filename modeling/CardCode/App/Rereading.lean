import CardCode.App.Balanced
import CardCode.App.Layouts

/-! # Canonical source is read back

The canonical source of every text the parser accepts is accepted again, and what
is read are the layouts it was written from.
-/

namespace CardCode.App

open TokenTree

/-! ## Spacing -/

/-- Items that may follow another one. -/
def Gapped (items : List Layout) : Prop :=
  ∀ item ∈ items, Layout.WellSpaced appAlphabet item ∧ item.gap ≠ []

theorem Gapped.append {first second : List Layout} (head : Gapped first) (tail : Gapped second) :
    Gapped (first ++ second) := by
  intro item member
  rcases List.mem_append.mp member with member | member
  · exact head item member
  · exact tail item member

theorem word_spaced {gap text : Text} (blank : ∀ c ∈ gap, isSpace c = true)
    (isWord : IsWord text) : Layout.WellSpaced appAlphabet (.word gap text) := by
  refine .word blank isWord.1 fun c member => ?_
  simp [appAlphabet, isWord.2 c member]

theorem space_blank : ∀ c ∈ [' '], isSpace c = true :=
  List.forall_mem_singleton.mpr (by decide)

theorem word_gapped {text : Text} (isWord : IsWord text) : Gapped [.word [' '] text] := by
  intro item member
  rw [List.mem_singleton.mp member]
  exact ⟨word_spaced space_blank isWord, List.cons_ne_nil _ _⟩

/-- A form is well spaced where its head is a word and a gap precedes the rest. -/
theorem form_spaced {gap : Text} {head : Text} {rest : List Layout}
    (blank : ∀ c ∈ gap, isSpace c = true) (isWord : IsWord head) (gapped : Gapped rest) :
    Layout.WellSpaced appAlphabet (.group gap (.word [] head :: rest)) := by
  refine .group blank ?_ fun item member => (gapped item member).2
  exact List.forall_mem_cons.mpr ⟨word_spaced (List.forall_mem_nil _) isWord,
    fun item member => (gapped item member).1⟩

theorem integerWord_isWord {raw : String} (isWord : IsWord raw.toList) :
    IsWord (integerWord raw) := by
  rw [integerWord]
  split
  · exact (integerText_word _).1
  · exact isWord

theorem Expr.Spelled.word {raw : String} {span : Span}
    (spelled : (Expr.integer raw span).Spelled) :
    isIntegerText raw.toList = true ∧ IsWord raw.toList := by
  cases spelled with
  | integer isInteger isWord => exact ⟨isInteger, isWord⟩

theorem valueLayout_gap (expr : Expr) (gap : Text) : (valueLayout expr gap).gap = gap := by
  cases expr with
  | integer raw span => rfl
  | symbol raw span => rfl
  | list children span =>
      cases children with
      | nil => rfl
      | cons head args => rfl

theorem valueLayouts_gapped {exprs : List Expr}
    (each : ∀ expr ∈ exprs, ∀ gap, (∀ c ∈ gap, isSpace c = true) →
      Layout.WellSpaced appAlphabet (valueLayout expr gap)) : Gapped (valueLayouts exprs) := by
  intro item member
  rw [valueLayouts_eq] at member
  rcases List.mem_map.mp member with ⟨expr, present, rfl⟩
  rw [valueLayout_gap]
  exact ⟨each expr present [' '] space_blank, List.cons_ne_nil _ _⟩

theorem valueLayout_spaced (expr : Expr) : expr.Spelled → ∀ gap, (∀ c ∈ gap, isSpace c = true) →
    Layout.WellSpaced appAlphabet (valueLayout expr gap) := by
  induction expr using Expr.induct with
  | integer raw span =>
      intro spelled gap blank
      exact word_spaced blank (integerWord_isWord spelled.word.2)
  | symbol raw span =>
      intro spelled gap blank
      exact word_spaced blank spelled.isWord
  | list children span induction =>
      intro spelled gap blank
      cases children with
      | nil => exact .group blank (List.forall_mem_nil _) (List.forall_mem_nil _)
      | cons head args =>
          have gapped : Gapped (valueLayouts args) := valueLayouts_gapped fun arg member =>
            induction arg (List.mem_cons_of_mem _ member)
              (spelled.child arg (List.mem_cons_of_mem _ member))
          have headSpelled := spelled.child head List.mem_cons_self
          rw [valueLayout]
          cases head with
          | integer raw headSpan => exact form_spaced blank headSpelled.word.2 gapped
          | symbol raw headSpan => exact form_spaced blank headSpelled.isWord gapped
          | list inner headSpan =>
              refine .group blank (fun item member => (gapped item member).1) ?_
              exact fun item member => (gapped item (List.mem_of_mem_tail member)).2

theorem values_gapped {exprs : List Expr} (spelled : ∀ expr ∈ exprs, expr.Spelled) :
    Gapped (valueLayouts exprs) :=
  valueLayouts_gapped fun expr member => valueLayout_spaced expr (spelled expr member)

theorem object_gapped : Gapped objectLayouts :=
  (@word_gapped "[object".toList (by decide)).append
    (@word_gapped "Object]".toList (by decide))

theorem nameLayouts_gapped {target : Expr} (spelled : target.Spelled) :
    Gapped (nameLayouts target) := by
  cases target with
  | integer raw span => exact word_gapped (integerWord_isWord spelled.word.2)
  | list children span => exact object_gapped
  | symbol raw span =>
      rw [nameLayouts]
      split
      · exact word_gapped spelled.isWord
      · exact object_gapped

theorem bindingLayouts_gapped {args : List Expr} (spelled : ∀ arg ∈ args, arg.Spelled) :
    Gapped (bindingLayouts args) := by
  unfold bindingLayouts
  split
  next name value =>
    exact (nameLayouts_gapped (spelled name (by simp))).append
      (values_gapped fun expr member => spelled expr (List.mem_cons_of_mem _ member))
  next => exact values_gapped spelled

/-- The first line of a statement is a word and what is apart from it. -/
theorem frontLayouts_spaced {expr : Expr} (spelled : expr.Spelled) :
    ∃ head rest, frontLayouts expr = .word [] head :: rest ∧ IsWord head ∧ Gapped rest := by
  have generic {exprs : List Expr} (each : ∀ expr ∈ exprs, expr.Spelled) :
      ∃ head rest, Layout.word [] "expr".toList :: valueLayouts exprs = .word [] head :: rest ∧
        IsWord head ∧ Gapped rest :=
    ⟨_, _, rfl, by decide, values_gapped each⟩
  cases expr with
  | integer raw span => exact generic (List.forall_mem_singleton.mpr spelled)
  | symbol raw span => exact generic (List.forall_mem_singleton.mpr spelled)
  | list children span =>
      cases children with
      | nil => exact generic (List.forall_mem_nil _)
      | cons head args =>
          have others : ∀ arg ∈ args, arg.Spelled := fun arg member =>
            spelled.child arg (List.mem_cons_of_mem _ member)
          cases head with
          | integer raw headSpan => exact generic others
          | list inner headSpan => exact generic others
          | symbol form headSpan =>
              refine ⟨form.toList, _, by rw [frontLayouts],
                (spelled.child _ List.mem_cons_self).isWord, ?_⟩
              split
              · exact bindingLayouts_gapped others
              · exact values_gapped fun arg member => others arg (List.mem_of_mem_take member)

theorem pad_blank (indent : Nat) : ∀ c ∈ pad indent, isSpace c = true := by
  intro c member
  rw [List.eq_of_mem_replicate member]
  decide

theorem line_blank (indent : Nat) : ∀ c ∈ '\n' :: pad indent, isSpace c = true :=
  List.forall_mem_cons.mpr ⟨by decide, pad_blank indent⟩

theorem statementLayout_gap (expr : Expr) (indent : Nat) (gap : Text) :
    (statementLayout expr indent gap).gap = gap := by
  rw [statementLayout_eq]
  rfl

theorem statementLayout_spaced (expr : Expr) : expr.Spelled → ∀ indent gap,
    (∀ c ∈ gap, isSpace c = true) →
    Layout.WellSpaced appAlphabet (statementLayout expr indent gap) := by
  induction expr using statement_induct with
  | step expr induction =>
      intro spelled indent gap blank
      rcases frontLayouts_spaced spelled with ⟨head, rest, front, isWord, gapped⟩
      rw [statementLayout_eq, front, List.cons_append]
      apply form_spaced blank isWord
      apply gapped.append
      intro item member
      rcases List.mem_map.mp member with ⟨arg, present, rfl⟩
      rw [statementLayout_gap]
      exact ⟨induction arg present (spelled.arg present) _ _ (line_blank _), List.cons_ne_nil _ _⟩

theorem programLayouts_spaced {exprs : List Expr} (spelled : ∀ expr ∈ exprs, expr.Spelled) :
    (∀ item ∈ programLayouts exprs, Layout.WellSpaced appAlphabet item) ∧
      Layout.Apart (programLayouts exprs) := by
  cases exprs with
  | nil => exact ⟨List.forall_mem_nil _, List.forall_mem_nil _⟩
  | cons first rest =>
      rw [programLayouts]
      constructor
      · refine List.forall_mem_cons.mpr ⟨statementLayout_spaced first
          (spelled first List.mem_cons_self) 0 [] (List.forall_mem_nil _), ?_⟩
        intro item member
        rcases List.mem_map.mp member with ⟨expr, present, rfl⟩
        exact statementLayout_spaced expr (spelled expr (List.mem_cons_of_mem _ present)) 0 _
          (List.forall_mem_singleton.mpr (by decide))
      · intro item member
        rcases List.mem_map.mp member with ⟨expr, present, rfl⟩
        rw [statementLayout_gap]
        exact List.cons_ne_nil _ _

/-! ## Reading -/

/-- The expression has the words and brackets of the layout, whatever its spans. -/
inductive ReadsAs : Layout → Expr → Prop
  | word {gap text span} : ReadsAs (.word gap text) (atomExpr text span)
  | group {gap items children span} :
      List.Forall₂ ReadsAs items children → ReadsAs (.group gap items) (.list children span)

theorem atomExpr_integer {word : Text} {span : Span} (isInteger : isIntegerText word = true) :
    atomExpr word span = .integer (String.ofList word) span := by
  rw [atomExpr, if_pos isInteger]

theorem atomExpr_symbol {raw : String} {symbolSpan span : Span}
    (spelled : (Expr.symbol raw symbolSpan).Spelled) :
    atomExpr raw.toList span = .symbol raw span := by
  cases spelled with
  | symbol plain _ => rw [atomExpr, plain, String.ofList_toList]; rfl

theorem integerWord_isInteger {raw : String} (isInteger : isIntegerText raw.toList = true) :
    isIntegerText (integerWord raw) = true := by
  rw [integerWord]
  split
  · exact (integerText_word _).2.1
  · exact isInteger

theorem ReadsAs.word_eq {gap text : Text} {expr : Expr} (reads : ReadsAs (.word gap text) expr) :
    ∃ span, expr = atomExpr text span := by
  cases reads with
  | word => exact ⟨_, rfl⟩

theorem ReadsAs.integer_eq {gap : Text} {raw : String} {span : Span} {expr : Expr}
    (reads : ReadsAs (.word gap (integerWord raw)) expr)
    (spelled : (Expr.integer raw span).Spelled) :
    ∃ readSpan, expr = .integer (String.ofList (integerWord raw)) readSpan := by
  rcases reads.word_eq with ⟨readSpan, rfl⟩
  exact ⟨readSpan, atomExpr_integer (integerWord_isInteger spelled.word.1)⟩

theorem ReadsAs.symbol_eq {gap : Text} {raw : String} {span : Span} {expr : Expr}
    (reads : ReadsAs (.word gap raw.toList) expr) (spelled : (Expr.symbol raw span).Spelled) :
    ∃ readSpan, expr = .symbol raw readSpan := by
  rcases reads.word_eq with ⟨readSpan, rfl⟩
  exact ⟨readSpan, atomExpr_symbol spelled⟩

theorem ReadsAs.group_eq {gap : Text} {items : List Layout} {expr : Expr}
    (reads : ReadsAs (.group gap items) expr) :
    ∃ children span, expr = .list children span ∧ List.Forall₂ ReadsAs items children := by
  cases reads with
  | group row => exact ⟨_, _, rfl, row⟩

/-- What is read off a row splits as the row does. -/
theorem reads_append {first second : List Layout} {reads : List Expr}
    (row : List.Forall₂ ReadsAs (first ++ second) reads) :
    ∃ front back, reads = front ++ back ∧ List.Forall₂ ReadsAs first front ∧
      List.Forall₂ ReadsAs second back := by
  induction first generalizing reads with
  | nil => exact ⟨[], reads, rfl, .nil, row⟩
  | cons layout first induction =>
      cases row with
      | @cons _ read _ reads head tail =>
          rcases induction tail with ⟨front, back, rfl, fronts, backs⟩
          exact ⟨read :: front, back, rfl, .cons head fronts, backs⟩

/-- What holds of each expression and what is read off its layout holds along a row. -/
theorem reads_each {layout : Expr → Layout} {Property : Expr → Expr → Prop}
    {exprs reads : List Expr} (row : List.Forall₂ ReadsAs (exprs.map layout) reads)
    (each : ∀ expr ∈ exprs, ∀ read, ReadsAs (layout expr) read → Property expr read) :
    List.Forall₂ Property exprs reads := by
  induction exprs generalizing reads with
  | nil =>
      cases row with
      | nil => exact .nil
  | cons expr rest induction =>
      cases row with
      | @cons _ read _ others head tail =>
          exact .cons (each expr List.mem_cons_self read head)
            (induction tail fun other member => each other (List.mem_cons_of_mem expr member))

/-- Two rows are equal where they are at every place. -/
theorem rows_iff {Member : Type} {first second : Expr → Member} {same : Expr → Bool}
    {exprs reads : List Expr}
    (each : List.Forall₂ (fun expr read => first read = second expr ↔ same expr = true)
      exprs reads) :
    reads.map first = exprs.map second ↔ exprs.all same = true := by
  induction each with
  | nil => exact ⟨fun _ => rfl, fun _ => rfl⟩
  | cons head _ induction =>
      rw [List.map_cons, List.map_cons, List.cons.injEq, head, induction, List.all_cons,
        Bool.and_eq_true]

theorem row_readsAs {source : Text} {items : List Layout}
    (each : ∀ item ∈ items, ∀ offset,
      ReadsAs item (treeExpr source (Layout.lexemes appAlphabet offset item))) :
    ∀ offset, List.Forall₂ ReadsAs items
      ((Layout.rowLexemes appAlphabet offset items).map (treeExpr source)) := by
  induction items with
  | nil =>
      intro offset
      rw [Layout.rowLexemes]
      exact .nil
  | cons item items induction =>
      intro offset
      rw [Layout.rowLexemes, List.map_cons]
      exact .cons (each item List.mem_cons_self offset)
        (induction (fun other member => each other (List.mem_cons_of_mem _ member)) _)

theorem layout_readsAs (source : Text) (layout : Layout) : ∀ offset,
    ReadsAs layout (treeExpr source (Layout.lexemes appAlphabet offset layout)) := by
  induction layout using Layout.induct with
  | word gap text =>
      intro offset
      rw [Layout.lexemes, treeExpr]
      exact .word
  | group gap items induction =>
      intro offset
      rw [Layout.lexemes, treeExpr_group]
      exact .group (row_readsAs induction _)

theorem row_bracketed {alphabet : Alphabet} {items : List Layout}
    (each : ∀ item ∈ items, ∀ offset, LexemesBracketed (Layout.lexemes alphabet offset item)) :
    ∀ offset, ∀ tree ∈ Layout.rowLexemes alphabet offset items, LexemesBracketed tree := by
  induction items with
  | nil =>
      intro offset
      rw [Layout.rowLexemes]
      exact List.forall_mem_nil _
  | cons item items induction =>
      intro offset
      rw [Layout.rowLexemes]
      exact List.forall_mem_cons.mpr ⟨each item List.mem_cons_self offset,
        induction (fun other member => each other (List.mem_cons_of_mem _ member)) _⟩

theorem layout_bracketed {alphabet : Alphabet} (layout : Layout) : ∀ offset,
    LexemesBracketed (Layout.lexemes alphabet offset layout) := by
  induction layout using Layout.induct with
  | word gap text =>
      intro offset
      rw [Layout.lexemes]
      exact .leaf rfl
  | group gap items induction =>
      intro offset
      rw [Layout.lexemes]
      exact .group rfl (row_bracketed induction _) rfl

/-- The expressions of a program's canonical source, at their places in it. -/
def reread (exprs : List Expr) : List Expr :=
  (Layout.rowLexemes appAlphabet 0 (programLayouts exprs)).map
    (treeExpr (Layout.rowText (programLayouts exprs)))

/-- Canonical source is accepted, and its expressions are read off its layout. -/
theorem canonical_parses {exprs : List Expr} (spelled : ∀ expr ∈ exprs, expr.Spelled) :
    ∃ ast, parseCardCode (Layout.rowText (programLayouts exprs)) = .ok ast ∧
      ast.children = reread exprs := by
  rcases programLayouts_spaced spelled with ⟨spaced, apart⟩
  refine ⟨_, parseCardCode_reads (row_bracketed (fun item _ => layout_bracketed item) 0)
    (Layout.row_scans spaced apart), rfl⟩

theorem reread_readsAs (exprs : List Expr) :
    List.Forall₂ ReadsAs (programLayouts exprs) (reread exprs) :=
  row_readsAs (fun item _ => layout_readsAs _ item) 0

/-- The expressions of an accepted text are spelled as words and lists. -/
theorem parsed_spelled {source : Text} {ast : ProgramAst}
    (parsed : parseCardCode source = .ok ast) : ∀ expr ∈ ast.children, expr.Spelled := by
  rcases parseCardCode_inverts parsed with ⟨trees, bracketed, scans, same⟩
  intro expr member
  rw [same] at member
  rcases List.mem_map.mp member with ⟨tree, present, rfl⟩
  apply treeExpr_spelled source (bracketed tree present)
  intro lexeme inside isWord
  rcases scans.words lexeme (mem_flattenAll.mpr ⟨tree, present, inside⟩) isWord with
    ⟨nonempty, letters⟩
  refine ⟨nonempty, fun c letter => ?_⟩
  simpa [appAlphabet] using letters c letter

end CardCode.App
