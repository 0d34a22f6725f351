import CardCode.App.Nesting

/-! # The card of a node

For the span of an expression the user interface finds one card: the innermost of those
made from an expression that encloses it.
-/

namespace CardCode.App

/-! ## The cards at a span -/

/-- Where a card's expression stands. -/
def Card.place (card : Card) : Nat × Nat :=
  (card.span.startOffset, card.span.endOffset)

/-- The card reaches around a span. -/
def Card.Covers (card : Card) (start stop : Nat) : Prop :=
  card.span.startOffset ≤ start ∧ stop ≤ card.span.endOffset

/-- A filter that one member of a row passes leaves that member. -/
theorem filter_single {Member : Type} {row : List Member} {member : Member}
    {keep : Member → Bool} (nodup : row.Nodup) (present : member ∈ row)
    (kept : ∀ other ∈ row, keep other = true ↔ other = member) : row.filter keep = [member] := by
  classical
  have same : row.filter keep = row.filter fun other => other = member := by
    apply List.filter_congr
    intro other inside
    rw [Bool.eq_iff_iff, kept other inside, decide_eq_true_eq]
  rw [same, List.filter_eq, List.count_eq_one_of_mem nodup present, List.replicate_one]

section Picking

variable {cards : List Card} {card other : Card} {span : Span}

theorem mem_cardsForSpan (nonempty : span.startOffset < span.endOffset)
    (covers : card.Covers span.startOffset span.endOffset) (member : card ∈ cards) :
    card ∈ cardsForSpan cards span := by
  rcases covers with ⟨before, behind⟩
  rw [cardsForSpan, List.mem_filter, overlaps, Bool.and_eq_true, decide_eq_true_eq,
    decide_eq_true_eq]
  exact ⟨member, by omega, by omega⟩

theorem containsSpan_iff :
    containsSpan card.span span = true ↔ card.Covers span.startOffset span.endOffset := by
  rw [containsSpan, Bool.and_eq_true, decide_eq_true_eq, decide_eq_true_eq, Card.Covers]

theorem sameSpan_iff :
    sameSpan card.span span = true ↔ card.place = (span.startOffset, span.endOffset) := by
  rw [sameSpan, Bool.and_eq_true, decide_eq_true_eq, decide_eq_true_eq, Card.place,
    Prod.mk.injEq]

/-- Where the places are distinct, the innermost card around a span is the one found. -/
theorem cardsForNodeSpan_single (distinct : ((flattenCards cards).map Card.place).Nodup)
    (nonempty : span.startOffset < span.endOffset) (member : card ∈ flattenCards cards)
    (covers : card.Covers span.startOffset span.endOffset)
    (innermost : ∀ other ∈ flattenCards cards,
      other.Covers span.startOffset span.endOffset →
        other.Covers card.span.startOffset card.span.endOffset) :
    cardsForNodeSpan cards span = [card] := by
  have nodup : (cardsForSpan (flattenCards cards) span).Nodup := distinct.of_map.filter _
  have hit := mem_cardsForSpan nonempty covers member
  have unique : ∀ other ∈ cardsForSpan (flattenCards cards) span,
      other.place = card.place → other = card := by
    intro other present same
    exact List.inj_on_of_nodup_map distinct (List.mem_of_mem_filter present) member same
  have around : ∀ other ∈ cardsForSpan (flattenCards cards) span,
      other.Covers span.startOffset span.endOffset →
        other.Covers card.span.startOffset card.span.endOffset :=
    fun other present => innermost other (List.mem_of_mem_filter present)
  rw [cardsForNodeSpan]
  dsimp only
  generalize cardsForSpan (flattenCards cards) span = hits at nodup hit unique around
  by_cases exactly : card.place = (span.startOffset, span.endOffset)
  · have exactHits : hits.filter (fun card => sameSpan card.span span) = [card] := by
      apply filter_single nodup hit
      intro other present
      rw [sameSpan_iff, ← exactly]
      exact ⟨unique other present, fun same => by rw [same]⟩
    rw [exactHits]
    rfl
  · have exactHits : hits.filter (fun card => sameSpan card.span span) = [] := by
      apply List.filter_eq_nil_iff.mpr
      intro other present passes
      rw [sameSpan_iff, Card.place, Prod.mk.injEq] at passes
      rw [Card.place, Prod.mk.injEq] at exactly
      rcases passes with ⟨starts, stops⟩
      rcases around other present ⟨Nat.le_of_eq starts, Nat.le_of_eq stops.symm⟩ with
        ⟨before, behind⟩
      rcases covers with ⟨start, stop⟩
      omega
    have containing {other : Card} :
        other ∈ hits.filter (fun card => containsSpan card.span span) ↔
          other ∈ hits ∧ other.Covers span.startOffset span.endOffset := by
      rw [List.mem_filter, containsSpan_iff]
    have smallest : ((hits.filter fun card => containsSpan card.span span).map fun card =>
        spanSize card.span).min? = some (spanSize card.span) := by
      apply List.min?_eq_some_iff.mpr
      refine ⟨List.mem_map.mpr ⟨card, containing.mpr ⟨hit, covers⟩, rfl⟩, ?_⟩
      intro size present
      rcases List.mem_map.mp present with ⟨other, inside, rfl⟩
      rcases containing.mp inside with ⟨present, others⟩
      rcases around other present others with ⟨before, behind⟩
      rw [spanSize, spanSize]
      omega
    rw [exactHits, smallest]
    dsimp only
    rw [List.isEmpty_nil, if_pos rfl]
    apply filter_single (nodup.filter _) (containing.mpr ⟨hit, covers⟩)
    intro other inside
    rcases containing.mp inside with ⟨present, others⟩
    rw [decide_eq_true_eq]
    constructor
    · intro size
      rcases around other present others with ⟨before, behind⟩
      apply unique other present
      rw [spanSize, spanSize] at size
      rw [Card.place, Card.place, Prod.mk.injEq]
      rcases covers with ⟨first, last⟩
      omega
    · intro same
      rw [same]

theorem cardsForNodeSpan_none
    (nowhere : ∀ card ∈ flattenCards cards, ¬ card.Covers span.startOffset span.endOffset) :
    cardsForNodeSpan cards span = [] := by
  have absent : ∀ card ∈ cardsForSpan (flattenCards cards) span,
      ¬ card.Covers span.startOffset span.endOffset :=
    fun card present => nowhere card (List.mem_of_mem_filter present)
  rw [cardsForNodeSpan]
  dsimp only
  generalize cardsForSpan (flattenCards cards) span = hits at absent
  have exactHits : hits.filter (fun card => sameSpan card.span span) = [] := by
    apply List.filter_eq_nil_iff.mpr
    intro card present passes
    rw [sameSpan_iff, Card.place, Prod.mk.injEq] at passes
    exact absent card present ⟨Nat.le_of_eq passes.1, Nat.le_of_eq passes.2.symm⟩
  have containing : hits.filter (fun card => containsSpan card.span span) = [] := by
    apply List.filter_eq_nil_iff.mpr
    intro card present passes
    exact absent card present (containsSpan_iff.mp passes)
  rw [exactHits, containing]
  rfl

end Picking

/-! ## Cards and their expressions -/

section Making

variable {manifest : Manifest} {expr inner : Expr} {id : String}

theorem projectStatement_span (manifest : Manifest) (expr : Expr) (id : String) :
    (projectStatement manifest expr id).span = expr.span := by
  have projects := projectStatement_projects manifest expr id
  generalize projectStatement manifest expr id = card at projects ⊢
  cases projects with
  | leaf _ same => exact same
  | body _ same _ => exact same
  | fork _ same _ => exact same

theorem parts_madeFrom (manifest : Manifest) (expr : Expr) (id : String) :
    ∃ exprs, exprs <:+ expr.items ∧
      MadeFrom manifest (projectStatement manifest expr id).parts exprs := by
  have projects := projectStatement_projects manifest expr id
  generalize projectStatement manifest expr id = card at projects ⊢
  cases projects with
  | leaf _ _ => exact ⟨[], List.nil_suffix, .nil⟩
  | body _ _ suffix => exact ⟨_, suffix, projectChildren_madeFrom manifest _ _⟩
  | fork _ _ suffix => exact ⟨_, suffix, .cons ⟨_, rfl⟩ (.cons ⟨_, rfl⟩ .nil)⟩

/-- Every card of a row is among those made from one of its expressions. -/
theorem MadeFrom.source {cards : List Card} {exprs : List Expr}
    (made : MadeFrom manifest cards exprs) {card : Card} (member : card ∈ flattenCards cards) :
    ∃ expr ∈ exprs, ∃ id, card ∈ flattenCard (projectStatement manifest expr id) := by
  induction made with
  | nil => cases member
  | @cons first expr rest exprs head _ induction =>
      rw [flattenCards, List.mem_append] at member
      rcases member with inFirst | inRest
      · rcases head with ⟨id, rfl⟩
        exact ⟨expr, List.mem_cons_self, id, inFirst⟩
      · rcases induction inRest with ⟨other, present, id, inside⟩
        exact ⟨other, List.mem_cons_of_mem expr present, id, inside⟩

/-- Every card is made from an expression inside the statement. -/
theorem exists_form (expr : Expr) : ∀ {id : String} {card : Card},
    card ∈ flattenCard (projectStatement manifest expr id) →
    ∃ form, expr.Encloses form ∧ card = projectStatement manifest form card.id := by
  induction expr using Expr.items_induct with
  | step expr induction =>
      intro id card member
      rw [flattenCard_eq] at member
      rcases List.mem_cons.mp member with rfl | below
      · exact ⟨expr, .self, by rw [projectStatement_id]⟩
      · rcases parts_madeFrom manifest expr id with ⟨exprs, suffix, made⟩
        rcases made.source below with ⟨item, present, itemId, inside⟩
        have inItems := suffix.subset present
        rcases induction item inItems inside with ⟨form, encloses, same⟩
        exact ⟨form, .item inItems encloses, same⟩

/-- A card stands where its expression does, inside the statement. -/
theorem card_bounds (nested : expr.Nested) {card : Card}
    (member : card ∈ flattenCard (projectStatement manifest expr id)) :
    expr.start ≤ card.span.startOffset ∧ card.span.startOffset < card.span.endOffset ∧
      card.span.endOffset ≤ expr.stop := by
  rcases exists_form expr member with ⟨form, encloses, same⟩
  have bounds := encloses.bounds nested
  have nonempty := (encloses.nested nested).nonempty
  rw [same, projectStatement_span]
  exact ⟨bounds.1, nonempty, bounds.2⟩

/-- A card of a statement that stands apart from an expression does not reach around it. -/
theorem not_covers (nested : expr.Nested) {card : Card}
    (member : card ∈ flattenCard (projectStatement manifest expr id))
    (nonempty : inner.start < inner.stop)
    (apart : expr.stop ≤ inner.start ∨ inner.stop ≤ expr.start) :
    ¬ card.Covers inner.start inner.stop := by
  intro covers
  rcases covers with ⟨before, behind⟩
  have bounds := card_bounds nested member
  omega

end Making

/-! ## The innermost card -/

/-- The card reaches around a span, and every other card that does reaches around it too. -/
structure IsInnermost (cards : List Card) (card : Card) (start stop : Nat) : Prop where
  member : card ∈ cards
  covers : card.Covers start stop
  innermost : ∀ other ∈ cards, other.Covers start stop →
    other.Covers card.span.startOffset card.span.endOffset

theorem IsInnermost.append_left {front back : List Card} {card : Card} {start stop : Nat}
    (inner : IsInnermost front card start stop)
    (apart : ∀ other ∈ back, ¬ other.Covers start stop) :
    IsInnermost (front ++ back) card start stop := by
  refine ⟨List.mem_append_left back inner.member, inner.covers, ?_⟩
  intro other member covers
  rcases List.mem_append.mp member with inFront | inBack
  · exact inner.innermost other inFront covers
  · exact absurd covers (apart other inBack)

theorem IsInnermost.append_right {front back : List Card} {card : Card} {start stop : Nat}
    (inner : IsInnermost back card start stop)
    (apart : ∀ other ∈ front, ¬ other.Covers start stop) :
    IsInnermost (front ++ back) card start stop := by
  refine ⟨List.mem_append_right front inner.member, inner.covers, ?_⟩
  intro other member covers
  rcases List.mem_append.mp member with inFront | inBack
  · exact absurd covers (apart other inFront)
  · exact inner.innermost other inBack covers

section Finding

variable {manifest : Manifest} {cards : List Card} {exprs : List Expr} {inner : Expr}

/-- What a row encloses has an innermost card when each of its expressions sees to it. -/
theorem MadeFrom.innermost (made : MadeFrom manifest cards exprs) (row : NestedRow exprs)
    (each : ∀ expr ∈ exprs, expr.Encloses inner → ∀ id, ∃ card,
      IsInnermost (flattenCard (projectStatement manifest expr id)) card inner.start inner.stop)
    (part : IsPartOf exprs inner) :
    ∃ card, IsInnermost (flattenCards cards) card inner.start inner.stop := by
  induction made with
  | nil =>
      rcases part with ⟨expr, member, -⟩
      cases member
  | @cons first expr rest exprs head others induction =>
      rcases head with ⟨id, rfl⟩
      have later := row.sublist (List.sublist_cons_self expr exprs)
      have ordered := (List.pairwise_cons.mp row.ordered).1
      have firstNested := row.nested expr List.mem_cons_self
      rw [flattenCards]
      rcases part with ⟨outer, member, encloses⟩
      have bounds := encloses.bounds (row.nested outer member)
      have nonempty := (encloses.nested (row.nested outer member)).nonempty
      rcases List.mem_cons.mp member with rfl | behind
      · rcases each outer List.mem_cons_self encloses id with ⟨card, found⟩
        refine ⟨card, found.append_left ?_⟩
        intro other inRest
        rcases MadeFrom.source others inRest with ⟨next, present, nextId, inNext⟩
        have order := ordered next present
        rw [Expr.IsBefore] at order
        exact not_covers (later.nested next present) inNext nonempty (by omega)
      · rcases induction later (fun other present => each other (List.mem_cons_of_mem expr present))
          ⟨outer, behind, encloses⟩ with ⟨card, found⟩
        refine ⟨card, found.append_right ?_⟩
        intro other inFirst
        have order := ordered outer behind
        rw [Expr.IsBefore] at order
        exact not_covers firstNested inFirst nonempty (by omega)

/-- The card of a statement is the innermost one where its parts are made from others. -/
theorem self_innermost {expr : Expr} {id : String} (nested : expr.Nested)
    (suffix : exprs <:+ expr.items)
    (made : MadeFrom manifest (projectStatement manifest expr id).parts exprs)
    (encloses : expr.Encloses inner) (absent : ¬ IsPartOf exprs inner) :
    IsInnermost (flattenCard (projectStatement manifest expr id))
      (projectStatement manifest expr id) inner.start inner.stop := by
  have bounds := encloses.bounds nested
  have nonempty := (encloses.nested nested).nonempty
  rw [flattenCard_eq]
  refine ⟨List.mem_cons_self, ?_, ?_⟩
  · rw [Card.Covers, projectStatement_span]
    exact bounds
  · intro other member covers
    rcases List.mem_cons.mp member with rfl | below
    · exact ⟨Nat.le_refl _, Nat.le_refl _⟩
    · rcases made.source below with ⟨item, present, itemId, inside⟩
      have inItems := suffix.subset present
      have itemBounds := card_bounds (nested.item item inItems) inside
      rcases covers with ⟨before, behind⟩
      -- A card below reaches around the expression only where its own item encloses it.
      cases encloses with
      | self =>
          have within := nested.inside item inItems
          omega
      | @item _ holder _ holds encloses =>
          have same : holder = item :=
            nested.row.unique holds inItems encloses (by omega) (by omega)
          rw [same] at encloses
          exact absurd ⟨item, present, encloses⟩ absent

theorem statement_innermost (expr : Expr) : expr.Nested → expr.Encloses inner → ∀ id, ∃ card,
    IsInnermost (flattenCard (projectStatement manifest expr id)) card inner.start inner.stop := by
  induction expr using Expr.items_induct with
  | step expr induction =>
      intro nested encloses id
      rcases parts_madeFrom manifest expr id with ⟨exprs, suffix, made⟩
      by_cases part : IsPartOf exprs inner
      · have row : NestedRow exprs := nested.row.sublist suffix.sublist
        rcases made.innermost row
          (fun item member => induction item (suffix.subset member) (row.nested item member))
          part with ⟨card, found⟩
        have below : card ∈ flattenCard (projectStatement manifest expr id) := by
          rw [flattenCard_eq]
          exact List.mem_cons_of_mem _ found.member
        have bounds := card_bounds nested below
        refine ⟨card, below, found.covers, ?_⟩
        intro other member covers
        rw [flattenCard_eq] at member
        rcases List.mem_cons.mp member with rfl | inParts
        · rw [Card.Covers, projectStatement_span]
          exact ⟨bounds.1, bounds.2.2⟩
        · exact found.innermost other inParts covers
      · exact ⟨_, self_innermost nested suffix made encloses part⟩

/-! ## No two cards in one place -/

theorem MadeFrom.distinct (made : MadeFrom manifest cards exprs) (row : NestedRow exprs)
    (each : ∀ expr ∈ exprs, ∀ id,
      ((flattenCard (projectStatement manifest expr id)).map Card.place).Nodup) :
    ((flattenCards cards).map Card.place).Nodup := by
  induction made with
  | nil => exact .nil
  | @cons first expr rest exprs head others induction =>
      rcases head with ⟨id, rfl⟩
      have later := row.sublist (List.sublist_cons_self expr exprs)
      have ordered := (List.pairwise_cons.mp row.ordered).1
      have firstNested := row.nested expr List.mem_cons_self
      rw [flattenCards, List.map_append, List.nodup_append]
      refine ⟨each expr List.mem_cons_self id, induction later fun other present =>
        each other (List.mem_cons_of_mem expr present), ?_⟩
      intro place inFirst other inRest same
      rcases List.mem_map.mp inFirst with ⟨card, member, rfl⟩
      rcases List.mem_map.mp inRest with ⟨second, inside, rfl⟩
      rcases MadeFrom.source others inside with ⟨next, present, nextId, inNext⟩
      have order := ordered next present
      have bounds := card_bounds firstNested member
      have nextBounds := card_bounds (later.nested next present) inNext
      rw [Card.place, Card.place, Prod.mk.injEq] at same
      rw [Expr.IsBefore] at order
      omega

theorem statement_distinct (expr : Expr) : expr.Nested → ∀ id,
    ((flattenCard (projectStatement manifest expr id)).map Card.place).Nodup := by
  induction expr using Expr.items_induct with
  | step expr induction =>
      intro nested id
      rcases parts_madeFrom manifest expr id with ⟨exprs, suffix, made⟩
      have row : NestedRow exprs := nested.row.sublist suffix.sublist
      rw [flattenCard_eq, List.map_cons, List.nodup_cons]
      refine ⟨?_, made.distinct row fun item member =>
        induction item (suffix.subset member) (row.nested item member)⟩
      intro repeated
      rcases List.mem_map.mp repeated with ⟨card, below, same⟩
      rcases made.source below with ⟨item, present, itemId, inside⟩
      have inItems := suffix.subset present
      have bounds := card_bounds (nested.item item inItems) inside
      have within := nested.inside item inItems
      rw [Card.place, Card.place, projectStatement_span, Prod.mk.injEq] at same
      have start : expr.span.startOffset = expr.start := rfl
      omega

end Finding

/-! ## The cards of an accepted text -/

/-- The form is what the card was made from. -/
def IsFormOf (manifest : Manifest) (exprs : List Expr) (card : Card) (form : Expr) : Prop :=
  IsPartOf exprs form ∧ card = projectStatement manifest form card.id

theorem exists_formOf {manifest : Manifest} {exprs : List Expr} {card : Card}
    (member : card ∈ flattenCards (projectProgram exprs manifest)) :
    ∃ form, IsFormOf manifest exprs card form := by
  rcases (projectProgram_madeFrom manifest exprs).source member with ⟨expr, present, id, inside⟩
  rcases exists_form expr inside with ⟨form, encloses, same⟩
  exact ⟨form, ⟨expr, present, encloses⟩, same⟩

/-- An expression has one card at its span, the innermost whose form encloses it; the span of
several top-level expressions has none. -/
theorem nodeSpan_innermost (manifest : Manifest) (source : Text) (ast : ProgramAst)
    (parsed : parseCardCode source = .ok ast) :
    (∀ expr, IsPartOf ast.children expr → ∃ card form,
      cardsForNodeSpan (projectProgram ast.children manifest) expr.span = [card] ∧
        IsFormOf manifest ast.children card form ∧ form.Encloses expr ∧
          ∀ other ∈ flattenCards (projectProgram ast.children manifest), ∀ otherForm,
            IsFormOf manifest ast.children other otherForm → otherForm.Encloses expr →
              otherForm.Encloses form) ∧
      ∀ front first middle last back,
        ast.children = front ++ first :: (middle ++ last :: back) →
          ∀ span : Span, span.startOffset = first.span.startOffset →
            span.endOffset = last.span.endOffset →
            cardsForNodeSpan (projectProgram ast.children manifest) span = [] := by
  have row := parsed_nested parsed
  have made := projectProgram_madeFrom manifest ast.children
  have partNested {expr : Expr} (part : IsPartOf ast.children expr) : expr.Nested := by
    rcases part with ⟨outer, member, encloses⟩
    exact encloses.nested (row.nested outer member)
  have formSpan {card : Card} {form : Expr}
      (formOf : IsFormOf manifest ast.children card form) : card.span = form.span := by
    rw [formOf.2, projectStatement_span]
  constructor
  · intro expr part
    rcases made.innermost row
      (fun outer member => statement_innermost outer (row.nested outer member)) part with
      ⟨card, found⟩
    have distinct := made.distinct row
      fun outer member => statement_distinct outer (row.nested outer member)
    rcases exists_formOf found.member with ⟨form, formOf⟩
    have covers := found.covers
    rw [Card.Covers, formSpan formOf] at covers
    refine ⟨card, form, ?_, formOf, row.encloses formOf.1 part covers.1 covers.2, ?_⟩
    · exact cardsForNodeSpan_single distinct (partNested part).nonempty found.member found.covers
        found.innermost
    · intro other member otherForm otherOf encloses
      have bounds := encloses.bounds (partNested otherOf.1)
      have around := found.innermost other member (by
        rw [Card.Covers, formSpan otherOf]
        exact bounds)
      rw [Card.Covers, formSpan otherOf, formSpan formOf] at around
      exact row.encloses otherOf.1 formOf.1 around.1 around.2
  · intro front first middle last back split span starts stops
    rw [← Expr.start] at starts
    rw [← Expr.stop] at stops
    apply cardsForNodeSpan_none
    intro card member covers
    rcases made.source member with ⟨expr, present, id, inside⟩
    have bounds := card_bounds (row.nested expr present) inside
    have firstMember : first ∈ ast.children := by simp [split]
    have lastMember : last ∈ ast.children := by simp [split]
    have order : first.IsBefore last := by
      have ordered := row.ordered
      rw [split, List.pairwise_append, List.pairwise_cons] at ordered
      exact ordered.2.1.1 last (by simp)
    have firstNonempty := (row.nested first firstMember).nonempty
    have lastNonempty := (row.nested last lastMember).nonempty
    rcases covers with ⟨before, behind⟩
    rw [Expr.IsBefore] at order
    have isFirst : first = expr :=
      row.unique firstMember present .self (by omega) (by omega)
    have isLast : last = expr := row.unique lastMember present .self (by omega) (by omega)
    rw [isFirst, isLast] at order
    have nonempty := (row.nested expr present).nonempty
    omega

theorem nestedBeep_nodeSpan : ∃ ast, parseCardCode "(do (beep)) (beep)".toList = .ok ast ∧
    ∀ expr, IsPartOf ast.children expr → ∃ card,
      cardsForNodeSpan (projectProgram ast.children defaultManifest) expr.span = [card] := by
  rcases @exists_parsed "(do (beep)) (beep)".toList (by decide +kernel) with ⟨ast, parsed⟩
  refine ⟨ast, parsed, ?_⟩
  intro expr part
  rcases (nodeSpan_innermost defaultManifest _ ast parsed).1 expr part with ⟨card, _, found, _⟩
  exact ⟨card, found⟩

end CardCode.App
