import CardCode.App.Again

/-! # Cards up to ids and places

Projection looks at the words of an expression and at their nesting. Where these are the
same, the cards are the same but for their ids and the places they were read from.
-/

namespace CardCode.App

/-! ## Bare cards -/

def CardHead.bare (head : CardHead) : CardHead :=
  { head with
    id := ""
    params := head.params.map fun param => (param.1, ⟨param.2.value.bare, default⟩)
    args := head.args.map CardValue.bare
    span := default }

namespace Card

mutual

/-- A card without ids and places. -/
def bare : Card → Card
  | .leaf head => .leaf head.bare
  | .body head children => .body head.bare (bareAll children)
  | .fork head thenCards elseCards => .fork head.bare (bareAll thenCards) (bareAll elseCards)

def bareAll : List Card → List Card
  | [] => []
  | card :: rest => card.bare :: bareAll rest

end

theorem bareAll_eq (cards : List Card) : bareAll cards = cards.map bare := by
  induction cards with
  | nil => rw [bareAll, List.map_nil]
  | cons card rest induction => rw [bareAll, List.map_cons, induction]

end Card

/-! ## Expressions alike -/

/-- The same words, nested in the same way; integers need only have the same value. -/
inductive Expr.Alike : Expr → Expr → Prop
  | integer {raw other span place} :
      projectIntegerValue other = projectIntegerValue raw →
      Alike (.integer raw span) (.integer other place)
  | symbol {raw span place} : Alike (.symbol raw span) (.symbol raw place)
  | list {items others span place} :
      List.Forall₂ Alike items others → Alike (.list items span) (.list others place)

theorem Expr.Alike.refl (expr : Expr) : expr.Alike expr := by
  induction expr using Expr.induct with
  | integer raw span => exact .integer rfl
  | symbol raw span => exact .symbol
  | list children span induction => exact .list (List.forall₂_same.mpr induction)

theorem Expr.Headed.arg {form : String} {headSpan span : Span} {args : List Expr}
    (headed : (Expr.list (.symbol form headSpan :: args) span).Headed) :
    ∀ arg ∈ args, arg.Headed := by
  cases headed with
  | list each => exact each

/-- What a relation says of its second members holds along a row. -/
theorem each_right {First Second : Type} {related : First → Second → Prop}
    {Property : Second → Prop} (holds : ∀ first second, related first second → Property second)
    {firsts : List First} {seconds : List Second} (each : List.Forall₂ related firsts seconds) :
    ∀ second ∈ seconds, Property second := by
  induction each with
  | nil => exact List.forall_mem_nil _
  | cons here _ induction => exact List.forall_mem_cons.mpr ⟨holds _ _ here, induction⟩

/-- What holds of alike expressions holds along alike rows. -/
theorem alike_row {Property : Expr → Expr → Prop} {exprs others : List Expr}
    (alike : List.Forall₂ Expr.Alike exprs others)
    (each : ∀ expr ∈ exprs, ∀ other, expr.Alike other → Property expr other) :
    List.Forall₂ Property exprs others := by
  induction alike with
  | nil => exact .nil
  | @cons expr other exprs others same _ induction =>
      exact .cons (each expr List.mem_cons_self other same)
        (induction fun expr member => each expr (List.mem_cons_of_mem _ member))

theorem Expr.Alike.headed (expr : Expr) : expr.Headed → ∀ other, expr.Alike other →
    other.Headed := by
  induction expr using Expr.induct with
  | integer raw span =>
      intro _ other alike
      cases alike with
      | integer _ => exact .integer
  | symbol raw span =>
      intro _ other alike
      cases alike with
      | symbol => exact .symbol
  | list children span induction =>
      intro headed other alike
      cases headed with
      | @list raw headSpan args _ each =>
          cases alike with
          | list items =>
              cases items with
              | cons first rest =>
                  cases first with
                  | symbol =>
                      have holds := alike_row rest fun arg member =>
                        induction arg (List.mem_cons_of_mem _ member) (each arg member)
                      exact .list (@each_right _ _ (fun _ other => other.Headed) Expr.Headed
                        (fun _ _ headed => headed) _ _ holds)

theorem row_headed {exprs others : List Expr} (headed : ∀ expr ∈ exprs, expr.Headed)
    (alike : List.Forall₂ Expr.Alike exprs others) : ∀ other ∈ others, other.Headed := by
  have holds := alike_row alike fun expr member => Expr.Alike.headed expr (headed expr member)
  exact @each_right _ _ (fun _ other => other.Headed) Expr.Headed (fun _ _ headed => headed) _ _
    holds

theorem values_bare {exprs others : List Expr}
    (each : List.Forall₂ (fun expr other => (projectValue other).bare = (projectValue expr).bare)
      exprs others) :
    (others.map projectValue).map CardValue.bare = (exprs.map projectValue).map CardValue.bare := by
  induction each with
  | nil => rfl
  | cons same _ induction => simp only [List.map_cons, same, induction]

/-- Alike expressions have the same value. -/
theorem Expr.Alike.value (expr : Expr) : expr.Headed → ∀ other, expr.Alike other →
    (projectValue other).bare = (projectValue expr).bare := by
  induction expr using Expr.induct with
  | integer raw span =>
      intro _ other alike
      cases alike with
      | integer same => rw [projectValue, projectValue, same]
  | symbol raw span =>
      intro _ other alike
      cases alike with
      | symbol => exact symbol_isAgain.value
  | list children span induction =>
      intro headed other alike
      cases headed with
      | @list raw headSpan args _ each =>
          cases alike with
          | list items =>
              cases items with
              | @cons _ head _ others first rest =>
                  cases first with
                  | symbol =>
                      have values := values_bare (alike_row rest fun arg member =>
                        induction arg (List.mem_cons_of_mem _ member) (each arg member))
                      rw [projectValue, projectValue, CardValue.bare, CardValue.bare,
                        projectValues_eq, projectValues_eq, CardValue.bareAll_eq,
                        CardValue.bareAll_eq, values]
                      rfl

theorem row_values {exprs others : List Expr} (headed : ∀ expr ∈ exprs, expr.Headed)
    (alike : List.Forall₂ Expr.Alike exprs others) :
    (others.map projectValue).map CardValue.bare = (exprs.map projectValue).map CardValue.bare :=
  values_bare (alike_row alike fun expr member => Expr.Alike.value expr (headed expr member))

/-! ## Statements alike -/

/-- Children of alike expressions, projected to the same bare cards. -/
structure Child.Alike (child other : Child) : Prop where
  headed : child.expr.Headed
  expr : child.expr.Alike other.expr
  project : ∀ id otherId, (other.project otherId).bare = (child.project id).bare

theorem Child.Alike.value {child other : Child} (alike : child.Alike other) :
    (projectValue other.expr).bare = (projectValue child.expr).bare :=
  Expr.Alike.value child.expr alike.headed other.expr alike.expr

section Children

variable {children others : List Child}

theorem mapIdx_bare {project again : Nat → Child → Card}
    (same : ∀ index child other, child.Alike other →
      (again index other).bare = (project index child).bare)
    (alike : List.Forall₂ Child.Alike children others) :
    (others.mapIdx again).map Card.bare = (children.mapIdx project).map Card.bare := by
  induction alike generalizing project again with
  | nil => rfl
  | cons first _ induction =>
      rw [List.mapIdx_cons, List.mapIdx_cons, List.map_cons, List.map_cons, same 0 _ _ first,
        induction fun index => same (index + 1)]

theorem alike_tail (alike : List.Forall₂ Child.Alike children others) :
    List.Forall₂ Child.Alike children.tail others.tail := by
  cases alike with
  | nil => exact .nil
  | cons _ rest => exact rest

theorem projectChildren_bare (alike : List.Forall₂ Child.Alike children others)
    (id otherId : String) :
    (projectChildren others otherId).map Card.bare = (projectChildren children id).map Card.bare :=
  mapIdx_bare (fun _ _ _ alike => alike.project _ _) alike

theorem zipWith_bare (names : List String) (alike : List.Forall₂ Child.Alike children others) :
    (names.zipWith (fun name (child : Child) =>
        (name, (⟨projectValue child.expr, child.expr.span⟩ : Param))) others).map
        (fun param => (param.1, (⟨param.2.value.bare, default⟩ : Param))) =
      (names.zipWith (fun name (child : Child) =>
        (name, (⟨projectValue child.expr, child.expr.span⟩ : Param))) children).map
        (fun param => (param.1, ⟨param.2.value.bare, default⟩)) := by
  induction alike generalizing names with
  | nil => rfl
  | cons first _ induction =>
      cases names with
      | nil => rfl
      | cons name names =>
          rw [List.zipWith_cons_cons, List.zipWith_cons_cons, List.map_cons, List.map_cons,
            induction names, first.value]

end Children

section Statements

variable {manifest : Manifest} {expr other : Expr} {children others : List Child}

theorem generic_bare (headed : expr.Headed) (alike : expr.Alike other) (id otherId : String) :
    (genericExpressionCard other otherId).bare = (genericExpressionCard expr id).bare := by
  cases alike with
  | integer same =>
      simp only [genericExpressionCard, Card.bare, CardHead.bare, List.map_cons, List.map_nil,
        projectValue, same]
  | @symbol raw span place =>
      have value := (@symbol_isAgain raw span place).value
      simp only [genericExpressionCard, Card.bare, CardHead.bare, List.map_cons, List.map_nil,
        value]
  | list items =>
      cases headed with
      | list each =>
          cases items with
          | cons first rest =>
              cases first with
              | symbol =>
                  simp only [genericExpressionCard, Card.bare, CardHead.bare, List.map_nil,
                    row_values each rest]

theorem baseCard_bare (card : ManifestCard) {id otherId : String} {span place : Span}
    {params again : List (String × Param)}
    (same : again.map (fun param => (param.1, (⟨param.2.value.bare, default⟩ : Param))) =
      params.map fun param => (param.1, ⟨param.2.value.bare, default⟩)) :
    (baseCard otherId card place again).bare = (baseCard id card span params).bare := by
  simp only [baseCard, CardHead.bare, same]

theorem symbols_alike {params again : List Expr} (alike : List.Forall₂ Expr.Alike params again) :
    again.all isSymbol = params.all isSymbol ∧ again.map symbolName = params.map symbolName := by
  induction alike with
  | nil => exact ⟨rfl, rfl⟩
  | cons first _ induction =>
      rw [List.all_cons, List.all_cons, List.map_cons, List.map_cons, induction.1, induction.2]
      cases first with
      | integer _ => exact ⟨rfl, rfl⟩
      | symbol => exact ⟨rfl, rfl⟩
      | list _ => exact ⟨rfl, rfl⟩

theorem sequence_bare (headed : expr.Headed) (same : expr.Alike other)
    (alike : List.Forall₂ Child.Alike children others) (id otherId cardId : String)
    (names : List String) (start : Nat) :
    (projectSequenceCard manifest other others otherId cardId names start).bare =
      (projectSequenceCard manifest expr children id cardId names start).bare := by
  rw [projectSequenceCard, projectSequenceCard, alike.length_eq]
  split
  · exact generic_bare headed same id otherId
  · rw [Card.bare, Card.bare, Card.bareAll_eq, Card.bareAll_eq,
      projectChildren_bare (List.forall₂_drop start alike) id otherId,
      baseCard_bare _ (zipWith_bare names (alike_tail alike))]

theorem if_bare (headed : expr.Headed) (same : expr.Alike other)
    (alike : List.Forall₂ Child.Alike children others) (id otherId : String) :
    (projectIf manifest other others otherId).bare =
      (projectIf manifest expr children id).bare := by
  have generic := generic_bare headed same id otherId
  cases alike with
  | nil => exact generic
  | cons _ rest =>
  cases rest with
  | nil => exact generic
  | cons condition rest =>
  cases rest with
  | nil => exact generic
  | cons thenAlike rest =>
  cases rest with
  | nil => exact generic
  | cons elseAlike rest =>
  cases rest with
  | cons _ _ => exact generic
  | nil =>
      simp only [projectIf, Card.bare, Card.bareAll, thenAlike.project (id ++ "-then-1"),
        elseAlike.project (id ++ "-else-1")]
      congr 1
      apply baseCard_bare
      simp only [List.map_cons, List.map_nil, condition.value]

theorem define_bare (headed : expr.Headed) (same : expr.Alike other)
    (alike : List.Forall₂ Child.Alike children others) (id otherId : String) :
    (projectDefine manifest other others otherId).bare =
      (projectDefine manifest expr children id).bare := by
  have generic := generic_bare headed same id otherId
  cases alike with
  | nil => exact generic
  | cons _ rest =>
  cases rest with
  | nil => exact generic
  | @cons target again body bodyAgain first rest =>
      rcases target with ⟨targetExpr, projectTarget⟩
      rcases again with ⟨againExpr, projectAgain⟩
      have heads : targetExpr.Alike againExpr := first.expr
      cases heads with
      | integer _ => exact generic
      | symbol =>
          cases rest with
          | nil => exact generic
          | cons value rest =>
              cases rest with
              | cons _ _ => exact generic
              | nil =>
                  simp only [projectDefine, Card.bare]
                  congr 1
                  apply baseCard_bare
                  simp only [List.map_cons, List.map_nil, value.value]
      | list items =>
          cases items with
          | nil => exact generic
          | cons name params =>
              cases name with
              | integer _ => exact generic
              | list _ => exact generic
              | symbol =>
                  rcases symbols_alike params with ⟨symbols, names⟩
                  have empty : bodyAgain.isEmpty = body.isEmpty := by
                    cases rest <;> rfl
                  simp only [projectDefine, symbols, empty, names]
                  split
                  · exact generic
                  · rw [Card.bare, Card.bare, Card.bareAll_eq, Card.bareAll_eq,
                      projectChildren_bare rest id otherId]
                    rfl

/-- Alike forms are projected alike. -/
theorem form_bare (headed : expr.Headed) (same : expr.Alike other) (form : String)
    (alike : List.Forall₂ Child.Alike children others) (id otherId : String) :
    (projectForm manifest other form others otherId).bare =
      (projectForm manifest expr form children id).bare := by
  have ite {condition : Prop} [Decidable condition] {first second again last : Card}
      (whenYes : again.bare = first.bare) (whenNo : last.bare = second.bare) :
      (if condition then again else last).bare = (if condition then first else second).bare := by
    split
    · exact whenYes
    · exact whenNo
  rw [projectForm, projectForm]
  apply ite (define_bare headed same alike id otherId)
  apply ite (sequence_bare headed same alike id otherId _ _ _)
  apply ite (sequence_bare headed same alike id otherId _ _ _)
  apply ite (sequence_bare headed same alike id otherId _ _ _)
  apply ite (sequence_bare headed same alike id otherId _ _ _)
  apply ite (if_bare headed same alike id otherId)
  cases chooseCard manifest form with
  | none => exact generic_bare headed same id otherId
  | some card =>
      dsimp only
      rw [alike.length_eq]
      apply ite _ (generic_bare headed same id otherId)
      rw [Card.bare, Card.bare, baseCard_bare _ (zipWith_bare card.params (alike_tail alike))]

end Statements

/-- Alike statements are projected to the same cards, but for ids and places. -/
theorem Expr.Alike.statement {manifest : Manifest} (expr : Expr) : expr.Headed →
    ∀ other, expr.Alike other → ∀ id otherId,
      (projectStatement manifest other otherId).bare =
        (projectStatement manifest expr id).bare := by
  induction expr using Expr.induct with
  | integer raw span =>
      intro headed other alike id otherId
      have same := generic_bare headed alike id otherId
      cases alike with
      | integer _ => rwa [projectStatement, projectStatement]
  | symbol raw span =>
      intro headed other alike id otherId
      have same := generic_bare headed alike id otherId
      cases alike with
      | symbol => rwa [projectStatement, projectStatement]
  | list children span induction =>
      intro headed other alike id otherId
      have whole := headed
      have same := alike
      cases headed with
      | @list form headSpan args _ each =>
          cases alike with
          | list items =>
              cases items with
              | @cons _ head _ others first rest =>
                  cases first with
                  | symbol =>
                      rw [projectStatement, projectStatement]
                      apply form_bare whole same
                      refine .cons ⟨.symbol, .symbol, generic_bare .symbol .symbol⟩ ?_
                      rw [childrenOf_eq, childrenOf_eq, List.forall₂_map_left_iff,
                        List.forall₂_map_right_iff]
                      apply alike_row rest
                      intro arg member again alike
                      exact ⟨each arg member, alike,
                        induction arg (List.mem_cons_of_mem _ member) (each arg member) again alike⟩

end CardCode.App
