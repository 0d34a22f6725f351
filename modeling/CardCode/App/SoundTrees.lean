import CardCode.App.DrawnTrees

/-! # Projected trees are sound -/

namespace CardCode.App

/-! ## Values -/

theorem shows_self {expr : Expr} (spelled : expr.Spelled) (headed : expr.Headed) :
    (projectValue expr).Shows expr :=
  ⟨spelled, headed, rfl⟩

theorem rows_shown {exprs : List Expr} (spelled : ∀ expr ∈ exprs, expr.Spelled)
    (headed : ∀ expr ∈ exprs, expr.Headed) :
    List.Forall₂ CardValue.Shows (exprs.map projectValue) exprs := by
  rw [List.forall₂_map_left_iff, List.forall₂_same]
  exact fun expr member => shows_self (spelled expr member) (headed expr member)

/-- The value of an expression is written as a word or as an object. -/
theorem projectValue_isTarget {expr : Expr} (spelled : expr.Spelled) :
    (projectValue expr).IsTarget := by
  cases expr with
  | integer raw span =>
      rw [projectValue, projectIntegerValue]
      split
      next safe => exact .number safe
      next => exact .text spelled.word.2
  | symbol raw span =>
      rw [projectValue, projectSymbolValue]
      split_ifs
      · exact .boolean
      · exact .boolean
      · exact .text spelled.isWord
      · exact .var
  | list children span =>
      cases children with
      | nil =>
          rw [projectValue]
          exact .call
      | cons head args =>
          rw [projectValue]
          exact .call

/-! ## Heads -/

theorem baseCard_is (id : String) (card : ManifestCard) (span : Span)
    {params : List (String × Param)} {values : List CardValue}
    (same : params.map (fun param => (param.1, param.2.value)) = card.params.zip values) :
    (baseCard id card span params).Is card values :=
  ⟨rfl, rfl, rfl, rfl, rfl, same, rfl⟩

section Forms

variable {form : String} {args : List Expr}

/-- A form that becomes a generic card wherever it stands. -/
theorem generic_sound (isName : IsName form) (spelled : ∀ arg ∈ args, arg.Spelled)
    (headed : ∀ arg ∈ args, arg.Headed)
    (projected : ∀ headSpan span id,
      projectStatement defaultManifest (.list (.symbol form headSpan :: args) span) id =
        genericExpressionCard (.list (.symbol form headSpan :: args) span) id)
    (headSpan span : Span) (id : String) :
    (projectStatement defaultManifest (.list (.symbol form headSpan :: args) span) id).Sound := by
  rw [projected]
  exact @Card.Sound.generic _ form args
    ⟨rfl, rfl, rfl, rfl, rfl, rfl, rows_shown spelled headed⟩ isName
    fun id => projected default default id

/-- An atom becomes a generic card of the form `expr`. -/
theorem atom_sound {expr : Expr} (spelled : expr.Spelled) (headed : expr.Headed) {id : String}
    {span : Span} :
    (Card.leaf { id, cardId := "generic.form", form := "expr", kind := .generic,
                 category := "generic", label := "expr", args := [projectValue expr],
                 span }).Sound := by
  apply @Card.Sound.generic _ "expr" [expr] _ (by decide)
  · intro id
    rw [projectStatement_form]
    rfl
  · exact ⟨rfl, rfl, rfl, rfl, rfl, rfl, .cons (shows_self spelled headed) .nil⟩

/-! ## Sequences and branches -/

theorem made_sound {cards : List Card} {exprs : List Expr}
    (made : MadeFrom defaultManifest cards exprs)
    (each : ∀ expr ∈ exprs, ∀ id, (projectStatement defaultManifest expr id).Sound) :
    ∀ card ∈ cards, card.Sound := by
  induction made with
  | nil => exact List.forall_mem_nil _
  | @cons card expr cards exprs head _ induction =>
      rcases head with ⟨id, rfl⟩
      exact List.forall_mem_cons.mpr ⟨each expr List.mem_cons_self id,
        induction fun other member => each other (List.mem_cons_of_mem expr member)⟩

theorem children_sound {exprs : List Expr} (id : String)
    (each : ∀ expr ∈ exprs, ∀ id, (projectStatement defaultManifest expr id).Sound) :
    ∀ child ∈ projectChildren (childrenOf defaultManifest exprs) id, child.Sound :=
  made_sound (projectChildren_madeFrom defaultManifest exprs id) each

theorem do_sound (each : ∀ arg ∈ args, ∀ id, (projectStatement defaultManifest arg id).Sound)
    (headSpan span : Span) (id : String) :
    (projectStatement defaultManifest (.list (.symbol "do" headSpan :: args) span) id).Sound := by
  have projected : projectStatement defaultManifest
      (.list (.symbol "do" headSpan :: args) span) id =
      .body (baseCard id (cardById defaultManifest "control.do") span [])
        (projectChildren (childrenOf defaultManifest args) id) := by
    rw [projectStatement_form, projectForm]
    rfl
  rw [projected]
  exact .sequence (baseCard_is id _ span (by rw [List.zip_nil_right]; rfl)) (children_sound id each)

theorem led_sound {cardId param : String} (led : Led form cardId param)
    (spelled : ∀ arg ∈ args, arg.Spelled) (headed : ∀ arg ∈ args, arg.Headed)
    (each : ∀ arg ∈ args, ∀ id, (projectStatement defaultManifest arg id).Sound)
    (headSpan span : Span) (id : String) :
    (projectStatement defaultManifest (.list (.symbol form headSpan :: args) span) id).Sound := by
  rcases led_card led with ⟨-, params, isName, -⟩
  cases args with
  | nil =>
      apply generic_sound isName spelled headed
      intro headSpan span id
      rw [projectStatement_form, projectForm, childrenOf]
      cases led <;> rfl
  | cons first body =>
      have projected : projectStatement defaultManifest
          (.list (.symbol form headSpan :: first :: body) span) id =
          .body (baseCard id (cardById defaultManifest cardId) span
              [(param, ⟨projectValue first, first.span⟩)])
            (projectChildren (childrenOf defaultManifest body) id) := by
        rw [projectStatement_form, projectForm]
        cases led <;> rw [childrenOf] <;> rfl
      rw [projected]
      refine .led led (baseCard_is id _ span (by rw [params]; rfl))
        ⟨first, shows_self (spelled first List.mem_cons_self) (headed first List.mem_cons_self)⟩
        (children_sound id fun arg member => each arg (List.mem_cons_of_mem _ member))

theorem if_sound (spelled : ∀ arg ∈ args, arg.Spelled) (headed : ∀ arg ∈ args, arg.Headed)
    (each : ∀ arg ∈ args, ∀ id, (projectStatement defaultManifest arg id).Sound)
    (headSpan span : Span) (id : String) :
    (projectStatement defaultManifest (.list (.symbol "if" headSpan :: args) span) id).Sound := by
  by_cases three : args.length = 3
  · rcases List.length_eq_three.mp three with ⟨condition, thenExpr, elseExpr, rfl⟩
    have params : (cardById defaultManifest "control.if").params = ["condition"] := by decide
    have projected : projectStatement defaultManifest
        (.list [.symbol "if" headSpan, condition, thenExpr, elseExpr] span) id =
        .fork (baseCard id (cardById defaultManifest "control.if") span
            [("condition", ⟨projectValue condition, condition.span⟩)])
          [projectStatement defaultManifest thenExpr (id ++ "-then-1")]
          [projectStatement defaultManifest elseExpr (id ++ "-else-1")] := by
      rw [projectStatement_form, projectForm, childrenOf, childrenOf, childrenOf, childrenOf]
      rfl
    rw [projected]
    exact .branches (baseCard_is id _ span (by rw [params]; rfl))
      ⟨condition, shows_self (spelled condition (by simp)) (headed condition (by simp))⟩
      (List.forall_mem_singleton.mpr (each thenExpr (by simp) _))
      (List.forall_mem_singleton.mpr (each elseExpr (by simp) _))
  · apply generic_sound (by decide) spelled headed
    intro headSpan span id
    rw [projectStatement_form, projectForm]
    simp only [String.reduceEq, if_false, if_true]
    unfold projectIf
    split
    next same =>
      have lengths := congrArg List.length same
      rw [List.length_cons, childrenOf_length] at lengths
      exact absurd (Nat.succ.inj lengths) three
    next => rfl

/-! ## Bindings -/

theorem set_sound (spelled : ∀ arg ∈ args, arg.Spelled) (headed : ∀ arg ∈ args, arg.Headed)
    (headSpan span : Span) (id : String) :
    (projectStatement defaultManifest (.list (.symbol "set!" headSpan :: args) span) id).Sound := by
  by_cases two : args.length = 2
  · rcases List.length_eq_two.mp two with ⟨target, value, rfl⟩
    have projected : projectStatement defaultManifest
        (.list [.symbol "set!" headSpan, target, value] span) id =
        .leaf (baseCard id (cardById defaultManifest "binding.set") span
          [("name", ⟨projectValue target, target.span⟩),
            ("value", ⟨projectValue value, value.span⟩)]) := by
      rw [projectStatement_form, projectForm, chooseCard_set, childrenOf, childrenOf, childrenOf,
        assignment_params]
      rfl
    rw [projected]
    exact .assignment (baseCard_is id _ span (by rw [assignment_params]; rfl))
      (projectValue_isTarget (spelled target (by simp)))
      ⟨value, shows_self (spelled value (by simp)) (headed value (by simp))⟩
  · apply generic_sound (by decide) spelled headed
    intro headSpan span id
    rw [projectStatement_form, projectForm, chooseCard_set]
    simp only [String.reduceEq, if_false, List.length_cons, childrenOf_length, List.length_nil]
    exact if_neg fun count => two (Nat.succ.inj count)

theorem symbols_named {params : List Expr} (spelled : ∀ param ∈ params, param.Spelled)
    (symbols : params.all isSymbol = true) : ∀ name ∈ params.map symbolName, IsName name := by
  intro name member
  rcases List.mem_map.mp member with ⟨param, present, rfl⟩
  have isSymbol := List.all_eq_true.mp symbols param present
  have word := spelled param present
  cases word with
  | integer _ _ => cases isSymbol
  | list _ => cases isSymbol
  | symbol other isWord => exact ⟨other, isWord⟩

theorem define_sound (spelled : ∀ arg ∈ args, arg.Spelled) (headed : ∀ arg ∈ args, arg.Headed)
    (each : ∀ arg ∈ args, ∀ id, (projectStatement defaultManifest arg id).Sound)
    (headSpan span : Span) (id : String) :
    (projectStatement defaultManifest
      (.list (.symbol "define" headSpan :: args) span) id).Sound := by
  -- Without a function the card is a binding of a variable or a generic one.
  have generic (projected : ∀ headSpan span id, projectDefine defaultManifest
      (.list (.symbol "define" headSpan :: args) span)
      (⟨.symbol "define" headSpan, genericExpressionCard (.symbol "define" headSpan)⟩ ::
        childrenOf defaultManifest args) id =
        genericExpressionCard (.list (.symbol "define" headSpan :: args) span) id) :
      (projectStatement defaultManifest
        (.list (.symbol "define" headSpan :: args) span) id).Sound := by
    apply generic_sound (by decide) spelled headed
    intro headSpan span id
    rw [projectStatement_form, projectForm, if_pos rfl]
    exact projected headSpan span id
  cases args with
  | nil => exact generic fun _ _ _ => by rw [childrenOf]; rfl
  | cons target body =>
  have targetSpelled := spelled target List.mem_cons_self
  cases target with
  | integer raw targetSpan => exact generic fun _ _ _ => by rw [childrenOf]; rfl
  | symbol raw targetSpan =>
      cases body with
      | nil => exact generic fun _ _ _ => by rw [childrenOf, childrenOf]; rfl
      | cons value rest =>
          cases rest with
          | cons second rest =>
              exact generic fun _ _ _ => by rw [childrenOf, childrenOf, childrenOf]; rfl
          | nil =>
              have params : (cardById defaultManifest "binding.define-var").params =
                  ["name", "value"] := by decide
              have projected : projectStatement defaultManifest
                  (.list [.symbol "define" headSpan, .symbol raw targetSpan, value] span) id =
                  .leaf (baseCard id (cardById defaultManifest "binding.define-var") span
                    [("name", ⟨.text raw, targetSpan⟩),
                      ("value", ⟨projectValue value, value.span⟩)]) := by
                rw [projectStatement_form, projectForm, if_pos rfl, childrenOf, childrenOf,
                  childrenOf]
                rfl
              rw [projected]
              refine .variable (baseCard_is id _ span (by rw [params]; rfl)) ?_
                ⟨value, shows_self (spelled value (by simp)) (headed value (by simp))⟩
              cases targetSpelled with
              | symbol other isWord => exact ⟨other, isWord⟩
  | list signature signatureSpan =>
      cases signature with
      | nil => exact generic fun _ _ _ => by rw [childrenOf]; rfl
      | cons head params =>
          cases head with
          | integer raw nameSpan => exact generic fun _ _ _ => by rw [childrenOf]; rfl
          | list inner nameSpan => exact generic fun _ _ _ => by rw [childrenOf]; rfl
          | symbol raw nameSpan =>
              cases body with
              | nil => exact generic fun _ _ _ => by rw [childrenOf, childrenOf]; rfl
              | cons statement rest =>
                  by_cases symbols : params.all isSymbol = true
                  · have names : (cardById defaultManifest "binding.define-func").params =
                        ["name", "params"] := by decide
                    have projected : projectStatement defaultManifest
                        (.list (.symbol "define" headSpan ::
                          .list (.symbol raw nameSpan :: params) signatureSpan ::
                          statement :: rest) span) id =
                        .body (baseCard id (cardById defaultManifest "binding.define-func") span
                            [("name", ⟨.text raw, nameSpan⟩),
                              ("params", ⟨.names (params.map symbolName), signatureSpan⟩)])
                          (projectChildren
                            (childrenOf defaultManifest (statement :: rest)) id) := by
                      rw [projectStatement_form, projectForm, if_pos rfl, childrenOf, childrenOf]
                      simp [projectDefine, symbols, Expr.span]
                    have words := targetSpelled.child
                    rw [projected]
                    apply Card.Sound.function (baseCard_is id _ span (by rw [names]; rfl))
                    · have name := words _ List.mem_cons_self
                      cases name with
                      | symbol other isWord => exact ⟨other, isWord⟩
                    · exact symbols_named
                        (fun param member => words param (List.mem_cons_of_mem _ member)) symbols
                    · exact children_sound id fun arg member =>
                        each arg (List.mem_cons_of_mem _ member)
                  · exact generic fun _ _ _ => by
                      rw [childrenOf, childrenOf]
                      simp [projectDefine, symbols]

/-! ## Other forms -/

theorem zipWith_params (names : List String) {exprs : List Expr} :
    (names.zipWith (fun name (child : Child) =>
        (name, (⟨projectValue child.expr, child.expr.span⟩ : Param)))
        (childrenOf defaultManifest exprs)).map (fun param => (param.1, param.2.value)) =
      names.zip (exprs.map projectValue) := by
  induction exprs generalizing names with
  | nil => cases names <;> rfl
  | cons expr exprs induction =>
      cases names with
      | nil => rfl
      | cons name names =>
          rw [childrenOf, List.zipWith_cons_cons, List.map_cons, List.map_cons, List.zip_cons_cons,
            induction names]

theorem other_sound (isName : IsName form) (other : form ∉ specialForms) (notSet : form ≠ "set!")
    (spelled : ∀ arg ∈ args, arg.Spelled) (headed : ∀ arg ∈ args, arg.Headed)
    (headSpan span : Span) (id : String) :
    (projectStatement defaultManifest (.list (.symbol form headSpan :: args) span) id).Sound := by
  have plain := other
  simp only [specialForms, List.mem_cons, List.not_mem_nil, or_false, not_or] at plain
  cases found : chooseCard defaultManifest form with
  | none =>
      apply generic_sound isName spelled headed
      intro headSpan span id
      rw [projectStatement_form, projectForm, found]
      simp only [plain, if_false]
  | some card =>
      have same := (chooseCard_some found).2.1
      have projected (headSpan span : Span) (id : String) : projectStatement defaultManifest
          (.list (.symbol form headSpan :: args) span) id =
          if args.length = card.params.length then
            .leaf (baseCard id card span (card.params.zipWith
              (fun name child => (name, ⟨projectValue child.expr, child.expr.span⟩))
              (childrenOf defaultManifest args)))
          else genericExpressionCard (.list (.symbol form headSpan :: args) span) id := by
        rw [projectStatement_form, projectForm, found]
        simp only [plain, if_false, List.length_cons, childrenOf_length, Nat.add_right_cancel_iff]
        rfl
      by_cases count : args.length = card.params.length
      · rw [projected, if_pos count]
        rw [← same] at found other notSet
        apply @Card.Sound.simple _ card (args.map projectValue) found other notSet
        · exact baseCard_is id card span (zipWith_params card.params)
        · rw [List.length_map, count]
        · intro value member
          rcases List.mem_map.mp member with ⟨arg, present, rfl⟩
          exact ⟨arg, shows_self (spelled arg present) (headed arg present)⟩
      · apply generic_sound isName spelled headed
        intro headSpan span id
        rw [projected, if_neg count]

end Forms

/-- The card of a headed expression is sound. -/
theorem projectStatement_sound (expr : Expr) : expr.Spelled → expr.Headed →
    ∀ id, (projectStatement defaultManifest expr id).Sound := by
  induction expr using Expr.induct with
  | integer raw span =>
      intro spelled headed id
      rw [projectStatement]
      exact atom_sound spelled headed
  | symbol raw span =>
      intro spelled headed id
      rw [projectStatement]
      exact atom_sound spelled headed
  | list children span induction =>
      intro spelled headed id
      cases headed with
      | @list form headSpan args _ headed =>
          have argsSpelled : ∀ arg ∈ args, arg.Spelled := fun arg member =>
            spelled.child arg (List.mem_cons_of_mem _ member)
          have each : ∀ arg ∈ args, ∀ id, (projectStatement defaultManifest arg id).Sound :=
            fun arg member => induction arg (List.mem_cons_of_mem _ member)
              (argsSpelled arg member) (headed arg member)
          by_cases special : form ∈ specialForms
          · simp only [specialForms, List.mem_cons, List.not_mem_nil, or_false] at special
            rcases special with rfl | rfl | rfl | rfl | rfl | rfl
            · exact define_sound argsSpelled headed each headSpan span id
            · exact do_sound each headSpan span id
            · exact led_sound .repeat' argsSpelled headed each headSpan span id
            · exact led_sound .when' argsSpelled headed each headSpan span id
            · exact led_sound .while' argsSpelled headed each headSpan span id
            · exact if_sound argsSpelled headed each headSpan span id
          · by_cases assignment : form = "set!"
            · rw [assignment]
              exact set_sound argsSpelled headed headSpan span id
            · have word := spelled.child _ List.mem_cons_self
              cases word with
              | symbol plain isWord =>
                  exact other_sound ⟨plain, isWord⟩ special assignment argsSpelled headed headSpan
                    span id

theorem projectProgram_sound {exprs : List Expr} (spelled : ∀ expr ∈ exprs, expr.Spelled)
    (headed : ∀ expr ∈ exprs, expr.Headed) :
    ∀ card ∈ projectProgram exprs defaultManifest, card.Sound :=
  made_sound (projectProgram_madeFrom defaultManifest exprs) fun expr member =>
    projectStatement_sound expr (spelled expr member) (headed expr member)

end CardCode.App
