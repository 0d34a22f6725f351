import CardCode.App.Settled

/-! # Cards over other cards are drawn

A sequence, a branching and a function are written as frames over what the cards below them
are written as.
-/

namespace CardCode.App

section Children

variable {children : List Card} {exprs : List Expr}

theorem redraws_draw (each : List.Forall₂ Redraws children exprs) :
    List.Forall₂ Draws (writersOf children) exprs := by
  induction each with
  | nil => exact .nil
  | cons here _ induction => exact .cons here.draws induction

/-- Cards made from what the children draw are the settled children. -/
theorem settleAll_bare (each : List.Forall₂ Redraws children exprs) {cards : List Card}
    (made : MadeFrom defaultManifest cards exprs) :
    cards.map Card.bare = (Card.settleAll children).map Card.bare := by
  induction each generalizing cards with
  | nil =>
      cases made with
      | nil => rw [Card.settleAll]
  | cons here _ induction =>
      cases made with
      | cons first rest =>
          rcases first with ⟨id, rfl⟩
          rw [Card.settleAll, List.map_cons, List.map_cons, here.settles id, induction rest]

theorem children_settled (each : List.Forall₂ Redraws children exprs) (id : String) :
    Card.bareAll (projectChildren (childrenOf defaultManifest exprs) id) =
      Card.bareAll (Card.settleAll children) := by
  rw [Card.bareAll_eq, Card.bareAll_eq]
  exact settleAll_bare each (projectChildren_madeFrom defaultManifest exprs id)

/-! ## Sequences -/

theorem project_do (id : String) :
    projectStatement defaultManifest (.list (.symbol "do" default :: exprs) default) id =
      .body (baseCard id (cardById defaultManifest "control.do") default [])
        (projectChildren (childrenOf defaultManifest exprs) id) := by
  rw [projectStatement_form, projectForm]
  rfl

theorem settle_body {head : CardHead} (notFunction : head.cardId ≠ "binding.define-func") :
    (Card.body head children).settle = .body head (Card.settleAll children) := by
  rw [Card.settle, if_neg fun both => notFunction both.1]

theorem sequence_redraws {head : CardHead}
    (is : head.Is (cardById defaultManifest "control.do") [])
    (each : List.Forall₂ Redraws children exprs) :
    Redraws (.body head children) (.list (.symbol "do" default :: exprs) default) := by
  have card : head.cardId = "control.do" := is.cardId.trans (cardById_id (by decide))
  constructor
  · exact form_spelled (by decide) (each_right (fun _ _ redraws => redraws.spelled) each)
  · exact .list (each_right (fun _ _ redraws => redraws.headed) each)
  · apply body_draws (by decide) _ .nil (redraws_draw each)
    intro indent
    rw [writeForm, card, if_pos rfl, Layout.rowText_cons, Layout.rowText_nil, Layout.text_word]
    rfl
  · intro id
    rw [project_do, settle_body (by rw [card]; decide), Card.bare, Card.bare,
      children_settled each id, is.bare (by rfl)]

theorem led_card {form cardId param : String} (led : Led form cardId param) :
    (cardById defaultManifest cardId).id = cardId ∧
      (cardById defaultManifest cardId).params = [param] ∧ IsName form ∧
      cardId ≠ "binding.define-func" := by
  cases led <;> decide

theorem project_led {form cardId param : String} (led : Led form cardId param) (first : Expr)
    (id : String) :
    projectStatement defaultManifest
        (.list (.symbol form default :: first :: exprs) default) id =
      .body (baseCard id (cardById defaultManifest cardId) default
          [(param, ⟨projectValue first, first.span⟩)])
        (projectChildren (childrenOf defaultManifest exprs) id) := by
  rw [projectStatement_form, projectForm]
  cases led <;> rw [childrenOf] <;> rfl

theorem led_redraws {form cardId param : String} {head : CardHead} {value : CardValue}
    {first : Expr} (led : Led form cardId param)
    (is : head.Is (cardById defaultManifest cardId) [value]) (shows : value.Shows first)
    (each : List.Forall₂ Redraws children exprs) :
    Redraws (.body head children)
      (.list (.symbol form default :: first :: exprs) default) := by
  rcases led_card led with ⟨cardId_eq, params, isName, notFunction⟩
  have card : head.cardId = cardId := is.cardId.trans cardId_eq
  have firsts : List.Forall₂ CardValue.Shows [value] [first] := .cons shows .nil
  constructor
  · exact form_spelled isName (List.forall_mem_cons.mpr ⟨shows.spelled,
      each_right (fun _ _ redraws => redraws.spelled) each⟩)
  · exact .list (List.forall_mem_cons.mpr ⟨shows.headed,
      each_right (fun _ _ redraws => redraws.headed) each⟩)
  · apply body_draws isName _ (shows_readBack firsts) (redraws_draw each)
    intro indent
    rcases shows.emitted with ⟨text, emitted, layout⟩
    have found : paramValue head param = .ok value :=
      is.paramValue (by rw [params]; simp)
    have writer : writeForm head (writersOf children) [] [] indent =
        writeLedSequence head (writersOf children) indent form param := by
      cases led <;> (rw [writeForm, card]; simp)
    rw [writer, Layout.rowText_cons, Layout.text_word, valueRow_text layout]
    funext ctx
    rw [writeLedSequence, found]
    dsimp only [Bind.bind, Except.bind]
    rw [emitted]
    rfl
  · intro id
    rw [project_led led, settle_body (by rw [card]; exact notFunction), Card.bare, Card.bare,
      children_settled each id, is.bare (by rw [params]; simp [shows.same])]

/-! ## Branches -/

/-- The statement that a branch is written as. -/
def branchExpr : List Expr → Expr
  | [expr] => expr
  | exprs => .list (.symbol "do" default :: exprs) default

theorem branch_draws {rows : List (Nat → Writer)} (each : List.Forall₂ Draws rows exprs) :
    Draws (writeBranch rows) (branchExpr exprs) := by
  have sequence {rows : List (Nat → Writer)} {exprs : List Expr}
      (writes : ∀ indent, writeBranch rows indent =
        writeFrame indent (Layout.rowText [.word [] "do".toList]) rows)
      (each : List.Forall₂ Draws rows exprs) :
      Draws (writeBranch rows) (.list (.symbol "do" default :: exprs) default) :=
    frame_draws writes (IsName.spelled (by decide)) .nil each
  have front : Layout.rowText [.word [] "do".toList] = "do".toList := by
    rw [Layout.rowText_cons, Layout.rowText_nil, Layout.text_word]
    rfl
  cases each with
  | nil =>
      apply sequence _ .nil
      intro indent
      funext ctx
      rw [front, writeBranch, writeFrame]
      simp [writeLines, Context.append, Bind.bind, Except.bind, pure, Except.pure]
  | cons first rest =>
      cases rest with
      | nil => exact first
      | cons second others =>
          apply sequence _ (.cons first (.cons second others))
          intro indent
          rw [front]
          rfl

/-- What a branch is projected to again is the settled branch. -/
theorem branch_settled (each : List.Forall₂ Redraws children exprs) (id : String) :
    Card.bareAll [projectStatement defaultManifest (branchExpr exprs) id] =
      Card.bareAll (settleBranch (Card.settleAll children)) := by
  have sequence {children : List Card} {exprs : List Expr}
      (each : List.Forall₂ Redraws children exprs) :
      Card.bareAll [projectStatement defaultManifest
        (.list (.symbol "do" default :: exprs) default) id] =
        Card.bareAll [doCard (Card.settleAll children)] := by
    rw [project_do]
    simp only [Card.bareAll, doCard, Card.bare, children_settled each id]
    rfl
  cases each with
  | nil => exact sequence .nil
  | cons first rest =>
      cases rest with
      | nil => exact congrArg (fun card => [card]) (first.settles id)
      | cons second others => exact sequence (.cons first (.cons second others))

theorem branchExpr_redraws (each : List.Forall₂ Redraws children exprs) :
    (branchExpr exprs).Spelled ∧ (branchExpr exprs).Headed := by
  have spelled := each_right (fun _ _ redraws => redraws.spelled) each
  have headed := each_right (fun _ _ redraws => redraws.headed) each
  unfold branchExpr
  split
  · exact ⟨spelled _ List.mem_cons_self, headed _ List.mem_cons_self⟩
  · exact ⟨form_spelled (by decide) spelled, .list headed⟩

theorem project_if (condition thenExpr elseExpr : Expr) (id : String) :
    projectStatement defaultManifest
        (.list [.symbol "if" default, condition, thenExpr, elseExpr] default) id =
      .fork (baseCard id (cardById defaultManifest "control.if") default
          [("condition", ⟨projectValue condition, condition.span⟩)])
        [projectStatement defaultManifest thenExpr (id ++ "-then-1")]
        [projectStatement defaultManifest elseExpr (id ++ "-else-1")] := by
  rw [projectStatement_form, projectForm, childrenOf, childrenOf, childrenOf, childrenOf]
  rfl

/-- `if` is a frame of two lines, its branches. -/
theorem writeIf_frame {head : CardHead} {value : CardValue} {text : Text}
    {thenRows elseRows : List (Nat → Writer)} {indent : Nat}
    (found : paramValue head "condition" = .ok value) (emitted : emitValue value = .ok text) :
    writeIf head thenRows elseRows indent =
      writeFrame indent ("if".toList ++ ' ' :: text)
        [writeBranch thenRows, writeBranch elseRows] := by
  funext ctx
  have opened : ctx.append (pad indent ++ "(if ".toList ++ text) =
      ctx.append (pad indent ++ '(' :: ("if".toList ++ ' ' :: text)) := by
    rw [List.append_assoc]
    rfl
  rw [writeIf, found]
  dsimp only [Bind.bind, Except.bind]
  rw [emitted, writeFrame]
  dsimp only [Bind.bind, Except.bind, writeLines]
  rw [opened]
  cases writeBranch thenRows (indent + 1)
    ((ctx.append (pad indent ++ '(' :: ("if".toList ++ ' ' :: text))).append ['\n']) with
  | error failure => rfl
  | ok middle =>
      dsimp only
      cases writeBranch elseRows (indent + 1) (middle.append ['\n']) with
      | error failure => rfl
      | ok last => rfl

theorem branches_redraw {head : CardHead} {value : CardValue} {condition : Expr}
    {thenCards elseCards : List Card} {thenExprs elseExprs : List Expr}
    (is : head.Is (cardById defaultManifest "control.if") [value])
    (shows : value.Shows condition) (thenEach : List.Forall₂ Redraws thenCards thenExprs)
    (elseEach : List.Forall₂ Redraws elseCards elseExprs) :
    Redraws (.fork head thenCards elseCards)
      (.list [.symbol "if" default, condition, branchExpr thenExprs, branchExpr elseExprs]
        default) := by
  have card : head.cardId = "control.if" := is.cardId.trans (cardById_id (by decide))
  have params : (cardById defaultManifest "control.if").params = ["condition"] := by decide
  have conditions : List.Forall₂ CardValue.Shows [value] [condition] := .cons shows .nil
  rcases branchExpr_redraws thenEach with ⟨thenSpelled, thenHeaded⟩
  rcases branchExpr_redraws elseEach with ⟨elseSpelled, elseHeaded⟩
  constructor
  · exact form_spelled (by decide) (by simp [shows.spelled, thenSpelled, elseSpelled])
  · exact .list (by simp [shows.headed, thenHeaded, elseHeaded])
  · have same : writeCard (.fork head thenCards elseCards) = fun indent =>
        withSpan head.id
          (writeForm head [] (writersOf thenCards) (writersOf elseCards) indent) := by
      funext indent
      rw [writeCard]
    rw [same]
    apply withSpan_draws
    apply @frame_draws _ "if" (valueLayouts [condition]) _ [condition] _ default default _
      (IsName.spelled (by decide)) (shows_readBack conditions)
      (.cons (branch_draws (redraws_draw thenEach))
        (.cons (branch_draws (redraws_draw elseEach)) .nil))
    intro indent
    rcases shows.emitted with ⟨text, emitted, layout⟩
    have found : paramValue head "condition" = .ok value := is.paramValue rfl
    rw [writeForm, card, Layout.rowText_cons, Layout.text_word, valueRow_text layout]
    simp only [String.reduceEq, if_false, if_true]
    exact writeIf_frame found emitted
  · intro id
    rw [project_if, Card.settle, Card.bare, Card.bare, branch_settled thenEach,
      branch_settled elseEach, is.bare (by rw [params]; simp [shows.same])]

/-! ## Functions -/

/-- The signature of a function. -/
def signatureExpr (name : String) (params : List String) : Expr :=
  .list (.symbol name default :: params.map fun param => .symbol param default) default

theorem wordValue_name {name : String} (isName : IsName name) :
    wordValue name = projectValue (.symbol name default) := by
  rw [wordValue, atomExpr_symbol (@IsName.spelled name default isName)]

theorem signature_shape {name : String} {params : List String} (isName : IsName name)
    (named : ∀ param ∈ params, IsName param) :
    (signatureExpr name params).Spelled ∧ (signatureExpr name params).Headed ∧
      projectValue (signatureExpr name params) =
        .call name (params.map wordValue) default := by
  refine ⟨form_spelled isName ?_, .list ?_, ?_⟩
  · intro arg member
    rcases List.mem_map.mp member with ⟨param, present, rfl⟩
    exact (named param present).spelled
  · intro arg member
    rcases List.mem_map.mp member with ⟨param, present, rfl⟩
    exact .symbol
  · rw [signatureExpr, projectValue, projectValues_eq, List.map_map]
    congr 1
    exact List.map_congr_left fun param member => (wordValue_name (named param member)).symm

theorem symbols_of_names (params : List String) :
    (params.map fun param => Expr.symbol param default).all isSymbol = true ∧
      (params.map fun param => Expr.symbol param default).map symbolName = params := by
  constructor
  · rw [List.all_map, List.all_eq_true]
    exact fun _ _ => rfl
  · rw [List.map_map]
    exact List.map_id _

theorem project_function {name : String} {params : List String} (statement : Expr) (id : String) :
    projectStatement defaultManifest
        (.list (.symbol "define" default :: signatureExpr name params :: statement :: exprs)
          default) id =
      .body (baseCard id (cardById defaultManifest "binding.define-func") default
          [("name", ⟨.text name, default⟩), ("params", ⟨.names params, default⟩)])
        (projectChildren (childrenOf defaultManifest (statement :: exprs)) id) := by
  rcases symbols_of_names params with ⟨symbols, names⟩
  rw [projectStatement_form, projectForm, if_pos rfl, childrenOf, childrenOf, signatureExpr]
  simp [projectDefine, symbols, names, Expr.span]

theorem project_signature {name : String} {params : List String} (id : String) :
    projectStatement defaultManifest
        (.list [.symbol "define" default, signatureExpr name params] default) id =
      genericExpressionCard (.list [.symbol "define" default, signatureExpr name params] default)
        id := by
  rw [projectStatement_form, projectForm, if_pos rfl, childrenOf, childrenOf, signatureExpr]
  rfl

theorem signature_text (name : String) (params : List String) :
    Layout.rowText (.word [] "define".toList :: valueLayouts [signatureExpr name params]) =
      "define".toList ++ ' ' :: '(' :: (name.toList ++
        spacedArgs (params.map String.toList) ++ [')']) := by
  rcases symbols_of_names params with ⟨symbols, names⟩
  rw [Layout.rowText_cons, valueLayouts, valueLayouts, Layout.rowText_cons, Layout.rowText_nil,
    Layout.text_word, signatureExpr, valueLayout, Layout.text_group, headLayouts_text,
    symbol_values symbols, names]
  simp [headValue]

theorem function_redraws {head : CardHead} {name : String} {params : List String}
    (is : head.Is (cardById defaultManifest "binding.define-func") [.text name, .names params])
    (isName : IsName name) (named : ∀ param ∈ params, IsName param)
    (each : List.Forall₂ Redraws children exprs) :
    Redraws (.body head children)
      (.list (.symbol "define" default :: signatureExpr name params :: exprs) default) := by
  have card : head.cardId = "binding.define-func" := is.cardId.trans (cardById_id (by decide))
  have names : (cardById defaultManifest "binding.define-func").params = ["name", "params"] := by
    decide
  rcases signature_shape isName named with ⟨spelled, headed, value⟩
  have readFront : ReadBack (valueLayouts [signatureExpr name params])
      [signatureExpr name params] :=
    values_readBack (List.forall_mem_singleton.mpr spelled) (List.forall_mem_singleton.mpr headed)
  constructor
  · exact form_spelled (by decide) (List.forall_mem_cons.mpr ⟨spelled,
      each_right (fun _ _ redraws => redraws.spelled) each⟩)
  · exact .list (List.forall_mem_cons.mpr ⟨headed,
      each_right (fun _ _ redraws => redraws.headed) each⟩)
  · apply body_draws (by decide) _ readFront (redraws_draw each)
    intro indent
    have foundName : paramValue head "name" = .ok (.text name) :=
      is.paramValue (by rw [names]; rfl)
    have foundParams : paramValue head "params" = .ok (.names params) :=
      is.paramValue (by rw [names]; rfl)
    have writer : writeForm head (writersOf children) [] [] indent =
        writeFunction head (writersOf children) indent := by
      rw [writeForm, card]
      simp
    rw [writer, signature_text]
    exact writeFunction_framed foundName foundParams fun param member => (named param member).2.1
  · intro id
    cases each with
    | nil =>
        have values : paramValues head = [.text name, .names params] :=
          is.paramValues (by rw [names]; rfl)
        rw [project_signature, Card.settle, if_pos ⟨card, rfl⟩, settleFunction, values]
        simp only [genericExpressionCard, genericCard, Card.bare, CardHead.bare, List.map_cons,
          List.map_nil, value]
    | @cons child expr children exprs first rest =>
        rw [project_function, Card.settle, if_neg (by simp), Card.bare, Card.bare,
          children_settled (.cons first rest) id, is.bare (by rw [names]; simp [CardValue.bare])]

end Children

end CardCode.App
