import CardCode.App.DrawnBodies

/-! # Edited trees are drawn

Every sound tree is written as source, and projecting that gives the settled tree.
-/

namespace CardCode.App

/-! ## Bindings -/

section Leaves

variable {head : CardHead} {value target : CardValue} {expr : Expr}

/-- A binding is written as its name in a template and its value. -/
theorem writeBinding_frame {form : String} {nameRow : List Layout}
    (foundName : paramValue head "name" = .ok target)
    (foundValue : paramValue head "value" = .ok value) (shows : value.Shows expr)
    (nameText : Layout.rowText nameRow = ' ' :: interpolate target) (indent : Nat) :
    writeBinding head form indent =
      writeFrame indent
        (Layout.rowText (.word [] form.toList :: (nameRow ++ valueLayouts [expr]))) [] := by
  rcases shows.emitted with ⟨text, emitted, layout⟩
  funext ctx
  rw [writeBinding, foundName, foundValue]
  dsimp only [Bind.bind, Except.bind]
  rw [emitted, Layout.rowText_cons, Layout.text_word, Layout.rowText_append, nameText,
    valueRow_text layout, writeFrame]
  simp [writeLines, Context.append, Bind.bind, Except.bind, pure, Except.pure]

theorem settle_leaf (notSet : head.cardId ≠ "binding.set") :
    (Card.leaf head).settle = .leaf head := by
  rw [Card.settle, settleLeaf, if_neg notSet]

theorem project_variable (name : String) (value : Expr) (id : String) :
    projectStatement defaultManifest
        (.list [.symbol "define" default, .symbol name default, value] default) id =
      .leaf (baseCard id (cardById defaultManifest "binding.define-var") default
        [("name", ⟨.text name, default⟩), ("value", ⟨projectValue value, value.span⟩)]) := by
  rw [projectStatement_form, projectForm, if_pos rfl, childrenOf, childrenOf, childrenOf]
  rfl

theorem variable_redraws {name : String}
    (is : head.Is (cardById defaultManifest "binding.define-var") [.text name, value])
    (isName : IsName name) (shows : value.Shows expr) :
    Redraws (.leaf head)
      (.list [.symbol "define" default, .symbol name default, expr] default) := by
  have card : head.cardId = "binding.define-var" := is.cardId.trans (cardById_id (by decide))
  have names : (cardById defaultManifest "binding.define-var").params = ["name", "value"] := by
    decide
  have readFront : ReadBack (valueLayouts [.symbol name default] ++ valueLayouts [expr])
      ([.symbol name default] ++ [expr]) :=
    (@names_readBack [name] (List.forall_mem_singleton.mpr isName)).append
      (shows_readBack (.cons shows .nil))
  constructor
  · exact form_spelled (by decide) (by simp [isName.spelled, shows.spelled])
  · exact .list (by simp [shows.headed, Expr.Headed.symbol])
  · apply leaf_draws (by decide) _ readFront
    intro indent
    have foundName : paramValue head "name" = .ok (.text name) :=
      is.paramValue (by rw [names]; rfl)
    have foundValue : paramValue head "value" = .ok value :=
      is.paramValue (by rw [names]; rfl)
    have writer : writeForm head [] [] [] indent = writeBinding head "define" indent := by
      rw [writeForm, card]
      simp
    rw [writer]
    exact writeBinding_frame foundName foundValue shows (nameRow_text name.toList) indent
  · intro id
    rw [project_variable, settle_leaf (by rw [card]; decide), Card.bare, Card.bare,
      is.bare (by rw [names]; simp [CardValue.bare, shows.same])]

/-! ## Assignments -/

theorem project_assignment (name value : Expr) (id : String) :
    projectStatement defaultManifest
        (.list [.symbol "set!" default, name, value] default) id =
      .leaf (baseCard id
        ⟨"binding.set", "set!", .binding, "variables", "Set variable", ["name", "value"]⟩ default
        [("name", ⟨projectValue name, name.span⟩),
          ("value", ⟨projectValue value, value.span⟩)]) := by
  rw [projectStatement_form, projectForm, chooseCard_set, childrenOf, childrenOf, childrenOf]
  rfl

theorem project_assignments (first second value : Expr) (id : String) :
    projectStatement defaultManifest
        (.list [.symbol "set!" default, first, second, value] default) id =
      genericExpressionCard (.list [.symbol "set!" default, first, second, value] default) id := by
  rw [projectStatement_form, projectForm, chooseCard_set, childrenOf, childrenOf, childrenOf,
    childrenOf]
  rfl

/-- The words a target is written as, what they are read as, and what becomes of the
assignment. -/
structure Retargets (head : CardHead) (target value : CardValue) (expr : Expr)
    (row : List Layout) (names : List Expr) : Prop where
  readBack : ReadBack row names
  spelled : ∀ name ∈ names, name.Spelled
  headed : ∀ name ∈ names, name.Headed
  text : Layout.rowText row = ' ' :: interpolate target
  settles : ∀ id, (projectStatement defaultManifest
    (.list (.symbol "set!" default :: (names ++ [expr])) default) id).bare =
      (settleAssignment head target value).bare

theorem atom_alike (word : Text) (span place : Span) :
    (atomExpr word span).Alike (atomExpr word place) := by
  rw [atomExpr, atomExpr]
  split
  · exact .integer rfl
  · exact .symbol

theorem atom_headed (word : Text) (span : Span) : (atomExpr word span).Headed := by
  rw [atomExpr]
  split
  · exact .integer
  · exact .symbol

theorem word_readBack {word : Text} (isWord : IsWord word) :
    ReadBack [.word [' '] word] [atomExpr word default] := by
  refine ⟨word_gapped isWord, fun reads row => ?_⟩
  rcases List.forall₂_cons_left_iff.mp row with ⟨read, _, first, rest, rfl⟩
  cases rest with
  | nil =>
      rcases first.word_eq with ⟨span, rfl⟩
      exact .cons (atom_alike word default span) .nil

theorem assignment_params :
    cardById defaultManifest "binding.set" =
      ⟨"binding.set", "set!", .binding, "variables", "Set variable", ["name", "value"]⟩ := by
  decide

theorem word_retargets {word : Text} (isWord : IsWord word) (text : interpolate target = word)
    (settled : ∀ id span place, (Card.leaf (baseCard id
        ⟨"binding.set", "set!", .binding, "variables", "Set variable", ["name", "value"]⟩ default
        [("name", ⟨projectValue (atomExpr word default), span⟩),
          ("value", ⟨projectValue expr, place⟩)])).bare =
      (settleAssignment head target value).bare) :
    Retargets head target value expr [.word [' '] word] [atomExpr word default] := by
  constructor
  · exact word_readBack isWord
  · exact List.forall_mem_singleton.mpr (atomExpr_spelled isWord)
  · exact List.forall_mem_singleton.mpr (atom_headed word default)
  · rw [nameRow_text, text]
  · intro id
    rw [List.singleton_append, project_assignment]
    exact settled id _ _

/-- A target that stays what it is when it is read. -/
theorem stable_settled {word : Text}
    (is : head.Is (cardById defaultManifest "binding.set") [target, value])
    (shows : value.Shows expr) (stable : settleAssignment head target value = .leaf head)
    (same : projectValue (atomExpr word default) = target) (id : String) (span place : Span) :
    (Card.leaf (baseCard id
        ⟨"binding.set", "set!", .binding, "variables", "Set variable", ["name", "value"]⟩ default
        [("name", ⟨projectValue (atomExpr word default), span⟩),
          ("value", ⟨projectValue expr, place⟩)])).bare =
      (settleAssignment head target value).bare := by
  rw [assignment_params] at is
  rw [stable, same, Card.bare, Card.bare, is.bare (by simp [shows.same])]

theorem object_retargets (shows : value.Shows expr)
    (object : interpolate target = "[object Object]".toList)
    (taken : settleAssignment head target value =
      genericCard "set!" [.var "[object" default, .var "Object]" default, value]) :
    Retargets head target value expr objectLayouts
      [.symbol "[object" default, .symbol "Object]" default] := by
  have first : IsName "[object" := by decide
  have second : IsName "Object]" := by decide
  constructor
  · exact names_readBack (List.forall_mem_cons.mpr ⟨first, List.forall_mem_singleton.mpr second⟩)
  · exact List.forall_mem_cons.mpr ⟨first.spelled, List.forall_mem_singleton.mpr second.spelled⟩
  · exact List.forall_mem_cons.mpr ⟨.symbol, List.forall_mem_singleton.mpr .symbol⟩
  · rw [object, objectLayouts, Layout.rowText_cons, Layout.rowText_cons, Layout.rowText_nil,
      Layout.text_word, Layout.text_word]
    decide
  · intro id
    have firstValue : projectValue (.symbol "[object" default) = .var "[object" default := by
      rw [projectValue]
      rfl
    have secondValue : projectValue (.symbol "Object]" default) = .var "Object]" default := by
      rw [projectValue]
      rfl
    rw [taken]
    exact (congrArg Card.bare (project_assignments _ _ expr id)).trans (by
      simp only [genericExpressionCard, genericCard, Card.bare, CardHead.bare, List.map_cons,
        List.map_nil, firstValue, secondValue, shows.same])

theorem target_retargets (isTarget : target.IsTarget)
    (is : head.Is (cardById defaultManifest "binding.set") [target, value])
    (shows : value.Shows expr) : ∃ row names, Retargets head target value expr row names := by
  cases isTarget with
  | @number number safe =>
      rcases integerText_word number with ⟨isWord, isInteger, same⟩
      refine ⟨_, _, word_retargets isWord rfl (stable_settled is shows rfl ?_)⟩
      rw [atomExpr_integer isInteger, projectValue, projectIntegerValue, String.toList_ofList, same,
        if_pos safe]
  | @boolean value =>
      cases value with
      | true =>
          refine ⟨_, _, word_retargets (by decide) rfl (stable_settled is shows rfl ?_)⟩
          rfl
      | false =>
          refine ⟨_, _, word_retargets (by decide) rfl (stable_settled is shows rfl ?_)⟩
          rfl
  | @text raw isWord =>
      refine ⟨_, _, word_retargets isWord (interpolate_text raw) fun id span place => ?_⟩
      rw [assignment_params] at is
      simp only [settleAssignment, wordValue, Card.bare, CardHead.bare, baseCard, List.map_cons,
        List.map_nil, is.cardId, is.form, is.kind, is.category, is.label, is.args, shows.same]
  | var => exact ⟨_, _, object_retargets shows rfl rfl⟩
  | call => exact ⟨_, _, object_retargets shows rfl rfl⟩

theorem assignment_redraws
    (is : head.Is (cardById defaultManifest "binding.set") [target, value])
    (isTarget : target.IsTarget) (shows : value.Shows expr) :
    ∃ drawn, Redraws (.leaf head) drawn := by
  have card : head.cardId = "binding.set" := by rw [is.cardId, assignment_params]
  have names : (cardById defaultManifest "binding.set").params = ["name", "value"] := by
    rw [assignment_params]
  rcases target_retargets isTarget is shows with ⟨row, words, retargets⟩
  refine ⟨.list (.symbol "set!" default :: (words ++ [expr])) default, ?_, ?_, ?_, ?_⟩
  · exact form_spelled (by decide) (List.forall_mem_append.mpr ⟨retargets.spelled,
      List.forall_mem_singleton.mpr shows.spelled⟩)
  · exact .list (List.forall_mem_append.mpr ⟨retargets.headed,
      List.forall_mem_singleton.mpr shows.headed⟩)
  · apply leaf_draws (by decide) _ (retargets.readBack.append (shows_readBack (.cons shows .nil)))
    intro indent
    have foundName : paramValue head "name" = .ok target :=
      is.paramValue (by rw [names]; rfl)
    have foundValue : paramValue head "value" = .ok value :=
      is.paramValue (by rw [names]; rfl)
    have writer : writeForm head [] [] [] indent = writeBinding head "set!" indent := by
      rw [writeForm, card]
      simp
    rw [writer]
    exact writeBinding_frame foundName foundValue shows retargets.text indent
  · intro id
    have values : paramValues head = [target, value] := is.paramValues (by rw [names]; rfl)
    rw [Card.settle, settleLeaf, if_pos card, values]
    exact retargets.settles id

/-! ## Other forms -/

theorem shows_values {values : List CardValue} {exprs : List Expr}
    (each : List.Forall₂ CardValue.Shows values exprs) :
    (exprs.map projectValue).map CardValue.bare = values.map CardValue.bare := by
  induction each with
  | nil => rfl
  | cons shown _ induction =>
      rw [List.map_cons, List.map_cons, List.map_cons, shown.same, induction]

theorem shows_params (names : List String) {values : List CardValue} {exprs : List Expr}
    (each : List.Forall₂ CardValue.Shows values exprs) :
    (names.zipWith (fun name (child : Child) =>
        (name, (⟨projectValue child.expr, child.expr.span⟩ : Param)))
        (childrenOf defaultManifest exprs)).map (fun param => (param.1, param.2.value.bare)) =
      (names.zip values).map fun param => (param.1, param.2.bare) := by
  induction each generalizing names with
  | nil => cases names <;> rfl
  | cons shown _ induction =>
      cases names with
      | nil => rfl
      | cons name names =>
          rw [childrenOf, List.zipWith_cons_cons, List.zip_cons_cons, List.map_cons, List.map_cons,
            induction names, shown.same]

theorem writeArgs_frame {values : List CardValue} {exprs : List Expr}
    (each : List.Forall₂ CardValue.Shows values exprs) (form : String) (indent : Nat) :
    writeArgs form values indent =
      writeFrame indent (Layout.rowText (.word [] form.toList :: valueLayouts exprs)) [] := by
  rcases shows_emitted each with ⟨texts, emitted, row⟩
  funext ctx
  rw [writeArgs, emitted, Layout.rowText_cons, Layout.text_word, row, writeFrame]
  simp [writeLines, Context.append, Bind.bind, Except.bind, pure, Except.pure]

theorem generic_redraws {form : String} {exprs : List Expr} (is : head.IsGeneric form exprs)
    (isName : IsName form) (stays : StaysGeneric form exprs) :
    Redraws (.leaf head) (.list (.symbol form default :: exprs) default) := by
  constructor
  · exact form_spelled isName (each_right (fun _ _ shown => shown.spelled) is.args)
  · exact .list (each_right (fun _ _ shown => shown.headed) is.args)
  · apply leaf_draws isName _ (shows_readBack is.args)
    intro indent
    rw [writeForm_generic is.cardId, is.form, writeArgs_frame is.args]
  · intro id
    rw [stays id, settle_leaf (by rw [is.cardId]; decide)]
    simp only [genericExpressionCard, Card.bare, CardHead.bare, is.cardId, is.form, is.kind,
      is.category, is.label, is.params, List.map_nil, shows_values is.args]

/-- The forms of the manifest are names. -/
theorem default_forms : ∀ card ∈ defaultManifest.cards, IsName card.form := by
  decide +kernel

theorem project_simple {card : ManifestCard} {exprs : List Expr}
    (chosen : chooseCard defaultManifest card.form = some card)
    (other : card.form ∉ specialForms) (count : exprs.length = card.params.length) (id : String) :
    projectStatement defaultManifest (.list (.symbol card.form default :: exprs) default) id =
      .leaf (baseCard id card default (card.params.zipWith
        (fun name child => (name, ⟨projectValue child.expr, child.expr.span⟩))
        (childrenOf defaultManifest exprs))) := by
  simp only [specialForms, List.mem_cons, List.not_mem_nil, or_false, not_or] at other
  rw [projectStatement_form, projectForm, chosen]
  simp only [other, if_false, List.length_cons, childrenOf_length, count, if_true]
  rfl

theorem simple_redraws {card : ManifestCard} {values : List CardValue} {exprs : List Expr}
    (chosen : chooseCard defaultManifest card.form = some card)
    (other : card.form ∉ specialForms) (notSet : card.form ≠ "set!") (is : head.Is card values)
    (count : values.length = card.params.length)
    (each : List.Forall₂ CardValue.Shows values exprs) :
    Redraws (.leaf head) (.list (.symbol card.form default :: exprs) default) := by
  rcases chooseCard_some chosen with ⟨member, -, kind⟩
  have isSimple : head.cardId ∉ specialCards :=
    is.cardId ▸ default_cards card member kind other notSet
  have isName := default_forms card member
  constructor
  · exact form_spelled isName (each_right (fun _ _ shown => shown.spelled) each)
  · exact .list (each_right (fun _ _ shown => shown.headed) each)
  · apply leaf_draws isName _ (shows_readBack each)
    intro indent
    have same := is.paramValues count
    rw [paramValues] at same
    rw [writeForm_simple isSimple, is.form, same, writeArgs_frame each]
  · intro id
    have notAssignment : head.cardId ≠ "binding.set" := by
      intro equal
      rw [equal] at isSimple
      exact isSimple (by decide)
    rw [project_simple chosen other (each.length_eq ▸ count), settle_leaf notAssignment, Card.bare,
      Card.bare, is.bare (shows_params card.params each)]

end Leaves

/-! ## Whole trees -/

theorem shown_row {values : List CardValue} (each : ∀ value ∈ values, value.IsShown) :
    ∃ exprs, List.Forall₂ CardValue.Shows values exprs := by
  induction values with
  | nil => exact ⟨[], .nil⟩
  | cons value values induction =>
      rcases List.forall_mem_cons.mp each with ⟨⟨expr, shown⟩, others⟩
      rcases induction others with ⟨exprs, rest⟩
      exact ⟨expr :: exprs, .cons shown rest⟩

theorem redraws_row {cards : List Card} (each : ∀ card ∈ cards, ∃ expr, Redraws card expr) :
    ∃ exprs, List.Forall₂ Redraws cards exprs := by
  induction cards with
  | nil => exact ⟨[], .nil⟩
  | cons card cards induction =>
      rcases List.forall_mem_cons.mp each with ⟨⟨expr, redraws⟩, others⟩
      rcases induction others with ⟨exprs, rest⟩
      exact ⟨expr :: exprs, .cons redraws rest⟩

/-- A sound card is written as an expression, which is projected to the settled card. -/
theorem Card.Sound.redraws (card : Card) : card.Sound → ∃ expr, Redraws card expr := by
  induction card using Card.induct with
  | step card induction =>
      intro sound
      cases sound with
      | sequence is each =>
          rcases redraws_row fun child member => induction child member (each child member) with
            ⟨exprs, rows⟩
          exact ⟨_, sequence_redraws is rows⟩
      | led led is shown each =>
          rcases redraws_row fun child member => induction child member (each child member) with
            ⟨exprs, rows⟩
          rcases shown with ⟨first, shows⟩
          exact ⟨_, led_redraws led is shows rows⟩
      | branches is shown thenEach elseEach =>
          rcases redraws_row fun card member =>
            induction card (List.mem_append_left _ member) (thenEach card member) with
            ⟨thenExprs, thenRows⟩
          rcases redraws_row fun card member =>
            induction card (List.mem_append_right _ member) (elseEach card member) with
            ⟨elseExprs, elseRows⟩
          rcases shown with ⟨condition, shows⟩
          exact ⟨_, branches_redraw is shows thenRows elseRows⟩
      | function is isName named each =>
          rcases redraws_row fun child member => induction child member (each child member) with
            ⟨exprs, rows⟩
          exact ⟨_, function_redraws is isName named rows⟩
      | «variable» is isName shown =>
          rcases shown with ⟨expr, shows⟩
          exact ⟨_, variable_redraws is isName shows⟩
      | assignment is isTarget shown =>
          rcases shown with ⟨expr, shows⟩
          exact assignment_redraws is isTarget shows
      | simple chosen other notSet is count each =>
          rcases shown_row each with ⟨exprs, shows⟩
          exact ⟨_, simple_redraws chosen other notSet is count shows⟩
      | generic is isName stays => exact ⟨_, generic_redraws is isName stays⟩

/-- Cards made from expressions like those drawn are the settled cards. -/
theorem alike_settled {cards : List Card} {exprs others : List Expr}
    (each : List.Forall₂ Redraws cards exprs) (alike : List.Forall₂ Expr.Alike exprs others)
    {again : List Card} (made : MadeFrom defaultManifest again others) :
    again.map Card.bare = (Card.settleAll cards).map Card.bare := by
  induction each generalizing others again with
  | nil =>
      cases alike with
      | nil =>
          cases made with
          | nil => rw [Card.settleAll]
  | @cons card expr cards exprs here _ induction =>
      cases alike with
      | cons same rest =>
          cases made with
          | cons first others =>
              rcases first with ⟨id, rfl⟩
              rw [Card.settleAll, List.map_cons, List.map_cons, induction rest others,
                Expr.Alike.statement expr here.headed _ same id id, here.settles id]

/-- A sound tree is written as source, and projected from it again as the settled tree. -/
theorem sound_settles {cards : List Card} (sound : ∀ card ∈ cards, card.Sound) :
    ∃ generated ast, generateProgram cards = .ok generated ∧
      parseCardCode generated.source = .ok ast ∧ (∀ expr ∈ ast.children, expr.Headed) ∧
      (projectProgram ast.children defaultManifest).map Card.bare =
        (Card.settleAll cards).map Card.bare := by
  rcases redraws_row fun card member => Card.Sound.redraws card (sound card member) with
    ⟨exprs, each⟩
  rcases generateProgram_drawn (redraws_draw each) with
    ⟨generated, ast, result, parsed, alike⟩
  refine ⟨generated, ast, result, parsed, ?_,
    alike_settled each alike (projectProgram_madeFrom defaultManifest ast.children)⟩
  exact row_headed (each_right (fun _ _ redraws => redraws.headed) each) alike

end CardCode.App
