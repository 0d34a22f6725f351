import CardCode.App.Cards
import CardCode.App.Forms
import CardCode.App.Values
import CardCode.Foundation.Layout

/-! # The layout of written source

What the generator writes for an expression, as a tree of words with the blanks
before them. A statement is written as its form, the values that follow it on the
same line, and below them its statements, a line each.
-/

namespace CardCode.App

/-! ## Values -/

/-- The word an integer is written as. -/
def integerWord (raw : String) : Text :=
  let value := integerValue raw.toList
  if -maxSafeInteger ≤ value ∧ value ≤ maxSafeInteger then integerText value else raw.toList

/-- A list that heads a list leaves nothing behind. -/
def headLayouts : Expr → List Layout
  | .integer raw _ => [.word [] raw.toList]
  | .symbol raw _ => [.word [] raw.toList]
  | .list _ _ => []

mutual

def valueLayout : Expr → Text → Layout
  | .integer raw _, gap => .word gap (integerWord raw)
  | .symbol raw _, gap => .word gap raw.toList
  | .list [] _, gap => .group gap []
  | .list (head :: args) _, gap => .group gap (headLayouts head ++ valueLayouts args)

/-- Values in a row, each after a blank. -/
def valueLayouts : List Expr → List Layout
  | [] => []
  | expr :: rest => valueLayout expr [' '] :: valueLayouts rest

end

theorem valueLayouts_eq (exprs : List Expr) :
    valueLayouts exprs = exprs.map fun expr => valueLayout expr [' '] := by
  induction exprs with
  | nil => rw [valueLayouts, List.map_nil]
  | cons expr rest induction => rw [valueLayouts, List.map_cons, induction]

/-- The value of an expression is emitted as the text of its layout. -/
def IsEmitted (expr : Expr) : Prop :=
  ∃ text, emitValue (projectValue expr) = .ok text ∧
    ∀ gap, (valueLayout expr gap).text = gap ++ text

theorem spacedArgs_cons (text : Text) (texts : List Text) :
    spacedArgs (text :: texts) = ' ' :: text ++ spacedArgs texts := by
  cases texts with
  | nil => simp [spacedArgs, joinSpaced]
  | cons second rest => simp [spacedArgs, joinSpaced]

theorem values_emitted {exprs : List Expr} (each : ∀ expr ∈ exprs, IsEmitted expr) :
    ∃ texts, emitValues (exprs.map projectValue) = .ok texts ∧
      Layout.rowText (valueLayouts exprs) = spacedArgs texts := by
  induction exprs with
  | nil =>
      refine ⟨[], by rw [List.map_nil, emitValues], ?_⟩
      rw [valueLayouts, Layout.rowText_nil]
      rfl
  | cons expr exprs induction =>
      rcases each expr List.mem_cons_self with ⟨text, emitted, layout⟩
      rcases induction (fun other member => each other (List.mem_cons_of_mem _ member)) with
        ⟨texts, others, row⟩
      refine ⟨text :: texts, ?_, ?_⟩
      · rw [List.map_cons, emitValues, emitted, others]
        rfl
      · rw [valueLayouts, Layout.rowText_cons, layout, row, spacedArgs_cons]
        rfl

theorem emitValue_integer (raw : String) :
    emitValue (projectIntegerValue raw) = .ok (integerWord raw) := by
  rw [projectIntegerValue, integerWord]
  split_ifs <;> rw [emitValue]

theorem emitValue_symbol (raw : String) (span : Span) :
    emitValue (projectSymbolValue raw span) = .ok raw.toList := by
  rw [projectSymbolValue]
  split_ifs with isTrue isFalse <;> rw [emitValue]
  · rw [isTrue]
    rfl
  · rw [isFalse]
    rfl

theorem headLayouts_text (head : Expr) (rest : List Layout) :
    Layout.rowText (headLayouts head ++ rest) =
      (headValue [head]).toList ++ Layout.rowText rest := by
  cases head <;> simp [headLayouts, headValue]

theorem value_isEmitted (expr : Expr) : IsEmitted expr := by
  induction expr using Expr.induct with
  | integer raw span =>
      refine ⟨integerWord raw, by rw [projectValue, emitValue_integer], fun gap => ?_⟩
      rw [valueLayout, Layout.text_word]
  | symbol raw span =>
      refine ⟨raw.toList, by rw [projectValue, emitValue_symbol], fun gap => ?_⟩
      rw [valueLayout, Layout.text_word]
  | list children span induction =>
      cases children with
      | nil =>
          refine ⟨"()".toList, by rw [projectValue, emitValue, emitValues]; rfl, fun gap => ?_⟩
          rw [valueLayout, Layout.text_group, Layout.rowText_nil]
          rfl
      | cons head args =>
          rcases values_emitted fun arg member => induction arg (List.mem_cons_of_mem _ member) with
            ⟨texts, emitted, row⟩
          refine ⟨'(' :: ((headValue [head]).toList ++ spacedArgs texts ++ [')']), ?_,
            fun gap => ?_⟩
          · rw [projectValue, projectValues_eq, emitValue, emitted]
            rfl
          · rw [valueLayout, Layout.text_group, headLayouts_text, row]

/-- A row of values is emitted as the texts of its layouts. -/
theorem row_isEmitted (exprs : List Expr) :
    ∃ texts, emitValues (exprs.map projectValue) = .ok texts ∧
      Layout.rowText (valueLayouts exprs) = spacedArgs texts :=
  values_emitted fun expr _ => value_isEmitted expr

/-! ## Statements -/

/-- What an object is written as in a template. -/
def objectLayouts : List Layout :=
  [.word [' '] "[object".toList, .word [' '] "Object]".toList]

/-- The name of a variable that is assigned to, of which an object is left. -/
def nameLayouts : Expr → List Layout
  | .integer raw _ => [.word [' '] (integerWord raw)]
  | .symbol raw _ =>
      if isReservedLiteral raw then [.word [' '] raw.toList] else objectLayouts
  | .list _ _ => objectLayouts

def bindingLayouts : List Expr → List Layout
  | [name, value] => nameLayouts name ++ valueLayouts [value]
  | args => valueLayouts args

def isSignature : Expr → Bool
  | .list (.symbol _ _ :: params) _ => params.all isSymbol
  | _ => false

/-- `projectDefine` finds a function: a signature of symbols, and a body. -/
def definesFunction : List Expr → Bool
  | target :: _ :: _ => isSignature target
  | _ => false

/-- How many arguments of a form are projected to values, before its statements. -/
def leadingValues (form : String) (args : List Expr) : Nat :=
  if form = "do" then 0
  else if form = "repeat" ∨ form = "when" ∨ form = "while" then 1
  else if form = "if" ∧ args.length = 3 then 1
  else if form = "define" ∧ definesFunction args then 1
  else args.length

/-- The expressions in a statement that are statements themselves. -/
def statementArgs : Expr → List Expr
  | .list (.symbol form _ :: args) _ => args.drop (leadingValues form args)
  | _ => []

/-- The first line of a statement, without its opening bracket. -/
def frontLayouts : Expr → List Layout
  | .list (.symbol form _ :: args) _ =>
      .word [] form.toList ::
        (if form = "set!" then bindingLayouts args
        else valueLayouts (args.take (leadingValues form args)))
  | .list children _ => .word [] "expr".toList :: valueLayouts children.tail
  | .integer raw span => [.word [] "expr".toList, valueLayout (.integer raw span) [' ']]
  | .symbol raw span => [.word [] "expr".toList, valueLayout (.symbol raw span) [' ']]

/-- A card is written as its first line and the lines of the cards below it. -/
def writeFramed (indent : Nat) (front : Text) (parts : List Card) : Writer := fun ctx => do
  let ctx ← writeLines (writersOf parts) (indent + 1) (ctx.append (pad indent ++ '(' :: front))
  pure (ctx.append [')'])

/-- The card of a statement is written as the statement's first line, and the cards
below it are those of the statements in it. -/
structure Framed (card : Card) (expr : Expr) : Prop where
  writes : ∀ indent, writeCard card indent =
    withSpan card.id (writeFramed indent (Layout.rowText (frontLayouts expr)) card.parts)
  parts : List.Forall₂ (fun part arg => ∃ id, part = projectStatement defaultManifest arg id)
    card.parts (statementArgs expr)

theorem leaf_framed {head : CardHead} {expr : Expr} (none : statementArgs expr = [])
    (writes : ∀ indent, writeForm head [] [] [] indent =
      writeFramed indent (Layout.rowText (frontLayouts expr)) []) :
    Framed (.leaf head) expr := by
  constructor
  · intro indent
    rw [writeCard, writes]
    rfl
  · rw [none]
    exact .nil

theorem writeArgs_framed (form : String) (exprs : List Expr) (indent : Nat) :
    writeArgs form (exprs.map projectValue) indent =
      writeFramed indent (Layout.rowText (.word [] form.toList :: valueLayouts exprs)) [] := by
  rcases row_isEmitted exprs with ⟨texts, emitted, row⟩
  funext ctx
  rw [writeArgs, emitted, Layout.rowText_cons, Layout.text_word, row, writeFramed, writersOf]
  simp [writeLines, Context.append, Bind.bind, Except.bind, pure, Except.pure]

/-- What a generic card writes on its line. -/
def genericLayouts : Expr → List Layout
  | .list (.symbol form _ :: args) _ => .word [] form.toList :: valueLayouts args
  | .list children _ => .word [] "expr".toList :: valueLayouts children.tail
  | .integer raw span => [.word [] "expr".toList, valueLayout (.integer raw span) [' ']]
  | .symbol raw span => [.word [] "expr".toList, valueLayout (.symbol raw span) [' ']]

theorem generic_framed {expr : Expr} {id : String} (none : statementArgs expr = [])
    (front : frontLayouts expr = genericLayouts expr) :
    Framed (genericExpressionCard expr id) expr := by
  have leaf (form : String) (exprs : List Expr) (head : CardHead)
      (layouts : genericLayouts expr = .word [] form.toList :: valueLayouts exprs)
      (generic : head.cardId = "generic.form") (sameForm : head.form = form)
      (sameArgs : head.args = exprs.map projectValue) : Framed (.leaf head) expr := by
    apply leaf_framed none
    intro indent
    rw [writeForm_generic generic, sameForm, sameArgs, writeArgs_framed, front, layouts]
  cases expr with
  | integer raw span => exact leaf "expr" [.integer raw span] _ rfl rfl rfl rfl
  | symbol raw span => exact leaf "expr" [.symbol raw span] _ rfl rfl rfl rfl
  | list children span =>
      cases children with
      | nil => exact leaf "expr" [] _ rfl rfl rfl rfl
      | cons head args =>
          cases head with
          | symbol form headSpan => exact leaf form args _ rfl rfl rfl rfl
          | integer raw headSpan => exact leaf "expr" args _ rfl rfl rfl rfl
          | list inner headSpan => exact leaf "expr" args _ rfl rfl rfl rfl

section Lists

variable {name : String} {headSpan span : Span} {args : List Expr} {id : String}

theorem leadingValues_other (other : name ∉ specialForms) :
    leadingValues name args = args.length := by
  simp only [specialForms, List.mem_cons, List.not_mem_nil, or_false, not_or] at other
  rw [leadingValues]
  simp [other]

/-- A form whose arguments are all values is laid out as a generic card is. -/
theorem frontLayouts_values (all : leadingValues name args = args.length) (notSet : name ≠ "set!") :
    frontLayouts (.list (.symbol name headSpan :: args) span) =
      genericLayouts (.list (.symbol name headSpan :: args) span) := by
  rw [frontLayouts, if_neg notSet, all, List.take_length, genericLayouts]

theorem statementArgs_values (all : leadingValues name args = args.length) :
    statementArgs (.list (.symbol name headSpan :: args) span) = [] := by
  rw [statementArgs, all, List.drop_length]

theorem other_framed (other : name ∉ specialForms) (notSet : name ≠ "set!") :
    Framed (projectStatement defaultManifest (.list (.symbol name headSpan :: args) span) id)
      (.list (.symbol name headSpan :: args) span) := by
  have all := @leadingValues_other name args other
  have generic : Framed (genericExpressionCard (.list (.symbol name headSpan :: args) span) id)
      (.list (.symbol name headSpan :: args) span) :=
    generic_framed (statementArgs_values all) (frontLayouts_values all notSet)
  have plain := other
  simp only [specialForms, List.mem_cons, List.not_mem_nil, or_false, not_or] at plain
  rw [projectStatement_form, projectForm]
  simp only [plain, if_false]
  cases found : chooseCard defaultManifest name with
  | none => exact generic
  | some card =>
      rcases chooseCard_some found with ⟨member, form, kind⟩
      have simple := default_cards card member kind (form ▸ other) (form ▸ notSet)
      simp only [List.length_cons, childrenOf_length, Nat.add_right_cancel_iff]
      split
      next count =>
        apply leaf_framed (statementArgs_values all)
        intro indent
        rw [writeForm_simple simple]
        dsimp only [baseCard, List.tail_cons]
        rw [form, zipWith_values count, writeArgs_framed, frontLayouts_values all notSet]
        rfl
      next => exact generic

/-! ## Bindings -/

/-- A binding is written as its name in a template and its value. -/
theorem writeBinding_framed {head : CardHead} {form : String} {binding : CardValue} {value : Expr}
    {nameRow : List Layout} (foundName : paramValue head "name" = .ok binding)
    (foundValue : paramValue head "value" = .ok (projectValue value))
    (nameText : Layout.rowText nameRow = ' ' :: interpolate binding) (indent : Nat) :
    writeBinding head form indent =
      writeFramed indent
        (Layout.rowText (.word [] form.toList :: (nameRow ++ valueLayouts [value]))) [] := by
  rcases value_isEmitted value with ⟨text, emitted, layout⟩
  funext ctx
  rw [writeBinding, foundName, foundValue]
  dsimp only [Bind.bind, Except.bind]
  rw [emitted, Layout.rowText_cons, Layout.text_word, Layout.rowText_append, nameText, valueLayouts,
    valueLayouts, Layout.rowText_cons, Layout.rowText_nil, layout, writeFramed, writersOf]
  simp [writeLines, Context.append, Bind.bind, Except.bind, pure, Except.pure]

theorem interpolate_number (value : Int) : interpolate (.number value) = integerText value := rfl

theorem interpolate_text (raw : String) : interpolate (.text raw) = raw.toList := rfl

theorem nameRow_text (word : Text) : Layout.rowText [.word [' '] word] = ' ' :: word := by
  rw [Layout.rowText_cons, Layout.rowText_nil, Layout.text_word, List.append_nil,
    List.singleton_append]

theorem nameLayouts_text (target : Expr) :
    Layout.rowText (nameLayouts target) = ' ' :: interpolate (projectValue target) := by
  have object : Layout.rowText objectLayouts = ' ' :: "[object Object]".toList := by
    rw [objectLayouts, Layout.rowText_cons, Layout.rowText_cons, Layout.rowText_nil,
      Layout.text_word, Layout.text_word]
    decide
  cases target with
  | integer raw span =>
      rw [nameLayouts, nameRow_text, projectValue, projectIntegerValue, integerWord]
      split_ifs
      · rw [interpolate_number]
      · rw [interpolate_text]
  | symbol raw span =>
      rw [nameLayouts, projectValue, projectSymbolValue]
      by_cases isTrue : raw = "true"
      · rw [if_pos isTrue, isTrue]
        rfl
      by_cases isFalse : raw = "false"
      · rw [if_neg isTrue, if_pos isFalse, isFalse]
        rfl
      rw [if_neg isTrue, if_neg isFalse]
      split
      · rw [nameRow_text, interpolate_text]
      · exact object
  | list children span =>
      rw [nameLayouts, object]
      cases children with
      | nil => rw [projectValue]; rfl
      | cons head args => rw [projectValue]; rfl

theorem set_framed :
    Framed (projectStatement defaultManifest (.list (.symbol "set!" headSpan :: args) span) id)
      (.list (.symbol "set!" headSpan :: args) span) := by
  have all : leadingValues "set!" args = args.length := leadingValues_other (by decide)
  rw [projectStatement_form, projectForm, chooseCard_set]
  simp only [String.reduceEq, if_false, List.length_cons, childrenOf_length, List.length_nil]
  split
  next count =>
    rcases List.length_eq_two.mp (Nat.succ.inj count) with ⟨target, value, rfl⟩
    apply leaf_framed (statementArgs_values all)
    intro indent
    have front : frontLayouts (.list [.symbol "set!" headSpan, target, value] span) =
        .word [] "set!".toList :: (nameLayouts target ++ valueLayouts [value]) := by
      rw [frontLayouts, if_pos rfl, bindingLayouts]
    rw [front, writeForm]
    exact writeBinding_framed rfl rfl (nameLayouts_text target) indent
  next count =>
    apply generic_framed (statementArgs_values all)
    rw [frontLayouts, if_pos rfl, bindingLayouts, genericLayouts]
    intro target value same
    rw [same] at count
    exact count rfl

theorem definesFunction_target {target : Expr} {body : List Expr}
    (other : isSignature target = false) : definesFunction (target :: body) = false := by
  cases body with
  | nil => rfl
  | cons statement rest => exact other

/-- The arguments of `define` that are no function are values. -/
theorem define_values (values : definesFunction args = false) :
    leadingValues "define" args = args.length := by
  rw [leadingValues]
  simp [values]

theorem define_var_framed {target : String} {targetSpan : Span} {value : Expr} :
    Framed (projectStatement defaultManifest
        (.list [.symbol "define" headSpan, .symbol target targetSpan, value] span) id)
      (.list [.symbol "define" headSpan, .symbol target targetSpan, value] span) := by
  have all : leadingValues "define" [.symbol target targetSpan, value] = 2 := define_values rfl
  have projected : projectStatement defaultManifest
      (.list [.symbol "define" headSpan, .symbol target targetSpan, value] span) id =
      .leaf (baseCard id (cardById defaultManifest "binding.define-var") span
        [("name", ⟨.text target, targetSpan⟩), ("value", ⟨projectValue value, value.span⟩)]) := by
    rw [projectStatement_form, projectForm, if_pos rfl, childrenOf, childrenOf, childrenOf]
    rfl
  rw [projected]
  apply leaf_framed (statementArgs_values all)
  intro indent
  have name : Layout.rowText [.word [' '] target.toList] = ' ' :: interpolate (.text target) :=
    nameRow_text target.toList
  have card : (cardById defaultManifest "binding.define-var").id = "binding.define-var" :=
    cardById_id (by decide)
  have writer {head : CardHead} (same : head.cardId = "binding.define-var") :
      writeForm head [] [] [] indent = writeBinding head "define" indent := by
    rw [writeForm, same]
    simp
  rw [frontLayouts_values all (by decide), writer card]
  exact writeBinding_framed rfl rfl name indent

theorem body_framed {head : CardHead} {children : List Card} {expr : Expr}
    (parts : List.Forall₂ (fun part arg => ∃ id, part = projectStatement defaultManifest arg id)
      children (statementArgs expr))
    (writes : ∀ indent, writeForm head (writersOf children) [] [] indent =
      writeFramed indent (Layout.rowText (frontLayouts expr)) children) :
    Framed (.body head children) expr := by
  refine ⟨fun indent => ?_, parts⟩
  rw [writeCard, writes]
  rfl

/-- A sequence is written as its head, its first argument, and its lines. -/
theorem writeSequence_framed {children : List Card} {form : Text} {firstArg : Option Text}
    {indent : Nat} :
    writeSequence (writersOf children) indent form firstArg =
      writeFramed indent (form ++ leadText firstArg) children :=
  rfl

theorem do_framed :
    Framed (projectStatement defaultManifest (.list (.symbol "do" headSpan :: args) span) id)
      (.list (.symbol "do" headSpan :: args) span) := by
  have projected : projectStatement defaultManifest
      (.list (.symbol "do" headSpan :: args) span) id =
      .body (baseCard id (cardById defaultManifest "control.do") span [])
        (projectChildren (childrenOf defaultManifest args) id) := by
    rw [projectStatement_form, projectForm]
    rfl
  have card : (cardById defaultManifest "control.do").id = "control.do" := cardById_id (by decide)
  rw [projected]
  apply body_framed
  · rw [statementArgs, leadingValues, if_pos rfl, List.drop_zero]
    exact projectChildren_madeFrom defaultManifest args id
  · intro indent
    rw [writeForm, baseCard, card, if_pos rfl, writeSequence_framed, frontLayouts,
      if_neg (by decide), leadingValues, if_pos rfl, List.take_zero, valueLayouts,
      Layout.rowText_cons, Layout.rowText_nil, Layout.text_word]
    rfl

theorem valueRow_text {value : Expr} {text : Text}
    (layout : ∀ gap, (valueLayout value gap).text = gap ++ text) :
    Layout.rowText (valueLayouts [value]) = ' ' :: text := by
  rw [valueLayouts, valueLayouts, Layout.rowText_cons, Layout.rowText_nil, layout, List.append_nil,
    List.singleton_append]

theorem led_values {cardId param : String} (led : Led name cardId param) :
    leadingValues name args = 1 ∧ name ≠ "set!" := by
  cases led <;> exact ⟨rfl, by decide⟩

theorem led_framed {cardId param : String} (led : Led name cardId param) :
    Framed (projectStatement defaultManifest (.list (.symbol name headSpan :: args) span) id)
      (.list (.symbol name headSpan :: args) span) := by
  rcases @led_values name args cardId param led with ⟨one, notSet⟩
  cases args with
  | nil =>
      have projected : projectStatement defaultManifest
          (.list [.symbol name headSpan] span) id =
          genericExpressionCard (.list [.symbol name headSpan] span) id := by
        rw [projectStatement_form, projectForm, childrenOf]
        cases led <;> rfl
      rw [projected]
      apply generic_framed
      · rw [statementArgs, List.drop_nil]
      · rw [frontLayouts, if_neg notSet, List.take_nil, genericLayouts]
  | cons first body =>
      have projected : projectStatement defaultManifest
          (.list (.symbol name headSpan :: first :: body) span) id =
          .body (baseCard id (cardById defaultManifest cardId) span
              [(param, ⟨projectValue first, first.span⟩)])
            (projectChildren (childrenOf defaultManifest body) id) := by
        rw [projectStatement_form, projectForm]
        cases led <;> rw [childrenOf] <;> rfl
      have card : (cardById defaultManifest cardId).id = cardId := by
        cases led <;> exact cardById_id (by decide)
      have writer (writers : List (Nat → Writer)) (indent : Nat) (other : CardHead)
          (same : other.cardId = cardId) : writeForm other writers [] [] indent =
            writeLedSequence other writers indent name param := by
        cases led <;> (rw [writeForm, same]; simp)
      rw [projected]
      apply body_framed
      · rw [statementArgs, one, List.drop_one, List.tail_cons]
        exact projectChildren_madeFrom defaultManifest body id
      · intro indent
        rcases value_isEmitted first with ⟨text, emitted, layout⟩
        have found : paramValue (baseCard id (cardById defaultManifest cardId) span
            [(param, ⟨projectValue first, first.span⟩)]) param = .ok (projectValue first) := by
          cases led <;> rfl
        rw [writer _ indent _ card, frontLayouts, if_neg notSet, one, List.take_one,
          List.head?_cons, Option.toList_some, Layout.rowText_cons, Layout.text_word,
          valueRow_text layout]
        funext ctx
        rw [writeLedSequence, found]
        dsimp only [Bind.bind, Except.bind]
        rw [emitted]
        rfl

/-! ## Branches -/

/-- `if` with one card in each branch is written line by line, as a sequence is. -/
theorem writeIf_framed {head : CardHead} {value : CardValue} {text : Text}
    {thenCard elseCard : Card} {indent : Nat} (found : paramValue head "condition" = .ok value)
    (emitted : emitValue value = .ok text) :
    writeIf head (writersOf [thenCard]) (writersOf [elseCard]) indent =
      writeFramed indent ("if".toList ++ ' ' :: text) [thenCard, elseCard] := by
  funext ctx
  have opened : ctx.append (pad indent ++ "(if ".toList ++ text) =
      ctx.append (pad indent ++ '(' :: ("if".toList ++ ' ' :: text)) := by
    rw [List.append_assoc]
    rfl
  rw [writeIf, found]
  dsimp only [Bind.bind, Except.bind]
  rw [emitted, writeFramed]
  dsimp only [Bind.bind, Except.bind, writersOf, writeBranch, writeLines]
  rw [opened]
  cases writeCard thenCard (indent + 1)
    ((ctx.append (pad indent ++ '(' :: ("if".toList ++ ' ' :: text))).append ['\n']) with
  | error failure => rfl
  | ok middle =>
      dsimp only
      cases writeCard elseCard (indent + 1) (middle.append ['\n']) with
      | error failure => rfl
      | ok last => rfl

theorem if_framed :
    Framed (projectStatement defaultManifest (.list (.symbol "if" headSpan :: args) span) id)
      (.list (.symbol "if" headSpan :: args) span) := by
  by_cases three : args.length = 3
  · rcases List.length_eq_three.mp three with ⟨condition, thenExpr, elseExpr, rfl⟩
    have one : leadingValues "if" [condition, thenExpr, elseExpr] = 1 := rfl
    have projected : projectStatement defaultManifest
        (.list [.symbol "if" headSpan, condition, thenExpr, elseExpr] span) id =
        .fork (baseCard id (cardById defaultManifest "control.if") span
            [("condition", ⟨projectValue condition, condition.span⟩)])
          [projectStatement defaultManifest thenExpr (id ++ "-then-1")]
          [projectStatement defaultManifest elseExpr (id ++ "-else-1")] := by
      rw [projectStatement_form, projectForm, childrenOf, childrenOf, childrenOf, childrenOf]
      rfl
    have card : (cardById defaultManifest "control.if").id = "control.if" :=
      cardById_id (by decide)
    have writer (thenCards elseCards : List (Nat → Writer)) (indent : Nat) {head : CardHead}
        (same : head.cardId = "control.if") : writeForm head [] thenCards elseCards indent =
          writeIf head thenCards elseCards indent := by
      rw [writeForm, same]
      simp
    rw [projected]
    constructor
    · intro indent
      rcases value_isEmitted condition with ⟨text, emitted, layout⟩
      rw [writeCard, writer _ _ indent card, frontLayouts, if_neg (by decide), one, List.take_one,
        List.head?_cons, Option.toList_some, Layout.rowText_cons, Layout.text_word,
        valueRow_text layout]
      rw [writeIf_framed rfl emitted]
      rfl
    · exact .cons ⟨_, rfl⟩ (.cons ⟨_, rfl⟩ .nil)
  · have all : leadingValues "if" args = args.length := by
      rw [leadingValues]
      simp [three]
    have projected : projectStatement defaultManifest
        (.list (.symbol "if" headSpan :: args) span) id =
        genericExpressionCard (.list (.symbol "if" headSpan :: args) span) id := by
      rw [projectStatement_form, projectForm]
      simp only [String.reduceEq, if_false, if_true]
      unfold projectIf
      split
      next same =>
        have lengths := congrArg List.length same
        rw [List.length_cons, childrenOf_length] at lengths
        exact absurd (Nat.succ.inj lengths) three
      next => rfl
    rw [projected]
    exact generic_framed (statementArgs_values all) (frontLayouts_values all (by decide))

/-! ## Functions -/

theorem symbol_values {params : List Expr} (symbols : params.all isSymbol = true) :
    Layout.rowText (valueLayouts params) =
      spacedArgs ((params.map symbolName).map String.toList) := by
  induction params with
  | nil =>
      rw [valueLayouts, Layout.rowText_nil]
      rfl
  | cons param params induction =>
      rw [List.all_cons, Bool.and_eq_true] at symbols
      cases param with
      | integer raw span => cases symbols.1
      | list children span => cases symbols.1
      | symbol raw span =>
          rw [valueLayouts, Layout.rowText_cons, induction symbols.2, valueLayout, Layout.text_word,
            List.map_cons, List.map_cons, spacedArgs_cons, symbolName]
          rfl

/-- Names that are not empty stay apart when they are joined. -/
theorem joinedNames_spaced {names : List String} (named : ∀ name ∈ names, name.toList ≠ []) :
    (if (joinSpaced (names.map String.toList)).isEmpty then []
      else ' ' :: joinSpaced (names.map String.toList)) = spacedArgs (names.map String.toList) := by
  cases names with
  | nil => rfl
  | cons name rest =>
      have nonempty : (joinSpaced ((name :: rest).map String.toList)).isEmpty = false := by
        have first := named name List.mem_cons_self
        cases rest with
        | nil => simpa [joinSpaced] using first
        | cons second rest => simp [joinSpaced]
      rw [nonempty, spacedArgs]
      rfl

/-- A function is written as its signature and its lines. -/
theorem writeFunction_framed {head : CardHead} {name : String} {params : List String}
    {children : List Card} {indent : Nat}
    (foundName : paramValue head "name" = .ok (.text name))
    (foundParams : paramValue head "params" = .ok (.names params))
    (named : ∀ param ∈ params, param.toList ≠ []) :
    writeFunction head (writersOf children) indent =
      writeFramed indent ("define".toList ++ ' ' :: '(' :: (name.toList ++
        spacedArgs (params.map String.toList) ++ [')'])) children := by
  funext ctx
  have opened : ctx.append (pad indent ++ "(define (".toList ++ name.toList ++
      spacedArgs (params.map String.toList) ++ [')']) =
      ctx.append (pad indent ++ '(' :: ("define".toList ++ ' ' :: '(' :: (name.toList ++
        spacedArgs (params.map String.toList) ++ [')']))) := by
    rw [List.append_assoc, List.append_assoc, List.append_assoc, ← List.append_assoc name.toList]
    rfl
  rw [writeFunction, joinedNames, foundParams, foundName, writeFramed]
  dsimp only [Bind.bind, Except.bind, pure, Except.pure]
  rw [interpolate_text, joinedNames_spaced named, opened]

theorem function_framed {target : String} {targetSpan signatureSpan : Span} {params : List Expr}
    {statement : Expr} {rest : List Expr} (symbols : params.all isSymbol = true)
    (spelled : ∀ param ∈ params, param.Spelled) :
    Framed (projectStatement defaultManifest (.list (.symbol "define" headSpan ::
        .list (.symbol target targetSpan :: params) signatureSpan :: statement :: rest) span) id)
      (.list (.symbol "define" headSpan ::
        .list (.symbol target targetSpan :: params) signatureSpan :: statement :: rest) span) := by
  have one : leadingValues "define" (.list (.symbol target targetSpan :: params) signatureSpan ::
      statement :: rest) = 1 := by
    rw [leadingValues]
    simp [definesFunction, isSignature, symbols]
  have projected : projectStatement defaultManifest (.list (.symbol "define" headSpan ::
      .list (.symbol target targetSpan :: params) signatureSpan :: statement :: rest) span) id =
      .body (baseCard id (cardById defaultManifest "binding.define-func") span
          [("name", ⟨.text target, targetSpan⟩),
            ("params", ⟨.names (params.map symbolName), signatureSpan⟩)])
        (projectChildren (childrenOf defaultManifest (statement :: rest)) id) := by
    rw [projectStatement_form, projectForm, if_pos rfl, childrenOf, childrenOf]
    simp [projectDefine, symbols, Expr.span]
  have card : (cardById defaultManifest "binding.define-func").id = "binding.define-func" :=
    cardById_id (by decide)
  have writer (writers : List (Nat → Writer)) (indent : Nat) {head : CardHead}
      (same : head.cardId = "binding.define-func") :
      writeForm head writers [] [] indent = writeFunction head writers indent := by
    rw [writeForm, same]
    simp
  have named : ∀ name ∈ params.map symbolName, name.toList ≠ [] := by
    intro name member
    rcases List.mem_map.mp member with ⟨param, present, rfl⟩
    have isSymbol := List.all_eq_true.mp symbols param present
    cases param with
    | integer raw span => cases isSymbol
    | list children span => cases isSymbol
    | symbol raw span => exact (spelled _ present).isWord.1
  rw [projected]
  apply body_framed
  · rw [statementArgs, one, List.drop_one, List.tail_cons]
    exact projectChildren_madeFrom defaultManifest (statement :: rest) id
  · intro indent
    rw [writer _ indent card, writeFunction_framed rfl rfl named, frontLayouts,
      if_neg (by decide), one, List.take_one, List.head?_cons, Option.toList_some, valueLayouts,
      valueLayouts, Layout.rowText_cons, Layout.rowText_cons, Layout.rowText_nil, Layout.text_word,
      valueLayout, Layout.text_group, headLayouts_text, symbol_values symbols]
    simp [headValue]

theorem define_framed
    (spelled : (Expr.list (.symbol "define" headSpan :: args) span).Spelled) :
    Framed (projectStatement defaultManifest (.list (.symbol "define" headSpan :: args) span) id)
      (.list (.symbol "define" headSpan :: args) span) := by
  -- Without a function the card is a binding of a variable or a generic one.
  have generic (values : definesFunction args = false)
      (projected : projectStatement defaultManifest
        (.list (.symbol "define" headSpan :: args) span) id =
          genericExpressionCard (.list (.symbol "define" headSpan :: args) span) id) :
      Framed (projectStatement defaultManifest
        (.list (.symbol "define" headSpan :: args) span) id)
        (.list (.symbol "define" headSpan :: args) span) := by
    rw [projected]
    have all := define_values values
    exact generic_framed (statementArgs_values all) (frontLayouts_values all (by decide))
  have projection := @projectStatement_form "define" headSpan span args id
  rw [projectForm, if_pos rfl] at projection
  cases args with
  | nil =>
      apply generic rfl
      rw [projection, childrenOf]
      rfl
  | cons target body =>
      cases target with
      | integer raw targetSpan =>
          apply generic (definesFunction_target rfl)
          rw [projection, childrenOf]
          rfl
      | symbol raw targetSpan =>
          cases body with
          | nil =>
              apply generic rfl
              rw [projection, childrenOf, childrenOf]
              rfl
          | cons value rest =>
              cases rest with
              | nil => exact define_var_framed
              | cons second rest =>
                  apply generic rfl
                  rw [projection, childrenOf, childrenOf, childrenOf]
                  rfl
      | list signature signatureSpan =>
          have signatureSpelled := (spelled.child (.list signature signatureSpan) (by simp)).child
          cases signature with
          | nil =>
              apply generic (definesFunction_target rfl)
              rw [projection, childrenOf]
              rfl
          | cons head params =>
              cases head with
              | integer raw headSpan =>
                  apply generic (definesFunction_target rfl)
                  rw [projection, childrenOf]
                  rfl
              | list inner headSpan =>
                  apply generic (definesFunction_target rfl)
                  rw [projection, childrenOf]
                  rfl
              | symbol raw headSpan =>
                  cases body with
                  | nil =>
                      apply generic rfl
                      rw [projection, childrenOf, childrenOf]
                      rfl
                  | cons statement rest =>
                      by_cases symbols : params.all isSymbol = true
                      · exact function_framed symbols fun param member =>
                          signatureSpelled param (List.mem_cons_of_mem _ member)
                      · apply generic
                          (definesFunction_target (Bool.eq_false_of_not_eq_true symbols))
                        rw [projection, childrenOf, childrenOf]
                        simp [projectDefine, symbols]

end Lists

/-- Every statement is written as its layout says. -/
theorem statement_framed (expr : Expr) (spelled : expr.Spelled) (id : String) :
    Framed (projectStatement defaultManifest expr id) expr := by
  cases expr with
  | integer raw span =>
      rw [projectStatement]
      exact generic_framed rfl rfl
  | symbol raw span =>
      rw [projectStatement]
      exact generic_framed rfl rfl
  | list children span =>
      by_cases form : ∃ name headSpan args, children = .symbol name headSpan :: args
      · rcases form with ⟨name, headSpan, args, rfl⟩
        by_cases special : name ∈ specialForms
        · simp only [specialForms, List.mem_cons, List.not_mem_nil, or_false] at special
          rcases special with rfl | rfl | rfl | rfl | rfl | rfl
          · exact define_framed spelled
          · exact do_framed
          · exact led_framed .repeat'
          · exact led_framed .when'
          · exact led_framed .while'
          · exact if_framed
        · by_cases assignment : name = "set!"
          · rw [assignment]
            exact set_framed
          · exact other_framed special assignment
      · have generic : projectStatement defaultManifest (.list children span) id =
            genericExpressionCard (.list children span) id := by
          rw [projectStatement]
          exact fun name headSpan args equal => form ⟨name, headSpan, args, equal⟩
        rw [generic]
        cases children with
        | nil => exact generic_framed rfl rfl
        | cons head args =>
            cases head with
            | symbol name headSpan => exact absurd ⟨name, headSpan, args, rfl⟩ form
            | integer raw headSpan => exact generic_framed rfl rfl
            | list inner headSpan => exact generic_framed rfl rfl

/-! ## Whole programs -/

mutual

/-- A statement at an indentation, each of its own statements on a line below it. -/
def statementLayout : Expr → Nat → Text → Layout
  | .list (.symbol form headSpan :: args) span, indent, gap =>
      .group gap (frontLayouts (.list (.symbol form headSpan :: args) span) ++
        lineLayouts (leadingValues form args) args (indent + 1))
  | .list children span, _, gap => .group gap (frontLayouts (.list children span))
  | .integer raw span, _, gap => .group gap (frontLayouts (.integer raw span))
  | .symbol raw span, _, gap => .group gap (frontLayouts (.symbol raw span))

/-- The lines of the expressions after those skipped. -/
def lineLayouts : Nat → List Expr → Nat → List Layout
  | _, [], _ => []
  | 0, expr :: rest, indent =>
      statementLayout expr indent ('\n' :: pad indent) :: lineLayouts 0 rest indent
  | skipped + 1, _ :: rest, indent => lineLayouts skipped rest indent

end

theorem lineLayouts_eq (skipped : Nat) (exprs : List Expr) (indent : Nat) :
    lineLayouts skipped exprs indent =
      (exprs.drop skipped).map fun expr => statementLayout expr indent ('\n' :: pad indent) := by
  induction exprs generalizing skipped with
  | nil => rw [lineLayouts, List.drop_nil, List.map_nil]
  | cons expr rest induction =>
      cases skipped with
      | zero => rw [lineLayouts, induction, List.drop_zero, List.drop_zero, List.map_cons]
      | succ skipped => rw [lineLayouts, induction, List.drop_succ_cons]

/-- The statements in a statement, a line each. -/
def lines (expr : Expr) (indent : Nat) : List Layout :=
  (statementArgs expr).map fun arg => statementLayout arg indent ('\n' :: pad indent)

theorem statementLayout_eq (expr : Expr) (indent : Nat) (gap : Text) :
    statementLayout expr indent gap =
      .group gap (frontLayouts expr ++ lines expr (indent + 1)) := by
  have bare (front : List Layout) : Layout.group gap front = .group gap (front ++ []) := by
    rw [List.append_nil]
  cases expr with
  | integer raw span => exact bare _
  | symbol raw span => exact bare _
  | list children span =>
      cases children with
      | nil => exact bare _
      | cons head args =>
          cases head with
          | symbol form headSpan => rw [statementLayout, lineLayouts_eq, lines, statementArgs]
          | integer raw headSpan => exact bare _
          | list inner headSpan => exact bare _

theorem statementArgs_mem {expr arg : Expr} (member : arg ∈ statementArgs expr) :
    arg ∈ expr.items := by
  cases expr with
  | integer raw span => cases member
  | symbol raw span => cases member
  | list children span =>
      cases children with
      | nil => cases member
      | cons head args =>
          cases head with
          | symbol form headSpan => exact List.mem_cons_of_mem _ (List.mem_of_mem_drop member)
          | integer raw headSpan => cases member
          | list inner headSpan => cases member

/-- A property of a statement that it inherits from the statements in it. -/
theorem statement_induct {Property : Expr → Prop}
    (step : ∀ expr, (∀ arg ∈ statementArgs expr, Property arg) → Property expr) :
    ∀ expr, Property expr := by
  intro expr
  induction expr using Expr.items_induct with
  | step expr induction =>
      exact step expr fun arg member => induction arg (statementArgs_mem member)

theorem Expr.Spelled.arg {expr arg : Expr} (spelled : expr.Spelled)
    (member : arg ∈ statementArgs expr) : arg.Spelled := by
  have inside := statementArgs_mem member
  cases expr with
  | list children span => exact spelled.child arg inside
  | integer raw span => cases inside
  | symbol raw span => cases inside

/-- The card is written as the statement's layout. -/
def IsWritten (card : Card) (expr : Expr) : Prop :=
  ∀ indent ctx, ∃ written, writeCard card indent ctx = .ok written ∧
    written.source = ctx.source ++ (statementLayout expr indent (pad indent)).text

theorem lines_written {cards : List Card} {exprs : List Expr} {indent : Nat}
    (each : List.Forall₂ IsWritten cards exprs) :
    ∀ ctx, ∃ written, writeLines (writersOf cards) indent ctx = .ok written ∧
      written.source = ctx.source ++ Layout.rowText
        (exprs.map fun expr => statementLayout expr indent ('\n' :: pad indent)) := by
  induction each with
  | nil =>
      intro ctx
      refine ⟨ctx, by rw [writersOf]; rfl, ?_⟩
      rw [List.map_nil, Layout.rowText_nil, List.append_nil]
  | @cons card expr cards exprs written _ induction =>
      intro ctx
      rcases written indent (ctx.append ['\n']) with ⟨middle, result, source⟩
      rcases induction middle with ⟨last, restResult, restSource⟩
      refine ⟨last, ?_, ?_⟩
      · rw [writersOf, writeLines, result]
        exact restResult
      · rw [restSource, source, List.map_cons, Layout.rowText_cons, statementLayout_eq,
          statementLayout_eq, Layout.text_group, Layout.text_group, Context.append]
        simp

/-- A card, once the lines below it are written, is closed and its span recorded. -/
theorem framed_result {card : Card} {expr : Expr} (framed : Framed card expr) {indent : Nat}
    {ctx written : Context}
    (result : writeLines (writersOf card.parts) (indent + 1)
      (ctx.append (pad indent ++ '(' :: Layout.rowText (frontLayouts expr))) = .ok written) :
    writeCard card indent ctx = .ok ((written.append [')']).setSpan card.id
      (spanFromOffsets (written.append [')']).source (textLength ctx.source)
        (textLength (written.append [')']).source))) := by
  rw [framed.writes, withSpan, writeFramed, result]
  rfl

theorem framed_written {card : Card} {expr : Expr} (framed : Framed card expr)
    (parts : List.Forall₂ IsWritten card.parts (statementArgs expr)) : IsWritten card expr := by
  intro indent ctx
  rcases @lines_written _ _ (indent + 1) parts
    (ctx.append (pad indent ++ '(' :: Layout.rowText (frontLayouts expr))) with
    ⟨written, result, source⟩
  refine ⟨_, framed_result framed result, ?_⟩
  rw [Context.setSpan, Context.append, source, Context.append, statementLayout_eq,
    Layout.text_group, Layout.rowText_append, lines]
  simp

theorem statement_isWritten (expr : Expr) :
    expr.Spelled → ∀ id, IsWritten (projectStatement defaultManifest expr id) expr := by
  induction expr using statement_induct with
  | step expr induction =>
      intro spelled id
      have framed := statement_framed expr spelled id
      have made : MadeFrom defaultManifest _ _ := framed.parts
      exact framed_written framed (made.forall₂ fun arg member partId =>
        induction arg member (spelled.arg member) partId)

def programLayouts : List Expr → List Layout
  | [] => []
  | first :: rest =>
      statementLayout first 0 [] :: rest.map fun expr => statementLayout expr 0 ['\n']

/-- After the first card a program is written line by line. -/
theorem writeProgram_lines (cards : List Card) :
    writeProgram cards false = writeLines (writersOf cards) 0 := by
  induction cards with
  | nil =>
      funext ctx
      rw [writersOf]
      rfl
  | cons card rest induction =>
      funext ctx
      rw [writersOf, writeProgram, writeLines, induction]
      rfl

/-- A program is written as the text of its layout. -/
theorem generateProgram_source {exprs : List Expr} (spelled : ∀ expr ∈ exprs, expr.Spelled) :
    ∃ generated, generateProgram (projectProgram exprs defaultManifest) = .ok generated ∧
      generated.source = Layout.rowText (programLayouts exprs) := by
  have each : List.Forall₂ IsWritten (projectProgram exprs defaultManifest) exprs :=
    (projectProgram_madeFrom defaultManifest exprs).forall₂ fun expr member id =>
      statement_isWritten expr (spelled expr member) id
  rw [generateProgram]
  generalize projectProgram exprs defaultManifest = cards at each
  cases each with
  | nil => exact ⟨{}, rfl, rfl⟩
  | @cons card expr cards exprs written others =>
      rcases written 0 {} with ⟨middle, result, source⟩
      rcases @lines_written _ _ 0 others middle with ⟨last, restResult, restSource⟩
      refine ⟨last, ?_, ?_⟩
      · rw [writeProgram, if_pos rfl, result, writeProgram_lines]
        exact restResult
      · rw [restSource, source, programLayouts, Layout.rowText_cons]
        rfl

theorem canonicalSource_eq {exprs : List Expr} (spelled : ∀ expr ∈ exprs, expr.Spelled) :
    canonicalSource defaultManifest exprs = .ok (Layout.rowText (programLayouts exprs)) := by
  rcases generateProgram_source spelled with ⟨generated, result, source⟩
  rw [canonicalSource, result, ← source]
  rfl

end CardCode.App
