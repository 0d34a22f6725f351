import CardCode.App.Arguments
import CardCode.App.Drawings

/-! # What becomes of an edited tree

The tree that an edit leaves is written as source, and the source is projected. Most cards
come back as they were. An empty branch comes back as an empty sequence and a branch of
several cards as one sequence, a function without statements and an assignment to a variable
come back as generic cards.
-/

namespace CardCode.App

/-! ## Settling -/

/-- What a word is read as. -/
def wordValue (raw : String) : CardValue :=
  projectValue (atomExpr raw.toList default)

def genericCard (form : String) (args : List CardValue) : Card :=
  .leaf { id := "", cardId := "generic.form", form, kind := .generic, category := "generic",
          label := form, args, span := default }

def doCard (children : List Card) : Card :=
  .body (baseCard "" (cardById defaultManifest "control.do") default []) children

def paramValues (head : CardHead) : List CardValue :=
  head.params.map fun param => param.2.value

/-- The name goes into a template as it is: an object's contents are lost, and a text is
read as the word it is. -/
def settleAssignment (head : CardHead) (target value : CardValue) : Card :=
  match target with
  | .var _ _ => genericCard "set!" [.var "[object" default, .var "Object]" default, value]
  | .call _ _ _ => genericCard "set!" [.var "[object" default, .var "Object]" default, value]
  | .text raw =>
      .leaf { head with
        params := [("name", ⟨wordValue raw, default⟩), ("value", ⟨value, default⟩)] }
  | _ => .leaf head

def settleLeaf (head : CardHead) : Card :=
  if head.cardId = "binding.set" then
    match paramValues head with
    | [target, value] => settleAssignment head target value
    | _ => .leaf head
  else .leaf head

/-- Of a function without statements the signature is left. -/
def settleFunction (head : CardHead) : Card :=
  match paramValues head with
  | [.text name, .names params] => genericCard "define" [.call name (params.map wordValue) default]
  | _ => .body head []

/-- A branch is one statement. -/
def settleBranch : List Card → List Card
  | [card] => [card]
  | cards => [doCard cards]

namespace Card

mutual

/-- What the card is when it is written and projected again. -/
def settle : Card → Card
  | .leaf head => settleLeaf head
  | .body head children =>
      if head.cardId = "binding.define-func" ∧ children.isEmpty then settleFunction head
      else .body head (settleAll children)
  | .fork head thenCards elseCards =>
      .fork head (settleBranch (settleAll thenCards)) (settleBranch (settleAll elseCards))

def settleAll : List Card → List Card
  | [] => []
  | card :: rest => card.settle :: settleAll rest

end

theorem settleAll_eq (cards : List Card) : settleAll cards = cards.map settle := by
  induction cards with
  | nil => rw [settleAll, List.map_nil]
  | cons card rest induction => rw [settleAll, List.map_cons, induction]

end Card

/-! ## Values -/

/-- A word that is no integer. -/
def IsName (name : String) : Prop :=
  isIntegerText name.toList = false ∧ IsWord name.toList

instance (name : String) : Decidable (IsName name) :=
  inferInstanceAs (Decidable (_ ∧ _))

theorem IsName.spelled {name : String} {span : Span} (isName : IsName name) :
    (Expr.symbol name span).Spelled :=
  .symbol isName.1 isName.2

/-- The value is that of the expression. -/
structure CardValue.Shows (value : CardValue) (expr : Expr) : Prop where
  spelled : expr.Spelled
  headed : expr.Headed
  same : value.bare = (projectValue expr).bare

/-- A value that an expression has in which every list is headed by a symbol. -/
def CardValue.IsShown (value : CardValue) : Prop :=
  ∃ expr, value.Shows expr

/-- A value that is written as one word, or as an object, where a name stands. -/
inductive CardValue.IsTarget : CardValue → Prop
  | number {value} : -maxSafeInteger ≤ value ∧ value ≤ maxSafeInteger → IsTarget (.number value)
  | boolean {value} : IsTarget (.boolean value)
  | text {raw} : IsWord raw.toList → IsTarget (.text raw)
  | var {name span} : IsTarget (.var name span)
  | call {form args span} : IsTarget (.call form args span)

/-! ## Sound trees -/

/-- The head of a card of the manifest, with the values of its parameters. -/
structure CardHead.Is (head : CardHead) (card : ManifestCard) (values : List CardValue) :
    Prop where
  cardId : head.cardId = card.id
  form : head.form = card.form
  kind : head.kind = card.kind
  category : head.category = card.category
  label : head.label = card.label
  params : head.params.map (fun param => (param.1, param.2.value)) = card.params.zip values
  args : head.args = []

structure CardHead.IsGeneric (head : CardHead) (name : String) (exprs : List Expr) : Prop where
  cardId : head.cardId = "generic.form"
  form : head.form = name
  kind : head.kind = .generic
  category : head.category = "generic"
  label : head.label = name
  params : head.params = []
  args : List.Forall₂ CardValue.Shows head.args exprs

/-- The form is projected to a generic card. -/
def StaysGeneric (form : String) (exprs : List Expr) : Prop :=
  ∀ id, projectStatement defaultManifest (.list (.symbol form default :: exprs) default) id =
    genericExpressionCard (.list (.symbol form default :: exprs) default) id

/-- The cards that projection and the edits of the interface make. -/
inductive Card.Sound : Card → Prop
  | sequence {head children} :
      head.Is (cardById defaultManifest "control.do") [] → (∀ child ∈ children, Sound child) →
      Sound (.body head children)
  | led {form cardId param head value children} :
      Led form cardId param → head.Is (cardById defaultManifest cardId) [value] →
      value.IsShown → (∀ child ∈ children, Sound child) → Sound (.body head children)
  | branches {head value thenCards elseCards} :
      head.Is (cardById defaultManifest "control.if") [value] → value.IsShown →
      (∀ card ∈ thenCards, Sound card) → (∀ card ∈ elseCards, Sound card) →
      Sound (.fork head thenCards elseCards)
  | function {head name params children} :
      head.Is (cardById defaultManifest "binding.define-func") [.text name, .names params] →
      IsName name → (∀ param ∈ params, IsName param) → (∀ child ∈ children, Sound child) →
      Sound (.body head children)
  | variable {head name value} :
      head.Is (cardById defaultManifest "binding.define-var") [.text name, value] →
      IsName name → value.IsShown → Sound (.leaf head)
  | assignment {head target value} :
      head.Is (cardById defaultManifest "binding.set") [target, value] → target.IsTarget →
      value.IsShown → Sound (.leaf head)
  | simple {head card values} :
      chooseCard defaultManifest card.form = some card → card.form ∉ specialForms →
      card.form ≠ "set!" → head.Is card values → values.length = card.params.length →
      (∀ value ∈ values, value.IsShown) → Sound (.leaf head)
  | generic {head form exprs} :
      head.IsGeneric form exprs → IsName form → StaysGeneric form exprs → Sound (.leaf head)

/-- What a card is written as, and what that is projected to. -/
structure Redraws (card : Card) (expr : Expr) : Prop where
  spelled : expr.Spelled
  headed : expr.Headed
  draws : Draws (writeCard card) expr
  settles : ∀ id, (projectStatement defaultManifest expr id).bare = card.settle.bare

/-! ## Heads -/

section Heads

variable {head : CardHead} {card : ManifestCard} {values : List CardValue}

theorem paramValue_eq {name : String} {value : CardValue}
    (found : (head.params.map fun param => (param.1, param.2.value)).lookup name = some value) :
    paramValue head name = .ok value := by
  rw [paramValue]
  generalize head.params = params at found
  induction params with
  | nil => cases found
  | cons param params induction =>
      rw [List.map_cons, List.lookup_cons] at found
      rw [List.lookup_cons]
      cases same : name == param.1 with
      | true =>
          rw [same] at found
          exact congrArg Except.ok (Option.some.inj found)
      | false =>
          rw [same] at found
          exact induction found

theorem CardHead.Is.paramValue (is : head.Is card values) {name : String} {value : CardValue}
    (found : (card.params.zip values).lookup name = some value) :
    paramValue head name = .ok value :=
  paramValue_eq (is.params ▸ found)

theorem CardHead.Is.paramValues (is : head.Is card values)
    (count : values.length = card.params.length) : paramValues head = values := by
  have same := congrArg (List.map Prod.snd) is.params
  rw [List.map_map, List.map_snd_zip (Nat.le_of_eq count)] at same
  exact same

/-- The head of a card that is projected to the same values is the same bare head. -/
theorem CardHead.Is.bare (is : head.Is card values) {id : String} {span : Span}
    {params : List (String × Param)}
    (same : params.map (fun param => (param.1, param.2.value.bare)) =
      (card.params.zip values).map fun param => (param.1, param.2.bare)) :
    (baseCard id card span params).bare = head.bare := by
  have heads := congrArg
    (List.map fun param : String × CardValue => (param.1, (⟨param.2.bare, default⟩ : Param)))
    is.params
  have others := congrArg
    (List.map fun param : String × CardValue => (param.1, (⟨param.2, default⟩ : Param))) same
  rw [List.map_map] at heads others
  rw [List.map_map] at others
  simp only [baseCard, CardHead.bare, is.cardId, is.form, is.kind, is.category, is.label, is.args,
    List.map_nil]
  congr 1
  exact others.trans heads.symm

end Heads

/-! ## Values and names that are read back -/

theorem CardValue.Shows.emitted {value : CardValue} {expr : Expr} (shows : value.Shows expr) :
    ∃ text, emitValue value = .ok text ∧ ∀ gap, (valueLayout expr gap).text = gap ++ text := by
  rcases value_isEmitted expr with ⟨text, emitted, layout⟩
  refine ⟨text, ?_, layout⟩
  rw [← emitValue_bare, shows.same, emitValue_bare, emitted]

theorem shows_emitted {values : List CardValue} {exprs : List Expr}
    (each : List.Forall₂ CardValue.Shows values exprs) :
    ∃ texts, emitValues values = .ok texts ∧
      Layout.rowText (valueLayouts exprs) = spacedArgs texts := by
  induction each with
  | nil =>
      refine ⟨[], by rw [emitValues], ?_⟩
      rw [valueLayouts, Layout.rowText_nil]
      rfl
  | @cons value expr values exprs shown _ induction =>
      rcases shown.emitted with ⟨text, emitted, layout⟩
      rcases induction with ⟨texts, others, row⟩
      refine ⟨text :: texts, ?_, ?_⟩
      · rw [emitValues, emitted, others]
        rfl
      · rw [valueLayouts, Layout.rowText_cons, layout, row, spacedArgs_cons]
        rfl

theorem shows_readBack {values : List CardValue} {exprs : List Expr}
    (each : List.Forall₂ CardValue.Shows values exprs) : ReadBack (valueLayouts exprs) exprs :=
  values_readBack (each_right (fun _ _ shown => shown.spelled) each)
    (each_right (fun _ _ shown => shown.headed) each)

theorem names_readBack {names : List String} (named : ∀ name ∈ names, IsName name) :
    ReadBack (valueLayouts (names.map fun name => .symbol name default))
      (names.map fun name => .symbol name default) := by
  apply values_readBack
  · intro expr member
    rcases List.mem_map.mp member with ⟨name, present, rfl⟩
    exact (named name present).spelled
  · intro expr member
    rcases List.mem_map.mp member with ⟨name, present, rfl⟩
    exact .symbol

theorem form_spelled {form : String} {headSpan span : Span} {args : List Expr}
    (isName : IsName form) (each : ∀ arg ∈ args, arg.Spelled) :
    (Expr.list (.symbol form headSpan :: args) span).Spelled :=
  .list (List.forall_mem_cons.mpr ⟨isName.spelled, each⟩)

/-! ## Frames -/

section Frames

variable {head : CardHead} {form : String} {front : List Layout} {values exprs : List Expr}

theorem leaf_draws (isName : IsName form)
    (writes : ∀ indent, writeForm head [] [] [] indent =
      writeFrame indent (Layout.rowText (.word [] form.toList :: front)) [])
    (readFront : ReadBack front values) :
    Draws (writeCard (.leaf head)) (.list (.symbol form default :: values) default) := by
  have same : writeCard (.leaf head) = fun indent =>
      withSpan head.id (writeForm head [] [] [] indent) := by
    funext indent
    rw [writeCard]
  have draws : Draws _ (.list (.symbol form default :: (values ++ [])) default) :=
    frame_draws writes isName.spelled readFront .nil
  rw [List.append_nil] at draws
  rw [same]
  exact withSpan_draws head.id draws

theorem body_draws {children : List Card} (isName : IsName form)
    (writes : ∀ indent, writeForm head (writersOf children) [] [] indent =
      writeFrame indent (Layout.rowText (.word [] form.toList :: front)) (writersOf children))
    (readFront : ReadBack front values) (lines : List.Forall₂ Draws (writersOf children) exprs) :
    Draws (writeCard (.body head children))
      (.list (.symbol form default :: (values ++ exprs)) default) := by
  have same : writeCard (.body head children) = fun indent =>
      withSpan head.id (writeForm head (writersOf children) [] [] indent) := by
    funext indent
    rw [writeCard]
  rw [same]
  exact withSpan_draws head.id (frame_draws writes isName.spelled readFront lines)

end Frames

end CardCode.App
