import CardCode.App.Manifest
import CardCode.App.Parser

/-! # Cards from expressions (`app/src/projection.js`)

A statement receives each of its children together with the projection of that
child as a statement, so that the recursion follows the expression.
-/

namespace CardCode.App

/-! ## Values -/

/-- A JavaScript value a card's parameter can hold. A number is an integer;
`text` is a string, `names` an array of strings. -/
inductive CardValue where
  | null
  | number (value : Int)
  | boolean (value : Bool)
  | text (raw : String)
  | names (names : List String)
  | var (name : String) (span : Span)
  | call (form : String) (args : List CardValue) (span : Span)
  deriving Repr

/-- `RESERVED_LITERAL_SYMBOLS`. -/
def isReservedLiteral (name : String) : Bool :=
  name = "true" || name = "false" || name = "off" || name = "red" || name = "green" ||
    name = "blue" || name = "yellow" || name = "white"

/-- The natural number a row of decimal digits denotes. -/
def digitsValue (digits : Text) : Nat :=
  digits.foldl (fun value c => 10 * value + (c.toNat - '0'.toNat)) 0

/-- The integer a raw integer denotes. -/
def integerValue : Text → Int
  | '-' :: digits => -(digitsValue digits : Int)
  | digits => (digitsValue digits : Int)

/-- `Number.MAX_SAFE_INTEGER`. -/
def maxSafeInteger : Int := 9007199254740991

/-- `projectIntegerValue`. `Number` rounds no integer across the safe range: it is
exact within it, and gives an unsafe number for every integer beyond. -/
def projectIntegerValue (raw : String) : CardValue :=
  let value := integerValue raw.toList
  if -maxSafeInteger ≤ value ∧ value ≤ maxSafeInteger then .number value else .text raw

def projectSymbolValue (name : String) (span : Span) : CardValue :=
  if name = "true" then .boolean true
  else if name = "false" then .boolean false
  else if isReservedLiteral name then .text name
  else .var name span

/-- `expr.children[0]?.value || ''`. -/
def headValue : List Expr → String
  | .symbol raw _ :: _ => raw
  | .integer raw _ :: _ => raw
  | _ => ""

mutual

/-- `projectValue`. A form without parameters is a call without arguments
whichever of the two branches of the source makes it. -/
def projectValue : Expr → CardValue
  | .integer raw _ => projectIntegerValue raw
  | .symbol raw span => projectSymbolValue raw span
  | .list [] span => .call "" [] span
  | .list (head :: args) span => .call (headValue [head]) (projectValues args) span

def projectValues : List Expr → List CardValue
  | [] => []
  | expr :: rest => projectValue expr :: projectValues rest

end

theorem projectValues_eq (exprs : List Expr) : projectValues exprs = exprs.map projectValue := by
  induction exprs with
  | nil => rw [projectValues, List.map_nil]
  | cons expr rest induction => rw [projectValues, List.map_cons, induction]

/-! ## Cards -/

structure Param where
  value : CardValue
  span : Span
  deriving Repr

/-- What a card holds beside the cards below it. `args` is there for generic
cards only. -/
structure CardHead where
  id : String
  cardId : String
  form : String
  kind : CardKind
  category : String
  label : String
  params : List (String × Param) := []
  args : List CardValue := []
  span : Span
  deriving Repr

/-- A card: by itself, with a sequence of children, or with two branches. -/
inductive Card where
  | leaf (head : CardHead)
  | body (head : CardHead) (children : List Card)
  | fork (head : CardHead) (thenCards elseCards : List Card)
  deriving Repr

namespace Card

def head : Card → CardHead
  | .leaf head => head
  | .body head _ => head
  | .fork head _ _ => head

def id (card : Card) : String := card.head.id

def span (card : Card) : Span := card.head.span

/-- The cards directly below a card, in the order they are flattened. -/
def parts : Card → List Card
  | .leaf _ => []
  | .body _ children => children
  | .fork _ thenCards elseCards => thenCards ++ elseCards

/-- A property of a card that every card inherits from those below it. -/
theorem induct {Property : Card → Prop}
    (step : ∀ card, (∀ part ∈ card.parts, Property part) → Property card) :
    ∀ card, Property card := by
  intro card
  refine @Card.rec Property (fun cards => ∀ card ∈ cards, Property card) ?_ ?_ ?_
    (by simp) ?_ card
  · exact fun head => step _ fun _ member => nomatch member
  · exact fun head children holds => step _ holds
  · intro head thenCards elseCards thenHold elseHold
    apply step
    intro part member
    rcases List.mem_append.mp member with member | member
    · exact thenHold part member
    · exact elseHold part member
  · intro head tail headHolds tailHold card member
    rcases List.mem_cons.mp member with equal | member
    · exact equal ▸ headHolds
    · exact tailHold card member

end Card

/-- `baseCard`. The manifest's card is there for every id and form that
projection asks for; of a missing one the source would read fields and throw. -/
def baseCard (id : String) (manifestCard : ManifestCard) (span : Span)
    (params : List (String × Param)) : CardHead where
  id := id
  cardId := manifestCard.id
  form := manifestCard.form
  kind := manifestCard.kind
  category := manifestCard.category
  label := manifestCard.label
  params := params
  span := span

def missingCard (id : String) : ManifestCard where
  id := id
  form := ""
  kind := .generic
  category := ""
  label := ""
  params := []

/-- `manifest.byId.get(cardId)`, which finds all the cards projection names. -/
def cardById (manifest : Manifest) (id : String) : ManifestCard :=
  (manifest.byId id).getD (missingCard id)

/-- The cards projection asks for by their ids. -/
def namedCards : List String :=
  ["control.do", "control.repeat", "control.when", "control.while", "control.if",
    "binding.define-var", "binding.define-func"]

theorem default_cards_found :
    ∀ id ∈ namedCards, (defaultManifest.byId id).isSome = true := by
  decide

theorem cardById_id {id : String} (named : id ∈ namedCards) :
    (cardById defaultManifest id).id = id := by
  rcases Option.isSome_iff_exists.mp (default_cards_found id named) with ⟨card, found⟩
  have same := List.find?_some found
  rw [cardById, found]
  simpa using same

def genericExpressionCard (expr : Expr) (id : String) : Card :=
  match expr with
  | .list (.symbol form _ :: args) span =>
      .leaf { id, cardId := "generic.form", form, kind := .generic, category := "generic",
              label := form, args := args.map projectValue, span }
  | .list children span =>
      .leaf { id, cardId := "generic.form", form := "expr", kind := .generic,
              category := "generic", label := "expr",
              args := children.tail.map projectValue, span }
  | atom =>
      .leaf { id, cardId := "generic.form", form := "expr", kind := .generic,
              category := "generic", label := "expr", args := [projectValue atom],
              span := atom.span }

/-! ## Statements -/

/-- A child of a statement: the expression and its projection under a given id. -/
structure Child where
  expr : Expr
  project : String → Card

def projectChildren (children : List Child) (id : String) : List Card :=
  children.mapIdx fun index child => child.project (id ++ "-" ++ toString (index + 1))

def isSymbol : Expr → Bool
  | .symbol _ _ => true
  | _ => false

/-- `p.value` of a symbol. -/
def symbolName : Expr → String
  | .symbol raw _ => raw
  | _ => ""

/-- `projectDefine`; `children` are those of `expr`, its head included. -/
def projectDefine (manifest : Manifest) (expr : Expr) (children : List Child) (id : String) :
    Card :=
  match children with
  | _ :: target :: body =>
      match target.expr with
      | .list (.symbol name nameSpan :: params) headSpan =>
          if body.isEmpty || !params.all isSymbol then genericExpressionCard expr id
          else
            .body
              (baseCard id (cardById manifest "binding.define-func") expr.span
                [("name", ⟨.text name, nameSpan⟩),
                 ("params", ⟨.names (params.map symbolName), headSpan⟩)])
              (projectChildren body id)
      | .list _ _ => genericExpressionCard expr id
      | .symbol name nameSpan =>
          match body with
          | [value] =>
              .leaf (baseCard id (cardById manifest "binding.define-var") expr.span
                [("name", ⟨.text name, nameSpan⟩),
                 ("value", ⟨projectValue value.expr, value.expr.span⟩)])
          | _ => genericExpressionCard expr id
      | .integer _ _ => genericExpressionCard expr id
  | _ => genericExpressionCard expr id

/-- `projectSequenceCard`. -/
def projectSequenceCard (manifest : Manifest) (expr : Expr) (children : List Child)
    (id cardId : String) (paramNames : List String) (childStart : Nat) : Card :=
  if children.length < childStart then genericExpressionCard expr id
  else
    .body
      (baseCard id (cardById manifest cardId) expr.span
        (paramNames.zipWith (fun name child => (name, ⟨projectValue child.expr, child.expr.span⟩))
          children.tail))
      (projectChildren (children.drop childStart) id)

/-- `projectIf`. -/
def projectIf (manifest : Manifest) (expr : Expr) (children : List Child) (id : String) : Card :=
  match children with
  | [_, condition, thenChild, elseChild] =>
      .fork
        (baseCard id (cardById manifest "control.if") expr.span
          [("condition", ⟨projectValue condition.expr, condition.expr.span⟩)])
        [thenChild.project (id ++ "-then-1")] [elseChild.project (id ++ "-else-1")]
  | _ => genericExpressionCard expr id

/-- `chooseCard` for the kinds `command`, `binding` and `control`. -/
def chooseCard (manifest : Manifest) (form : String) : Option ManifestCard :=
  (manifest.byForm form).find? fun card =>
    card.kind = .command || card.kind = .binding || card.kind = .control

/-- The part of `projectStatement` that deals with a list headed by a symbol. -/
def projectForm (manifest : Manifest) (expr : Expr) (form : String) (children : List Child)
    (id : String) : Card :=
  if form = "define" then projectDefine manifest expr children id
  else if form = "do" then projectSequenceCard manifest expr children id "control.do" [] 1
  else if form = "repeat" then
    projectSequenceCard manifest expr children id "control.repeat" ["count"] 2
  else if form = "when" then
    projectSequenceCard manifest expr children id "control.when" ["condition"] 2
  else if form = "while" then
    projectSequenceCard manifest expr children id "control.while" ["condition"] 2
  else if form = "if" then projectIf manifest expr children id
  else
    match chooseCard manifest form with
    | none => genericExpressionCard expr id
    | some card =>
        if children.length = card.params.length + 1 then
          .leaf (baseCard id card expr.span
            (card.params.zipWith
              (fun name child => (name, ⟨projectValue child.expr, child.expr.span⟩))
              children.tail))
        else genericExpressionCard expr id

mutual

def projectStatement (manifest : Manifest) : Expr → String → Card
  | .list (.symbol form headSpan :: args) span, id =>
      let expr := Expr.list (.symbol form headSpan :: args) span
      projectForm manifest expr form
        (⟨.symbol form headSpan, genericExpressionCard (.symbol form headSpan)⟩ ::
          childrenOf manifest args) id
  | .list children span, id => genericExpressionCard (.list children span) id
  | .integer raw span, id => genericExpressionCard (.integer raw span) id
  | .symbol raw span, id => genericExpressionCard (.symbol raw span) id

def childrenOf (manifest : Manifest) : List Expr → List Child
  | [] => []
  | expr :: rest => ⟨expr, projectStatement manifest expr⟩ :: childrenOf manifest rest

end

theorem childrenOf_eq (manifest : Manifest) (exprs : List Expr) :
    childrenOf manifest exprs = exprs.map fun expr => ⟨expr, projectStatement manifest expr⟩ := by
  induction exprs with
  | nil => rw [childrenOf, List.map_nil]
  | cons expr rest induction => rw [childrenOf, List.map_cons, induction]

def projectProgram (exprs : List Expr) (manifest : Manifest) : List Card :=
  exprs.mapIdx fun index expr =>
    projectStatement manifest expr ("card-" ++ toString (index + 1))

end CardCode.App
