import CardCode.App.Cards

/-! # Structural edits (`app/src/edit.js`)

The source changes a tree in place and reports whether it found its card: here an edit gives
its report together with the tree it leaves.
-/

namespace CardCode.App

/-! ## Looking for a card -/

mutual

def findInCard : Card → String → Option Card
  | .leaf head, id => if head.id = id then some (.leaf head) else none
  | .body head children, id =>
      if head.id = id then some (.body head children) else findCard children id
  | .fork head thenCards elseCards, id =>
      if head.id = id then some (.fork head thenCards elseCards)
      else (findCard thenCards id).or (findCard elseCards id)

def findCard : List Card → String → Option Card
  | [], _ => none
  | card :: rest, id => (findInCard card id).or (findCard rest id)

end

mutual

def changeInCard : Card → String → (Card → Card) → Card
  | .leaf head, id, change => if head.id = id then change (.leaf head) else .leaf head
  | .body head children, id, change =>
      if head.id = id then change (.body head children)
      else .body head (changeCard children id change)
  | .fork head thenCards elseCards, id, change =>
      if head.id = id then change (.fork head thenCards elseCards)
      else if (findCard thenCards id).isSome then
        .fork head (changeCard thenCards id change) elseCards
      else .fork head thenCards (changeCard elseCards id change)

/-- The tree after a change to the very card that `findCard` finds, to which the source
holds a reference. -/
def changeCard : List Card → String → (Card → Card) → List Card
  | [], _, _ => []
  | card :: rest, id, change =>
      if (findInCard card id).isSome then changeInCard card id change :: rest
      else card :: changeCard rest id change

end

/-! ## Deleting -/

/-- `findIndex` and `splice`, and what is left for the loop where the row has no such card. -/
def removeFrom (row : List Card) (id : String) (loop : Bool × List Card) : Bool × List Card :=
  match row.findIdx? fun card => card.id = id with
  | some index => (true, row.eraseIdx index)
  | none => loop

mutual

def deleteBelow : Card → String → Bool × Card
  | .leaf head, _ => (false, .leaf head)
  | .body head children, id =>
      let result := removeFrom children id (deleteInside children id)
      (result.1, .body head result.2)
  | .fork head thenCards elseCards, id =>
      let result := removeFrom thenCards id (deleteInside thenCards id)
      if result.1 then (true, .fork head result.2 elseCards)
      else
        let last := removeFrom elseCards id (deleteInside elseCards id)
        (last.1, .fork head result.2 last.2)

/-- The loop of `deleteCardById`. -/
def deleteInside : List Card → String → Bool × List Card
  | [], _ => (false, [])
  | card :: rest, id =>
      let result := deleteBelow card id
      if result.1 then (true, result.2 :: rest)
      else
        let last := deleteInside rest id
        (last.1, result.2 :: last.2)

end

def deleteCardById (cards : List Card) (id : String) : Bool × List Card :=
  removeFrom cards id (deleteInside cards id)

theorem deleteBelow_body (head : CardHead) (children : List Card) (id : String) :
    deleteBelow (.body head children) id =
      ((deleteCardById children id).1, .body head (deleteCardById children id).2) := by
  rw [deleteBelow, deleteCardById]

theorem deleteBelow_fork (head : CardHead) (thenCards elseCards : List Card) (id : String) :
    deleteBelow (.fork head thenCards elseCards) id =
      if (deleteCardById thenCards id).1 then
        (true, .fork head (deleteCardById thenCards id).2 elseCards)
      else
        ((deleteCardById elseCards id).1,
          .fork head (deleteCardById thenCards id).2 (deleteCardById elseCards id).2) := by
  rw [deleteBelow, deleteCardById, deleteCardById]

/-! ## Inserting -/

structure Target where
  parentId : Option String := none
  branch : Option String := none

/-- What `insertCard` makes of the parent it found. There is none where the source adds a
row that no card of this kind has: children beside branches, or a branch of another name. -/
def insertInto (branch : Option String) (newCard : Card) : Card → Option Card
  | .leaf head => if branch.getD "" = "" then some (.body head [newCard]) else none
  | .body head children =>
      if branch.getD "" = "" then some (.body head (children ++ [newCard])) else none
  | .fork head thenCards elseCards =>
      if branch = some "then" then some (.fork head (thenCards ++ [newCard]) elseCards)
      else if branch = some "else" then some (.fork head thenCards (elseCards ++ [newCard]))
      else none

def insertCard (cards : List Card) (target : Target) (newCard : Card) :
    Option (Bool × List Card) :=
  match target.parentId with
  | none => some (true, cards ++ [newCard])
  | some parentId =>
      match findCard cards parentId with
      | none => some (false, cards)
      | some parent =>
          (insertInto target.branch newCard parent).map fun changed =>
            (true, changeCard cards parentId fun _ => changed)

/-! ## Parameters -/

/-- The properties that every JavaScript object has from `Object.prototype`. -/
def inheritedNames : List String :=
  ["constructor", "hasOwnProperty", "isPrototypeOf", "propertyIsEnumerable", "toLocaleString",
    "toString", "valueOf", "__proto__", "__defineGetter__", "__defineSetter__",
    "__lookupGetter__", "__lookupSetter__"]

namespace Card

def mapHead (change : CardHead → CardHead) : Card → Card
  | .leaf head => .leaf (change head)
  | .body head children => .body (change head) children
  | .fork head thenCards elseCards => .fork (change head) thenCards elseCards

/-- Generic cards are made without `params`. -/
def hasParams (card : Card) : Bool :=
  !(card.head.kind = .generic && card.head.cardId = "generic.form")

/-- Whether `card.params[name]` is there. -/
def hasParam (card : Card) (name : String) : Bool :=
  card.hasParams &&
    ((card.head.params.lookup name).isSome || inheritedNames.contains name)

/-- `card.params[name].value = value`. What is assigned to an inherited property is not in
the card. -/
def setParam (card : Card) (name : String) (value : CardValue) : Card :=
  card.mapHead fun head =>
    { head with
      params := head.params.map fun param =>
        if param.1 = name then (name, { param.2 with value }) else param }

end Card

def updateParamValue (cards : List Card) (id name : String) (value : CardValue) :
    Bool × List Card :=
  match findCard cards id with
  | none => (false, cards)
  | some card =>
      if card.hasParam name then (true, changeCard cards id fun card => card.setParam name value)
      else (false, cards)

/-- The parameter has the value, and nothing else of the head has changed. -/
structure CardHead.Updated (name : String) (value : CardValue) (head changed : CardHead) :
    Prop where
  rest : { changed with params := head.params } = head
  given : ∀ param, head.params.lookup name = some param →
    changed.params.lookup name = some { param with value }
  params : List.Forall₂
    (fun param after => after.1 = param.1 ∧ after.2.span = param.2.span ∧
      after.2.value = if param.1 = name then value else param.2.value)
    head.params changed.params

/-- So it is with the card: the cards below it are as they were. -/
inductive Card.Updated (name : String) (value : CardValue) : Card → Card → Prop
  | leaf {head changed} :
      head.Updated name value changed → Updated name value (.leaf head) (.leaf changed)
  | body {head changed children} :
      head.Updated name value changed →
      Updated name value (.body head children) (.body changed children)
  | fork {head changed thenCards elseCards} :
      head.Updated name value changed →
      Updated name value (.fork head thenCards elseCards) (.fork changed thenCards elseCards)

/-! ## Places in a tree -/

/-- A tree with one of its rows left out. -/
inductive Spot where
  | top
  | children (before : List Card) (head : CardHead) (inner : Spot) (after : List Card)
  | thenBranch (before : List Card) (head : CardHead) (inner : Spot) (elseCards after : List Card)
  | elseBranch (before : List Card) (head : CardHead) (thenCards : List Card) (inner : Spot)
      (after : List Card)

namespace Spot

def fill : Spot → List Card → List Card
  | .top, row => row
  | .children before head inner after, row => before ++ .body head (inner.fill row) :: after
  | .thenBranch before head inner elseCards after, row =>
      before ++ .fork head (inner.fill row) elseCards :: after
  | .elseBranch before head thenCards inner after, row =>
      before ++ .fork head thenCards (inner.fill row) :: after

end Spot

/-- Every card of a tree stands in some row of it. -/
theorem exists_spot {cards : List Card} {card : Card} (member : card ∈ flattenCards cards) :
    ∃ (spot : Spot) (before after : List Card), cards = spot.fill (before ++ card :: after) := by
  have step : ∀ outer : Card, card ∈ flattenCard outer → ∀ left right : List Card,
      ∃ (spot : Spot) (before after : List Card),
        left ++ outer :: right = spot.fill (before ++ card :: after) := by
    intro outer
    induction outer using Card.induct with
    | step outer induction =>
        intro inside left right
        rw [flattenCard_eq] at inside
        rcases List.mem_cons.mp inside with rfl | inside
        · exact ⟨.top, left, right, rfl⟩
        · rw [flattenCards_eq] at inside
          rcases List.mem_flatMap.mp inside with ⟨part, present, inside⟩
          have found := induction part present inside
          cases outer with
          | leaf head => cases present
          | body head children =>
              rcases List.append_of_mem present with ⟨front, back, rfl⟩
              rcases found front back with ⟨spot, before, after, same⟩
              exact ⟨.children left head spot right, before, after, by rw [Spot.fill, same]⟩
          | fork head thenCards elseCards =>
              rcases List.mem_append.mp present with present | present
              · rcases List.append_of_mem present with ⟨front, back, rfl⟩
                rcases found front back with ⟨spot, before, after, same⟩
                exact ⟨.thenBranch left head spot elseCards right, before, after,
                  by rw [Spot.fill, same]⟩
              · rcases List.append_of_mem present with ⟨front, back, rfl⟩
                rcases found front back with ⟨spot, before, after, same⟩
                exact ⟨.elseBranch left head thenCards spot right, before, after,
                  by rw [Spot.fill, same]⟩
  rw [flattenCards_eq] at member
  rcases List.mem_flatMap.mp member with ⟨outer, present, inside⟩
  rcases List.append_of_mem present with ⟨left, right, rfl⟩
  exact step outer inside left right

/-! ## The ids of a tree -/

def idsOf (cards : List Card) : List String :=
  (flattenCards cards).map Card.id

@[simp] theorem idsOf_nil : idsOf [] = [] := by
  rw [idsOf, flattenCards, List.map_nil]

@[simp] theorem idsOf_cons (card : Card) (rest : List Card) :
    idsOf (card :: rest) = card.id :: (idsOf card.parts ++ idsOf rest) := by
  rw [idsOf, flattenCards, flattenCard_eq, List.map_append, List.map_cons, List.cons_append]
  rfl

@[simp] theorem idsOf_append (front back : List Card) :
    idsOf (front ++ back) = idsOf front ++ idsOf back := by
  rw [idsOf, flattenCards_eq, List.flatMap_append, List.map_append, ← flattenCards_eq,
    ← flattenCards_eq]
  rfl

theorem id_mem_idsOf {card : Card} {cards : List Card} (member : card ∈ cards) :
    card.id ∈ idsOf cards := by
  rcases List.append_of_mem member with ⟨front, back, rfl⟩
  simp

theorem Spot.id_mem (spot : Spot) (before after : List Card) (card : Card) :
    card.id ∈ idsOf (spot.fill (before ++ card :: after)) := by
  induction spot with
  | top => exact id_mem_idsOf (by simp [Spot.fill])
  | children front head inner back induction => simp [Spot.fill, Card.parts, induction]
  | thenBranch front head inner elseCards back induction =>
      simp [Spot.fill, Card.parts, induction]
  | elseBranch front head thenCards inner back induction =>
      simp [Spot.fill, Card.parts, induction]

/-! ## Looking for an id -/

theorem findCard_append (front back : List Card) (id : String) :
    findCard (front ++ back) id = (findCard front id).or (findCard back id) := by
  induction front with
  | nil => rw [List.nil_append, findCard, Option.none_or]
  | cons card rest induction =>
      rw [List.cons_append, findCard, findCard, induction, Option.or_assoc]

theorem findInCard_parts (card : Card) (id : String) :
    findInCard card id = if card.id = id then some card else findCard card.parts id := by
  cases card with
  | leaf head => rw [findInCard, Card.parts, findCard]; rfl
  | body head children => rw [findInCard, Card.parts]; rfl
  | fork head thenCards elseCards => rw [findInCard, Card.parts, findCard_append]; rfl

theorem findCard_of {cards : List Card} {id : String}
    (each : ∀ card ∈ cards,
      findInCard card id = (flattenCard card).find? fun found => found.id = id) :
    findCard cards id = (flattenCards cards).find? fun found => found.id = id := by
  induction cards with
  | nil => rw [findCard, flattenCards, List.find?_nil]
  | cons card rest induction =>
      rw [findCard, flattenCards, List.find?_append, each card List.mem_cons_self,
        induction fun other member => each other (List.mem_cons_of_mem card member)]

theorem findInCard_eq (card : Card) (id : String) :
    findInCard card id = (flattenCard card).find? fun found => found.id = id := by
  induction card using Card.induct with
  | step card induction =>
      rw [findInCard_parts, findCard_of induction, flattenCard_eq, List.find?_cons]
      by_cases same : card.id = id
      · simp [same]
      · simp [same]

/-- `findCard` takes the cards in the order of the flattened tree. -/
theorem findCard_eq (cards : List Card) (id : String) :
    findCard cards id = (flattenCards cards).find? fun found => found.id = id :=
  findCard_of fun card _ => findInCard_eq card id

theorem findCard_none_iff {cards : List Card} {id : String} :
    findCard cards id = none ↔ id ∉ idsOf cards := by
  rw [findCard_eq]
  simp [idsOf]

/-! ## Edits of an absent id -/

theorem removeFrom_absent {row : List Card} {id : String} {loop : Bool × List Card}
    (absent : ∀ card ∈ row, card.id ≠ id) : removeFrom row id loop = loop := by
  have none : (row.findIdx? fun card => card.id = id) = none := by
    simpa using absent
  rw [removeFrom, none]

theorem deleteCardById_of {cards : List Card} {id : String}
    (each : ∀ card ∈ cards, id ∉ idsOf card.parts → deleteBelow card id = (false, card))
    (absent : id ∉ idsOf cards) :
    deleteInside cards id = (false, cards) ∧ deleteCardById cards id = (false, cards) := by
  have inside : deleteInside cards id = (false, cards) := by
    induction cards with
    | nil => rw [deleteInside]
    | cons card rest induction =>
        rw [idsOf_cons, List.mem_cons, List.mem_append] at absent
        simp only [not_or] at absent
        rw [deleteInside, each card List.mem_cons_self absent.2.1,
          induction (fun other member => each other (List.mem_cons_of_mem card member))
            absent.2.2]
        rfl
  have row : ∀ card ∈ cards, card.id ≠ id := by
    intro card member same
    exact absent (same ▸ id_mem_idsOf member)
  exact ⟨inside, by rw [deleteCardById, removeFrom_absent row, inside]⟩

theorem deleteBelow_absent (card : Card) {id : String} (absent : id ∉ idsOf card.parts) :
    deleteBelow card id = (false, card) := by
  induction card using Card.induct with
  | step card induction =>
      cases card with
      | leaf head => rw [deleteBelow]
      | body head children =>
          have kept : deleteCardById children id = (false, children) :=
            (deleteCardById_of induction absent).2
          rw [deleteBelow_body, kept]
      | fork head thenCards elseCards =>
          rw [Card.parts, idsOf_append, List.mem_append, not_or] at absent
          have thenKept := (deleteCardById_of
            (fun part member => induction part (List.mem_append_left _ member)) absent.1).2
          have elseKept := (deleteCardById_of
            (fun part member => induction part (List.mem_append_right _ member)) absent.2).2
          rw [deleteBelow_fork, thenKept, elseKept]
          rfl

theorem delete_absent {cards : List Card} {id : String} (absent : id ∉ idsOf cards) :
    deleteInside cards id = (false, cards) ∧ deleteCardById cards id = (false, cards) :=
  deleteCardById_of (fun card _ => deleteBelow_absent card) absent

/-! ## Edits of a card in its place -/

/-- Where an id is below a card of a row, it is nowhere else in the row. -/
theorem apart_of_distinct {before after : List Card} {card : Card} {id : String}
    (distinct : (idsOf (before ++ card :: after)).Nodup) (below : id ∈ idsOf card.parts) :
    id ∉ idsOf before ∧ id ≠ card.id ∧ id ∉ idsOf after ∧ (idsOf card.parts).Nodup := by
  rw [idsOf_append, idsOf_cons, List.nodup_append, List.nodup_cons, List.nodup_append] at distinct
  rcases distinct with ⟨-, ⟨outside, inner, -, apart⟩, front⟩
  have elsewhere : id ∉ idsOf before := by
    intro member
    exact front id member id (List.mem_cons_of_mem _ (List.mem_append_left _ below)) rfl
  have notHead : id ≠ card.id := by
    intro same
    exact outside (List.mem_append_left _ (same ▸ below))
  exact ⟨elsewhere, notHead, fun member => apart id below id member rfl, inner⟩

theorem deleteInside_at {before after : List Card} {card changed : Card} {id : String}
    (absent : id ∉ idsOf before) (deleted : deleteBelow card id = (true, changed)) :
    deleteInside (before ++ card :: after) id = (true, before ++ changed :: after) := by
  induction before with
  | nil =>
      rw [List.nil_append, deleteInside, deleted]
      rfl
  | cons first rest induction =>
      rw [idsOf_cons, List.mem_cons, List.mem_append] at absent
      simp only [not_or] at absent
      rw [List.cons_append, deleteInside, deleteBelow_absent first absent.2.1,
        induction absent.2.2]
      rfl

/-- A card that is changed further down is changed in its row. -/
theorem delete_below {before after : List Card} {card changed : Card} {id : String}
    (distinct : (idsOf (before ++ card :: after)).Nodup) (below : id ∈ idsOf card.parts)
    (deleted : deleteBelow card id = (true, changed)) :
    deleteCardById (before ++ card :: after) id = (true, before ++ changed :: after) := by
  rcases apart_of_distinct distinct below with ⟨beforeAbsent, notHead, afterAbsent, -⟩
  have row : ∀ other ∈ before ++ card :: after, other.id ≠ id := by
    intro other member same
    rcases List.mem_append.mp member with member | member
    · exact beforeAbsent (same ▸ id_mem_idsOf member)
    · rcases List.mem_cons.mp member with rfl | member
      · exact notHead same.symm
      · exact afterAbsent (same ▸ id_mem_idsOf member)
  rw [deleteCardById, removeFrom_absent row, deleteInside_at beforeAbsent deleted]

theorem delete_row {before after : List Card} {card : Card}
    (absent : card.id ∉ idsOf before) :
    deleteCardById (before ++ card :: after) card.id = (true, before ++ after) := by
  have index : ((before ++ card :: after).findIdx? fun other => other.id = card.id) =
      some before.length := by
    induction before with
    | nil => simp [List.findIdx?_cons]
    | cons first rest induction =>
        rw [idsOf_cons, List.mem_cons, List.mem_append] at absent
        simp only [not_or] at absent
        have different : ¬ first.id = card.id := fun same => absent.1 same.symm
        rw [List.cons_append, List.findIdx?_cons, induction absent.2.2]
        simp [different]
  rw [deleteCardById, removeFrom, index]
  simp [List.eraseIdx_append_of_length_le]

theorem changeCard_at {before after : List Card} {card : Card} {id : String}
    (absent : id ∉ idsOf before) (found : (findInCard card id).isSome) (change : Card → Card) :
    changeCard (before ++ card :: after) id change =
      before ++ changeInCard card id change :: after := by
  induction before with
  | nil => rw [List.nil_append, changeCard, if_pos found, List.nil_append]
  | cons first rest induction =>
      rw [idsOf_cons, List.mem_cons, List.mem_append] at absent
      simp only [not_or] at absent
      have notFound : findInCard first id = none := by
        rw [findInCard_parts, if_neg fun same => absent.1 same.symm]
        exact findCard_none_iff.mpr absent.2.1
      rw [List.cons_append, changeCard, notFound, induction absent.2.2]
      rfl

theorem changeInCard_self (card : Card) (change : Card → Card) :
    changeInCard card card.id change = change card := by
  cases card with
  | leaf head => exact if_pos rfl
  | body head children => exact if_pos rfl
  | fork head thenCards elseCards => exact if_pos rfl

theorem findCard_isSome {cards : List Card} {id : String} (member : id ∈ idsOf cards) :
    (findCard cards id).isSome := by
  cases found : findCard cards id with
  | none => exact absurd member (findCard_none_iff.mp found)
  | some card => rfl

/-- A card whose parts change further down is changed in its row. -/
theorem change_below {before after : List Card} {card : Card} {id : String}
    (distinct : (idsOf (before ++ card :: after)).Nodup) (below : id ∈ idsOf card.parts)
    (change : Card → Card) :
    changeCard (before ++ card :: after) id change =
      before ++ changeInCard card id change :: after := by
  rcases apart_of_distinct distinct below with ⟨beforeAbsent, notHead, -, -⟩
  apply changeCard_at beforeAbsent
  rw [findInCard_parts, if_neg notHead.symm]
  exact findCard_isSome below

namespace Spot

variable {before after : List Card} {card : Card}

/-- The tree after an edit of the card at a spot differs from the tree before in that card. -/
theorem edited (spot : Spot) (distinct : (idsOf (spot.fill (before ++ card :: after))).Nodup) :
    deleteCardById (spot.fill (before ++ card :: after)) card.id =
        (true, spot.fill (before ++ after)) ∧
      ∀ change, changeCard (spot.fill (before ++ card :: after)) card.id change =
        spot.fill (before ++ change card :: after) := by
  induction spot with
  | top =>
      rw [fill, idsOf_append, List.nodup_append] at distinct
      have absent : card.id ∉ idsOf before :=
        fun member => distinct.2.2 _ member _ (id_mem_idsOf List.mem_cons_self) rfl
      constructor
      · exact delete_row absent
      · intro change
        have found : (findInCard card card.id).isSome := by
          rw [findInCard_parts, if_pos rfl, Option.isSome_some]
        rw [fill, changeCard_at absent found, changeInCard_self, fill]
  | children front head inner back induction =>
      have below : card.id ∈
          idsOf (Card.parts (.body head (inner.fill (before ++ card :: after)))) :=
        inner.id_mem before after card
      rcases apart_of_distinct distinct below with ⟨-, notHead, -, parts⟩
      have other : ¬ head.id = card.id := fun same => notHead same.symm
      rcases induction parts with ⟨deleted, changed⟩
      constructor
      · apply delete_below distinct below
        rw [deleteBelow_body, deleted]
      · intro change
        rw [fill, change_below distinct below, changeInCard, if_neg other, changed, fill]
  | thenBranch front head inner elseCards back induction =>
      have inside := inner.id_mem before after card
      have below : card.id ∈ idsOf
          (Card.parts (.fork head (inner.fill (before ++ card :: after)) elseCards)) := by
        rw [Card.parts, idsOf_append]
        exact List.mem_append_left _ inside
      rcases apart_of_distinct distinct below with ⟨-, notHead, -, parts⟩
      have other : ¬ head.id = card.id := fun same => notHead same.symm
      rw [Card.parts, idsOf_append, List.nodup_append] at parts
      rcases induction parts.1 with ⟨deleted, changed⟩
      constructor
      · apply delete_below distinct below
        rw [deleteBelow_fork, deleted]
        rfl
      · intro change
        rw [fill, change_below distinct below, changeInCard, if_neg other,
          if_pos (findCard_isSome inside), changed, fill]
  | elseBranch front head thenCards inner back induction =>
      have inside := inner.id_mem before after card
      have below : card.id ∈ idsOf
          (Card.parts (.fork head thenCards (inner.fill (before ++ card :: after)))) := by
        rw [Card.parts, idsOf_append]
        exact List.mem_append_right _ inside
      rcases apart_of_distinct distinct below with ⟨-, notHead, -, parts⟩
      have other : ¬ head.id = card.id := fun same => notHead same.symm
      rw [Card.parts, idsOf_append, List.nodup_append] at parts
      have absent : card.id ∉ idsOf thenCards := fun member => parts.2.2 _ member _ inside rfl
      rcases induction parts.2.1 with ⟨deleted, changed⟩
      constructor
      · apply delete_below distinct below
        rw [deleteBelow_fork, (delete_absent absent).2, deleted]
        rfl
      · intro change
        rw [fill, change_below distinct below, changeInCard, if_neg other,
          findCard_none_iff.mpr absent, Option.isSome_none, if_neg Bool.false_ne_true, changed,
          fill]

end Spot

/-! ## A card with another value -/

theorem lookup_setParam {params : List (String × Param)} {name : String} {param : Param}
    (found : params.lookup name = some param) (value : CardValue) :
    (params.map fun param =>
        if param.1 = name then (name, { param.2 with value }) else param).lookup name =
      some { param with value } := by
  induction params with
  | nil => cases found
  | cons first rest induction =>
      rw [List.lookup_cons] at found
      rw [List.map_cons]
      by_cases same : first.1 = name
      · rw [same, beq_self_eq_true] at found
        cases found
        rw [if_pos same, List.lookup_cons, beq_self_eq_true]
      · have other : (name == first.1) = false := by simpa using Ne.symm same
        rw [other] at found
        rw [if_neg same, List.lookup_cons, other]
        exact induction found

theorem setParam_updated (card : Card) (name : String) (value : CardValue) :
    card.Updated name value (card.setParam name value) := by
  have head (head : CardHead) : head.Updated name value { head with
      params := head.params.map fun param =>
        if param.1 = name then (name, { param.2 with value }) else param } := by
    refine ⟨rfl, fun param found => lookup_setParam found value, ?_⟩
    rw [List.forall₂_map_right_iff, List.forall₂_same]
    intro param _
    by_cases same : param.1 = name
    · rw [if_pos same, if_pos same]
      exact ⟨same.symm, rfl, rfl⟩
    · rw [if_neg same, if_neg same]
      exact ⟨rfl, rfl, rfl⟩
  cases card with
  | leaf => exact .leaf (head _)
  | body => exact .body (head _)
  | fork => exact .fork (head _)

theorem CardHead.Updated.unique {name : String} {value : CardValue} {head first second : CardHead}
    (one : head.Updated name value first) (other : head.Updated name value second) :
    first = second := by
  have params : first.params = second.params := by
    refine List.right_unique_forall₂' ?_ one.params other.params
    rintro param ⟨_, _, _⟩ ⟨_, _, _⟩ ⟨rfl, rfl, rfl⟩ ⟨rfl, rfl, rfl⟩
    rfl
  have rest := one.rest.trans other.rest.symm
  cases first
  cases second
  cases params
  cases rest
  rfl

/-- There is one card that a card is updated to. -/
theorem Card.Updated.eq_setParam {name : String} {value : CardValue} {card changed : Card}
    (updated : card.Updated name value changed) : changed = card.setParam name value := by
  have same := setParam_updated card name value
  generalize card.setParam name value = other at same
  cases updated with
  | leaf one => cases same with | leaf other => rw [one.unique other]
  | body one => cases same with | body other => rw [one.unique other]
  | fork one => cases same with | fork other => rw [one.unique other]

/-! ## The edits of a projected tree -/

/-- What the edits of a card do to the tree in which it stands. -/
structure EditsCard (cards : List Card) (spot : Spot) (before : List Card) (card : Card)
    (after : List Card) : Prop where
  placed : cards = spot.fill (before ++ card :: after)
  deleted : deleteCardById cards card.id = (true, spot.fill (before ++ after))
  child_inserted : ∀ head children newCard, card = .body head children →
    insertCard cards { parentId := some card.id } newCard =
      some (true, spot.fill (before ++ .body head (children ++ [newCard]) :: after))
  then_inserted : ∀ head thenCards elseCards newCard, card = .fork head thenCards elseCards →
    insertCard cards { parentId := some card.id, branch := some "then" } newCard =
      some (true,
        spot.fill (before ++ .fork head (thenCards ++ [newCard]) elseCards :: after))
  else_inserted : ∀ head thenCards elseCards newCard, card = .fork head thenCards elseCards →
    insertCard cards { parentId := some card.id, branch := some "else" } newCard =
      some (true,
        spot.fill (before ++ .fork head thenCards (elseCards ++ [newCard]) :: after))
  updated : ∀ name value, card.hasParam name = true →
    ∃ changed, card.Updated name value changed ∧
      updateParamValue cards card.id name value =
        (true, spot.fill (before ++ changed :: after))
  not_updated : ∀ name value, card.hasParam name = false →
    updateParamValue cards card.id name value = (false, cards)

section Trees

variable {cards : List Card}

theorem insertCard_found {card changed newCard : Card} {branch : Option String}
    {id : String} (found : findCard cards id = some card)
    (inserted : insertInto branch newCard card = some changed) :
    insertCard cards { parentId := some id, branch } newCard =
      some (true, changeCard cards id fun _ => changed) := by
  simp only [insertCard, found, inserted, Option.map_some]

theorem editsCard_of_found {card : Card} {id : String} (distinct : (idsOf cards).Nodup)
    (found : findCard cards id = some card) :
    card.id = id ∧ ∃ spot before after, EditsCard cards spot before card after := by
  have search := found
  rw [findCard_eq] at search
  have same : card.id = id := by simpa using List.find?_some search
  rcases exists_spot (List.mem_of_find?_eq_some search) with ⟨spot, before, after, placed⟩
  refine ⟨same, spot, before, after, ?_⟩
  rw [placed] at distinct
  rcases spot.edited distinct with ⟨deleted, changed⟩
  rw [← placed] at deleted changed
  rw [← same] at found
  constructor
  · exact placed
  · exact deleted
  · intro head children newCard isBody
    rw [isBody] at found changed ⊢
    rw [insertCard_found found rfl, changed]
  · intro head thenCards elseCards newCard isFork
    rw [isFork] at found changed ⊢
    rw [insertCard_found found rfl, changed]
  · intro head thenCards elseCards newCard isFork
    rw [isFork] at found changed ⊢
    rw [insertCard_found found rfl, changed]
  · intro name value has
    refine ⟨_, setParam_updated card name value, ?_⟩
    simp only [updateParamValue, found, has, if_true, changed]
  · intro name value hasNot
    simp [updateParamValue, found, hasNot]

theorem deleted_iff_found (distinct : (idsOf cards).Nodup) (id : String) :
    (deleteCardById cards id).1 = true ↔ (findCard cards id).isSome := by
  cases found : findCard cards id with
  | none => simp [(delete_absent (findCard_none_iff.mp found)).2]
  | some card =>
      rcases editsCard_of_found distinct found with ⟨same, spot, before, after, edits⟩
      rw [← same, edits.deleted]
      simp

theorem not_deleted_kept (distinct : (idsOf cards).Nodup) {id : String} {left : List Card}
    (deletion : deleteCardById cards id = (false, left)) : left = cards := by
  cases found : findCard cards id with
  | none =>
      rw [(delete_absent (findCard_none_iff.mp found)).2] at deletion
      exact (Prod.mk.inj deletion).2.symm
  | some card =>
      have deleted := (deleted_iff_found distinct id).mpr (by rw [found, Option.isSome_some])
      rw [deletion] at deleted
      exact absurd deleted Bool.false_ne_true

theorem not_inserted_kept {target : Target} {newCard : Card} {left : List Card}
    (insertion : insertCard cards target newCard = some (false, left)) : left = cards := by
  unfold insertCard at insertion
  split at insertion
  · simp at insertion
  · split at insertion
    · exact (Prod.mk.inj (Option.some.inj insertion)).2.symm
    · rcases Option.map_eq_some_iff.mp insertion with ⟨changed, -, same⟩
      simp at same

theorem not_updated_kept {id name : String} {value : CardValue} {left : List Card}
    (update : updateParamValue cards id name value = (false, left)) : left = cards := by
  unfold updateParamValue at update
  split at update
  · exact (Prod.mk.inj update).2.symm
  · split at update
    · simp at update
    · exact (Prod.mk.inj update).2.symm

end Trees

/-- The edits of a tree act on the one card they address and on nothing else; one that
reports `false` leaves the tree as it was. -/
structure EditsAddressed (cards : List Card) : Prop where
  distinct : (idsOf cards).Nodup
  deleted_iff : ∀ id, (deleteCardById cards id).1 = true ↔ (findCard cards id).isSome
  on_card : ∀ id card, findCard cards id = some card →
    card.id = id ∧ ∃ spot before after, EditsCard cards spot before card after
  on_top : ∀ branch newCard,
    insertCard cards { parentId := none, branch } newCard = some (true, cards ++ [newCard])
  not_deleted : ∀ id left, deleteCardById cards id = (false, left) → left = cards
  not_inserted : ∀ target newCard left,
    insertCard cards target newCard = some (false, left) → left = cards
  not_updated : ∀ id name value left,
    updateParamValue cards id name value = (false, left) → left = cards

/-- So it is with every projected tree, whatever its expressions. -/
theorem edits_addressed (manifest : Manifest) (exprs : List Expr) :
    EditsAddressed (projectProgram exprs manifest) := by
  have distinct : (idsOf (projectProgram exprs manifest)).Nodup :=
    projectProgram_nodup manifest exprs
  constructor
  · exact distinct
  · exact deleted_iff_found distinct
  · intro id card found
    exact editsCard_of_found distinct found
  · intro branch newCard
    rw [insertCard]
  · intro id left deletion
    exact not_deleted_kept distinct deletion
  · intro target newCard left insertion
    exact not_inserted_kept insertion
  · intro id name value left update
    exact not_updated_kept update

end CardCode.App
