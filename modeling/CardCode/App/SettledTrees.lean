import CardCode.App.DrawnTrees

/-! # Settled trees

What settling leaves alone, and that it does not depend on ids and places.
-/

namespace CardCode.App

/-! ## Settled trees -/

namespace Card

mutual

/-- No assignment, no function without statements, and one card in each branch. -/
def isSettled : Card → Bool
  | .leaf head => head.cardId ≠ "binding.set"
  | .body head children =>
      (head.cardId ≠ "binding.define-func" || !children.isEmpty) && areSettled children
  | .fork _ thenCards elseCards =>
      thenCards.length = 1 && elseCards.length = 1 && areSettled thenCards && areSettled elseCards

def areSettled : List Card → Bool
  | [] => true
  | card :: rest => card.isSettled && areSettled rest

end

theorem areSettled_eq (cards : List Card) : areSettled cards = cards.all isSettled := by
  induction cards with
  | nil => rw [areSettled, List.all_nil]
  | cons card rest induction => rw [areSettled, List.all_cons, induction]

theorem settleAll_same {cards : List Card} (each : ∀ card ∈ cards, card.settle = card) :
    settleAll cards = cards := by
  rw [settleAll_eq]
  exact (List.map_congr_left each).trans (List.map_id cards)

theorem settleBranch_single {cards : List Card} (one : cards.length = 1) :
    settleBranch cards = cards := by
  rcases List.length_eq_one_iff.mp one with ⟨card, rfl⟩
  rfl

/-- A settled card is not changed by settling. -/
theorem settle_settled (card : Card) : card.isSettled = true → card.settle = card := by
  induction card using Card.induct with
  | step card induction =>
      intro settled
      cases card with
      | leaf head =>
          rw [isSettled, decide_eq_true_eq] at settled
          exact settle_leaf settled
      | body head children =>
          rw [isSettled, Bool.and_eq_true, areSettled_eq, List.all_eq_true] at settled
          have same : settleAll children = children := settleAll_same fun child member =>
            induction child member (settled.2 child member)
          rw [settle, if_neg, same]
          intro both
          rcases both with ⟨isFunction, empty⟩
          simp [isFunction, empty] at settled
      | fork head thenCards elseCards =>
          rw [isSettled, Bool.and_eq_true, Bool.and_eq_true, Bool.and_eq_true, areSettled_eq,
            areSettled_eq, List.all_eq_true, List.all_eq_true, decide_eq_true_eq,
            decide_eq_true_eq] at settled
          rcases settled with ⟨⟨⟨thenOne, elseOne⟩, thens⟩, elses⟩
          rw [settle,
            settleAll_same fun card member =>
              induction card (List.mem_append_left _ member) (thens card member),
            settleAll_same fun card member =>
              induction card (List.mem_append_right _ member) (elses card member),
            settleBranch_single thenOne, settleBranch_single elseOne]

end Card

/-! ## Settling bare cards -/

theorem bare_wordValue (raw : String) : (wordValue raw).bare = wordValue raw := by
  rw [wordValue, atomExpr]
  split
  · rw [projectValue, projectIntegerValue]
    split <;> rw [CardValue.bare]
  · rw [projectValue, projectSymbolValue]
    split_ifs <;> rw [CardValue.bare]

theorem paramValues_bare (head : CardHead) :
    paramValues head.bare = (paramValues head).map CardValue.bare := by
  rw [paramValues, paramValues, CardHead.bare, List.map_map, List.map_map]
  rfl

theorem genericCard_bare (form : String) (args : List CardValue) :
    (genericCard form args).bare = genericCard form (args.map CardValue.bare) := by
  rw [genericCard, Card.bare, CardHead.bare]
  rfl

theorem settleAssignment_bare (head : CardHead) (target value : CardValue) :
    settleAssignment head.bare target.bare value.bare =
      (settleAssignment head target value).bare := by
  cases target with
  | var name span =>
      simp only [CardValue.bare, settleAssignment, genericCard_bare, List.map_cons, List.map_nil]
  | call form args span =>
      simp only [CardValue.bare, settleAssignment, genericCard_bare, List.map_cons, List.map_nil]
  | text raw =>
      simp only [CardValue.bare, settleAssignment, Card.bare, CardHead.bare, List.map_cons,
        List.map_nil, bare_wordValue]
  | null => rfl
  | number value => rfl
  | boolean value => rfl
  | names names => rfl

theorem settleLeaf_bare (head : CardHead) : settleLeaf head.bare = (settleLeaf head).bare := by
  have cardId : head.bare.cardId = head.cardId := rfl
  rw [settleLeaf, settleLeaf, cardId, paramValues_bare]
  split
  · cases paramValues head with
    | nil => rfl
    | cons target rest =>
        cases rest with
        | nil => rfl
        | cons value rest =>
            cases rest with
            | nil => exact settleAssignment_bare head target value
            | cons third rest => rfl
  · rfl

theorem settleFunction_bare (head : CardHead) :
    settleFunction head.bare = (settleFunction head).bare := by
  have body : Card.body head.bare [] = (Card.body head []).bare := by
    rw [Card.bare, Card.bareAll]
  rw [settleFunction.eq_def head, settleFunction.eq_def head.bare, paramValues_bare]
  generalize paramValues head = values
  split
  next name params same =>
    rcases List.map_eq_cons_iff.mp same with ⟨target, rest, rfl, targetBare, rest'⟩
    rcases List.map_eq_cons_iff.mp rest' with ⟨row, others, rfl, rowBare, none⟩
    rw [List.map_eq_nil_iff.mp none]
    cases target <;> simp only [CardValue.bare, reduceCtorEq, CardValue.text.injEq] at targetBare
    cases row <;> simp only [CardValue.bare, reduceCtorEq, CardValue.names.injEq] at rowBare
    rw [targetBare, rowBare, genericCard_bare]
    simp only [List.map_cons, List.map_nil, CardValue.bare, CardValue.bareAll_eq, List.map_map]
    congr 4
    exact funext fun param => (bare_wordValue param).symm
  next other =>
    split
    next name params => exact absurd rfl (other name params)
    next => exact body

namespace Card

/-- Settling does not look at ids and places. -/
theorem settle_bare (card : Card) : card.bare.settle = card.settle.bare := by
  induction card using Card.induct with
  | step card induction =>
      have row {cards : List Card} (parts : ∀ part ∈ cards, part.bare.settle = part.settle.bare) :
          settleAll (bareAll cards) = bareAll (settleAll cards) := by
        rw [settleAll_eq, bareAll_eq, bareAll_eq, settleAll_eq, List.map_map, List.map_map]
        exact List.map_congr_left parts
      have branch (cards : List Card) :
          settleBranch (bareAll cards) = bareAll (settleBranch cards) := by
        cases cards with
        | nil => rfl
        | cons first rest =>
            cases rest with
            | nil => rfl
            | cons second rest => rfl
      cases card with
      | leaf head => rw [bare, settle, settle, settleLeaf_bare]
      | body head children =>
          have empty : (bareAll children).isEmpty = children.isEmpty := by
            rw [bareAll_eq, List.isEmpty_map]
          have cardId : head.bare.cardId = head.cardId := rfl
          rw [bare, settle, settle, empty, cardId]
          split
          · exact settleFunction_bare head
          · have below : settleAll (bareAll children) = bareAll (settleAll children) :=
              row induction
            rw [bare, below]
      | fork head thenCards elseCards =>
          rw [bare, settle, settle, bare,
            row fun part member => induction part (List.mem_append_left _ member),
            row fun part member => induction part (List.mem_append_right _ member), branch, branch]

theorem settleAll_bare_congr {cards others : List Card} (same : cards.map bare = others.map bare) :
    (settleAll cards).map bare = (settleAll others).map bare := by
  have row (cards : List Card) : (settleAll cards).map bare = (cards.map bare).map settle := by
    rw [settleAll_eq, List.map_map, List.map_map]
    exact List.map_congr_left fun card _ => (settle_bare card).symm
  rw [row, row, same]

end Card

end CardCode.App
