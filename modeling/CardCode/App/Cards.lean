import CardCode.App.State
import CardCode.Foundation.Scanning
import Mathlib.Data.List.Nodup

/-! # The cards of a program

What a statement is projected to, said once, and from it that no two cards of a
program have the same id.
-/

namespace CardCode.App

def Expr.items : Expr → List Expr
  | .list items _ => items
  | _ => []

/-- A property of an expression that it inherits from its items. -/
theorem Expr.items_induct {Property : Expr → Prop}
    (step : ∀ expr, (∀ item ∈ expr.items, Property item) → Property expr) :
    ∀ expr, Property expr := by
  intro expr
  induction expr using Expr.induct with
  | list children span induction => exact step (.list children span) induction
  | integer raw span => exact step (.integer raw span) (List.forall_mem_nil _)
  | symbol raw span => exact step (.symbol raw span) (List.forall_mem_nil _)

/-- What a statement can be projected to under an id. -/
inductive ProjectsAs (manifest : Manifest) (expr : Expr) (id : String) : Card → Prop
  | leaf {head} :
      head.id = id → head.span = expr.span → ProjectsAs manifest expr id (.leaf head)
  | body {head exprs} :
      head.id = id → head.span = expr.span → exprs <:+ expr.items →
      ProjectsAs manifest expr id
        (.body head (projectChildren (childrenOf manifest exprs) id))
  | fork {head thenExpr elseExpr} :
      head.id = id → head.span = expr.span → [thenExpr, elseExpr] <:+ expr.items →
      ProjectsAs manifest expr id
        (.fork head [projectStatement manifest thenExpr (id ++ "-then-1")]
          [projectStatement manifest elseExpr (id ++ "-else-1")])

section Statements

variable {manifest : Manifest} {expr : Expr} {id : String}

theorem generic_projects : ProjectsAs manifest expr id (genericExpressionCard expr id) := by
  unfold genericExpressionCard
  split <;> exact .leaf rfl rfl

theorem childrenOf_drop (exprs : List Expr) (count : Nat) :
    (childrenOf manifest exprs).drop count = childrenOf manifest (exprs.drop count) := by
  rw [childrenOf_eq, childrenOf_eq, List.map_drop]

variable {args : List Expr} {head : Expr} {headChild : Child}

theorem projectSequenceCard_projects {cardId : String} {params : List String} {start : Nat}
    (items : expr.items = head :: args) :
    ProjectsAs manifest expr id
      (projectSequenceCard manifest expr (headChild :: childrenOf manifest args) id cardId params
        (start + 1)) := by
  rw [projectSequenceCard]
  split
  · exact generic_projects
  · rw [List.drop_succ_cons, childrenOf_drop]
    refine .body rfl rfl ?_
    rw [items]
    exact (List.drop_suffix start args).trans (List.suffix_cons head args)

theorem projectIf_projects (items : expr.items = head :: args) :
    ProjectsAs manifest expr id
      (projectIf manifest expr (headChild :: childrenOf manifest args) id) := by
  by_cases three : args.length = 3
  · rcases List.length_eq_three.mp three with ⟨condition, thenExpr, elseExpr, rfl⟩
    rw [childrenOf, childrenOf, childrenOf, childrenOf, projectIf]
    refine .fork rfl rfl ?_
    rw [items]
    exact ⟨[head, condition], rfl⟩
  · unfold projectIf
    split
    next same =>
      have lengths := congrArg List.length same
      rw [List.length_cons, childrenOf_eq, List.length_map] at lengths
      exact absurd (Nat.succ.inj lengths) three
    next => exact generic_projects

theorem projectDefine_projects (items : expr.items = head :: args) :
    ProjectsAs manifest expr id
      (projectDefine manifest expr (headChild :: childrenOf manifest args) id) := by
  cases args with
  | nil =>
      rw [childrenOf, projectDefine]
      · exact generic_projects
      · simp
  | cons target body =>
      rw [childrenOf, projectDefine]
      split
      · split
        · exact generic_projects
        · refine .body rfl rfl ?_
          rw [items]
          exact ⟨[head, target], rfl⟩
      · exact generic_projects
      · split
        · exact .leaf rfl rfl
        · exact generic_projects
      · exact generic_projects

theorem projectForm_projects {form : String} (items : expr.items = head :: args) :
    ProjectsAs manifest expr id
      (projectForm manifest expr form (headChild :: childrenOf manifest args) id) := by
  rw [projectForm]
  split
  · exact projectDefine_projects items
  split
  · exact projectSequenceCard_projects items
  split
  · exact projectSequenceCard_projects items
  split
  · exact projectSequenceCard_projects items
  split
  · exact projectSequenceCard_projects items
  split
  · exact projectIf_projects items
  split
  · exact generic_projects
  split
  · exact .leaf rfl rfl
  · exact generic_projects

theorem projectStatement_projects (manifest : Manifest) (expr : Expr) (id : String) :
    ProjectsAs manifest expr id (projectStatement manifest expr id) := by
  cases expr with
  | integer raw span =>
      rw [projectStatement]
      exact generic_projects
  | symbol raw span =>
      rw [projectStatement]
      exact generic_projects
  | list children span =>
      by_cases form : ∃ name headSpan args, children = .symbol name headSpan :: args
      · rcases form with ⟨name, headSpan, args, rfl⟩
        rw [projectStatement]
        exact projectForm_projects rfl
      · rw [projectStatement]
        · exact generic_projects
        · intro name headSpan args equal
          exact form ⟨name, headSpan, args, equal⟩

theorem projectStatement_id (manifest : Manifest) (expr : Expr) (id : String) :
    (projectStatement manifest expr id).id = id := by
  have projects := projectStatement_projects manifest expr id
  generalize projectStatement manifest expr id = card at projects ⊢
  cases projects with
  | leaf same _ => exact same
  | body same _ _ => exact same
  | fork same _ _ => exact same

end Statements

/-! ## Ids -/

/-- What may follow the id of a card in the id of a card below it. -/
def Dashed (suffix : Text) : Prop :=
  ∀ c ∈ suffix.head?, c = '-'

def Extends (id other : String) : Prop :=
  ∃ suffix, other.toList = id.toList ++ suffix ∧ Dashed suffix

/-- No id extends both. -/
def Apart (first second : String) : Prop :=
  ∀ id, Extends first id → ¬ Extends second id

/-- An id below another one. -/
def IsBelow (id other : String) : Prop :=
  ∃ suffix, other.toList = id.toList ++ '-' :: suffix

theorem IsBelow.of_extends {id middle other : String} (below : IsBelow id middle)
    (extension : Extends middle other) : IsBelow id other := by
  rcases below with ⟨first, middleText⟩
  rcases extension with ⟨second, otherText, -⟩
  exact ⟨first ++ second, by rw [otherText, middleText]; simp⟩

theorem word_unique {first second front back : Text} (firstWord : '-' ∉ first)
    (secondWord : '-' ∉ second) (frontDashed : Dashed front) (backDashed : Dashed back)
    (equal : first ++ front = second ++ back) : first = second := by
  have letters {word : Text} (plain : '-' ∉ word) : ∀ c ∈ word, decide (c ≠ '-') = true :=
    fun c member => decide_eq_true fun same => plain (same ▸ member)
  have stops {suffix : Text} (dashed : Dashed suffix) :
      ∀ c ∈ suffix.head?, decide (c ≠ '-') = false := by
    intro c found
    rw [dashed c found]
    rfl
  exact (split_unique (letters firstWord) (stops frontDashed) (letters secondWord)
    (stops backDashed) equal).1

/-- Ids that go on with different words are apart. -/
theorem apart_of_words {id one other : String} {first second front back : Text}
    (oneText : one.toList = id.toList ++ '-' :: (first ++ front))
    (otherText : other.toList = id.toList ++ '-' :: (second ++ back))
    (firstWord : '-' ∉ first) (secondWord : '-' ∉ second) (frontDashed : Dashed front)
    (backDashed : Dashed back) (different : first ≠ second) : Apart one other := by
  intro found fromOne fromOther
  rcases fromOne with ⟨firstSuffix, firstFound, firstDashed⟩
  rcases fromOther with ⟨secondSuffix, secondFound, secondDashed⟩
  have joined {middle suffix : Text} (middleDashed : Dashed middle) (dashed : Dashed suffix) :
      Dashed (middle ++ suffix) := by
    cases middle with
    | nil => exact dashed
    | cons c rest => exact middleDashed
  apply different
  apply word_unique firstWord secondWord (joined frontDashed firstDashed)
    (joined backDashed secondDashed)
  rw [firstFound, oneText, otherText] at secondFound
  simpa using secondFound

theorem digits_plain (count : Nat) : '-' ∉ Nat.toDigits 10 count := by
  intro member
  have digit := Nat.isDigit_of_mem_toDigits (by decide) (by decide) member
  exact absurd digit (by decide)

theorem digits_injective {first second : Nat}
    (same : Nat.toDigits 10 first = Nat.toDigits 10 second) : first = second := by
  have values := congrArg (fun digits => Nat.ofDigitChars 10 digits 0) same
  rwa [Nat.ofDigitChars_ten_toDigits, Nat.ofDigitChars_ten_toDigits] at values

theorem childId_text (id : String) (count : Nat) :
    (id ++ "-" ++ toString count).toList = id.toList ++ '-' :: (Nat.toDigits 10 count ++ []) := by
  rw [String.toList_append, String.toList_append, Nat.toString_eq_repr, Nat.toList_repr]
  simp

theorem childId_apart (id : String) {first second : Nat} (different : first ≠ second) :
    Apart (id ++ "-" ++ toString first) (id ++ "-" ++ toString second) :=
  apart_of_words (childId_text id first) (childId_text id second) (digits_plain first)
    (digits_plain second) (by simp [Dashed]) (by simp [Dashed])
    fun same => different (digits_injective same)

theorem branchId_apart (id : String) : Apart (id ++ "-then-1") (id ++ "-else-1") := by
  have thenText : (id ++ "-then-1").toList =
      id.toList ++ '-' :: ("then".toList ++ "-1".toList) := by
    rw [String.toList_append]
    rfl
  have elseText : (id ++ "-else-1").toList =
      id.toList ++ '-' :: ("else".toList ++ "-1".toList) := by
    rw [String.toList_append]
    rfl
  have dashed : Dashed "-1".toList := by simp [Dashed]
  exact apart_of_words thenText elseText (by decide) (by decide) dashed dashed (by decide)

/-! ## Trees of cards -/

theorem flattenCards_eq (cards : List Card) : flattenCards cards = cards.flatMap flattenCard := by
  induction cards with
  | nil => rw [flattenCards, List.flatMap_nil]
  | cons card rest induction => rw [flattenCards, List.flatMap_cons, induction]

theorem flattenCard_eq (card : Card) : flattenCard card = card :: flattenCards card.parts := by
  cases card with
  | leaf head => rw [flattenCard, Card.parts, flattenCards]
  | body head children => rw [flattenCard, Card.parts]
  | fork head thenCards elseCards =>
      rw [flattenCard, Card.parts, flattenCards_eq, flattenCards_eq, flattenCards_eq,
        List.flatMap_append]

/-- The ids in a tree of cards are distinct and extend the id of its root. -/
structure WellNamed (card : Card) : Prop where
  extends_root : ∀ inner ∈ flattenCard card, Extends card.id inner.id
  nodup : ((flattenCard card).map Card.id).Nodup

theorem nodup_of_apart {cards : List Card} (each : ∀ card ∈ cards, WellNamed card)
    (apart : cards.Pairwise fun first second => Apart first.id second.id) :
    ((flattenCards cards).map Card.id).Nodup := by
  rw [flattenCards_eq, List.map_flatMap, List.nodup_flatMap]
  refine ⟨fun card member => (each card member).nodup, ?_⟩
  apply apart.imp_of_mem
  intro first second firstMember secondMember separate id inFirst inSecond
  rcases List.mem_map.mp inFirst with ⟨inner, innerFirst, rfl⟩
  rcases List.mem_map.mp inSecond with ⟨other, innerSecond, same⟩
  have second := (each second secondMember).extends_root other innerSecond
  rw [same] at second
  exact separate _ ((each first firstMember).extends_root inner innerFirst) second

theorem WellNamed.of_parts {card : Card} (each : ∀ part ∈ card.parts, WellNamed part)
    (below : ∀ part ∈ card.parts, IsBelow card.id part.id)
    (apart : card.parts.Pairwise fun first second => Apart first.id second.id) :
    WellNamed card := by
  have inside : ∀ inner ∈ flattenCards card.parts, IsBelow card.id inner.id := by
    intro inner member
    rw [flattenCards_eq] at member
    rcases List.mem_flatMap.mp member with ⟨part, present, member⟩
    exact (below part present).of_extends ((each part present).extends_root inner member)
  constructor
  · intro inner member
    rw [flattenCard_eq] at member
    rcases List.mem_cons.mp member with rfl | member
    · exact ⟨[], by rw [List.append_nil], by simp [Dashed]⟩
    · rcases inside inner member with ⟨suffix, text⟩
      exact ⟨'-' :: suffix, text, by simp [Dashed]⟩
  · rw [flattenCard_eq, List.map_cons, List.nodup_cons]
    refine ⟨?_, nodup_of_apart each apart⟩
    intro member
    rcases List.mem_map.mp member with ⟨inner, present, same⟩
    rcases inside inner present with ⟨suffix, text⟩
    have lengths := congrArg List.length text
    rw [same, List.length_append, List.length_cons] at lengths
    omega

section Programs

variable {manifest : Manifest} {exprs : List Expr}

theorem projectChildren_mem {id : String} {card : Card}
    (member : card ∈ projectChildren (childrenOf manifest exprs) id) :
    ∃ expr ∈ exprs, ∃ count : Nat,
      card = projectStatement manifest expr (id ++ "-" ++ toString count) := by
  rw [projectChildren, childrenOf_eq, List.mem_mapIdx] at member
  rcases member with ⟨index, inside, same⟩
  rw [List.getElem_map] at same
  exact ⟨_, List.getElem_mem _, index + 1, same.symm⟩

theorem projectChildren_apart (id : String) :
    (projectChildren (childrenOf manifest exprs) id).Pairwise
      fun first second => Apart first.id second.id := by
  rw [projectChildren, childrenOf_eq, List.pairwise_iff_getElem]
  intro first second firstInside secondInside lower
  rw [List.getElem_mapIdx, List.getElem_mapIdx, List.getElem_map, List.getElem_map]
  dsimp only
  rw [projectStatement_id, projectStatement_id]
  exact childId_apart id (by omega)

theorem projectStatement_wellNamed (manifest : Manifest) (expr : Expr) :
    ∀ id, WellNamed (projectStatement manifest expr id) := by
  induction expr using Expr.items_induct with
  | step expr induction =>
      intro id
      generalize projected : projectStatement manifest expr id = card
      have projects := projectStatement_projects manifest expr id
      rw [projected] at projects
      cases projects with
      | leaf => exact .of_parts (by simp [Card.parts]) (by simp [Card.parts]) (by simp [Card.parts])
      | body same _ suffix =>
          apply WellNamed.of_parts
          · intro part member
            rcases projectChildren_mem member with ⟨item, present, count, rfl⟩
            exact induction item (suffix.subset present) _
          · intro part member
            rcases projectChildren_mem member with ⟨item, present, count, rfl⟩
            rw [projectStatement_id, Card.id, Card.head, same]
            exact ⟨_, childId_text id count⟩
          · exact projectChildren_apart id
      | fork same _ suffix =>
          apply WellNamed.of_parts
          · intro part member
            rcases List.mem_pair.mp member with rfl | rfl
            · exact induction _ (suffix.subset (by simp)) _
            · exact induction _ (suffix.subset (by simp)) _
          · intro part member
            rcases List.mem_pair.mp member with rfl | rfl
            all_goals
              rw [projectStatement_id, Card.id, Card.head, same, IsBelow, String.toList_append]
              exact ⟨_, rfl⟩
          · apply List.pairwise_pair.mpr
            rw [projectStatement_id, projectStatement_id]
            exact branchId_apart id

theorem projectProgram_eq (manifest : Manifest) (exprs : List Expr) :
    projectProgram exprs manifest = projectChildren (childrenOf manifest exprs) "card" := by
  rw [projectProgram, projectChildren, childrenOf_eq]
  apply List.ext_getElem
  · simp
  · intro index _ _
    simp

/-- Cards that are made from the expressions of a row, under whatever ids. -/
def MadeFrom (manifest : Manifest) (cards : List Card) (exprs : List Expr) : Prop :=
  List.Forall₂ (fun card expr => ∃ id, card = projectStatement manifest expr id) cards exprs

theorem projectChildren_madeFrom (manifest : Manifest) (exprs : List Expr) (id : String) :
    MadeFrom manifest (projectChildren (childrenOf manifest exprs) id) exprs := by
  rw [MadeFrom, projectChildren, childrenOf_eq, List.forall₂_iff_get]
  refine ⟨by simp, ?_⟩
  intro index inside _
  simp

theorem projectProgram_madeFrom (manifest : Manifest) (exprs : List Expr) :
    MadeFrom manifest (projectProgram exprs manifest) exprs := by
  rw [projectProgram_eq]
  exact projectChildren_madeFrom manifest exprs "card"

/-- What holds of the card of every expression in a row holds of the cards made from them. -/
theorem MadeFrom.forall₂ {manifest : Manifest} {cards : List Card} {exprs : List Expr}
    {Property : Card → Expr → Prop} (made : MadeFrom manifest cards exprs)
    (each : ∀ expr ∈ exprs, ∀ id, Property (projectStatement manifest expr id) expr) :
    List.Forall₂ Property cards exprs := by
  induction made with
  | nil => exact .nil
  | @cons card expr cards exprs head _ induction =>
      rcases head with ⟨id, rfl⟩
      exact .cons (each expr List.mem_cons_self id)
        (induction fun other member => each other (List.mem_cons_of_mem expr member))

/-- No two cards of a program have the same id. -/
theorem projectProgram_nodup (manifest : Manifest) (exprs : List Expr) :
    ((flattenCards (projectProgram exprs manifest)).map Card.id).Nodup := by
  rw [projectProgram_eq]
  apply nodup_of_apart
  · intro card member
    rcases projectChildren_mem member with ⟨expr, -, count, rfl⟩
    exact projectStatement_wellNamed manifest expr _
  · exact projectChildren_apart "card"

end Programs

end CardCode.App
