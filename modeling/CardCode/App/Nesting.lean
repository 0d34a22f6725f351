import CardCode.App.Balanced
import CardCode.App.Cards

/-! # Where expressions stand

The expressions of an accepted text have places that are nested as the expressions are:
the items of a list stand inside it, one behind the other.
-/

namespace CardCode.App

open TokenTree

/-! ## Places -/

def Expr.start (expr : Expr) : Nat :=
  expr.span.startOffset

def Expr.stop (expr : Expr) : Nat :=
  expr.span.endOffset

/-- One expression ends before the other begins. -/
def Expr.IsBefore (first second : Expr) : Prop :=
  first.stop ≤ second.start

/-- The expression is not empty, and its items stand inside it in their order. -/
inductive Expr.Nested : Expr → Prop
  | intro {expr} :
      expr.start < expr.stop → (∀ item ∈ expr.items, Nested item) →
      (∀ item ∈ expr.items, expr.start < item.start ∧ item.stop < expr.stop) →
      expr.items.Pairwise IsBefore → Nested expr

/-- The inner expression is the outer one or stands at any depth inside it. -/
inductive Expr.Encloses : Expr → Expr → Prop
  | self {expr} : Encloses expr expr
  | item {outer item inner} : item ∈ outer.items → Encloses item inner → Encloses outer inner

namespace Expr

variable {expr outer inner other : Expr}

theorem Nested.nonempty (nested : expr.Nested) : expr.start < expr.stop := by
  cases nested with
  | intro nonempty _ _ _ => exact nonempty

theorem Nested.item (nested : expr.Nested) : ∀ item ∈ expr.items, item.Nested := by
  cases nested with
  | intro _ items _ _ => exact items

theorem Nested.inside (nested : expr.Nested) :
    ∀ item ∈ expr.items, expr.start < item.start ∧ item.stop < expr.stop := by
  cases nested with
  | intro _ _ inside _ => exact inside

theorem Nested.ordered (nested : expr.Nested) : expr.items.Pairwise IsBefore := by
  cases nested with
  | intro _ _ _ ordered => exact ordered

theorem Encloses.trans (first : outer.Encloses expr) (second : expr.Encloses inner) :
    outer.Encloses inner := by
  induction first with
  | self => exact second
  | item member _ induction => exact .item member (induction second)

theorem Encloses.nested (encloses : outer.Encloses inner) (nested : outer.Nested) :
    inner.Nested := by
  induction encloses with
  | self => exact nested
  | item member _ induction => exact induction (nested.item _ member)

theorem Encloses.bounds (encloses : outer.Encloses inner) (nested : outer.Nested) :
    outer.start ≤ inner.start ∧ inner.stop ≤ outer.stop := by
  induction encloses with
  | self => exact ⟨Nat.le_refl _, Nat.le_refl _⟩
  | item member _ induction =>
      have inside := nested.inside _ member
      have bounds := induction (nested.item _ member)
      omega

/-- Of two expressions in a row one stands before the other. -/
theorem apart_of_ordered {exprs : List Expr} (ordered : exprs.Pairwise IsBefore)
    (member : expr ∈ exprs) (present : other ∈ exprs) (different : expr ≠ other) :
    expr.IsBefore other ∨ other.IsBefore expr := by
  induction exprs with
  | nil => cases member
  | cons first rest induction =>
      rw [List.pairwise_cons] at ordered
      rcases List.mem_cons.mp member with rfl | later
      · rcases List.mem_cons.mp present with rfl | behind
        · exact absurd rfl different
        · exact .inl (ordered.1 other behind)
      · rcases List.mem_cons.mp present with rfl | behind
        · exact .inr (ordered.1 expr later)
        · exact induction ordered.2 later behind

end Expr

/-- Expressions one behind the other, such as those of a program. -/
structure NestedRow (exprs : List Expr) : Prop where
  nested : ∀ expr ∈ exprs, expr.Nested
  ordered : exprs.Pairwise Expr.IsBefore

theorem Expr.Nested.row {expr : Expr} (nested : expr.Nested) : NestedRow expr.items :=
  ⟨nested.item, nested.ordered⟩

/-- Somewhere in the row. -/
def IsPartOf (exprs : List Expr) (inner : Expr) : Prop :=
  ∃ expr ∈ exprs, expr.Encloses inner

namespace NestedRow

variable {exprs : List Expr} {first second inner : Expr}

theorem sublist (row : NestedRow exprs) {some : List Expr} (sublist : some.Sublist exprs) :
    NestedRow some :=
  ⟨fun expr member => row.nested expr (sublist.subset member), row.ordered.sublist sublist⟩

/-- Of the expressions in a row only the one that encloses an expression reaches around it. -/
theorem unique (row : NestedRow exprs) (member : first ∈ exprs) (present : second ∈ exprs)
    (encloses : first.Encloses inner) (before : second.start ≤ inner.start)
    (behind : inner.stop ≤ second.stop) : first = second := by
  by_contra different
  have nested := row.nested first member
  have bounds := encloses.bounds nested
  have nonempty := (encloses.nested nested).nonempty
  rcases Expr.apart_of_ordered row.ordered member present different with order | order
  · rw [Expr.IsBefore] at order
    omega
  · rw [Expr.IsBefore] at order
    omega

end NestedRow

/-- An expression that reaches around another one encloses it. -/
theorem Expr.Nested.encloses (expr : Expr) : expr.Nested → ∀ {outer inner : Expr},
    expr.Encloses outer → expr.Encloses inner → outer.start ≤ inner.start →
    inner.stop ≤ outer.stop → outer.Encloses inner := by
  induction expr using Expr.items_induct with
  | step expr induction =>
      intro nested outer inner outside inside before behind
      cases outside with
      | self => exact inside
      | @item _ first _ member outside =>
          have firstInside := nested.inside first member
          have bounds := outside.bounds (nested.item first member)
          cases inside with
          | self => omega
          | @item _ second _ present inside =>
              have same : second = first := nested.row.unique present member inside
                (by omega) (by omega)
              rw [same] at inside
              exact induction first member (nested.item first member) outside inside before behind

theorem NestedRow.encloses {exprs : List Expr} (row : NestedRow exprs) {outer inner : Expr}
    (outside : IsPartOf exprs outer) (inside : IsPartOf exprs inner)
    (before : outer.start ≤ inner.start) (behind : inner.stop ≤ outer.stop) :
    outer.Encloses inner := by
  rcases outside with ⟨first, member, outside⟩
  rcases inside with ⟨second, present, inside⟩
  have bounds := outside.bounds (row.nested first member)
  have same : second = first := row.unique present member inside (by omega) (by omega)
  rw [same] at inside
  exact (row.nested first member).encloses first outside inside before behind

/-! ## Expressions of an accepted text -/

/-- An expression reaches from the first lexeme of its tree to the last. -/
structure IsPlaced (source : Text) (tree : TokenTree Lexeme) : Prop where
  nested : (treeExpr source tree).Nested
  first : ∃ lexeme ∈ tree.flatten, (treeExpr source tree).start = lexeme.start
  last : ∃ lexeme ∈ tree.flatten, (treeExpr source tree).stop = lexeme.stop

theorem ordered_of_successive {source : Text} {trees : List (TokenTree Lexeme)}
    (each : ∀ tree ∈ trees, IsPlaced source tree)
    (successive : (flattenAll trees).Pairwise fun first second => first.stop ≤ second.start) :
    (trees.map (treeExpr source)).Pairwise Expr.IsBefore := by
  induction trees with
  | nil => exact .nil
  | cons tree trees induction =>
      rw [flattenAll_cons, List.pairwise_append] at successive
      rcases successive with ⟨-, others, across⟩
      rw [List.map_cons, List.pairwise_cons]
      refine ⟨?_, induction (fun other member => each other (List.mem_cons_of_mem tree member))
        others⟩
      intro expr member
      rcases List.mem_map.mp member with ⟨other, present, rfl⟩
      rcases (each tree List.mem_cons_self).last with ⟨last, inside, stop⟩
      rcases (each other (List.mem_cons_of_mem tree present)).first with ⟨first, within, start⟩
      rw [Expr.IsBefore, stop, start]
      exact across last inside first (mem_flattenAll.mpr ⟨other, present, within⟩)

theorem leaf_isPlaced {source : Text} {lexeme : Lexeme} (nonempty : lexeme.start < lexeme.stop) :
    IsPlaced source (.leaf lexeme) := by
  have span : (treeExpr source (.leaf lexeme)).span =
      spanFromOffsets source lexeme.start lexeme.stop := by
    rw [treeExpr, atomExpr]
    split <;> rfl
  have items : (treeExpr source (.leaf lexeme)).items = [] := by
    rw [treeExpr, atomExpr]
    split <;> rfl
  have start : (treeExpr source (.leaf lexeme)).start = lexeme.start := by
    rw [Expr.start, span]
    rfl
  have stop : (treeExpr source (.leaf lexeme)).stop = lexeme.stop := by
    rw [Expr.stop, span]
    rfl
  constructor
  · apply Expr.Nested.intro
    · rw [start, stop]
      exact nonempty
    · rw [items]
      exact List.forall_mem_nil _
    · rw [items]
      exact List.forall_mem_nil _
    · rw [items]
      exact .nil
  · exact ⟨lexeme, by simp, start⟩
  · exact ⟨lexeme, by simp, stop⟩

theorem tree_isPlaced (source : Text) (tree : TokenTree Lexeme) :
    (∀ lexeme ∈ tree.flatten, lexeme.start < lexeme.stop) →
      (tree.flatten.Pairwise fun first second => first.stop ≤ second.start) →
      IsPlaced source tree := by
  induction tree using TokenTree.induct with
  | leaf lexeme =>
      intro nonempty _
      exact leaf_isPlaced (nonempty lexeme (by simp))
  | group opening items closing induction =>
      intro nonempty successive
      rw [flatten_group] at nonempty successive
      rw [List.pairwise_cons, List.pairwise_append] at successive
      rcases successive with ⟨behind, inner, -, before⟩
      have within {item : TokenTree Lexeme} (member : item ∈ items) {lexeme : Lexeme}
          (inside : lexeme ∈ item.flatten) : lexeme ∈ flattenAll items :=
        mem_flattenAll.mpr ⟨item, member, inside⟩
      have each : ∀ item ∈ items, IsPlaced source item := by
        intro item member
        apply induction item member
        · intro lexeme inside
          exact nonempty lexeme (by simp [within member inside])
        · exact inner.sublist (flatten_sublist member)
      have openingSize := nonempty opening (by simp)
      have closingSize := nonempty closing (by simp)
      constructor
      · rw [treeExpr_group]
        apply Expr.Nested.intro
        · have order := behind closing (by simp)
          change opening.start < closing.stop
          omega
        · intro expr member
          rcases List.mem_map.mp member with ⟨item, present, rfl⟩
          exact (each item present).nested
        · intro expr member
          rcases List.mem_map.mp member with ⟨item, present, rfl⟩
          rcases (each item present).first with ⟨first, inFirst, start⟩
          rcases (each item present).last with ⟨last, inLast, stop⟩
          have front := behind first (by simp [within present inFirst])
          have back := before last (within present inLast) closing (List.mem_singleton_self _)
          rw [start, stop]
          change opening.start < first.start ∧ last.stop < closing.stop
          omega
        · exact ordered_of_successive each inner
      · exact ⟨opening, by simp, by rw [treeExpr_group]; rfl⟩
      · exact ⟨closing, by simp, by rw [treeExpr_group]; rfl⟩

/-- The expressions of an accepted text are nested in it. -/
theorem parsed_nested {source : Text} {ast : ProgramAst}
    (parsed : parseCardCode source = .ok ast) : NestedRow ast.children := by
  rcases parseCardCode_inverts parsed with ⟨trees, -, scans, same⟩
  have nonempty := scans.ordered codeUnits_pos
  have successive := scans.successive codeUnits_pos
  have each : ∀ tree ∈ trees, IsPlaced source tree := by
    intro tree member
    apply tree_isPlaced
    · intro lexeme inside
      exact nonempty lexeme (mem_flattenAll.mpr ⟨tree, member, inside⟩)
    · exact successive.sublist (flatten_sublist member)
  rw [same]
  refine ⟨?_, ordered_of_successive each successive⟩
  intro expr member
  rcases List.mem_map.mp member with ⟨tree, present, rfl⟩
  exact (each tree present).nested

end CardCode.App
