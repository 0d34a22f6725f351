import Mathlib.Algebra.Order.Ring.Int
import Mathlib.Data.List.Basic

/-! # Bracketed rows of tokens

A tree over tokens: a leaf is one token, a group is a row of trees between two
bracket tokens. Flattening a tree gives back the row of tokens it was built from.
-/

namespace CardCode

inductive TokenTree (Token : Type) where
  | leaf (token : Token)
  | group (opening : Token) (items : List (TokenTree Token)) (closing : Token)
  deriving Repr

namespace TokenTree

variable {Token Other : Type}

/-- A property of a tree that every group inherits from its items. -/
theorem induct {Property : TokenTree Token → Prop}
    (leaf : ∀ token, Property (.leaf token))
    (group : ∀ opening items closing, (∀ item ∈ items, Property item) →
      Property (.group opening items closing)) :
    ∀ tree, Property tree := by
  intro tree
  refine @TokenTree.rec Token Property (fun items => ∀ item ∈ items, Property item)
    leaf group (by simp) ?_ tree
  intro head tail headHolds tailHold item member
  rcases List.mem_cons.mp member with equal | member
  · exact equal ▸ headHolds
  · exact tailHold item member

mutual

def flatten : TokenTree Token → List Token
  | .leaf token => [token]
  | .group opening items closing => opening :: (flattenAll items ++ [closing])

def flattenAll : List (TokenTree Token) → List Token
  | [] => []
  | tree :: rest => flatten tree ++ flattenAll rest

end

@[simp] theorem flatten_leaf (token : Token) : flatten (.leaf token) = [token] := by
  rw [flatten]

@[simp] theorem flatten_group (opening closing : Token) (items : List (TokenTree Token)) :
    flatten (.group opening items closing) = opening :: (flattenAll items ++ [closing]) := by
  rw [flatten]

@[simp] theorem flattenAll_nil : flattenAll ([] : List (TokenTree Token)) = [] := by
  rw [flattenAll]

@[simp] theorem flattenAll_cons (tree : TokenTree Token) (rest : List (TokenTree Token)) :
    flattenAll (tree :: rest) = flatten tree ++ flattenAll rest := by
  rw [flattenAll]

theorem flattenAll_append (first second : List (TokenTree Token)) :
    flattenAll (first ++ second) = flattenAll first ++ flattenAll second := by
  induction first with
  | nil => simp
  | cons tree rest induction => simp [induction]

theorem flatten_length_pos (tree : TokenTree Token) : 0 < tree.flatten.length := by
  cases tree <;> simp

theorem mem_flattenAll {token : Token} {trees : List (TokenTree Token)} :
    token ∈ flattenAll trees ↔ ∃ tree ∈ trees, token ∈ tree.flatten := by
  induction trees with
  | nil => simp
  | cons tree rest induction => simp [induction]

theorem mem_group {opening closing token : Token} {items : List (TokenTree Token)}
    {item : TokenTree Token} (member : item ∈ items) (inside : token ∈ item.flatten) :
    token ∈ (group opening items closing).flatten := by
  rw [flatten_group]
  exact List.mem_cons_of_mem _
    (List.mem_append_left _ (mem_flattenAll.mpr ⟨item, member, inside⟩))

theorem flatten_sublist {tree : TokenTree Token} {trees : List (TokenTree Token)}
    (member : tree ∈ trees) : tree.flatten.Sublist (flattenAll trees) := by
  induction trees with
  | nil => cases member
  | cons first rest induction =>
      rw [flattenAll_cons]
      rcases List.mem_cons.mp member with equal | member
      · rw [equal]
        exact List.sublist_append_left _ _
      · exact (induction member).trans (List.sublist_append_right _ _)

/-! ## Mapping -/

mutual

def map (transform : Token → Other) : TokenTree Token → TokenTree Other
  | .leaf token => .leaf (transform token)
  | .group opening items closing =>
      .group (transform opening) (mapAll transform items) (transform closing)

def mapAll (transform : Token → Other) : List (TokenTree Token) → List (TokenTree Other)
  | [] => []
  | tree :: rest => map transform tree :: mapAll transform rest

end

theorem mapAll_eq (transform : Token → Other) (trees : List (TokenTree Token)) :
    mapAll transform trees = trees.map (map transform) := by
  induction trees with
  | nil => rw [mapAll, List.map_nil]
  | cons tree rest induction => rw [mapAll, List.map_cons, induction]

theorem map_leaf (transform : Token → Other) (token : Token) :
    map transform (.leaf token) = .leaf (transform token) := by
  rw [map]

theorem map_group (transform : Token → Other) (opening closing : Token)
    (items : List (TokenTree Token)) :
    map transform (.group opening items closing) =
      .group (transform opening) (items.map (map transform)) (transform closing) := by
  rw [map, mapAll_eq]

theorem map_id (tree : TokenTree Token) : map id tree = tree := by
  induction tree using induct with
  | leaf token => rw [map_leaf, id_eq]
  | group opening items closing induction =>
      rw [map_group, id_eq, id_eq]
      congr 1
      exact (List.map_congr_left induction).trans (List.map_id items)

theorem map_map {Image : Type} (first : Token → Other) (second : Other → Image)
    (tree : TokenTree Token) : map second (map first tree) = map (second ∘ first) tree := by
  induction tree using induct with
  | leaf token => rw [map_leaf, map_leaf, map_leaf, Function.comp]
  | group opening items closing induction =>
      rw [map_group, map_group, map_group, List.map_map]
      congr 1
      exact List.map_congr_left induction

theorem map_congr {first second : Token → Other} (tree : TokenTree Token) :
    (∀ token ∈ tree.flatten, first token = second token) → map first tree = map second tree := by
  induction tree using induct with
  | leaf token =>
      intro same
      rw [map_leaf, map_leaf, same token (by simp)]
  | group opening items closing induction =>
      intro same
      rw [map_group, map_group, same opening (by simp), same closing (by simp)]
      congr 1
      apply List.map_congr_left
      intro item member
      exact induction item member fun token inside => same token (mem_group member inside)

theorem flattenAll_map_of {transform : Token → Other} {trees : List (TokenTree Token)}
    (each : ∀ tree ∈ trees, (map transform tree).flatten = tree.flatten.map transform) :
    flattenAll (trees.map (map transform)) = (flattenAll trees).map transform := by
  induction trees with
  | nil => simp
  | cons tree rest induction =>
      rw [List.map_cons, flattenAll_cons, flattenAll_cons, List.map_append,
        each tree (by simp), induction fun other member => each other (by simp [member])]

theorem flatten_map (transform : Token → Other) (tree : TokenTree Token) :
    (map transform tree).flatten = tree.flatten.map transform := by
  induction tree using induct with
  | leaf token => simp [map_leaf]
  | group opening items closing induction =>
      rw [map_group, flatten_group, flatten_group, flattenAll_map_of induction]
      simp

theorem flattenAll_map (transform : Token → Other) (trees : List (TokenTree Token)) :
    flattenAll (trees.map (map transform)) = (flattenAll trees).map transform :=
  flattenAll_map_of fun tree _ => flatten_map transform tree

/-! ## Brackets -/

/-- Leaves and brackets are tokens of the right sort. -/
inductive Bracketed (isLeaf isOpening isClosing : Token → Prop) : TokenTree Token → Prop
  | leaf {token} : isLeaf token → Bracketed isLeaf isOpening isClosing (.leaf token)
  | group {opening items closing} :
      isOpening opening → (∀ item ∈ items, Bracketed isLeaf isOpening isClosing item) →
      isClosing closing → Bracketed isLeaf isOpening isClosing (.group opening items closing)

theorem Bracketed.map {isLeaf isOpening isClosing : Token → Prop}
    {otherLeaf otherOpening otherClosing : Other → Prop} {transform : Token → Other}
    (leaf : ∀ token, isLeaf token → otherLeaf (transform token))
    (opening : ∀ token, isOpening token → otherOpening (transform token))
    (closing : ∀ token, isClosing token → otherClosing (transform token))
    {tree : TokenTree Token} (bracketed : Bracketed isLeaf isOpening isClosing tree) :
    Bracketed otherLeaf otherOpening otherClosing (TokenTree.map transform tree) := by
  induction bracketed with
  | leaf isLeaf =>
      rw [map_leaf]
      exact .leaf (leaf _ isLeaf)
  | group isOpening _ isClosing induction =>
      rw [map_group]
      refine .group (opening _ isOpening) ?_ (closing _ isClosing)
      intro item member
      rcases List.mem_map.mp member with ⟨inner, present, rfl⟩
      exact induction inner present

/-- A tree with other tokens in place of the old ones is bracketed as before when
the new ones are of the same sorts. -/
theorem Bracketed.of_map {isLeaf isOpening isClosing : Other → Prop}
    {transform : Token → Other} (tree : TokenTree Token) :
    Bracketed isLeaf isOpening isClosing (TokenTree.map transform tree) →
      Bracketed (fun token => isLeaf (transform token))
        (fun token => isOpening (transform token)) (fun token => isClosing (transform token))
        tree := by
  induction tree using induct with
  | leaf token =>
      rw [map_leaf]
      intro bracketed
      cases bracketed with
      | leaf isLeaf => exact .leaf isLeaf
  | group opening items closing induction =>
      rw [map_group]
      intro bracketed
      cases bracketed with
      | group isOpening inner isClosing =>
          refine .group isOpening ?_ isClosing
          intro item member
          exact induction item member (inner _ (List.mem_map_of_mem member))

/-! ## Relabelling -/

/-- A row of tokens that agrees with a flattened tree brackets into a tree of the
same shape. -/
def Relabels {Image : Type} (first : Token → Image) (second : Other → Image)
    (tree : TokenTree Token) : Prop :=
  ∀ tokens : List Other, tokens.map second = tree.flatten.map first →
    ∃ relabelled, flatten relabelled = tokens ∧ map second relabelled = map first tree

theorem exists_relabelAll {Image : Type} {first : Token → Image} {second : Other → Image}
    {trees : List (TokenTree Token)} (each : ∀ tree ∈ trees, Relabels first second tree) :
    ∀ tokens : List Other, tokens.map second = (flattenAll trees).map first →
      ∃ relabelled, flattenAll relabelled = tokens ∧
        relabelled.map (map second) = trees.map (map first) := by
  induction trees with
  | nil =>
      intro tokens same
      rw [flattenAll_nil, List.map_nil, List.map_eq_nil_iff] at same
      exact ⟨[], by rw [same, flattenAll_nil], rfl⟩
  | cons tree trees induction =>
      intro tokens same
      rw [flattenAll_cons, List.map_append] at same
      rcases List.map_eq_append_iff.mp same with ⟨front, back, rfl, head, tail⟩
      rcases each tree List.mem_cons_self front head with ⟨newTree, newFlat, newMap⟩
      rcases induction (fun other member => each other (List.mem_cons_of_mem _ member)) back tail
        with ⟨newTrees, newFlatAll, newMapAll⟩
      refine ⟨newTree :: newTrees, ?_, ?_⟩
      · rw [flattenAll_cons, newFlat, newFlatAll]
      · rw [List.map_cons, List.map_cons, newMap, newMapAll]

theorem exists_relabel {Image : Type} (first : Token → Image) (second : Other → Image)
    (tree : TokenTree Token) : Relabels first second tree := by
  induction tree using induct with
  | leaf token =>
      intro tokens same
      rw [flatten_leaf, List.map_singleton] at same
      rcases List.map_eq_singleton_iff.mp same with ⟨other, rfl, equal⟩
      exact ⟨.leaf other, flatten_leaf other, by rw [map_leaf, map_leaf, equal]⟩
  | group opening items closing induction =>
      intro tokens same
      rw [flatten_group, List.map_cons, List.map_append, List.map_singleton] at same
      rcases List.map_eq_cons_iff.mp same with ⟨newOpening, rest, rfl, openingSame, restSame⟩
      rcases List.map_eq_append_iff.mp restSame with ⟨inner, last, rfl, innerSame, lastSame⟩
      rcases List.map_eq_singleton_iff.mp lastSame with ⟨newClosing, rfl, closingSame⟩
      rcases exists_relabelAll induction inner innerSame with ⟨newItems, flat, mapped⟩
      refine ⟨.group newOpening newItems newClosing, ?_, ?_⟩
      · rw [flatten_group, flat]
      · rw [map_group, map_group, openingSame, closingSame, mapped]

end TokenTree

end CardCode
