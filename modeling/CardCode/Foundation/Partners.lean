import CardCode.Foundation.Brackets
import CardCode.Foundation.TokenTree

/-! # Brackets without a partner

In any row of tokens a closing bracket either closes the last one still open or has
no partner, and an opening bracket has one where the row goes on to close it. Trees
contribute no bracket without a partner, and what is left of a row once those are
dropped is a row of trees.
-/

namespace CardCode

inductive Side where
  | opening
  | closing
  | neutral
  deriving Repr, DecidableEq

def Side.brackets : Side → List (Bracket Unit)
  | .opening => [.opening ()]
  | .closing => [.closing ()]
  | .neutral => []

section Rows

variable {Token : Type} (side : Token → Side)

/-- Whether a bracket opened `depth` levels up is closed in the row that follows. -/
def hasPartner : Nat → List Token → Bool
  | _, [] => false
  | depth, token :: rest =>
      match side token with
      | .opening => hasPartner (depth + 1) rest
      | .closing => if depth = 0 then true else hasPartner (depth - 1) rest
      | .neutral => hasPartner depth rest

/-- The closing brackets that find none open, with `depth` open at the start. -/
def strayClosings : Nat → List Token → List Token
  | _, [] => []
  | depth, token :: rest =>
      match side token with
      | .opening => strayClosings (depth + 1) rest
      | .closing =>
          if depth = 0 then token :: strayClosings 0 rest else strayClosings (depth - 1) rest
      | .neutral => strayClosings depth rest

/-- The opening brackets that are never closed. -/
def strayOpenings : List Token → List Token
  | [] => []
  | token :: rest =>
      if side token = .opening ∧ hasPartner side 0 rest = false then
        token :: strayOpenings rest
      else strayOpenings rest

/-- The row without its stray closing brackets, up to its first stray opening one. -/
def paired : Nat → List Token → List Token
  | _, [] => []
  | depth, token :: rest =>
      match side token with
      | .opening =>
          if hasPartner side 0 rest then token :: paired (depth + 1) rest else []
      | .closing =>
          if depth = 0 then paired 0 rest else token :: paired (depth - 1) rest
      | .neutral => token :: paired depth rest

/-- The brackets of a row, all with the same label. -/
def bracketWord (tokens : List Token) : List (Bracket Unit) :=
  tokens.flatMap fun token => (side token).brackets

end Rows

/-! ## Rows of trees -/

/-- A row whose brackets are paired among themselves. -/
structure Inert {Token : Type} (side : Token → Side) (row : List Token) : Prop where
  partner : ∀ depth rest, hasPartner side depth (row ++ rest) = hasPartner side depth rest
  closings : ∀ depth rest,
    strayClosings side depth (row ++ rest) = strayClosings side depth rest
  openings : ∀ rest, strayOpenings side (row ++ rest) = strayOpenings side rest
  kept : ∀ depth rest, paired side depth (row ++ rest) = row ++ paired side depth rest
  balanced : Balanced (bracketWord side row)

/-- A tree with its tokens on the sides where they belong. -/
def TokenTree.Sided {Token : Type} (side : Token → Side) : TokenTree Token → Prop :=
  Bracketed (fun token => side token = .neutral) (fun token => side token = .opening)
    fun token => side token = .closing

section Trees

variable {Token : Type} {side : Token → Side}

theorem Inert.nil : Inert side ([] : List Token) where
  partner := fun _ _ => rfl
  closings := fun _ _ => rfl
  openings := fun _ => rfl
  kept := fun _ _ => rfl
  balanced := .nil

theorem Inert.append {first second : List Token} (head : Inert side first)
    (tail : Inert side second) : Inert side (first ++ second) := by
  constructor
  · intro depth rest
    rw [List.append_assoc, head.partner, tail.partner]
  · intro depth rest
    rw [List.append_assoc, head.closings, tail.closings]
  · intro rest
    rw [List.append_assoc, head.openings, tail.openings]
  · intro depth rest
    rw [List.append_assoc, head.kept, tail.kept, List.append_assoc]
  · rw [bracketWord, List.flatMap_append]
    exact head.balanced.append tail.balanced

theorem Inert.neutral {token : Token} (isNeutral : side token = .neutral) :
    Inert side [token] where
  partner := by simp [hasPartner, isNeutral]
  closings := by simp [strayClosings, isNeutral]
  openings := by simp [strayOpenings, isNeutral]
  kept := by simp [paired, isNeutral]
  balanced := by
    rw [bracketWord, List.flatMap_singleton, isNeutral]
    exact .nil

theorem Inert.wrap {opening closing : Token} {row : List Token}
    (isOpening : side opening = .opening) (isClosing : side closing = .closing)
    (inner : Inert side row) : Inert side (opening :: (row ++ [closing])) := by
  have found (rest : List Token) : hasPartner side 0 (row ++ closing :: rest) = true := by
    rw [inner.partner, hasPartner, isClosing]
    rfl
  constructor
  · intro depth rest
    rw [List.cons_append, List.append_assoc, hasPartner, isOpening]
    simp [inner.partner, hasPartner, isClosing]
  · intro depth rest
    rw [List.cons_append, List.append_assoc, strayClosings, isOpening]
    simp [inner.closings, strayClosings, isClosing]
  · intro rest
    rw [List.cons_append, List.append_assoc, List.singleton_append, strayOpenings,
      if_neg (by simp [found]), inner.openings, strayOpenings, if_neg (by simp [isClosing])]
  · intro depth rest
    rw [List.cons_append, List.append_assoc, List.singleton_append, paired, isOpening]
    simp [found, inner.kept, paired, isClosing]
  · have word : bracketWord side (opening :: (row ++ [closing])) =
        .opening () :: bracketWord side row ++ .closing () :: [] := by
      simp [bracketWord, isOpening, isClosing, Side.brackets]
    rw [word]
    exact .wrap inner.balanced .nil

theorem inert_flattenAll_of {trees : List (TokenTree Token)}
    (each : ∀ tree ∈ trees, Inert side tree.flatten) :
    Inert side (TokenTree.flattenAll trees) := by
  induction trees with
  | nil =>
      rw [TokenTree.flattenAll_nil]
      exact .nil
  | cons tree trees induction =>
      rw [TokenTree.flattenAll_cons]
      exact (each tree List.mem_cons_self).append
        (induction fun other member => each other (List.mem_cons_of_mem _ member))

theorem TokenTree.Sided.inert {tree : TokenTree Token} (sided : tree.Sided side) :
    Inert side tree.flatten := by
  induction sided with
  | leaf isNeutral =>
      rw [TokenTree.flatten_leaf]
      exact .neutral isNeutral
  | group isOpening _ isClosing induction =>
      rw [TokenTree.flatten_group]
      exact .wrap isOpening isClosing (inert_flattenAll_of induction)

theorem inert_flattenAll {trees : List (TokenTree Token)}
    (sided : ∀ tree ∈ trees, tree.Sided side) : Inert side (TokenTree.flattenAll trees) :=
  inert_flattenAll_of fun tree member => (sided tree member).inert

/-! ## Rows that are cut off -/

/-- `Unclosed side opening row last`: after `opening` the row ends before it is
closed, and `last` is the last of the brackets left open. -/
inductive Unclosed (side : Token → Side) : Token → List Token → Token → Prop
  | here {opening trees} :
      (∀ tree ∈ trees, TokenTree.Sided side tree) →
      Unclosed side opening (TokenTree.flattenAll trees) opening
  | deeper {opening trees next row last} :
      (∀ tree ∈ trees, TokenTree.Sided side tree) → side next = .opening →
      Unclosed side next row last →
      Unclosed side opening (TokenTree.flattenAll trees ++ next :: row) last

variable {opening last : Token} {row : List Token}

theorem Unclosed.prepend {trees : List (TokenTree Token)}
    (sided : ∀ tree ∈ trees, TokenTree.Sided side tree)
    (unclosed : Unclosed side opening row last) :
    Unclosed side opening (TokenTree.flattenAll trees ++ row) last := by
  cases unclosed with
  | here more =>
      rw [← TokenTree.flattenAll_append]
      exact .here (List.forall_mem_append.mpr ⟨sided, more⟩)
  | deeper more isOpening inner =>
      rw [← List.append_assoc, ← TokenTree.flattenAll_append]
      exact .deeper (List.forall_mem_append.mpr ⟨sided, more⟩) isOpening inner

theorem Unclosed.hasPartner_eq (unclosed : Unclosed side opening row last) (depth : Nat) :
    hasPartner side depth row = false := by
  induction unclosed generalizing depth with
  | here sided =>
      have reads := (inert_flattenAll sided).partner depth []
      rw [List.append_nil] at reads
      rw [reads]
      rfl
  | deeper sided isOpening _ induction =>
      rw [(inert_flattenAll sided).partner, hasPartner, isOpening]
      exact induction (depth + 1)

theorem Unclosed.strayClosings_eq (unclosed : Unclosed side opening row last) (depth : Nat) :
    strayClosings side depth row = [] := by
  induction unclosed generalizing depth with
  | here sided =>
      have reads := (inert_flattenAll sided).closings depth []
      rw [List.append_nil] at reads
      rw [reads]
      rfl
  | deeper sided isOpening _ induction =>
      rw [(inert_flattenAll sided).closings, strayClosings, isOpening]
      exact induction (depth + 1)

theorem Unclosed.strayOpenings_eq (unclosed : Unclosed side opening row last)
    (isOpening : side opening = .opening) :
    (strayOpenings side (opening :: row)).getLast? = some last := by
  induction unclosed with
  | @here opening trees sided =>
      have open_ : Unclosed side opening (TokenTree.flattenAll trees) opening := .here sided
      have reads := (inert_flattenAll sided).openings []
      rw [List.append_nil] at reads
      rw [strayOpenings, if_pos ⟨isOpening, open_.hasPartner_eq 0⟩, reads]
      rfl
  | @deeper opening trees next row last sided nextOpening inner induction =>
      have outer : Unclosed side opening (TokenTree.flattenAll trees ++ next :: row) last :=
        .deeper sided nextOpening inner
      have found := induction nextOpening
      rw [strayOpenings, if_pos ⟨isOpening, outer.hasPartner_eq 0⟩,
        (inert_flattenAll sided).openings]
      cases rest : strayOpenings side (next :: row) with
      | nil => rw [rest] at found; cases found
      | cons first others =>
          rw [rest] at found
          rw [List.getLast?_cons_cons]
          exact found

theorem Unclosed.paired_eq (unclosed : Unclosed side opening row last)
    (isOpening : side opening = .opening) (depth : Nat) :
    paired side depth (opening :: row) = [] := by
  rw [paired, isOpening]
  simp [unclosed.hasPartner_eq 0]

/-! ## Balanced rows -/

/-- The brackets of a row read from one stack to another, token by token. -/
inductive ReadsRow (side : Token → Side) : List Unit → List Token → List Unit → Prop
  | nil {stack} : ReadsRow side stack [] stack
  | opening {stack token tokens result} :
      side token = .opening → ReadsRow side (() :: stack) tokens result →
      ReadsRow side stack (token :: tokens) result
  | closing {stack token tokens result} :
      side token = .closing → ReadsRow side stack tokens result →
      ReadsRow side (() :: stack) (token :: tokens) result
  | neutral {stack token tokens result} :
      side token = .neutral → ReadsRow side stack tokens result →
      ReadsRow side stack (token :: tokens) result

theorem Reads.readsRow {stack result : List Unit} {tokens : List Token}
    (reads : Reads stack (bracketWord side tokens) result) :
    ReadsRow side stack tokens result := by
  induction tokens generalizing stack with
  | nil =>
      cases reads
      exact .nil
  | cons token tokens induction =>
      rw [bracketWord, List.flatMap_cons] at reads
      cases sort : side token with
      | opening =>
          rw [sort, Side.brackets, List.singleton_append] at reads
          cases reads with
          | opening reads => exact .opening sort (induction reads)
      | closing =>
          rw [sort, Side.brackets, List.singleton_append] at reads
          cases reads with
          | closing reads => exact .closing sort (induction reads)
      | neutral =>
          rw [sort, Side.brackets, List.nil_append] at reads
          exact .neutral sort (induction reads)

theorem ReadsRow.strayClosings_eq {stack result : List Unit} {tokens : List Token}
    (reads : ReadsRow side stack tokens result) :
    strayClosings side stack.length tokens = [] := by
  induction reads with
  | nil => rfl
  | opening sort _ induction =>
      rw [strayClosings, sort]
      exact induction
  | closing sort _ induction =>
      rw [strayClosings, sort, List.length_cons]
      dsimp only
      rw [if_neg (Nat.succ_ne_zero _)]
      exact induction
  | neutral sort _ induction =>
      rw [strayClosings, sort]
      exact induction

/-- A bracket that is not open at the end was closed on the way. -/
theorem ReadsRow.hasPartner_eq {stack result : List Unit} {tokens : List Token} {depth : Nat}
    (reads : ReadsRow side stack tokens result)
    (closed : result.length + depth < stack.length) : hasPartner side depth tokens = true := by
  induction reads generalizing depth with
  | nil => omega
  | opening sort _ induction =>
      rw [hasPartner, sort]
      exact induction (by rw [List.length_cons]; omega)
  | closing sort _ induction =>
      rw [List.length_cons] at closed
      rw [hasPartner, sort]
      dsimp only
      split
      · rfl
      · exact induction (by omega)
  | neutral sort _ induction =>
      rw [hasPartner, sort]
      exact induction closed

theorem ReadsRow.strayOpenings_eq {stack result : List Unit} {tokens : List Token}
    (reads : ReadsRow side stack tokens result) (closed : result = []) :
    strayOpenings side tokens = [] := by
  induction reads with
  | nil => rfl
  | opening sort reads induction =>
      have found := @ReadsRow.hasPartner_eq _ side _ _ _ 0 reads (by simp [closed])
      rw [strayOpenings, if_neg (by simp [found])]
      exact induction closed
  | closing sort _ induction =>
      rw [strayOpenings, if_neg (by simp [sort])]
      exact induction closed
  | neutral sort _ induction =>
      rw [strayOpenings, if_neg (by simp [sort])]
      exact induction closed

theorem Balanced.no_strays {tokens : List Token}
    (balanced : Balanced (bracketWord side tokens)) :
    strayClosings side 0 tokens = [] ∧ strayOpenings side tokens = [] :=
  ⟨(balanced.reads []).readsRow.strayClosings_eq, (balanced.reads []).readsRow.strayOpenings_eq rfl⟩

/-- A row without stray brackets is kept as a whole. -/
theorem paired_eq_self {depth : Nat} {tokens : List Token}
    (closings : strayClosings side depth tokens = []) (openings : strayOpenings side tokens = []) :
    paired side depth tokens = tokens := by
  induction tokens generalizing depth with
  | nil => rfl
  | cons token tokens induction =>
      rw [strayOpenings] at openings
      rw [strayClosings] at closings
      rw [paired]
      split at openings
      · cases openings
      next partner =>
        cases sort : side token with
        | opening =>
            simp only [sort, true_and, Bool.not_eq_false] at partner closings
            rw [if_pos partner, induction closings openings]
        | closing =>
            simp only [sort] at closings
            split at closings
            · cases closings
            next deep =>
              rw [if_neg deep, induction closings openings]
        | neutral =>
            simp only [sort] at closings
            rw [induction closings openings]

end Trees

end CardCode
