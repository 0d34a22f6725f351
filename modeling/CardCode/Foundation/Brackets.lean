import Mathlib.Algebra.Order.Ring.Int
import Mathlib.Data.List.Basic

/-! # Words of labelled brackets

A word is balanced when every closing bracket carries the label of the bracket
it closes. A reader that keeps a stack of the labels still open recognises the
balanced words and their prefixes.
-/

namespace CardCode

inductive Bracket (Label : Type) where
  | opening (label : Label)
  | closing (label : Label)
  deriving Repr, DecidableEq

variable {Label : Type}

inductive Balanced : List (Bracket Label) → Prop
  | nil : Balanced []
  | wrap {label inner rest} :
      Balanced inner → Balanced rest →
      Balanced (.opening label :: inner ++ .closing label :: rest)

theorem Balanced.append {first second : List (Bracket Label)}
    (firstBalanced : Balanced first) (secondBalanced : Balanced second) :
    Balanced (first ++ second) := by
  induction firstBalanced with
  | nil => exact secondBalanced
  | @wrap label inner rest innerBalanced _ _ induction =>
      have wrapped := @Balanced.wrap _ label _ _ innerBalanced induction
      simpa using wrapped

/-- Reading a word turns one stack of open labels into another. -/
inductive Reads : List Label → List (Bracket Label) → List Label → Prop
  | nil {stack} : Reads stack [] stack
  | opening {label stack word result} :
      Reads (label :: stack) word result → Reads stack (.opening label :: word) result
  | closing {label stack word result} :
      Reads stack word result → Reads (label :: stack) (.closing label :: word) result

/-- What has to be closed after a stack of labels was left open. -/
def closings (stack : List Label) : List (Bracket Label) :=
  stack.map .closing

/-- Whatever was read, closing what is left open balances it, once the labels
open at the start are closed in turn by balanced parts of the word. -/
inductive Settles : List Label → List (Bracket Label) → Prop
  | last {word} : Balanced word → Settles [] word
  | close {label stack inner word} :
      Balanced inner → Settles stack word →
      Settles (label :: stack) (inner ++ .closing label :: word)

theorem Settles.prepend {stack : List Label} {first word : List (Bracket Label)}
    (balanced : Balanced first) (settles : Settles stack word) :
    Settles stack (first ++ word) := by
  cases settles with
  | last wordBalanced => exact .last (balanced.append wordBalanced)
  | close innerBalanced rest =>
      rw [← List.append_assoc]
      exact .close (balanced.append innerBalanced) rest

theorem Settles.open {label : Label} {stack : List Label} {word : List (Bracket Label)}
    (settles : Settles (label :: stack) word) :
    Settles stack (.opening label :: word) := by
  cases settles with
  | @close _ _ inner tail balanced settles =>
      have wrapped := settles.prepend (@Balanced.wrap _ label _ _ balanced .nil)
      simpa using wrapped

theorem settles_closings (stack : List Label) : Settles stack (closings stack) := by
  induction stack with
  | nil => exact .last .nil
  | cons label stack induction => exact .close .nil induction

theorem Reads.settles {stack result : List Label} {word : List (Bracket Label)}
    (reads : Reads stack word result) : Settles stack (word ++ closings result) := by
  induction reads with
  | nil => exact settles_closings _
  | opening _ induction => exact induction.open
  | closing _ induction => exact .close .nil induction

/-- A word read from the empty stack is a prefix of a balanced one. -/
theorem Reads.balanced {result : List Label} {word : List (Bracket Label)}
    (reads : Reads [] word result) : Balanced (word ++ closings result) := by
  cases reads.settles with
  | last balanced => exact balanced

theorem Reads.append {stack middle result : List Label} {first second : List (Bracket Label)}
    (head : Reads stack first middle) (tail : Reads middle second result) :
    Reads stack (first ++ second) result := by
  induction head with
  | nil => exact tail
  | opening _ induction => exact .opening (induction tail)
  | closing _ induction => exact .closing (induction tail)

theorem Balanced.reads {word : List (Bracket Label)} (balanced : Balanced word) :
    ∀ stack, Reads stack word stack := by
  induction balanced with
  | nil => exact fun _ => .nil
  | wrap _ _ innerReads restReads =>
      intro stack
      exact .opening ((innerReads _).append (.closing (restReads stack)))

theorem Reads.front {stack result : List Label} {front back : List (Bracket Label)}
    (reads : Reads stack (front ++ back) result) : ∃ middle, Reads stack front middle := by
  induction front generalizing stack with
  | nil => exact ⟨stack, .nil⟩
  | cons bracket front induction =>
      cases reads with
      | opening reads =>
          rcases induction reads with ⟨middle, frontReads⟩
          exact ⟨middle, .opening frontReads⟩
      | closing reads =>
          rcases induction reads with ⟨middle, frontReads⟩
          exact ⟨middle, .closing frontReads⟩

/-- A label that is opened is either closed again or left open. -/
theorem Reads.count [DecidableEq Label] {stack result : List Label}
    {word : List (Bracket Label)} (reads : Reads stack word result) (label : Label) :
    stack.count label + word.count (.opening label) =
      result.count label + word.count (.closing label) := by
  induction reads with
  | nil => simp
  | @opening other stack word result _ induction =>
      rw [List.count_cons, List.count_cons] at *
      simp only [beq_iff_eq, Bracket.opening.injEq, reduceCtorEq, if_false] at *
      omega
  | @closing other stack word result _ induction =>
      rw [List.count_cons, List.count_cons, List.count_cons]
      simp only [beq_iff_eq, Bracket.closing.injEq, reduceCtorEq, if_false]
      omega

/-- At no point of a balanced word has a label been closed more often than opened. -/
theorem Balanced.count_closing_le [DecidableEq Label] {front back : List (Bracket Label)}
    (balanced : Balanced (front ++ back)) (label : Label) :
    front.count (.closing label) ≤ front.count (.opening label) := by
  rcases (balanced.reads []).front with ⟨middle, reads⟩
  have count := reads.count label
  rw [List.count_nil] at count
  omega

end CardCode
