import Mathlib.Algebra.Order.Ring.Int

/-! # Folding with an operation that is exact only in range

A machine operation on words stands for an exact operation on their values, and
agrees with it as long as the exact result is in range; where it is not, the machine may
deliver anything, or nothing. A left fold of the machine operation is then exact as long as
no intermediate result leaves the range, and which results are looked at makes no difference.
-/

namespace CardCode

structure MachineOperation (Exact Word : Type) where
  value : Word → Exact
  InRange : Exact → Prop
  exact : Exact → Exact → Exact
  machine : Word → Word → Option Word
  faithful : ∀ left right, InRange (exact (value left) (value right)) →
    ∃ word, machine left right = some word ∧ value word = exact (value left) (value right)

namespace MachineOperation

variable {Exact Word : Type} (operation : MachineOperation Exact Word)

/-- Every machine operation of the fold has an exact result in range. -/
def StepsInRange : Word → List Word → Prop
  | _, [] => True
  | start, operand :: rest =>
      operation.InRange (operation.exact (operation.value start) (operation.value operand)) ∧
        ∀ word ∈ operation.machine start operand, StepsInRange word rest

/-- Every intermediate result of the exact fold is in range. -/
def ResultsInRange : Exact → List Exact → Prop
  | _, [] => True
  | start, operand :: rest =>
      operation.InRange (operation.exact start operand) ∧
        ResultsInRange (operation.exact start operand) rest

theorem stepsInRange_iff (start : Word) (operands : List Word) :
    operation.StepsInRange start operands ↔
      operation.ResultsInRange (operation.value start) (operands.map operation.value) := by
  induction operands generalizing start with
  | nil => exact Iff.rfl
  | cons operand rest induction =>
      rw [List.map_cons, StepsInRange, ResultsInRange]
      constructor
      · intro steps
        rcases operation.faithful start operand steps.1 with ⟨word, delivered, same⟩
        refine ⟨steps.1, ?_⟩
        rw [← same]
        exact (induction word).mp (steps.2 word delivered)
      · intro results
        rcases operation.faithful start operand results.1 with ⟨word, delivered, same⟩
        refine ⟨results.1, fun other isDelivered => ?_⟩
        rw [delivered] at isDelivered
        cases isDelivered
        rw [← same] at results
        exact (induction word).mpr results.2

/-- A fold whose operations stay in range is exact. -/
theorem value_foldlM {start : Word} {operands : List Word}
    (steps : operation.StepsInRange start operands) :
    ∃ word, operands.foldlM operation.machine start = some word ∧
      operation.value word =
        (operands.map operation.value).foldl operation.exact (operation.value start) := by
  induction operands generalizing start with
  | nil => exact ⟨start, rfl, rfl⟩
  | cons operand rest induction =>
      rcases operation.faithful start operand steps.1 with ⟨word, delivered, same⟩
      rcases induction (steps.2 word delivered) with ⟨last, folded, value⟩
      refine ⟨last, ?_, ?_⟩
      · rw [List.foldlM_cons, delivered]
        exact folded
      · rw [List.map_cons, List.foldl_cons, ← same, value]

end MachineOperation

end CardCode
