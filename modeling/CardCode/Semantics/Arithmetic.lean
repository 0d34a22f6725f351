import CardCode.Foundation.MachineFold
import CardCode.Semantics.Entries
import CardCode.Semantics.Guarantees

/-! # Arithmetic

An arithmetic node folds its operands from the left in 64 bits and guards against
nothing but a zero divisor. What it computes is exact as long as no intermediate
result of the exact fold leaves the range of an `int64`.
-/

namespace CardCode

open Process

/-- The exact left fold over the operands. -/
def exactFold (op : String) : List Int64 → Int
  | [] => 0
  | first :: rest => (rest.map Int64.toInt).foldl (exactResult op) first.toInt

theorem operate_toInt (env : Env) (op : String) (left right : Int64)
    (fits : InInt64 (exactResult op left.toInt right.toInt)) :
    ∃ result, env.operate op left right = some result ∧
      result.toInt = exactResult op left.toInt right.toInt :=
  ⟨_, if_pos fits, Int64.toInt_ofInt_of_le fits.1 (by have upper := fits.2; omega)⟩

/-- The machine's operation of an arithmetic node. -/
def Env.arithmetic (env : Env) (op : String) : MachineOperation Int Int64 where
  value := Int64.toInt
  InRange := InInt64
  exact := exactResult op
  machine := env.operate op
  faithful := operate_toInt env op

/-- No `int64` operation on the way through the operands leaves the range. -/
def Env.OperationsInRange (env : Env) (op : String) : List Int64 → Prop
  | [] => True
  | first :: rest => (env.arithmetic op).StepsInRange first rest

/-- The exact results after each operand from the second on. -/
def partialResults (op : String) : Int → List Int64 → List Int
  | _, [] => []
  | start, operand :: rest =>
      exactResult op start operand.toInt ::
        partialResults op (exactResult op start operand.toInt) rest

/-- No intermediate result of the exact fold leaves the range. -/
def FoldInRange (op : String) : List Int64 → Prop
  | [] => True
  | first :: rest => ∀ result ∈ partialResults op first.toInt rest, InInt64 result

instance (op : String) : (operands : List Int64) → Decidable (FoldInRange op operands)
  | [] => inferInstanceAs (Decidable True)
  | first :: rest =>
      inferInstanceAs (Decidable (∀ result ∈ partialResults op first.toInt rest, InInt64 result))

example : FoldInRange "+" [9223372036854775807, -1, 1] := by decide

example : ¬ FoldInRange "/" [-9223372036854775808, -1] := by decide

theorem resultsInRange_iff (env : Env) (op : String) (start : Int) (operands : List Int64) :
    (env.arithmetic op).ResultsInRange start (operands.map Int64.toInt) ↔
      ∀ result ∈ partialResults op start operands, InInt64 result := by
  induction operands generalizing start with
  | nil => simp [MachineOperation.ResultsInRange, partialResults]
  | cons operand rest induction =>
      rw [List.map_cons, MachineOperation.ResultsInRange, induction, partialResults,
        List.forall_mem_cons]
      rfl

theorem operationsInRange_iff (env : Env) (op : String) (operands : List Int64) :
    env.OperationsInRange op operands ↔ FoldInRange op operands := by
  cases operands with
  | nil => exact Iff.rfl
  | cons first rest =>
      rw [Env.OperationsInRange, MachineOperation.stepsInRange_iff]
      exact resultsInRange_iff env op _ rest

theorem Env.Folds.exact {env : Env} {op : String} {operands : List Int64} {result : Int64}
    (folds : env.Folds op operands result) (inRange : env.OperationsInRange op operands) :
    result.toInt = exactFold op operands := by
  have delivered := folds.result_eq
  cases operands with
  | nil =>
      cases delivered
      rfl
  | cons first rest =>
      rcases (env.arithmetic op).value_foldlM inRange with ⟨word, folded, value⟩
      have same : some word = some result := folded.symm.trans delivered
      cases same
      exact value

theorem partialResults_snoc (op : String) (start : Int) (operands : List Int64) (operand : Int64) :
    partialResults op start (operands ++ [operand]) = partialResults op start operands ++
      [exactResult op ((operands.map Int64.toInt).foldl (exactResult op) start) operand.toInt] := by
  induction operands generalizing start with
  | nil => rfl
  | cons head rest induction =>
      rw [List.cons_append, partialResults, induction, partialResults, List.map_cons,
        List.foldl_cons, List.cons_append]

/-- With one operand more there is one intermediate result more. -/
theorem foldInRange_snoc {op : String} {operands : List Int64} (nonempty : operands ≠ [])
    (operand : Int64) :
    FoldInRange op (operands ++ [operand]) ↔ FoldInRange op operands ∧
      InInt64 (exactResult op (exactFold op operands) operand.toInt) := by
  cases operands with
  | nil => exact absurd rfl nonempty
  | cons first rest =>
      rw [List.cons_append, FoldInRange, partialResults_snoc, List.forall_mem_append,
        FoldInRange, exactFold, List.forall_mem_singleton]

/-! ## Runs -/

/-- Some arithmetic node of the run has folded these operands into `result`,
whether it returns it or goes on to the next operand. -/
def Trace.Folded (trace : Trace) (op : String) (operands : List Int64)
    (result : Int64) : Prop :=
  .mark (.combined op operands result) ∈ trace ∨
    .mark (.computed op operands result) ∈ trace

/-- Some arithmetic node of the run goes on to fold these operands and traps at the last. -/
def Trace.TrapsFolding (trace : Trace) (op : String) (operands : List Int64) : Prop :=
  ∃ read accumulator operand, operands = read ++ [operand] ∧
    .mark (.combining op read accumulator operand) ∈ trace ∧ TrapsOn op accumulator operand

theorem Leaves.folds {env : Env} {node : Node} {op : String} {operands : List Int64}
    {result : Int64}
    (leaves : Leaves env node (.mark (.combined op operands result)) ∨
      Leaves env node (.mark (.computed op operands result))) :
    env.Folds op operands result := by
  rcases leaves with leaves | leaves
  · cases leaves with
    | combined folds => exact folds
    | issued issues member => cases issues <;> simp at member
  · cases leaves with
    | computed folds => exact folds
    | issued issues member => cases issues <;> simp at member

section Runs

variable {program : Program} {setting : Setting} {trace : Trace}
  {outcome : Except Fault ExecutionResult} {op : String} {operands : List Int64}

theorem folded_of_run (run : Run (execute setting program.root) trace outcome) {result : Int64}
    (folded : trace.Folded op operands result) :
    (program.env setting).untrapped.Folds op operands result := by
  have left := program.run_leaves setting run (inherited_true _) trivial
  rcases folded with member | member
  · rcases left _ member with report | ⟨node, -, leaves⟩
    · cases report
    · exact Leaves.folds (.inl leaves)
  · rcases left _ member with report | ⟨node, -, leaves⟩
    · cases report
    · exact Leaves.folds (.inr leaves)

/-- Where an operation traps, the exact fold has left the range there or before. -/
theorem trapsFolding_of_run (run : Run (execute setting program.root) trace outcome)
    (traps : trace.TrapsFolding op operands) : ¬ FoldInRange op operands := by
  rcases traps with ⟨read, accumulator, operand, rfl, member, divides, least, one⟩
  rcases program.run_leaves setting run (inherited_true _) trivial _ member with
    report | ⟨node, -, leaves⟩
  · cases report
  · cases leaves with
    | combining folds nonempty divisor operates =>
        rw [foldInRange_snoc nonempty]
        intro inRange
        have exact := folds.exact ((operationsInRange_iff _ _ _).mpr inRange.1)
        have outside := (tdiv_inInt64_iff accumulator operand).mp
        rw [← exactResult_divides divides, exact] at outside
        exact outside inRange.2 ⟨least, one⟩
    | issued issues member => cases issues <;> simp at member

end Runs

/-- In every run, what an arithmetic node computes is exact, by operations that
stay in range, exactly when no intermediate result of the exact fold over its
operands leaves the range; where it traps instead, one has left it. -/
theorem Program.arithmetic_exact_iff (program : Program) (setting : Setting) {trace : Trace}
    {outcome : Except Fault ExecutionResult}
    (run : Run (execute setting program.root) trace outcome) :
    (∀ op operands result, Trace.Folded trace op operands result →
      ((result.toInt = exactFold op operands ∧
          (program.env setting).OperationsInRange op operands) ↔
        FoldInRange op operands)) ∧
    ∀ op operands, Trace.TrapsFolding trace op operands → ¬ FoldInRange op operands := by
  refine ⟨?_, fun op operands traps => trapsFolding_of_run run traps⟩
  intro op operands result folded
  have folds := folded_of_run run folded
  rw [operationsInRange_iff]
  constructor
  · exact fun both => both.2
  · exact fun inRange => ⟨folds.exact ((operationsInRange_iff _ _ _).mpr inRange), inRange⟩

/-- The program `(+ 9223372036854775807 1)`. -/
def overflowingProgram : Program :=
  (Program.ofSource? (bytes "(+ 9223372036854775807 1)")).get (by decide +kernel)

def overflowingRun : Trace × Except Fault ExecutionResult :=
  respond (fun _ => Query.still) 0 (execute calmSetting overflowingProgram.root)

def Action.computes (op : String) (operands : List Int64) : Action → Bool
  | .mark (.computed found values _) => found = op && values = operands
  | _ => false

theorem overflowing_folded :
    ∃ result, Trace.Folded overflowingRun.1 "+" [9223372036854775807, 1] result := by
  have returns : overflowingRun.1.any (Action.computes "+" [9223372036854775807, 1]) = true := by
    decide +kernel
  rcases List.any_eq_true.mp returns with ⟨entry, member, computed⟩
  rw [Action.computes.eq_def] at computed
  split at computed
  · rw [Bool.and_eq_true, decide_eq_true_eq, decide_eq_true_eq] at computed
    rw [computed.1, computed.2] at member
    exact ⟨_, .inr member⟩
  · cases computed

theorem overflowing_arithmetic_exact :
    ∃ result, Trace.Folded overflowingRun.1 "+" [9223372036854775807, 1] result ∧
      ((result.toInt = exactFold "+" [9223372036854775807, 1] ∧
          (overflowingProgram.env calmSetting).OperationsInRange "+"
            [9223372036854775807, 1]) ↔
        FoldInRange "+" [9223372036854775807, 1]) := by
  rcases overflowing_folded with ⟨result, folded⟩
  exact ⟨result, folded, (overflowingProgram.arithmetic_exact_iff calmSetting
    (run_respond _ _ 0)).1 _ _ result folded⟩

/-- Nothing keeps an addition from leaving the range. -/
theorem overflow_not_exact :
    ¬ ∀ (program : Program) (setting : Setting) (trace : Trace)
        (outcome : Except Fault ExecutionResult),
      Run (execute setting program.root) trace outcome →
      ∀ op operands result, Trace.Folded trace op operands result →
        result.toInt = exactFold op operands ∧
          (program.env setting).OperationsInRange op operands := by
  intro always
  rcases overflowing_folded with ⟨result, folded⟩
  have exact := always overflowingProgram calmSetting _ _ (run_respond _ _ 0) _ _ result folded
  rw [operationsInRange_iff] at exact
  exact absurd exact.2 (by decide)

end CardCode
