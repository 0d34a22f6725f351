import CardCode.Semantics.Steps

/-! # The quotient that traps

The quotient of the least `int64` by -1 is the one operation at which the processor traps.
Where an operation delivers something in its place, the run goes on.
-/

namespace CardCode

/-- The operation is the quotient of the least `int64` by -1. -/
def TrapsOn (op : String) (left right : Int64) : Prop :=
  dividesBy op = true ∧ left = Int64.minValue ∧ right = -1

instance (op : String) (left right : Int64) : Decidable (TrapsOn op left right) :=
  inferInstanceAs (Decidable (_ ∧ _ ∧ _))

/-- The entry announces an operation at which the processor traps. -/
def Action.Traps : Action → Prop
  | .mark (.combining op _ accumulator operand) => TrapsOn op accumulator operand
  | _ => False

instance : DecidablePred Action.Traps
  | .mark (.combining op _ accumulator operand) =>
      inferInstanceAs (Decidable (TrapsOn op accumulator operand))
  | .mark .whileIteration | .mark (.repeatIteration _) | .mark (.enterCall _ _)
  | .mark .exitCall | .mark (.combined _ _ _) | .mark (.computed _ _ _)
  | .emit _ _ _ | .emitProgram _ _ | .command _ _ | .sensor _ _ | .poll _ => .isFalse id

/-- The run comes to an operation at which the processor traps. -/
def Trace.Traps (trace : Trace) : Prop :=
  ∃ entry ∈ trace, entry.Traps

instance (trace : Trace) : Decidable trace.Traps :=
  inferInstanceAs (Decidable (∃ entry ∈ trace, entry.Traps))

@[simp] theorem untrapped_nil : ¬ Trace.Traps [] := by
  intro traps
  rcases traps with ⟨entry, member, -⟩
  cases member

@[simp] theorem traps_cons {entry : Action} {rest : Trace} :
    Trace.Traps (entry :: rest) ↔ entry.Traps ∨ Trace.Traps rest := by
  simp only [Trace.Traps, List.mem_cons, exists_eq_or_imp]

@[simp] theorem traps_append {first second : Trace} :
    Trace.Traps (first ++ second) ↔ Trace.Traps first ∨ Trace.Traps second := by
  simp only [Trace.Traps, List.mem_append, or_and_right, exists_or]

/-! ## Operations -/

theorem exactResult_divides {op : String} (divides : dividesBy op = true) (left right : Int) :
    exactResult op left right = left.tdiv right := by
  simp only [dividesBy, ne_eq, Bool.and_eq_true, decide_eq_true_eq] at divides
  rw [exactResult, if_neg divides.1.1, if_neg divides.1.2, if_neg divides.2]

/-- A quotient of two `int64` values is no larger than the dividend, so that it leaves the
range only where the least value changes its sign. -/
theorem tdiv_inInt64_iff (left right : Int64) :
    InInt64 (left.toInt.tdiv right.toInt) ↔ ¬ (left = Int64.minValue ∧ right = -1) := by
  have lower := left.le_toInt
  have upper := left.toInt_lt
  constructor
  · intro fits least
    rw [least.1, least.2] at fits
    exact absurd fits (by decide)
  · intro other
    by_cases one : right.toInt = -1
    · have above : left.toInt ≠ -2 ^ 63 := by
        intro least
        exact other ⟨Int64.toInt_inj.mp least, Int64.toInt_inj.mp one⟩
      rw [one, Int.tdiv_neg, Int.tdiv_one]
      exact ⟨by omega, by omega⟩
    · by_cases same : right.toInt = 1
      · rw [same, Int.tdiv_one]
        exact ⟨by omega, by omega⟩
      · have size : (left.toInt.tdiv right.toInt).natAbs = left.toInt.natAbs / right.toInt.natAbs :=
          Int.natAbs_tdiv _ _
        have small : left.toInt.natAbs / right.toInt.natAbs ≤ left.toInt.natAbs / 2 := by
          cases Nat.eq_zero_or_pos right.toInt.natAbs with
          | inl zero => rw [zero, Nat.div_zero]; exact Nat.zero_le _
          | inr positive => exact Nat.div_le_div_left (by omega) (by decide)
        exact ⟨by omega, by omega⟩

/-- An operation of a run delivers nothing exactly where the processor traps. -/
theorem Setting.operate_eq_none_iff (setting : Setting) (root : Node) (op : String)
    (left right : Int64) :
    (setting.env root).operate op left right = none ↔ TrapsOn op left right := by
  rw [Env.operate, TrapsOn]
  by_cases divides : dividesBy op = true
  · have nothing : (setting.env root).overflow op left right = none := if_pos divides
    rw [exactResult_divides divides, nothing, ite_eq_right_iff]
    simp [divides, tdiv_inInt64_iff]
  · have something : (setting.env root).overflow op left right =
        some (setting.overflow op left right) := if_neg divides
    rw [something]
    split <;> simp [divides]

/-! ## Environments without traps -/

/-- Every operation delivers something. -/
def Env.Delivers (env : Env) : Prop :=
  ∀ op left right, ∃ result, env.operate op left right = some result

/-- The environment in which an operation that would trap delivers 0. -/
def Env.untrapped (env : Env) : Env :=
  { env with overflow := fun op left right => some ((env.overflow op left right).getD 0) }

theorem Env.untrapped_delivers (env : Env) : env.untrapped.Delivers := by
  intro op left right
  rw [Env.operate]
  split
  · exact ⟨_, rfl⟩
  · exact ⟨_, rfl⟩

theorem Env.untrapped_operate (env : Env) {op : String} {left right result : Int64}
    (operates : env.operate op left right = some result) :
    env.untrapped.operate op left right = some result := by
  rw [Env.operate] at operates ⊢
  split at operates
  next fits => rw [if_pos fits, operates]
  next outside =>
    rw [if_neg outside]
    change some ((env.overflow op left right).getD 0) = some result
    rw [operates, Option.getD_some]

end CardCode
