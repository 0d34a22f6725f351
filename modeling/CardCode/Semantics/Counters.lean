import CardCode.Semantics.Activity

/-! # Steps and call frames

The step counter counts the nodes started and the iterations of `while` begun,
and never passes its limit; the call depth counts the frames that are live, and
every call gives its frame back.
-/

namespace CardCode

/-- An entry for which the interpreter takes a step. -/
def Action.isStep : Action → Bool
  | .emit .nodeStart _ _ => true
  | .mark .whileIteration => true
  | _ => false

/-- Nodes started and iterations of `while` begun. -/
def stepsTaken (trace : Trace) : Nat :=
  trace.countP Action.isStep

/-- The frame an entry pushes or pops. -/
def Action.frame : Action → Int
  | .mark (.enterCall _ _) => 1
  | .mark .exitCall => -1
  | _ => 0

/-- The call frames that are live at the end of a trace, beyond those at its start. -/
def liveFrames : Trace → Int
  | [] => 0
  | entry :: rest => entry.frame + liveFrames rest

@[simp] theorem stepsTaken_append (first second : Trace) :
    stepsTaken (first ++ second) = stepsTaken first + stepsTaken second :=
  List.countP_append

@[simp] theorem liveFrames_append (first second : Trace) :
    liveFrames (first ++ second) = liveFrames first + liveFrames second := by
  induction first with
  | nil => simp [liveFrames]
  | cons entry rest induction =>
      rw [List.cons_append, liveFrames, liveFrames, induction]
      omega

theorem stepsTaken_le_of_prefix {first whole : Trace} (isPrefix : first <+: whole) :
    stepsTaken first ≤ stepsTaken whole :=
  isPrefix.sublist.countP_le

/-! ## Steps -/

/-- What a stretch of a run does to the step counter. -/
structure Counts (limit : UInt32) (before after : UInt32) (trace : Trace) : Prop where
  counted : after.toNat = before.toNat + stepsTaken trace
  bounded : before.toNat ≤ limit.toNat → after.toNat ≤ limit.toNat

theorem Counts.quiet {limit steps : UInt32} {trace : Trace} (none : stepsTaken trace = 0) :
    Counts limit steps steps trace :=
  ⟨by omega, id⟩

theorem Counts.append {limit before middle after : UInt32} {first second : Trace}
    (firstCounts : Counts limit before middle first)
    (secondCounts : Counts limit middle after second) :
    Counts limit before after (first ++ second) := by
  refine ⟨?_, fun start => secondCounts.bounded (firstCounts.bounded start)⟩
  rw [secondCounts.counted, firstCounts.counted, stepsTaken_append]
  omega

/-- A step taken below the limit is counted without overflow. -/
theorem Counts.step {limit steps : UInt32} {entry : Action} (room : steps < limit)
    (isStep : entry.isStep = true) : Counts limit steps (steps + 1) [entry] := by
  have less : steps.toNat < limit.toNat := room
  have fits : limit.toNat < 2 ^ 32 := limit.toNat_lt
  have next : (steps + 1).toNat = steps.toNat + 1 := by
    rw [UInt32.toNat_add]
    exact Nat.mod_eq_of_lt (by simp; omega)
  refine ⟨?_, fun _ => by omega⟩
  rw [next, stepsTaken, List.countP_cons_of_pos isStep]
  rfl

theorem stepsTaken_polled (env : Env) : stepsTaken env.polled = 0 := by
  rw [Env.polled]
  split <;> rfl

theorem Issues.stepsTaken {node : Node} {calls : Trace} (issues : Issues node calls) :
    stepsTaken calls = 0 := by
  cases issues <;> rfl

theorem Activity.counts {env : Env} {task : Task} {state reached : ExecState}
    {trace : Trace} (activity : Activity env task state trace reached) :
    Counts env.limits.maxTotalSteps state.steps reached.steps trace := by
  induction activity with
  | stopped => exact .quiet rfl
  | cancelled => exact .quiet rfl
  | exhausted => exact (Counts.quiet (stepsTaken_polled env)).append (.quiet rfl)
  | silent _ _ _ induction =>
      exact (Counts.quiet (stepsTaken_polled env)).append induction
  | @interrupted node _ trace _ _ _ room _ _ induction =>
      apply (Counts.quiet (stepsTaken_polled env)).append
      exact (Counts.step room rfl).append induction
  | @completed node _ trace calls _ _ _ room _ _ issues induction =>
      rw [List.append_assoc, List.append_assoc]
      apply (Counts.quiet (stepsTaken_polled env)).append
      apply (Counts.step room rfl).append
      apply induction.append
      exact (Counts.quiet issues.stepsTaken).append (.quiet rfl)
  | idle => exact .quiet rfl
  | follow _ _ _ firstInduction restInduction => exact firstInduction.append restInduction
  | part _ _ induction => exact induction
  | complain => exact .quiet rfl
  | undefined => exact .quiet rfl
  | skip => exact .quiet rfl
  | store => exact .quiet rfl
  | iterate room => exact .step room rfl
  | round => exact .quiet rfl
  | prepare => exact .quiet rfl
  | combine => exact .quiet rfl
  | compute => exact .quiet rfl
  | @call _ state function values _ _ _ _ _ _ _ _ induction =>
      have entered : Counts env.limits.maxTotalSteps state.steps state.steps
          [.mark (.enterCall function values)] := .quiet rfl
      exact (entered.append induction).append (.quiet rfl)

/-! ## Call frames -/

/-- Over a stretch that starts `depth` frames deep, never more than the limit
are live, and none is left at its end. -/
structure Nests (limit : Nat) (depth : Nat) (trace : Trace) : Prop where
  bounded : ∀ start, start <+: trace → depth + liveFrames start ≤ limit
  settled : liveFrames trace = 0

theorem Nests.nil {limit depth : Nat} (room : depth ≤ limit) : Nests limit depth [] := by
  refine ⟨?_, rfl⟩
  intro start isPrefix
  rw [List.prefix_nil.mp isPrefix]
  simpa [liveFrames] using room

theorem prefix_append_cases {first second start : Trace}
    (isPrefix : start <+: first ++ second) :
    start <+: first ∨ ∃ rest, rest <+: second ∧ start = first ++ rest := by
  rcases List.prefix_or_prefix_of_prefix isPrefix (List.prefix_append first second) with
    inside | beyond
  · exact .inl inside
  · rcases beyond with ⟨rest, equal⟩
    rw [← equal] at isPrefix
    exact .inr ⟨rest, (List.prefix_append_right_inj first).mp isPrefix, equal.symm⟩

theorem Nests.append {limit depth : Nat} {first second : Trace}
    (firstNests : Nests limit depth first) (secondNests : Nests limit depth second) :
    Nests limit depth (first ++ second) := by
  refine ⟨?_, ?_⟩
  · intro start isPrefix
    rcases prefix_append_cases isPrefix with inside | ⟨rest, restPrefix, equal⟩
    · exact firstNests.bounded start inside
    · rw [equal, liveFrames_append, firstNests.settled, Int.zero_add]
      exact secondNests.bounded rest restPrefix
  · rw [liveFrames_append, firstNests.settled, secondNests.settled]
    rfl

/-- An entry that is no call and no return. -/
theorem Nests.entry {limit depth : Nat} {entry : Action} (room : depth ≤ limit)
    (flat : entry.frame = 0) : Nests limit depth [entry] := by
  have settled : liveFrames [entry] = 0 := by simp [liveFrames, flat]
  refine ⟨?_, settled⟩
  intro start isPrefix
  rcases List.prefix_cons_iff.mp isPrefix with none | ⟨rest, equal, restPrefix⟩
  · rw [none]
    simpa [liveFrames] using room
  · rw [equal, List.prefix_nil.mp restPrefix, settled]
    omega

/-- A call runs its body one frame deeper and returns. -/
theorem Nests.call {limit depth : Nat} {function : Node} {values : List Value}
    {trace : Trace} (room : depth < limit) (body : Nests limit (depth + 1) trace) :
    Nests limit depth (.mark (.enterCall function values) :: trace ++ [.mark .exitCall]) := by
  have entered (rest : Trace) :
      liveFrames (.mark (.enterCall function values) :: rest) = 1 + liveFrames rest := by
    simp [liveFrames, Action.frame]
  have left : liveFrames [.mark .exitCall] = -1 := rfl
  refine ⟨?_, ?_⟩
  · intro start isPrefix
    rcases List.prefix_cons_iff.mp isPrefix with none | ⟨rest, equal, restPrefix⟩
    · rw [none]
      have zero : liveFrames [] = 0 := rfl
      omega
    · rw [equal, entered]
      rcases prefix_append_cases restPrefix with inside | ⟨last, lastPrefix, equal⟩
      · have bound := body.bounded rest inside
        push_cast at bound
        omega
      · rw [equal, liveFrames_append, body.settled]
        rcases List.prefix_cons_iff.mp lastPrefix with none | ⟨nothing, equal, nothingPrefix⟩
        · rw [none]
          have zero : liveFrames [] = 0 := rfl
          omega
        · rw [equal, List.prefix_nil.mp nothingPrefix, left]
          omega
  · rw [List.cons_append, entered, liveFrames_append, body.settled, left]
    rfl

theorem Nests.polled {limit depth : Nat} (env : Env) (room : depth ≤ limit) :
    Nests limit depth env.polled := by
  rw [Env.polled]
  split
  · exact .entry room rfl
  · exact .nil room

theorem Issues.nests {node : Node} {calls : Trace} (issues : Issues node calls)
    {limit depth : Nat} (room : depth ≤ limit) : Nests limit depth calls := by
  cases issues with
  | nothing => exact .nil room
  | command => exact .entry room rfl
  | sensor => exact .entry room rfl

theorem Activity.callDepth_eq {env : Env} {task : Task} {state reached : ExecState}
    {trace : Trace} (activity : Activity env task state trace reached) :
    reached.callDepth = state.callDepth := by
  induction activity with
  | stopped | cancelled | exhausted | idle | complain | undefined | skip | store | iterate
  | round | prepare | combine | compute => rfl
  | silent _ _ _ induction => exact induction
  | interrupted _ _ _ _ _ induction => exact induction
  | completed _ _ _ _ _ _ induction => exact induction
  | follow _ _ _ firstInduction restInduction => exact restInduction.trans firstInduction
  | part _ _ induction => exact induction
  | call _ _ _ _ _ _ induction =>
      rw [ExecState.leave, induction]
      exact UInt32.add_sub_cancel _ _

theorem Activity.nests {env : Env} {task : Task} {state reached : ExecState}
    {trace : Trace} (activity : Activity env task state trace reached) :
    state.callDepth.toNat ≤ env.limits.maxCallDepth.toNat →
      Nests env.limits.maxCallDepth.toNat state.callDepth.toNat trace := by
  induction activity with
  | stopped => exact .nil
  | cancelled => exact fun room => .entry room rfl
  | exhausted => exact fun room => (Nests.polled env room).append (.entry room rfl)
  | silent _ _ _ induction => exact fun room => (Nests.polled env room).append (induction room)
  | interrupted _ _ _ _ _ induction =>
      intro room
      apply (Nests.polled env room).append
      exact (Nests.entry room rfl).append (induction room)
  | completed _ _ _ _ _ issues induction =>
      intro room
      rw [List.append_assoc, List.append_assoc]
      apply (Nests.polled env room).append
      apply (Nests.entry room rfl).append
      apply (induction room).append
      exact (issues.nests room).append (.entry room rfl)
  | idle => exact .nil
  | follow first _ _ firstInduction restInduction =>
      intro room
      have kept := first.callDepth_eq
      rw [kept] at restInduction
      exact (firstInduction room).append (restInduction room)
  | part _ _ induction => exact induction
  | complain => exact fun room => .entry room rfl
  | undefined => exact fun room => .entry room rfl
  | skip => exact fun room => .entry room rfl
  | store => exact .nil
  | iterate => exact fun room => .entry room rfl
  | round => exact fun room => .entry room rfl
  | prepare => exact fun room => .entry room rfl
  | combine => exact fun room => .entry room rfl
  | compute => exact fun room => .entry room rfl
  | @call _ state _ _ _ _ vars _ _ _ shallow _ induction =>
      intro _
      have less : state.callDepth.toNat < env.limits.maxCallDepth.toNat := shallow
      have deeper : (state.enter vars).callDepth.toNat = state.callDepth.toNat + 1 := by
        have fits : env.limits.maxCallDepth.toNat < 2 ^ 32 := UInt32.toNat_lt _
        rw [ExecState.enter, UInt32.toNat_add]
        exact Nat.mod_eq_of_lt (by simp; omega)
      rw [deeper] at induction
      exact .call less (induction less)

end CardCode
