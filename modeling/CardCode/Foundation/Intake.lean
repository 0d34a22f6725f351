import Mathlib.Data.List.Basic

/-! # Items that arrive in pieces

A reader takes one item after another off the front of what has arrived, and keeps
what is left until more arrives. If what it makes of a buffer is not undone by what
follows, then how the stream was cut does not matter.
-/

namespace CardCode

/-- What a reader makes of a buffer. -/
inductive Taken (ε α β : Type) where
  | waits
  | takes (item : β) (rest : List α)
  | fails (error : ε)

structure Intake (ε α β : Type) where
  take : List α → Taken ε α β
  shrinks : ∀ {buffer item rest}, take buffer = .takes item rest → rest.length < buffer.length
  takes_more : ∀ {buffer item rest}, take buffer = .takes item rest →
    ∀ more, take (buffer ++ more) = .takes item (rest ++ more)
  fails_more : ∀ {buffer error}, take buffer = .fails error →
    ∀ more, take (buffer ++ more) = .fails error

namespace Intake

variable {ε α β : Type} (intake : Intake ε α β)

/-- All the items of a buffer, and what is left. -/
def drain (buffer : List α) : Except ε (List β × List α) :=
  match _taken : intake.take buffer with
  | .waits => .ok ([], buffer)
  | .fails error => .error error
  | .takes item rest =>
      (drain rest).map fun drained => (item :: drained.1, drained.2)
termination_by buffer.length
decreasing_by exact intake.shrinks _taken

/-- One chunk after another arrives behind what is left. -/
def feed : List α → List (List α) → Except ε (List β × List α)
  | rest, [] => .ok ([], rest)
  | rest, chunk :: chunks =>
      (intake.drain (rest ++ chunk)).bind fun drained =>
        (feed drained.2 chunks).map fun fed => (drained.1 ++ fed.1, fed.2)

variable {intake} {buffer rest : List α} {item : β} {error : ε}

theorem drain_waits (waits : intake.take buffer = .waits) :
    intake.drain buffer = .ok ([], buffer) := by
  rw [drain]
  split <;> simp_all

theorem drain_fails (fails : intake.take buffer = .fails error) :
    intake.drain buffer = .error error := by
  rw [drain]
  split <;> simp_all

theorem drain_takes (takes : intake.take buffer = .takes item rest) :
    intake.drain buffer =
      (intake.drain rest).map fun drained => (item :: drained.1, drained.2) := by
  rw [drain]
  split <;> simp_all

/-- What one buffer leaves stands before the next. -/
theorem drain_append (first second : List α) :
    intake.drain (first ++ second) =
      (intake.drain first).bind fun drained =>
        (intake.drain (drained.2 ++ second)).map fun more =>
          (drained.1 ++ more.1, more.2) := by
  fun_induction intake.drain first with
  | case1 buffer waits =>
      change _ = Except.map _ (intake.drain (buffer ++ second))
      cases intake.drain (buffer ++ second) <;> rfl
  | case2 buffer error fails =>
      exact drain_fails (intake.fails_more fails second)
  | case3 buffer item rest takes induction =>
      rw [drain_takes (intake.takes_more takes second), induction]
      cases intake.drain rest with
      | error error => rfl
      | ok drained =>
          change Except.map _ (Except.map _ (intake.drain (drained.2 ++ second))) =
            Except.map _ (intake.drain (drained.2 ++ second))
          cases intake.drain (drained.2 ++ second) <;> rfl

/-- What is left has no item at its front. -/
theorem drain_rest {items : List β} (drained : intake.drain buffer = .ok (items, rest)) :
    intake.drain rest = .ok ([], rest) := by
  fun_induction intake.drain buffer generalizing items with
  | case1 buffer waits =>
      cases drained
      exact drain_waits waits
  | case2 buffer error fails => cases drained
  | case3 buffer item left takes induction =>
      cases inner : intake.drain left with
      | error error =>
          rw [inner] at drained
          cases drained
      | ok found =>
          rw [inner] at drained
          cases drained
          exact induction inner

/-- Every item has been taken off some buffer. -/
theorem drain_taken {items : List β} (drained : intake.drain buffer = .ok (items, rest)) :
    ∀ item ∈ items, ∃ front back, intake.take front = .takes item back := by
  fun_induction intake.drain buffer generalizing items with
  | case1 buffer waits =>
      cases drained
      exact nofun
  | case2 buffer error fails => cases drained
  | case3 buffer item left takes induction =>
      cases inner : intake.drain left with
      | error error =>
          rw [inner] at drained
          cases drained
      | ok found =>
          rw [inner] at drained
          cases drained
          exact List.forall_mem_cons.mpr ⟨⟨buffer, left, takes⟩, induction inner⟩

theorem drain_failed (failed : intake.drain buffer = .error error) :
    ∃ front, intake.take front = .fails error := by
  fun_induction intake.drain buffer with
  | case1 => cases failed
  | case2 buffer found fails =>
      cases failed
      exact ⟨buffer, fails⟩
  | case3 buffer item left takes induction =>
      cases inner : intake.drain left with
      | error found =>
          rw [inner] at failed
          cases failed
          exact induction inner
      | ok found =>
          rw [inner] at failed
          cases failed

/-- However a stream is cut, its chunks yield what it yields at once. -/
theorem feed_eq (chunks : List (List α)) (settled : intake.drain rest = .ok ([], rest)) :
    intake.feed rest chunks = intake.drain (rest ++ chunks.flatten) := by
  induction chunks generalizing rest with
  | nil => rw [List.flatten_nil, List.append_nil, feed, settled]
  | cons chunk chunks induction =>
      rw [feed, List.flatten_cons, ← List.append_assoc, drain_append (rest ++ chunk)]
      cases drained : intake.drain (rest ++ chunk) with
      | error error => rfl
      | ok found =>
          change Except.map _ (intake.feed found.2 chunks) = Except.map _ _
          rw [induction (drain_rest drained)]

/-- What is taken off whatever follows it is all found. -/
theorem drain_written {γ : Type} {write : γ → List α} {read : γ → β} {sent : List γ}
    (written : ∀ value ∈ sent, ∀ rest, intake.take (write value ++ rest) = .takes (read value) rest)
    (waits : intake.take rest = .waits) :
    intake.drain (sent.flatMap write ++ rest) = .ok (sent.map read, rest) := by
  induction sent with
  | nil => exact drain_waits waits
  | cons value sent induction =>
      rw [List.flatMap_cons, List.append_assoc,
        drain_takes (written value List.mem_cons_self _),
        induction fun other member => written other (List.mem_cons_of_mem value member)]
      rfl

end Intake

end CardCode
