import CardCode.Foundation.Simulation

/-! # Processes seen from outside

A projection hides some of the actions of a process and takes the replies to some of
its queries for granted. What is left is a process again, and its run is what is seen of
the run. Nothing here names a particular program.
-/

namespace CardCode.Process

variable {source target : Interface} {Fault α β State Outer : Type}

/-- What becomes of a query that expects a reply of a given type. -/
inductive Asked (target : Interface) (Reply : Type) where
  | granted (reply : Reply)
  | asked (question : target.Query) (back : target.Reply question → Reply)

/-- Which actions and queries are seen, and as what. -/
structure Projection (source target : Interface) where
  action : source.Action → Option target.Action
  query : (question : source.Query) → Asked target (source.Reply question)

def project (view : Projection source target) :
    Process source Fault α → Process target Fault α
  | .done value => .done value
  | .fault reason => .fault reason
  | .act action next =>
      match view.action action with
      | some seen => .act seen (next.project view)
      | none => next.project view
  | .ask question next =>
      match view.query question with
      | .granted reply => (next reply).project view
      | .asked question back => .ask question fun reply => (next (back reply)).project view

theorem bind_assoc {γ : Type} (process : Process source Fault α)
    (next : α → Process source Fault β) (last : β → Process source Fault γ) :
    (process >>= next) >>= last = process >>= fun value => next value >>= last := by
  induction process with
  | done value => rfl
  | fault reason => rfl
  | act action rest induction => exact congrArg (Process.act action) induction
  | ask question rest induction => exact congrArg (Process.ask question) (funext induction)

variable {view : Projection source target}

/-- A part of a process is seen as that part of what is seen. -/
theorem project_bind (process : Process source Fault α) (next : α → Process source Fault β) :
    (process >>= next).project view =
      process.project view >>= fun value => (next value).project view := by
  induction process with
  | done value => rfl
  | fault reason => rfl
  | act action rest induction =>
      change (Process.act action (rest >>= next)).project view = _
      rw [project, project, induction]
      cases view.action action with
      | none => rfl
      | some seen => rfl
  | ask question rest induction =>
      change (Process.ask question fun reply => rest reply >>= next).project view = _
      rw [project, project]
      cases view.query question with
      | granted reply => exact induction reply
      | asked question back =>
          dsimp only
          rw [funext fun reply => induction (back reply)]
          rfl

/-- The replies taken for granted are those the surroundings give, and the others come
from what is seen of them. -/
structure Projection.Fits (view : Projection source target) (world : World source State)
    (outer : World target Outer) (seen : State → Outer) : Prop where
  granted : ∀ state question reply, view.query question = .granted reply →
    world.reply state question = reply ∧ seen (world.next state question) = seen state ∧
      view.action (source.record question reply) = none
  asked : ∀ state question other back, view.query question = .asked other back →
    world.reply state question = back (outer.reply (seen state) other) ∧
      seen (world.next state question) = outer.next (seen state) other ∧
      ∀ reply, view.action (source.record question (back reply)) =
        some (target.record other reply)

/-- The run of what is seen of a process is what is seen of its run. -/
theorem Projection.Fits.attend_project {world : World source State} {outer : World target Outer}
    {seen : State → Outer} (fits : view.Fits world outer seen) (process : Process source Fault α)
    (state : State) :
    attend outer (seen state) (process.project view) =
      ((attend world state process).1.filterMap view.action, (attend world state process).2) := by
  induction process generalizing state with
  | done value => rfl
  | fault reason => rfl
  | act action next induction =>
      rw [project, attend]
      cases shown : view.action action with
      | none => rw [List.filterMap_cons_none shown, ← induction]
      | some visible =>
          rw [List.filterMap_cons_some shown]
          dsimp only
          rw [attend, induction]
  | ask question next induction =>
      rw [project, attend]
      cases known : view.query question with
      | granted reply =>
          rcases fits.granted state question reply known with ⟨given, same, hidden⟩
          dsimp only
          rw [given, List.filterMap_cons_none hidden, ← induction, same]
      | asked other back =>
          rcases fits.asked state question other back known with ⟨given, moved, shown⟩
          dsimp only
          rw [given, List.filterMap_cons_some (shown _), attend, ← moved, induction]

end CardCode.Process
