import CardCode.Compilation.WellFormed
import CardCode.Semantics.Entries

/-! # Function calls

On a sound tree every call finds its function and hands it as many values as it
has parameters.
-/

namespace CardCode

/-- An entry that is no failed look-up and no call with a wrong number of values. -/
def Action.Matches : Action → Prop
  | .emit .nodeError node message => message ≠ "undefined function '" ++ node.op ++ "'"
  | .mark (.enterCall function values) => values.length = function.params.length
  | _ => True

def Trace.Matches (trace : Trace) : Prop :=
  ∀ entry ∈ trace, entry.Matches

/-- The functions of a table are sound trees with the parameters their callers
expect, and every name of the arity table is there. -/
structure CallTable (arity : ArityTable) (env : Env) : Prop where
  sound : ∀ name function, env.functions name = some function → function.Sound arity
  arity : ∀ name, (env.functions name).map (fun function => function.params.length) =
    arity.lookup name

theorem CallTable.inherited {arity : ArityTable} {env : Env} (table : CallTable arity env) :
    Inherited env (Node.Sound arity) where
  part := fun _ _ sound member => sound.part member
  call := fun node function _ _ found => table.sound node.op function found

theorem complaint_ne_undefined {node : Node} {message : String}
    (listed : message ∈ complaints node) :
    message ≠ "undefined function '" ++ node.op ++ "'" := by
  have start : message.toList.take 11 ≠ "undefined f".toList := by
    simp only [complaints, List.mem_cons, List.not_mem_nil, or_false] at listed
    rcases listed with rfl | rfl | rfl | rfl | rfl | rfl | rfl | rfl | rfl | rfl | rfl |
      rfl | rfl | rfl | rfl | rfl | rfl
    all_goals simp [String.toList_append]
  intro equal
  rw [equal] at start
  simp [String.toList_append] at start

/-- No node of a sound tree fails to find a function or miscounts its values. -/
theorem Leaves.matches {env : Env} {arity : ArityTable} (table : CallTable arity env)
    {node : Node} {entry : Action} (sound : node.Sound arity)
    (leaves : Leaves env node entry) : entry.Matches := by
  cases leaves with
  | complained listed => exact complaint_ne_undefined listed
  | undefined kind missing =>
      have known := table.arity node.op
      rw [missing, sound.fits.call kind] at known
      cases known
  | @entered function values kind found count =>
      have known := table.arity node.op
      rw [found, sound.fits.call kind, Option.map_some, Option.some.injEq] at known
      exact count.trans known.symm
  | issued issues member =>
      cases issues with
      | nothing => cases member
      | command => rw [List.mem_singleton.mp member]; trivial
      | sensor => rw [List.mem_singleton.mp member]; trivial
  | polled | started | done | skipped | iterated | repeated | combining | combined | computed
  | left =>
      trivial

end CardCode
