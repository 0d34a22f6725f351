import CardCode.Compilation.Elaboration

/-! # Accepted programs

How the root of an accepted program arises from its top-level expressions, in
the three ways `compile` has: an explicit `do`, a single statement, and the `do`
that several statements are put under.
-/

namespace CardCode

/-- The expressions functions may be defined by. -/
def topForms (exprs : List RawExpr) : List RawExpr :=
  match singleDo? exprs with
  | some (_, items) => items
  | none => exprs

/-- The function names and parameter counts `compile` checks calls against. -/
def programArity (exprs : List RawExpr) : ArityTable :=
  (collectArity (topForms exprs) []).value

/-- A top-level expression's entry in the arity table. -/
def arityOf? (top : RawExpr) : Option (String × Nat) :=
  (signature? top).map Prod.snd

inductive ElaboratesProgram (arity : ArityTable) : List RawExpr → Node → Prop
  | explicit {id span headSpan items children} :
      ElaboratesAll arity true items children →
      ElaboratesProgram arity [.list span (.symbol headSpan "do" :: items)]
        { id, kind := .doForm, span, op := "do", children }
  | single {top node} :
      singleDo? [top] = none → Elaborates arity top true node →
      ElaboratesProgram arity [top] node
  | implicit {id first second rest children} :
      ElaboratesAll arity true (first :: second :: rest) children →
      ElaboratesProgram arity (first :: second :: rest)
        { id, kind := .doForm, span := spanOfTops first (first :: second :: rest),
          op := "do", children }

/-! ## The arity table -/

theorem collectArity_entries {items : List RawExpr} {table : ArityTable}
    (clean : (collectArity items table).Clean) :
    (collectArity items table).value = table ++ items.filterMap arityOf? := by
  induction items generalizing table with
  | nil => simp [collectArity]
  | cons top rest induction =>
      rw [collectArity] at clean ⊢
      cases entry : signature? top with
      | none =>
          simp only [entry] at clean ⊢
          rw [induction clean, List.filterMap_cons_none (by simp [arityOf?, entry])]
      | some found =>
          rcases found with ⟨nameSpan, name, count⟩
          simp only [entry] at clean ⊢
          split at clean
          · simp at clean
          next fresh =>
            rw [if_neg fresh, induction clean,
              List.filterMap_cons_some (by rw [arityOf?, entry]; rfl)]
            simp

theorem collectArity_nodup {items : List RawExpr} {table : ArityTable}
    (clean : (collectArity items table).Clean) (nodup : (table.map Prod.fst).Nodup) :
    ((collectArity items table).value.map Prod.fst).Nodup := by
  induction items generalizing table with
  | nil => exact nodup
  | cons top rest induction =>
      rw [collectArity] at clean ⊢
      cases entry : signature? top with
      | none =>
          simp only [entry] at clean ⊢
          exact induction clean nodup
      | some found =>
          rcases found with ⟨nameSpan, name, count⟩
          simp only [entry] at clean ⊢
          split at clean
          · simp at clean
          next fresh =>
            rw [if_neg fresh]
            apply induction clean
            have absent : name ∉ table.map Prod.fst := by
              intro member
              rcases List.mem_map.mp member with ⟨pair, present, equal⟩
              have none := List.lookup_eq_none_iff.mp (Option.not_isSome_iff_eq_none.mp fresh)
              exact absurd (none pair present) (by simp [equal])
            rw [List.map_append, List.nodup_append]
            refine ⟨nodup, by simp, ?_⟩
            intro first firstMember second secondMember equal
            rw [List.map_singleton, List.mem_singleton] at secondMember
            have same : first = name := equal.trans secondMember
            exact absent (same ▸ firstMember)

/-! ## The root -/

theorem compileTops_elaborates {arity : ArityTable} {items : List RawExpr}
    (clean : (compileTops arity items).Clean) :
    ElaboratesAll arity true items (compileTops arity items).value := by
  induction items with
  | nil => exact ⟨rfl, fun _ member => nomatch member⟩
  | cons top rest induction =>
      simp only [compileTops, clean_bind, clean_pure, and_true] at clean
      rcases compileExpr_elaborates arity top true clean.1 with ⟨node, found, elaborates⟩
      have value : (compileTops arity (top :: rest)).value =
          node :: (compileTops arity rest).value := by
        simp [compileTops, found]
      rw [value]
      exact (induction clean.2).cons elaborates

theorem singleDo?_eq_some {exprs : List RawExpr} {span : SourceSpan} {items : List RawExpr}
    (found : singleDo? exprs = some (span, items)) :
    ∃ headSpan, exprs = [.list span (.symbol headSpan "do" :: items)] := by
  unfold singleDo? at found
  split at found
  next span headSpan items =>
    cases found
    exact ⟨headSpan, rfl⟩
  next => cases found

/-- An error-free compilation of at least one expression has a root, built as
`ElaboratesProgram` says. -/
theorem compileExprs_elaborates {first : RawExpr} {rest : List RawExpr}
    (clean : (compileExprs first (first :: rest)).Clean) :
    (collectArity (topForms (first :: rest)) []).Clean ∧
      ∃ root, (compileExprs first (first :: rest)).value = some root ∧
        ElaboratesProgram (programArity (first :: rest)) (first :: rest) root := by
  unfold compileExprs programArity topForms at *
  cases shape : singleDo? (first :: rest) with
  | some found =>
      rcases found with ⟨span, items⟩
      simp only [shape, clean_bind, clean_pure, and_true] at clean ⊢
      rcases singleDo?_eq_some shape with ⟨headSpan, equal⟩
      rw [equal]
      exact ⟨clean.1, _, rfl, .explicit (compileTops_elaborates clean.2)⟩
  | none =>
      simp only [shape, clean_bind] at clean ⊢
      have all := compileTops_elaborates clean.2.1
      refine ⟨clean.1, ?_⟩
      cases rest with
      | nil =>
          rcases List.length_eq_one_iff.mp all.1.symm with ⟨node, only⟩
          rw [only] at all
          refine ⟨node, ?_, .single shape (all.2 (first, node) (by simp))⟩
          simp [only]
      | cons second rest => exact ⟨_, rfl, .implicit all⟩

theorem ElaboratesProgram.numbered {arity : ArityTable} {exprs : List RawExpr} {root : Node}
    (elaborates : ElaboratesProgram arity exprs root) (next : UInt32) :
    ElaboratesProgram arity exprs (root.assignPreorder next).1 := by
  cases elaborates with
  | explicit all =>
      exact .explicit (numberedAll_elaborates all.1
        (fun pair member => (all.2 pair member).numbered) _)
  | single shape node => exact .single shape (node.numbered next)
  | implicit all =>
      exact .implicit (numberedAll_elaborates all.1
        (fun pair member => (all.2 pair member).numbered) _)

/-- What `compile` returns without an error has a root, built as
`ElaboratesProgram` says from the parsed expressions. -/
theorem compile_elaborates {source : Bytes} {parsed : ParseResult} {result : CompileResult}
    (parses : parse source = some parsed) (compiles : compile source = some result)
    (clean : hasErrors result.diagnostics = false) :
    (collectArity (topForms parsed.exprs) []).Clean ∧
      ∃ root, result.root = some root ∧
        ElaboratesProgram (programArity parsed.exprs) parsed.exprs root := by
  rw [compile, parses] at compiles
  cases compiles
  cases exprs : parsed.exprs with
  | nil =>
      simp only [exprs] at clean
      split at clean
      next failed => rw [clean] at failed; cases failed
      next => simp [hasErrors] at clean
  | cons first rest =>
      simp only [exprs, hasErrors_append, Bool.or_eq_false_iff] at clean
      rcases compileExprs_elaborates clean.2 with ⟨table, root, found, elaborates⟩
      refine ⟨table, assignNodeIds root, ?_, elaborates.numbered 0⟩
      simp [exprs, found]

/-- The expressions a program was parsed from. -/
theorem Program.elaborates (program : Program) :
    ∃ parsed, parse program.source = some parsed ∧
      (collectArity (topForms parsed.exprs) []).Clean ∧
      ElaboratesProgram (programArity parsed.exprs) parsed.exprs program.root := by
  cases parses : parse program.source with
  | none =>
      have compiled := program.compiled
      rw [compile, parses] at compiled
      cases compiled
  | some parsed =>
      rcases compile_elaborates parses program.compiled program.accepted with
        ⟨table, root, found, elaborates⟩
      cases found
      exact ⟨parsed, rfl, table, elaborates⟩

end CardCode
