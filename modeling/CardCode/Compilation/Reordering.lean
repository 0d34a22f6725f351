import CardCode.Compilation.Relocation
import CardCode.Compilation.WellFormed
import Mathlib.Data.List.Nodup

/-! # Function definitions in another order

The compiler reads the arity table before it compiles a form, and by name: a program is
accepted, and its forms become the same nodes, wherever among them the functions are
defined.
-/

namespace CardCode

/-! ## Reorderings -/

def definesFunction (form : RawExpr) : Bool :=
  (signature? form).isSome

/-- The same forms, those that define no function in the same order. -/
structure Reorders (forms other : List RawExpr) : Prop where
  perm : forms.Perm other
  order : (other.filter fun form => !definesFunction form) =
    forms.filter fun form => !definesFunction form

/-! ## The arity table -/

theorem collectArity_clean {items : List RawExpr} {table : ArityTable}
    (nodup : (table.map Prod.fst ++ (items.filterMap arityOf?).map Prod.fst).Nodup) :
    (collectArity items table).Clean := by
  induction items generalizing table with
  | nil => exact clean_pure table
  | cons top rest induction =>
      rw [collectArity]
      cases entry : signature? top with
      | none =>
          rw [List.filterMap_cons_none (by rw [arityOf?, entry]; rfl)] at nodup
          exact induction nodup
      | some found =>
          rcases found with ⟨nameSpan, name, count⟩
          rw [List.filterMap_cons_some (by rw [arityOf?, entry]; rfl)] at nodup
          have fresh : ¬ (table.lookup name).isSome = true := by
            intro known
            rcases Option.isSome_iff_exists.mp known with ⟨other, found⟩
            rcases List.lookup_eq_some_iff.mp found with ⟨before, after, equal, -⟩
            have member : name ∈ table.map Prod.fst :=
              List.mem_map.mpr ⟨(name, other), by rw [equal]; simp, rfl⟩
            exact (List.nodup_append.mp nodup).2.2 name member name
              (by rw [List.map_cons]; exact List.mem_cons_self) rfl
          dsimp only
          rw [if_neg fresh]
          apply induction
          rw [List.map_append, List.map_singleton, List.append_assoc]
          exact nodup

/-- A table of distinct names is the same to a reader in any order. -/
theorem lookup_perm {table other : ArityTable} (perm : table.Perm other)
    (nodup : (table.map Prod.fst).Nodup) (name : String) :
    other.lookup name = table.lookup name := by
  have known {first second : ArityTable} (perm : first.Perm second)
      (nodup : (second.map Prod.fst).Nodup) {count : Nat} (found : first.lookup name = some count) :
      second.lookup name = some count := by
    rcases List.lookup_eq_some_iff.mp found with ⟨before, after, equal, -⟩
    apply lookup_of_mem nodup
    rw [← perm.mem_iff, equal]
    simp
  have otherNodup : (other.map Prod.fst).Nodup := (perm.map Prod.fst).nodup_iff.mp nodup
  cases found : table.lookup name with
  | some count => exact known perm otherNodup found
  | none =>
      cases otherFound : other.lookup name with
      | none => rfl
      | some count =>
          rw [known perm.symm nodup otherFound] at found
          cases found

/-! ## Forms -/

/-- The compiler reads the arity table by name. -/
theorem compileExpr_lookup {arity other : ArityTable}
    (same : ∀ name, other.lookup name = arity.lookup name) :
    ∀ (raw : RawExpr) (topLevel : Bool),
      compileExpr other raw topLevel = compileExpr arity raw topLevel := by
  have operands {items : List RawExpr}
      (each : ∀ item ∈ items, compileExpr other item false = compileExpr arity item false) :
      operandsOf other items = operandsOf arity items := by
    induction items with
    | nil => rw [operandsOf, operandsOf]
    | cons item rest induction =>
        rw [operandsOf, operandsOf, each item List.mem_cons_self,
          induction fun inner member => each inner (List.mem_cons_of_mem _ member)]
  apply RawExpr.induct
  · intro span items induction topLevel
    cases items with
    | nil => rw [compileExpr, compileExpr]
    | cons head args =>
        cases head with
        | symbol headSpan op =>
            rw [compileExpr, compileExpr, operands fun item member =>
              induction item (List.mem_cons_of_mem _ member) false, compileForm.eq_def,
              compileForm.eq_def, compileCall, compileCall, same]
        | list headSpan inner => rw [compileExpr.eq_def, compileExpr.eq_def]
        | integer headSpan value => rw [compileExpr.eq_def, compileExpr.eq_def]
  · intro span name topLevel
    rw [compileExpr, compileExpr]
  · intro span value topLevel
    rw [compileExpr, compileExpr]

/-- The node of a top-level form, where there is one. -/
def topNodes (arity : ArityTable) (top : RawExpr) : List Node :=
  (compileExpr arity top true).value.toList

theorem compileTops_value (arity : ArityTable) (items : List RawExpr) :
    (compileTops arity items).value = items.flatMap (topNodes arity) := by
  induction items with
  | nil => rfl
  | cons top rest induction =>
      rw [List.flatMap_cons, ← induction]
      rfl

theorem compileTops_clean_iff (arity : ArityTable) (items : List RawExpr) :
    (compileTops arity items).Clean ↔ ∀ top ∈ items, (compileExpr arity top true).Clean := by
  induction items with
  | nil => simp [compileTops]
  | cons top rest induction =>
      simp [compileTops, induction]

/-- A form that is compiled without an error becomes one node, a definition exactly where
the form defines a function. -/
theorem topNodes_eq {arity : ArityTable} {top : RawExpr}
    (clean : (compileExpr arity top true).Clean) :
    ∃ node, topNodes arity top = [node] ∧
      arityOf? top =
        if node.kind = .defineFunc then some (node.op, node.params.length) else none := by
  rcases compileExpr_elaborates arity top true clean with ⟨node, found, elaborates⟩
  refine ⟨node, ?_, elaborates.arityOf⟩
  rw [topNodes, found]
  rfl

/-- The nodes of a sequence that define no function. -/
def statements (nodes : List Node) : List Node :=
  nodes.filter fun node => node.kind ≠ .defineFunc

def definitions (nodes : List Node) : List Node :=
  nodes.filter fun node => node.kind = .defineFunc

section Tops

variable {arity : ArityTable} {items : List RawExpr}

theorem statements_tops (clean : ∀ top ∈ items, (compileExpr arity top true).Clean) :
    statements (items.flatMap (topNodes arity)) =
      (items.filter fun form => !definesFunction form).flatMap (topNodes arity) := by
  induction items with
  | nil => rfl
  | cons top rest induction =>
      have tail := induction fun other member => clean other (List.mem_cons_of_mem _ member)
      rcases topNodes_eq (clean top List.mem_cons_self) with ⟨node, found, entry⟩
      have defines : definesFunction top = (arityOf? top).isSome := by
        rw [arityOf?, Option.isSome_map]
        rfl
      rw [List.flatMap_cons, found, List.singleton_append, List.filter_cons, defines, entry]
      by_cases kind : node.kind = .defineFunc
      · rw [statements, List.filter_cons_of_neg (by simpa using kind), ← statements, tail,
          if_pos kind]
        rfl
      · rw [statements, List.filter_cons_of_pos (by simpa using kind), ← statements, tail,
          if_neg kind, if_pos (by rfl), List.flatMap_cons, found]
        rfl

theorem definitions_tops (clean : ∀ top ∈ items, (compileExpr arity top true).Clean) :
    (definitions (items.flatMap (topNodes arity))).map Node.op =
      (items.filterMap arityOf?).map Prod.fst := by
  induction items with
  | nil => rfl
  | cons top rest induction =>
      have tail := induction fun other member => clean other (List.mem_cons_of_mem _ member)
      rcases topNodes_eq (clean top List.mem_cons_self) with ⟨node, found, entry⟩
      rw [List.flatMap_cons, found, List.singleton_append]
      by_cases kind : node.kind = .defineFunc
      · rw [if_pos kind] at entry
        rw [definitions, List.filter_cons_of_pos (by simpa using kind), ← definitions,
          List.map_cons, tail, List.filterMap_cons_some entry, List.map_cons]
      · rw [if_neg kind] at entry
        rw [definitions, List.filter_cons_of_neg (by simpa using kind), ← definitions, tail,
          List.filterMap_cons_none entry]

end Tops

/-! ## The function table -/

/-- Functions of different names are collected in any order. -/
theorem collected_perm {nodes other : List Node} (perm : nodes.Perm other)
    (nodup : ((definitions nodes).map Node.op).Nodup) (table : String → Option Node) :
    nodes.foldl collectFunction table = other.foldl collectFunction table := by
  apply perm.foldl_eq'
  intro first firstMember second secondMember table
  by_cases firstKind : first.kind = .defineFunc
  · by_cases secondKind : second.kind = .defineFunc
    · by_cases same : first.op = second.op
      · have listed {node : Node} (member : node ∈ nodes) (kind : node.kind = .defineFunc) :
            node ∈ definitions nodes := List.mem_filter.mpr ⟨member, by simpa using kind⟩
        rw [List.inj_on_of_nodup_map nodup (listed firstMember firstKind)
          (listed secondMember secondKind) same]
      · funext name
        simp only [collectFunction, firstKind, secondKind, if_true]
        split_ifs with isSecond isFirst
        · exact absurd (isFirst.symm.trans isSecond) same
        · rfl
        · rfl
        · rfl
    · simp only [collectFunction, secondKind, if_false]
  · simp only [collectFunction, firstKind, if_false]

theorem heightAll_perm {nodes other : List Node} (perm : nodes.Perm other) :
    Node.heightAll nodes = Node.heightAll other := by
  induction perm with
  | nil => rfl
  | cons node _ induction => rw [Node.heightAll, Node.heightAll, induction]
  | swap first second rest =>
      simp only [Node.heightAll]
      omega
  | trans _ _ first second => exact first.trans second

/-! ## Programs of several forms -/

/-- Several forms, at the top or under a single explicit `do`, are the children of a `do`. -/
theorem compileExprs_several (first : RawExpr) {exprs : List RawExpr}
    (several : 2 ≤ (topForms exprs).length) :
    ∃ span, compileExprs first exprs =
      ⟨some
        { kind := .doForm, span, op := "do",
          children :=
            (compileTops (collectArity (topForms exprs) []).value (topForms exprs)).value },
        (collectArity (topForms exprs) []).diagnostics ++
          (compileTops (collectArity (topForms exprs) []).value (topForms exprs)).diagnostics⟩ := by
  rw [topForms] at several ⊢
  rw [compileExprs]
  cases shape : singleDo? exprs with
  | some found =>
      rcases found with ⟨span, items⟩
      refine ⟨span, ?_⟩
      change Compile.mk _ (_ ++ (_ ++ [])) = _
      rw [List.append_nil]
      rfl
  | none =>
      rw [shape] at several
      have many : exprs.length ≠ 1 := by
        dsimp only at several
        omega
      refine ⟨spanOfTops first exprs, ?_⟩
      simp only [if_neg many]
      change Compile.mk _ (_ ++ (_ ++ [])) = _
      rw [List.append_nil]
      rfl

/-- What stays the same under a reordering: the program is accepted, its statements are
the same, and so is its table of functions. -/
structure SameTops (nodes other : List Node) : Prop where
  perm : nodes.Perm other
  statements : statements other = statements nodes
  functions : ((definitions nodes).map Node.op).Nodup

theorem Reorders.tops {forms other : List RawExpr} (reorders : Reorders forms other)
    (arityClean : (collectArity forms []).Clean)
    (clean : (compileTops (collectArity forms []).value forms).Clean) :
    (collectArity other []).Clean ∧
      (compileTops (collectArity other []).value other).Clean ∧
      SameTops (compileTops (collectArity forms []).value forms).value
        (compileTops (collectArity other []).value other).value := by
  have entries := collectArity_entries arityClean
  have nodup := collectArity_nodup arityClean List.nodup_nil
  rw [List.nil_append] at entries
  rw [entries] at nodup
  have tables := reorders.perm.filterMap arityOf?
  have otherNodup : ((other.filterMap arityOf?).map Prod.fst).Nodup :=
    (tables.map Prod.fst).nodup_iff.mp nodup
  have otherClean : (collectArity other []).Clean := collectArity_clean otherNodup
  have otherEntries := collectArity_entries otherClean
  rw [List.nil_append] at otherEntries
  have same (name : String) :
      (collectArity other []).value.lookup name = (collectArity forms []).value.lookup name := by
    rw [otherEntries, entries]
    exact lookup_perm tables nodup name
  have compiled := compileExpr_lookup same
  have each := (compileTops_clean_iff _ _).mp clean
  have otherEach : ∀ top ∈ other,
      (compileExpr (collectArity forms []).value top true).Clean :=
    fun top member => each top (reorders.perm.mem_iff.mpr member)
  have nodes : topNodes (collectArity other []).value = topNodes (collectArity forms []).value := by
    funext top
    rw [topNodes, compiled, topNodes]
  refine ⟨otherClean, ?_, ?_⟩
  · rw [compileTops_clean_iff]
    intro top member
    rw [compiled]
    exact otherEach top member
  · rw [compileTops_value, compileTops_value, nodes]
    constructor
    · exact reorders.perm.flatMap_right _
    · rw [statements_tops each, statements_tops otherEach, reorders.order]
    · rw [definitions_tops each]
      exact nodup

/-! ## Accepted programs -/

/-- The forms of a text, wherever they stand. -/
def bareForms (exprs : List RawExpr) : List RawExpr :=
  exprs.map (RawExpr.relabel .withoutLabels)

theorem bareForms_topForms (exprs : List RawExpr) :
    bareForms (topForms exprs) = topForms (bareForms exprs) := by
  rw [topForms, topForms, bareForms, bareForms, singleDo?_relabel]
  cases singleDo? exprs with
  | none => rfl
  | some found => rfl

/-- The tree several forms are compiled to, wherever they stand. -/
def bareRoot (forms : List RawExpr) : Node where
  kind := .doForm
  span := {}
  op := "do"
  children := (compileTops (collectArity forms []).value forms).value

theorem relabelAll_assignPreorderAll {nodes : List Node}
    (parts : ∀ node ∈ nodes, ∀ next,
      (node.assignPreorder next).1.relabel .withoutLabels = node.relabel .withoutLabels)
    (next : UInt32) :
    (Node.assignPreorderAll nodes next).1.map (Node.relabel .withoutLabels) =
      nodes.map (Node.relabel .withoutLabels) := by
  induction nodes generalizing next with
  | nil => rfl
  | cons node rest induction =>
      have tail := induction fun other member => parts other (List.mem_cons_of_mem _ member)
      rw [Node.assignPreorderAll, List.map_cons, List.map_cons, parts node List.mem_cons_self, tail]

theorem relabel_assignPreorder : ∀ (node : Node) (next : UInt32),
    (node.assignPreorder next).1.relabel .withoutLabels = node.relabel .withoutLabels := by
  apply Node.induct
  intro node parts next
  rcases node with ⟨id, kind, span, op, args, children, nums, params⟩
  have below : ∀ part ∈ args ++ children, ∀ next,
      (part.assignPreorder next).1.relabel .withoutLabels = part.relabel .withoutLabels := parts
  rw [Node.assignPreorder, Node.relabel_eq, Node.relabel_eq]
  dsimp only
  rw [relabelAll_assignPreorderAll fun part member => below part (List.mem_append_left _ member),
    relabelAll_assignPreorderAll fun part member => below part (List.mem_append_right _ member)]
  rfl

/-- Without labels, the compiler sees nothing but the forms. -/
theorem compileExprs_bare (first : RawExpr) {exprs : List RawExpr}
    (several : 2 ≤ (topForms exprs).length) :
    ∃ span, compileExprs (first.relabel .withoutLabels) (bareForms exprs) =
      ⟨some { bareRoot (bareForms (topForms exprs)) with span },
        (collectArity (bareForms (topForms exprs)) []).diagnostics ++
          (compileTops (collectArity (bareForms (topForms exprs)) []).value
            (bareForms (topForms exprs))).diagnostics⟩ := by
  have bareSeveral : 2 ≤ (topForms (bareForms exprs)).length := by
    rw [← bareForms_topForms, bareForms, List.length_map]
    exact several
  rw [bareForms_topForms]
  exact compileExprs_several _ bareSeveral

theorem bare_clean_iff {first : RawExpr} {exprs : List RawExpr}
    (several : 2 ≤ (topForms exprs).length) :
    (compileExprs first exprs).Clean ↔
      (collectArity (bareForms (topForms exprs)) []).Clean ∧
        (compileTops (collectArity (bareForms (topForms exprs)) []).value
          (bareForms (topForms exprs))).Clean := by
  have moved : compileExprs (first.relabel .withoutLabels) (bareForms exprs) = Compile.mk _ _ :=
    compileExprs_moves .withoutLabels first exprs
  rcases compileExprs_bare first several with ⟨span, bare⟩
  rw [bare] at moved
  have diagnostics := congrArg (fun compiled => hasErrors compiled.diagnostics) moved
  dsimp only at diagnostics
  rw [hasErrors_append, hasErrors_relabel] at diagnostics
  rw [Compile.Clean, Compile.Clean, Compile.Clean, ← diagnostics, Bool.or_eq_false_iff]

theorem compileParsed_several {parsed : ParseResult}
    (several : 2 ≤ (topForms parsed.exprs).length) :
    ∃ first, compileParsed parsed =
      { root := (compileExprs first parsed.exprs).value.map assignNodeIds
        diagnostics := parsed.diagnostics ++ (compileExprs first parsed.exprs).diagnostics } := by
  rcases parsed with ⟨exprs, diagnostics⟩
  cases exprs with
  | nil => exact absurd several (by simp [topForms, singleDo?])
  | cons first rest => exact ⟨first, rfl⟩

/-- Ids and spans apart, the tree of a program of several forms is that of its forms. -/
theorem Program.root_bare {program : Program} {parsed : ParseResult}
    (parses : parse program.source = some parsed) (several : 2 ≤ (topForms parsed.exprs).length) :
    (collectArity (bareForms (topForms parsed.exprs)) []).Clean ∧
      (compileTops (collectArity (bareForms (topForms parsed.exprs)) []).value
        (bareForms (topForms parsed.exprs))).Clean ∧
      program.root.relabel .withoutLabels = bareRoot (bareForms (topForms parsed.exprs)) := by
  rcases compileParsed_several several with ⟨first, result⟩
  have compiled := program.compiled
  rw [compile_eq, parses, Option.map_some, result] at compiled
  rcases CompileResult.mk.inj (Option.some.inj compiled) with ⟨root, diagnostics⟩
  have clean : (compileExprs first parsed.exprs).Clean := by
    have accepted := program.accepted
    rw [← diagnostics, hasErrors_append, Bool.or_eq_false_iff] at accepted
    exact accepted.2
  rcases (bare_clean_iff several).mp clean with ⟨arityClean, topsClean⟩
  refine ⟨arityClean, topsClean, ?_⟩
  rcases Option.map_eq_some_iff.mp root with ⟨built, value, numbered⟩
  have moved : compileExprs (first.relabel .withoutLabels) (bareForms parsed.exprs) =
      Compile.mk _ _ := compileExprs_moves .withoutLabels first parsed.exprs
  rcases compileExprs_bare first several with ⟨span, compiledBare⟩
  rw [compiledBare, value] at moved
  have bare := Option.some.inj (congrArg Compile.value moved)
  have spanless : (built.relabel .withoutLabels).span = {} := Node.relabel_span _ built
  rw [← bare] at spanless
  change span = {} at spanless
  rw [← numbered, assignNodeIds, relabel_assignPreorder, ← bare, spanless]
  rfl

theorem exists_program {source : Bytes} {parsed : ParseResult} (parses : parse source = some parsed)
    (clean : hasErrors parsed.diagnostics = false) (several : 2 ≤ (topForms parsed.exprs).length)
    (arityClean : (collectArity (bareForms (topForms parsed.exprs)) []).Clean)
    (topsClean : (compileTops (collectArity (bareForms (topForms parsed.exprs)) []).value
      (bareForms (topForms parsed.exprs))).Clean) :
    ∃ program : Program, program.source = source := by
  rcases compileParsed_several several with ⟨first, result⟩
  have compiles : compile source = some (compileParsed parsed) := by
    rw [compile_eq, parses]
    rfl
  have accepted : (compileExprs first parsed.exprs).Clean :=
    (bare_clean_iff several).mpr ⟨arityClean, topsClean⟩
  rcases compileExprs_several first several with ⟨span, built⟩
  have value := congrArg Compile.value built
  rw [result, value, Option.map_some] at compiles
  have noErrors : hasErrors (parsed.diagnostics ++
      (compileExprs first parsed.exprs).diagnostics) = false := by
    rw [hasErrors_append, clean]
    exact accepted
  exact ⟨⟨source, _, _, compiles, noErrors⟩, rfl⟩

end CardCode
