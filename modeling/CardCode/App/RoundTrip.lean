import CardCode.App.Accepted
import CardCode.App.Again

/-! # Canonical source

Canonicalising parses a source text, projects it to cards and writes the cards
back. For a program the engine accepts, the result is always a text that can be
parsed again; it is the same program exactly when nothing but forms other than
`set!` stands in the place of a statement.
-/

namespace CardCode.App

/-- The text can be canonicalised, and the result is read as the same trees. -/
def RoundTrips (source : Text) : Prop :=
  ∃ ast canonical again, parseCardCode source = .ok ast ∧
    canonicalSource defaultManifest ast.children = .ok canonical ∧
    parseCardCode canonical = .ok again ∧
    again.children.map Expr.shape = ast.children.map Expr.shape

/-! ## What survives -/

def isList : Shape → Bool
  | .list _ => true
  | _ => false

/-- Which argument of a form is the first that stands in the place of a statement. -/
def firstStatement (name : String) (args : List Shape) : Nat :=
  if name = "do" then 0
  else if name = "repeat" || name = "when" || name = "while" || name = "if" then 1
  else if name = "define" && args.head?.any isList then 1
  else args.length

mutual

/-- The statement and the statements in it are forms other than `set!`. -/
def Shape.survives : Shape → Bool
  | .list (.symbol name :: args) =>
      name ≠ "set!" && survivesFrom (firstStatement name args) args
  | _ => false

def survivesFrom : Nat → List Shape → Bool
  | _, [] => true
  | 0, shape :: rest => Shape.survives shape && survivesFrom 0 rest
  | index + 1, _ :: rest => survivesFrom index rest

end

theorem survivesFrom_eq (index : Nat) (shapes : List Shape) :
    survivesFrom index shapes = (shapes.drop index).all Shape.survives := by
  induction shapes generalizing index with
  | nil => simp [survivesFrom]
  | cons shape rest induction =>
      cases index with
      | zero =>
          rw [survivesFrom, induction, List.drop_zero, List.drop_zero, List.all_cons]
      | succ index => rw [survivesFrom, induction, List.drop_succ_cons]

def survives (expr : Expr) : Bool :=
  expr.shape.survives

theorem all_survives (exprs : List Expr) :
    (exprs.map Expr.shape).all Shape.survives = exprs.all survives := by
  rw [List.all_map]
  rfl

theorem survives_form (name : String) (headSpan span : Span) (args : List Expr) :
    survives (.list (.symbol name headSpan :: args) span) =
      (decide (name ≠ "set!") &&
        (args.drop (firstStatement name (args.map Expr.shape))).all survives) := by
  rw [survives, shape_list, List.map_cons, shape_symbol, Shape.survives, survivesFrom_eq,
    ← List.map_drop, all_survives]

/-! ## Statements -/

section Lists

variable {name : String} {args : List Expr}

theorem isSymbol_of_shape {expr : Expr} {name : String} (shape : expr.shape = .symbol name) :
    isSymbol expr = true := by
  cases expr with
  | list children span =>
      rw [shape_list] at shape
      cases shape
  | integer raw span =>
      rw [shape_integer] at shape
      cases shape
  | symbol raw span => rfl

/-- The signature of a regular function has the form of one. -/
theorem isSignature_regular {children : List Expr} {span : Span}
    (regular : Regular (Expr.list children span).shape)
    (symbols : ∀ item ∈ children.map Expr.shape, ∃ param, item = .symbol param) :
    isSignature (.list children span) = true := by
  rcases regular_list regular with ⟨name, headSpan, params, rfl, -, -⟩
  rw [isSignature, List.all_eq_true]
  intro param member
  rcases symbols param.shape (List.mem_map_of_mem (List.mem_cons_of_mem _ member)) with
    ⟨name, shape⟩
  exact isSymbol_of_shape shape

/-- In a regular form the statements are where they are in its shape. -/
theorem leadingValues_regular (regular : ∀ arg ∈ args, Regular arg.shape)
    (form : FormRegular name (args.map Expr.shape)) :
    leadingValues name args = firstStatement name (args.map Expr.shape) := by
  rw [leadingValues, firstStatement, List.length_map]
  by_cases isIf : name = "if"
  · have count := form.branch isIf
    rw [List.length_map] at count
    rw [isIf, count]
    rfl
  · by_cases isDefine : name = "define"
    · have define := form.define isDefine
      rw [isDefine]
      cases args with
      | nil => rfl
      | cons target body =>
          cases target with
          | integer raw span => cases body <;> rfl
          | symbol raw span => cases body <;> rfl
          | list children span =>
              have signature : isSignature (.list children span) = true :=
                isSignature_regular (regular _ List.mem_cons_self)
                  (define (children.map Expr.shape) (by simp))
              cases body with
              | nil => simp [definesFunction, isList]
              | cons statement rest => simp [definesFunction, isList, signature]
    · simp [isIf, isDefine, or_assoc]

/-- A statement that is not a form loses its shape, whatever is read off its layout. -/
theorem atom_shape {expr read : Expr} {indent : Nat} {gap : Text}
    (notList : ∀ items, expr.shape ≠ .list items) (dead : survives expr = false)
    (reads : ReadsAs (statementLayout expr indent gap) read) :
    read.shape = expr.shape ↔ survives expr = true := by
  rw [statementLayout_eq] at reads
  rcases reads.group_eq with ⟨children, span, rfl, -⟩
  rw [dead, shape_list]
  constructor
  · intro same
    exact absurd same.symm (notList _)
  · intro alive
    cases alive

theorem isReserved_of_literal (target : String) (literal : isReservedLiteral target = true) :
    CardCode.isReserved target = true := by
  simp only [isReservedLiteral, Bool.or_eq_true, decide_eq_true_eq] at literal
  rcases literal with ((((((rfl | rfl) | rfl) | rfl) | rfl) | rfl) | rfl) | rfl <;> decide

/-- The name of an assignment is written as two words. -/
theorem assignment_layouts (form : FormRegular "set!" (args.map Expr.shape)) :
    args.length = 2 ∧ (bindingLayouts args).length = 3 := by
  rcases form.set rfl with ⟨target, valueShape, shapes, free⟩
  have count : args.length = 2 := by
    have lengths := congrArg List.length shapes
    rwa [List.length_map] at lengths
  refine ⟨count, ?_⟩
  rcases List.length_eq_two.mp count with ⟨name, value, rfl⟩
  have nameShape : name.shape = .symbol target := (List.cons.inj shapes).1
  have plain : isReservedLiteral target = false := by
    by_contra literal
    rw [isReserved_of_literal target (by simpa using literal)] at free
    cases free
  have object : nameLayouts name = objectLayouts := by
    cases name with
    | list children span => rfl
    | integer raw span =>
        rw [shape_integer] at nameShape
        cases nameShape
    | symbol raw span =>
        rw [shape_symbol, Shape.symbol.injEq] at nameShape
        rw [nameLayouts, nameShape, plain]
        rfl
  rw [bindingLayouts, object]
  rfl

/-- So an assignment is read back longer than it was. -/
theorem assignment_shape {headSpan span : Span} {read : Expr} {indent : Nat} {gap : Text}
    (form : FormRegular "set!" (args.map Expr.shape))
    (reads : ReadsAs (statementLayout (.list (.symbol "set!" headSpan :: args) span) indent gap)
      read) :
    read.shape ≠ (Expr.list (.symbol "set!" headSpan :: args) span).shape := by
  rcases assignment_layouts form with ⟨count, layouts⟩
  rw [statementLayout_eq, frontLayouts, if_pos rfl] at reads
  rcases reads.group_eq with ⟨children, readSpan, rfl, row⟩
  have length := row.length_eq
  rw [List.length_append, List.length_cons, layouts] at length
  intro same
  rw [shape_list, shape_list, Shape.list.injEq] at same
  have lengths := congrArg List.length same
  rw [List.length_map, List.length_map, List.length_cons, count] at lengths
  omega

/-- A form other than an assignment has its shape again when its statements have theirs. -/
theorem form_shape_iff {headSpan span : Span} {read : Expr} {indent : Nat} {gap : Text}
    (notSet : name ≠ "set!")
    (spelled : (Expr.list (.symbol name headSpan :: args) span).Spelled)
    (regular : ∀ arg ∈ args, Regular arg.shape) (form : FormRegular name (args.map Expr.shape))
    (each : ∀ arg ∈ args.drop (leadingValues name args), ∀ gap read,
      ReadsAs (statementLayout arg (indent + 1) gap) read →
        (read.shape = arg.shape ↔ survives arg = true))
    (reads : ReadsAs (statementLayout (.list (.symbol name headSpan :: args) span) indent gap)
      read) :
    read.shape = (Expr.list (.symbol name headSpan :: args) span).shape ↔
      survives (.list (.symbol name headSpan :: args) span) = true := by
  rw [statementLayout_eq, frontLayouts, if_neg notSet] at reads
  rcases reads.group_eq with ⟨children, readSpan, rfl, row⟩
  cases row with
  | @cons _ readHead _ others first rest =>
      rcases first.symbol_eq (spelled.child _ List.mem_cons_self) with ⟨readHeadSpan, rfl⟩
      rcases reads_append rest with ⟨front, back, rfl, fronts, backs⟩
      have values : front.map Expr.shape =
          (args.take (leadingValues name args)).map Expr.shape := by
        rw [valueLayouts_eq] at fronts
        refine (rows_again (reads_each fronts ?_)).1
        intro arg member read reads
        have inArgs := List.mem_of_mem_take member
        exact value_isAgain arg (spelled.child arg (List.mem_cons_of_mem _ inArgs))
          (headed_of_regular arg (regular arg inArgs)) _ read reads
      have statements : back.map Expr.shape =
          (args.drop (leadingValues name args)).map Expr.shape ↔
            (args.drop (leadingValues name args)).all survives = true := by
        apply rows_iff
        rw [lines, statementArgs] at backs
        apply reads_each backs
        intro arg member read reads
        exact each arg member _ read reads
      have split : args.map Expr.shape =
          (args.take (leadingValues name args)).map Expr.shape ++
            (args.drop (leadingValues name args)).map Expr.shape := by
        rw [← List.map_append, List.take_append_drop]
      rw [survives_form, ← leadingValues_regular regular form, decide_eq_true notSet,
        Bool.true_and, ← statements, shape_list, shape_list, Shape.list.injEq, List.map_cons,
        List.map_cons, shape_symbol, shape_symbol, List.cons.injEq, List.map_append, values, split,
        List.append_right_inj]
      exact and_iff_right rfl

end Lists

/-- What is read off the layout of a regular statement has its shape exactly when it survives. -/
theorem statement_shape_iff (expr : Expr) : expr.Spelled → Regular expr.shape →
    ∀ indent gap read, ReadsAs (statementLayout expr indent gap) read →
      (read.shape = expr.shape ↔ survives expr = true) := by
  induction expr using statement_induct with
  | step expr induction =>
      intro spelled regular indent gap read reads
      cases expr with
      | integer raw span => exact atom_shape (by simp) (by simp [survives, Shape.survives]) reads
      | symbol raw span => exact atom_shape (by simp) (by simp [survives, Shape.survives]) reads
      | list children span =>
          rcases regular_list regular with ⟨name, headSpan, args, rfl, regularArgs, form⟩
          by_cases assignment : name = "set!"
          · rw [assignment] at form reads ⊢
            exact iff_of_false (assignment_shape form reads) (by simp [survives_form])
          · apply form_shape_iff assignment spelled regularArgs form _ reads
            intro arg member gap read reads
            exact induction arg member (spelled.arg member)
              (regularArgs arg (List.mem_of_mem_drop member)) _ gap read reads

/-! ## Programs -/

theorem program_shape_iff {exprs reads : List Expr} (spelled : ∀ expr ∈ exprs, expr.Spelled)
    (regular : ∀ expr ∈ exprs, Regular expr.shape)
    (row : List.Forall₂ ReadsAs (programLayouts exprs) reads) :
    reads.map Expr.shape = exprs.map Expr.shape ↔ exprs.all survives = true := by
  apply rows_iff
  have each (expr : Expr) (member : expr ∈ exprs) (gap : Text) (read : Expr)
      (reads : ReadsAs (statementLayout expr 0 gap) read) :
      read.shape = expr.shape ↔ survives expr = true :=
    statement_shape_iff expr (spelled expr member) (regular expr member) 0 gap read reads
  cases exprs with
  | nil =>
      cases row with
      | nil => exact .nil
  | cons first rest =>
      rw [programLayouts] at row
      cases row with
      | cons head tail =>
          refine .cons (each first List.mem_cons_self _ _ head) (reads_each tail ?_)
          exact fun expr member => each expr (List.mem_cons_of_mem first member) _

/-- A text round trips where what is read off its layout has the shapes it had. -/
theorem roundTrips_reread {source : Text} {ast : ProgramAst}
    (parsed : parseCardCode source = .ok ast) :
    RoundTrips source ↔ (reread ast.children).map Expr.shape = ast.children.map Expr.shape := by
  have spelled := parsed_spelled parsed
  have written := canonicalSource_eq spelled
  rcases canonical_parses spelled with ⟨reparsed, parsedAgain, children⟩
  rw [← children]
  constructor
  · intro roundTrips
    rcases roundTrips with ⟨ast, text, second, parsedFirst, textWritten, parsedSecond, equal⟩
    rw [parsed] at parsedFirst
    cases parsedFirst
    rw [written] at textWritten
    cases textWritten
    rw [parsedAgain] at parsedSecond
    cases parsedSecond
    exact equal
  · intro equal
    exact ⟨ast, _, reparsed, parsed, written, parsedAgain, equal⟩

/-- Canonicalising an accepted program keeps it exactly when every expression that
stands in the place of a statement is a form other than `set!`. -/
theorem roundTrips_iff (program : Program) {source : Text}
    (encoded : program.source = utf8 source) {parsed : ParseResult}
    (parses : parse program.source = some parsed) :
    RoundTrips source ↔ ∀ raw ∈ parsed.exprs, (rawShape raw).survives = true := by
  rcases program.parses with ⟨again, built, found, clean, -⟩
  rw [parses] at found
  cases found
  rcases program.elaborates with ⟨again, found, -, elaborates⟩
  rw [parses] at found
  cases found
  rcases parse_reads parses clean with ⟨engineReading⟩
  rw [encoded] at engineReading
  rcases app_reads engineReading with ⟨reading⟩
  have read := parseCardCode_reads reading.bracketed reading.scans
  have shapes : (reading.trees.map (treeExpr source)).map Expr.shape =
      parsed.exprs.map rawShape := by
    rw [List.map_map, ← reading.shapes]
    exact List.map_congr_left fun tree _ => shape_treeExpr source tree
  have regular : ∀ expr ∈ reading.trees.map (treeExpr source), Regular expr.shape := by
    intro expr member
    have shape : expr.shape ∈ parsed.exprs.map rawShape := shapes ▸ List.mem_map_of_mem member
    rcases List.mem_map.mp shape with ⟨raw, present, same⟩
    rw [← same]
    exact program_regular elaborates raw present
  rw [roundTrips_reread read,
    program_shape_iff (parsed_spelled read) regular (reread_readsAs _), ← all_survives, shapes,
    List.all_map, List.all_eq_true]
  rfl

def assignmentSource : Text :=
  "(set! x 1)".toList

def assignmentProgram : Program :=
  (Program.ofSource? (utf8 assignmentSource)).get (by decide +kernel)

theorem assignment_roundTrips_iff :
    RoundTrips assignmentSource ↔
      ∀ raw ∈ ((parse assignmentProgram.source).get (by decide +kernel)).exprs,
        (rawShape raw).survives = true :=
  roundTrips_iff assignmentProgram (by decide +kernel) (Option.some_get _).symm

def Shape.itemCount : Shape → Nat
  | .list items => items.length
  | _ => 0

/-- The name of an assigned variable is written as `[object Object]`. -/
theorem assignment_not_roundTrips :
    ¬ ∀ (program : Program) (source : Text), program.source = utf8 source →
      RoundTrips source := by
  intro always
  rcases always assignmentProgram assignmentSource (by decide +kernel) with
    ⟨ast, canonical, again, parsed, written, parsedAgain, same⟩
  have read : ((parseCardCode assignmentSource).toOption.map fun ast =>
      ast.children.map fun expr => expr.shape.itemCount) = some [3] := by
    decide +kernel
  have writes : ((parseCardCode assignmentSource).toOption.bind fun ast =>
      (canonicalSource defaultManifest ast.children).toOption) =
        some "(set! [object Object] 1)".toList := by
    decide +kernel
  have readAgain : ((parseCardCode "(set! [object Object] 1)".toList).toOption.map fun ast =>
      ast.children.map fun expr => expr.shape.itemCount) = some [4] := by
    decide +kernel
  rw [parsed] at read writes
  change (canonicalSource defaultManifest ast.children).toOption = _ at writes
  rw [written] at writes
  cases writes
  rw [parsedAgain] at readAgain
  have counts := congrArg (List.map Shape.itemCount) same
  rw [List.map_map, List.map_map] at counts
  change some (again.children.map fun expr => expr.shape.itemCount) = some [4] at readAgain
  change some (ast.children.map fun expr => expr.shape.itemCount) = some [3] at read
  have equal := (Option.some.inj readAgain).symm.trans (counts.trans (Option.some.inj read))
  cases equal

end CardCode.App
