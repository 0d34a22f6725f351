import CardCode.Compilation.WellFormed
import CardCode.Syntax.Totality

/-! # Reading the typed tree back

`Node.toRaw` writes a node as the expression it stands for. The tree keeps no
spans for head symbols, defined names and parameter lists; they are read back
with the span of the list around them, and `RawExpr.normalize` gives the parsed
expression the same spans there.
-/

namespace CardCode

namespace RawExpr

/-- A name with the span of the list around it. -/
def rename (span : SourceSpan) : RawExpr → RawExpr
  | .symbol _ name => .symbol span name
  | other => other

/-- The target of a `define` or `set!`, its names with the span of the list. -/
def retarget (span : SourceSpan) : RawExpr → RawExpr
  | .list _ items => .list span (items.map (rename span))
  | other => other.rename span

/-- The items of a list, without the spans a node does not keep. -/
def renameItems (span : SourceSpan) : List RawExpr → List RawExpr
  | .symbol _ head :: target :: rest =>
      .symbol span head ::
        (if head = "define" || head = "set!" then target.retarget span else target) :: rest
  | [head] => [head.rename span]
  | items => items

mutual

/-- The expression without the spans the typed tree does not keep. -/
def normalize : RawExpr → RawExpr
  | .list span items => .list span (renameItems span (normalizeAll items))
  | .symbol span name => .symbol span name
  | .integer span value => .integer span value

def normalizeAll : List RawExpr → List RawExpr
  | [] => []
  | item :: rest => item.normalize :: normalizeAll rest

end

theorem normalizeAll_eq (items : List RawExpr) : normalizeAll items = items.map normalize := by
  induction items with
  | nil => rfl
  | cons item rest induction => rw [normalizeAll, List.map_cons, induction]

end RawExpr

namespace Node

mutual

/-- The expression a node stands for. -/
def toRaw : Node → RawExpr
  | ⟨_, kind, span, op, args, children, nums, params⟩ =>
      match kind with
      | .integerLiteral => .integer span (nums.head?.getD 0)
      | .booleanLiteral => .symbol span (if nums.head? = some 0 then "false" else "true")
      | .colorLiteral => .symbol span (Color.ofOrdinal (nums.head?.getD 0)).name
      | .varRef => .symbol span op
      | .defineVar => .list span (.symbol span "define" :: .symbol span op :: toRawAll args)
      | .setVar => .list span (.symbol span "set!" :: .symbol span op :: toRawAll args)
      | .defineFunc =>
          .list span (.symbol span "define" ::
            .list span (.symbol span op :: params.map (.symbol span)) :: toRawAll children)
      | _ => .list span (.symbol span op :: toRawAll args ++ toRawAll children)

def toRawAll : List Node → List RawExpr
  | [] => []
  | node :: rest => node.toRaw :: toRawAll rest

end

theorem toRawAll_eq (nodes : List Node) : toRawAll nodes = nodes.map toRaw := by
  induction nodes with
  | nil => rfl
  | cons node rest induction => rw [toRawAll, List.map_cons, induction]

end Node

/-! ## Reading back an elaborated node -/

theorem toRaw_compileSymbol (id : UInt32) (span : SourceSpan) (name : String) :
    Node.toRaw { compileSymbol span name with id } = .symbol span name := by
  rcases compileSymbol_cases span name with ⟨boolean, node⟩ | ⟨color, found, node⟩ | ⟨-, node⟩
  · rw [node]
    rcases boolean with rfl | rfl
    · rfl
    · rfl
  · rw [node]
    change RawExpr.symbol span (Color.ofOrdinal color.ordinal).name = _
    rw [Color.ofOrdinal_ordinal, Color.name_of_fromName found]
  · rw [node]
    rfl

theorem readback_all {items : List RawExpr} {nodes : List Node}
    (count : items.length = nodes.length)
    (each : ∀ pair ∈ items.zip nodes, pair.2.toRaw = pair.1.normalize) :
    Node.toRawAll nodes = RawExpr.normalizeAll items := by
  induction nodes generalizing items with
  | nil => rw [List.length_eq_zero_iff.mp count]; rfl
  | cons node rest induction =>
      cases items with
      | nil => cases count
      | cons item items =>
          rw [Node.toRawAll, RawExpr.normalizeAll, each (item, node) (by simp),
            induction (Nat.succ.inj count) fun pair member => each pair (by simp [member])]

/-- A head that is neither `define` nor `set!` leaves its operands alone. -/
theorem renameItems_operation {span headSpan : SourceSpan} {op : String}
    (define : op ≠ "define") (set : op ≠ "set!") (items : List RawExpr) :
    RawExpr.renameItems span (.symbol headSpan op :: items) = .symbol span op :: items := by
  cases items with
  | nil => rfl
  | cons item rest => simp [RawExpr.renameItems, define, set]

/-- Kinds whose node keeps its operation name and every other item as a part. -/
def NodeKind.keepsItems : NodeKind → Bool
  | .defineVar | .defineFunc | .setVar | .varRef | .integerLiteral | .booleanLiteral
  | .colorLiteral => false
  | _ => true

theorem toRaw_form {id : UInt32} {kind : NodeKind} {span : SourceSpan} {op : String}
    {args children : List Node} (keeps : kind.keepsItems = true) :
    Node.toRaw { id, kind, span, op, args, children } =
      .list span (.symbol span op :: Node.toRawAll args ++ Node.toRawAll children) := by
  cases kind <;> first | rfl | cases keeps

theorem keepsItems_of_blockKind {op : String} {kind : NodeKind}
    (known : blockKind? op = some kind) : kind.keepsItems = true := by
  rcases blockKind?_cases known with ⟨-, rfl⟩ | ⟨-, rfl⟩ | ⟨-, rfl⟩ <;> rfl

theorem keepsItems_commandKind (op : String) : (commandKind op).1.keepsItems = true := by
  rw [commandKind]
  split_ifs <;> rfl

theorem keepsItems_sensorKind (op : String) : (sensorKind op).keepsItems = true := by
  rw [sensorKind]
  split_ifs <;> rfl

theorem keepsItems_of_operationKind {arity : ArityTable} {op : String} {count : Nat}
    {kind : NodeKind} (allowed : operationKind? arity op count = some kind) :
    kind.keepsItems = true := by
  rcases operationKind?_cases allowed with ⟨rfl, -⟩ | ⟨rfl, -⟩ | ⟨rfl, -⟩ | operator | ⟨rfl, -⟩
  · rfl
  · exact keepsItems_commandKind op
  · exact keepsItems_sensorKind op
  · rcases operatorKind?_cases operator with ⟨rfl, -⟩ | ⟨rfl, -⟩ | ⟨rfl, -⟩ <;> rfl
  · rfl

theorem AreNames.normalize {items : List RawExpr} {names : List String}
    (areNames : AreNames items names) (span : SourceSpan) :
    (RawExpr.normalizeAll items).map (RawExpr.rename span) = names.map (.symbol span) := by
  induction areNames with
  | nil => rfl
  | cons _ _ induction =>
      rw [RawExpr.normalizeAll, List.map_cons, induction, List.map_cons]
      rfl

theorem toRaw_sequence {id : UInt32} {span headSpan : SourceSpan} {items : List RawExpr}
    {children : List Node} (all : Node.toRawAll children = RawExpr.normalizeAll items) :
    Node.toRaw { id, kind := .doForm, span, op := "do", children } =
      (RawExpr.list span (.symbol headSpan "do" :: items)).normalize := by
  rw [toRaw_form rfl, all, RawExpr.normalize, RawExpr.normalizeAll, RawExpr.normalize,
    renameItems_operation (by decide) (by decide)]
  rfl

/-- A node reads back as the expression it was elaborated from. -/
theorem Elaborates.readback {arity : ArityTable} {raw : RawExpr} {topLevel : Bool}
    {node : Node} (elaborates : Elaborates arity raw topLevel node) :
    node.toRaw = raw.normalize := by
  induction elaborates with
  | integer => rfl
  | symbol => exact toRaw_compileSymbol _ _ _
  | sequence count _ induction => exact toRaw_sequence (readback_all count induction)
  | @block _ _ _ op _ leading _ _ _ _ known _ count _ argInduction induction =>
      have items := readback_all count induction
      have head : op ≠ "define" ∧ op ≠ "set!" := by
        constructor <;> intro equal <;> rw [equal] at known <;> cases known
      rw [toRaw_form (keepsItems_of_blockKind known), items, RawExpr.normalize,
        RawExpr.normalizeAll, RawExpr.normalizeAll, RawExpr.normalize,
        renameItems_operation head.1 head.2]
      simp [Node.toRawAll, argInduction]
  | operation isDo block define set allowed count _ induction =>
      have items := readback_all count induction
      rw [toRaw_form (keepsItems_of_operationKind allowed), items, RawExpr.normalize,
        RawExpr.normalizeAll, RawExpr.normalize, renameItems_operation define set]
      simp [Node.toRawAll]
  | defineVar _ _ induction =>
      simp [Node.toRaw, Node.toRawAll, RawExpr.normalize, RawExpr.normalizeAll,
        RawExpr.renameItems, RawExpr.retarget, RawExpr.rename, induction]
  | @defineFunc _ span _ targetSpan nameSpan name items params _ _ free names count _ induction =>
      have body := readback_all count induction
      have plain : name ≠ "define" ∧ name ≠ "set!" := by
        constructor <;> intro equal <;> rw [equal] at free <;> exact absurd free (by decide)
      have target : (RawExpr.list targetSpan
            (.symbol nameSpan name :: items)).normalize.retarget span =
          .list span (.symbol span name :: params.map (.symbol span)) := by
        rw [RawExpr.normalize, RawExpr.normalizeAll, RawExpr.normalize,
          renameItems_operation plain.1 plain.2, ← names.normalize span]
        rfl
      rw [Node.toRaw, body, ← target]
      rfl
  | setVar _ _ induction =>
      simp [Node.toRaw, Node.toRawAll, RawExpr.normalize, RawExpr.normalizeAll,
        RawExpr.renameItems, RawExpr.retarget, RawExpr.rename, induction]

theorem ElaboratesAll.readback {arity : ArityTable} {topLevel : Bool}
    {items : List RawExpr} {nodes : List Node}
    (all : ElaboratesAll arity topLevel items nodes) :
    Node.toRawAll nodes = RawExpr.normalizeAll items :=
  readback_all all.1 fun pair member => (all.2 pair member).readback

/-! ## Operations -/

/-- The operation a node keeps is one that its kind is written with. -/
def Node.Named (node : Node) : Prop :=
  match node.kind with
  | .doForm => node.op = "do"
  | .repeatForm => node.op = "repeat"
  | .whenForm => node.op = "when"
  | .ifForm => node.op = "if"
  | .whileForm => node.op = "while"
  | .drive => node.op = "drive"
  | .backward => node.op = "backward"
  | .turnLeft => node.op = "turn-left"
  | .turnRight => node.op = "turn-right"
  | .stop => node.op = "stop"
  | .wait => node.op = "wait"
  | .light => node.op = "light"
  | .beep => node.op = "beep"
  | .distanceCm => node.op = "distance-cm"
  | .button => node.op = "button"
  | .lineLeft => node.op = "line-left"
  | .lineRight => node.op = "line-right"
  | .compare => isComparison node.op = true
  | .booleanOp => isBooleanOp node.op = true
  | .arithmetic => isArithmetic node.op = true
  | .call | .defineFunc => isBuiltinName node.op = false
  | .varRef | .defineVar | .setVar => isReserved node.op = false
  | .integerLiteral => node.op = ""
  | .booleanLiteral => node.op = if node.nums.head? = some 0 then "false" else "true"
  | .colorLiteral => node.op = (Color.ofOrdinal (node.nums.head?.getD 0)).name

theorem named_symbol (id : UInt32) (span : SourceSpan) (name : String) :
    Node.Named { compileSymbol span name with id } := by
  rcases compileSymbol_cases span name with ⟨boolean, node⟩ | ⟨color, found, node⟩ | ⟨free, node⟩
  · rw [node]
    rcases boolean with rfl | rfl
    · rfl
    · rfl
  · rw [node]
    change name = (Color.ofOrdinal color.ordinal).name
    rw [Color.ofOrdinal_ordinal, Color.name_of_fromName found]
  · rw [node]
    exact free

theorem named_block {node : Node} (known : blockKind? node.op = some node.kind) : node.Named := by
  rw [Node.Named]
  rcases blockKind?_cases known with ⟨op, kind⟩ | ⟨op, kind⟩ | ⟨op, kind⟩ <;>
    rw [kind] <;> exact op

theorem named_command {node : Node} (command : isCommand node.op = true)
    (kind : node.kind = (commandKind node.op).1) : node.Named := by
  rw [isCommand] at command
  simp only [Bool.or_eq_true, decide_eq_true_eq] at command
  rw [Node.Named, kind]
  rcases command with ((((((op | op) | op) | op) | op) | op) | op) | op <;> rw [op] <;> rfl

theorem named_sensor {node : Node} (sensor : isSensor node.op = true)
    (kind : node.kind = sensorKind node.op) : node.Named := by
  rw [isSensor] at sensor
  simp only [Bool.or_eq_true, decide_eq_true_eq] at sensor
  rw [Node.Named, kind]
  rcases sensor with ((op | op) | op) | op <;> rw [op] <;> rfl

theorem named_operator {node : Node} {count : Nat}
    (operator : (isComparison node.op || isBooleanOp node.op || isArithmetic node.op) = true)
    (allowed : operatorKind? node.op count = some node.kind) : node.Named := by
  rw [operatorKind?] at allowed
  split_ifs at allowed with comparison _ arithmetic _ _ isNot
  · rw [Node.Named, ← Option.some.inj allowed]
    exact comparison
  · rw [Node.Named, ← Option.some.inj allowed]
    exact arithmetic
  · rw [Node.Named, ← Option.some.inj allowed]
    simp [isBooleanOp, isNot]
  · rw [Node.Named, ← Option.some.inj allowed]
    simpa [comparison, arithmetic] using operator

theorem named_operation {arity : ArityTable}
    (free : ∀ name count, arity.lookup name = some count → isBuiltinName name = false)
    {node : Node} {count : Nat}
    (allowed : operationKind? arity node.op count = some node.kind) : node.Named := by
  rw [operationKind?] at allowed
  split_ifs at allowed with isIf _ command _ sensor _ operator known
  · rw [Node.Named, ← Option.some.inj allowed]
    exact isIf
  · exact named_command command (Option.some.inj allowed).symm
  · exact named_sensor sensor (Option.some.inj allowed).symm
  · exact named_operator operator allowed
  · rw [Node.Named, ← Option.some.inj allowed]
    exact free node.op count known

theorem Elaborates.named {arity : ArityTable} {raw : RawExpr} {topLevel : Bool} {node : Node}
    (elaborates : Elaborates arity raw topLevel node)
    (free : ∀ name count, arity.lookup name = some count → isBuiltinName name = false) :
    node.Named := by
  cases elaborates with
  | integer => rfl
  | symbol => exact named_symbol _ _ _
  | sequence => rfl
  | block known => exact named_block known
  | operation _ _ _ _ allowed => exact named_operation free allowed
  | defineVar unreserved => exact unreserved
  | defineFunc plain => exact plain
  | setVar unreserved => exact unreserved

/-- No built-in name is in the table of an accepted program. -/
theorem ElaboratesProgram.free {exprs : List RawExpr} {root : Node}
    (elaborates : ElaboratesProgram (programArity exprs) exprs root)
    (clean : (collectArity (topForms exprs) []).Clean) {name : String} {count : Nat}
    (known : (programArity exprs).lookup name = some count) : isBuiltinName name = false := by
  have entries : programArity exprs = (topForms exprs).filterMap arityOf? :=
    collectArity_entries clean
  rcases List.lookup_eq_some_iff.mp known with ⟨before, after, table, -⟩
  have member : (name, count) ∈ (topForms exprs).filterMap arityOf? := by
    rw [← entries, table]
    simp
  rcases List.mem_filterMap.mp member with ⟨top, present, entry⟩
  rcases elaborates.tops with ⟨tops, all, -⟩
  rcases all.exists_node present with ⟨node, -, inner⟩
  rw [inner.arityOf] at entry
  split_ifs at entry with kind
  rcases Prod.mk.inj (Option.some.inj entry) with ⟨rfl, -⟩
  exact inner.plain kind

/-- Every node of an accepted program keeps an operation of its kind. -/
theorem ElaboratesProgram.named {exprs : List RawExpr} {root node : Node}
    (elaborates : ElaboratesProgram (programArity exprs) exprs root)
    (clean : (collectArity (topForms exprs) []).Clean) (within : Node.Within node root) :
    node.Named := by
  have free (name : String) (count : Nat) := @elaborates.free _ _ clean name count
  have sequence {id span items children}
      (all : ElaboratesAll (programArity exprs) true items children)
      (within : Node.Within node { id, kind := .doForm, span, op := "do", children }) :
      node.Named := by
    cases within with
    | self => rfl
    | part member within =>
        rcases all.of_mem member with ⟨item, -, part⟩
        rcases part.inner within with equal | ⟨other, inner⟩
        · exact equal ▸ part.named free
        · exact inner.named free
  cases elaborates with
  | explicit all => exact sequence all within
  | single _ top =>
      rcases top.inner within with equal | ⟨other, inner⟩
      · exact equal ▸ top.named free
      · exact inner.named free
  | implicit all => exact sequence all within

/-! ## Whole programs -/

/-- The root of a tree stands for these top-level expressions: for a single one
directly, for several as the children of a `do` that spans them all. -/
def Node.ReadsAs (root : Node) : List RawExpr → Prop
  | [] => False
  | [top] => root.toRaw = top.normalize
  | first :: rest =>
      root.kind = .doForm ∧ root.args = [] ∧
        root.children.map toRaw = (first :: rest).map RawExpr.normalize ∧
        root.span = spanOfTops first (first :: rest)

theorem ElaboratesProgram.readsAs {arity : ArityTable} {exprs : List RawExpr} {root : Node}
    (elaborates : ElaboratesProgram arity exprs root) : root.ReadsAs exprs := by
  cases elaborates with
  | explicit all => exact toRaw_sequence all.readback
  | single _ node => exact node.readback
  | implicit all =>
      refine ⟨rfl, rfl, ?_, rfl⟩
      rw [← Node.toRawAll_eq, ← RawExpr.normalizeAll_eq]
      exact all.readback

theorem ok_iff_clean {source : Bytes} {parsed : ParseResult} {result : CompileResult}
    (parses : parse source = some parsed) (compiles : compile source = some result) :
    result.ok = true ↔ hasErrors result.diagnostics = false := by
  constructor
  · intro ok
    rw [CompileResult.ok, Bool.and_eq_true] at ok
    simpa using ok.2
  · intro clean
    rcases compile_elaborates parses compiles clean with ⟨-, root, found, -⟩
    rw [CompileResult.ok, found, clean]
    rfl

/-- A compilation succeeds exactly when it reports no error, and its tree then
stands for the parsed expressions, nothing dropped, doubled or moved, and names each
node as its kind is written. Only for a source too long for the lexer's offset does
neither function return. -/
theorem compile_faithful (source : Bytes) :
    match parse source, compile source with
    | some parsed, some result =>
        (result.ok = true ↔ hasErrors result.diagnostics = false) ∧
          (result.ok = true →
            ∃ root, result.root = some root ∧ root.ReadsAs parsed.exprs ∧
              ∀ node, Node.Within node root → node.Named)
    | none, none => 2 ^ 32 ≤ source.length
    | _, _ => False := by
  have parses := parse_isSome_iff source
  have compiles := compile_isSome_iff source
  cases found : parse source with
  | none =>
      rw [found] at parses
      cases compiled : compile source with
      | none =>
          dsimp only
          have long : ¬ source.length < 2 ^ 32 := fun fits => by cases parses.mpr fits
          omega
      | some result =>
          rw [compiled] at compiles
          cases parses.mpr (compiles.mp rfl)
  | some parsed =>
      cases compiled : compile source with
      | none =>
          rw [compiled] at compiles
          rw [found] at parses
          cases compiles.mpr (parses.mp rfl)
      | some result =>
          refine ⟨ok_iff_clean found compiled, ?_⟩
          intro ok
          have clean := (ok_iff_clean found compiled).mp ok
          rcases compile_elaborates found compiled clean with ⟨table, root, rooted, elaborates⟩
          exact ⟨root, rooted, elaborates.readsAs, fun _ => elaborates.named table⟩

end CardCode
