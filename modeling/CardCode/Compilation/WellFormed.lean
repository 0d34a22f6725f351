import CardCode.Compilation.Programs
import CardCode.Engine.Interpreter

/-! # What the interpreter may rely on

Every node of an accepted program has the arguments `eval_inner` reads by
position, every call passes as many arguments as its function has parameters,
and functions are defined at the top only, so that the table `execute` collects
from the tree is the one the compiler checked calls against.
-/

namespace CardCode

/-! ## Nodes of a tree -/

/-- The node itself or one below it. -/
inductive Node.Within : Node → Node → Prop
  | self {node} : Within node node
  | part {node part root} : part ∈ root.parts → Within node part → Within node root

/-- How many of its arguments `eval_inner` reads by position. -/
def Node.indexedArgs (node : Node) : Nat :=
  match node.kind with
  | .ifForm => 3
  | .drive | .backward | .compare => 2
  | .repeatForm | .whenForm | .whileForm | .defineVar | .setVar | .turnLeft | .turnRight
  | .wait | .light => 1
  | .booleanOp => if node.op = "not" then 1 else 0
  | _ => 0

/-- A node with enough arguments, which calls functions with the right number. -/
structure Node.Fits (arity : ArityTable) (node : Node) : Prop where
  args : node.indexedArgs ≤ node.args.length
  call : node.kind = .call → arity.lookup node.op = some node.args.length

/-- A tree all of whose nodes fit. -/
def Node.Sound (arity : ArityTable) (root : Node) : Prop :=
  ∀ node, Node.Within node root → node.Fits arity

theorem Node.Sound.fits {arity : ArityTable} {node : Node} (sound : node.Sound arity) :
    node.Fits arity :=
  sound node .self

theorem Node.Sound.part {arity : ArityTable} {node part : Node} (sound : node.Sound arity)
    (member : part ∈ node.parts) : part.Sound arity :=
  fun inner within => sound inner (.part member within)

theorem Node.Sound.of_parts {arity : ArityTable} {node : Node} (fits : node.Fits arity)
    (parts : ∀ part ∈ node.parts, part.Sound arity) : node.Sound arity := by
  intro inner within
  cases within with
  | self => exact fits
  | part member within => exact parts _ member inner within

/-! ## Elaborated nodes -/

theorem indexedArgs_commandKind (op : String) (node : Node)
    (kind : node.kind = (commandKind op).1) : node.indexedArgs ≤ (commandKind op).2 := by
  unfold commandKind at kind ⊢
  split_ifs at kind ⊢ <;> simp [Node.indexedArgs, kind]

theorem indexedArgs_sensorKind (op : String) (node : Node)
    (kind : node.kind = sensorKind op) : node.indexedArgs = 0 := by
  unfold sensorKind at kind
  split_ifs at kind <;> rw [Node.indexedArgs, kind]

theorem not_call_commandKind (op : String) : (commandKind op).1 ≠ .call := by
  unfold commandKind
  split_ifs <;> decide

theorem not_call_sensorKind (op : String) : sensorKind op ≠ .call := by
  unfold sensorKind
  split_ifs <;> decide

theorem fits_of_operationKind {arity : ArityTable} {op : String} {node : Node}
    (name : node.op = op)
    (allowed : operationKind? arity op node.args.length = some node.kind) :
    node.Fits arity := by
  rcases operationKind?_cases allowed with
    ⟨kind, count⟩ | ⟨kind, count⟩ | ⟨kind, count⟩ | operator | ⟨kind, known⟩
  · refine ⟨?_, ?_⟩
    · simp [Node.indexedArgs, kind, count]
    · intro call
      rw [kind] at call
      cases call
  · refine ⟨?_, fun call => absurd (kind.symm.trans call) (not_call_commandKind op)⟩
    rw [count]
    exact indexedArgs_commandKind op node kind
  · refine ⟨?_, fun call => absurd (kind.symm.trans call) (not_call_sensorKind op)⟩
    rw [indexedArgs_sensorKind op node kind]
    exact Nat.zero_le _
  · rcases operatorKind?_cases operator with ⟨kind, count⟩ | ⟨kind, count⟩ | ⟨kind, count⟩
    · refine ⟨?_, fun call => by rw [kind] at call; cases call⟩
      simp [Node.indexedArgs, kind, count]
    · refine ⟨?_, fun call => by rw [kind] at call; cases call⟩
      rw [Node.indexedArgs, kind]
      exact Nat.zero_le _
    · refine ⟨?_, fun call => by rw [kind] at call; cases call⟩
      rw [Node.indexedArgs, kind]
      dsimp only
      split <;> omega
  · refine ⟨?_, fun _ => by rw [name]; exact known⟩
    rw [Node.indexedArgs, kind]
    exact Nat.zero_le _

theorem compileSymbol_fits (arity : ArityTable) (id : UInt32) (span : SourceSpan)
    (name : String) : Node.Fits arity { compileSymbol span name with id } := by
  rcases compileSymbol_cases span name with ⟨-, node⟩ | ⟨color, -, node⟩ | ⟨-, node⟩ <;>
    rw [node] <;> exact ⟨Nat.le_refl _, fun call => nomatch call⟩

theorem Elaborates.fits {arity : ArityTable} {raw : RawExpr} {topLevel : Bool} {node : Node}
    (elaborates : Elaborates arity raw topLevel node) : node.Fits arity := by
  cases elaborates with
  | integer => exact ⟨Nat.le_refl _, fun call => nomatch call⟩
  | symbol => exact compileSymbol_fits _ _ _ _
  | sequence => exact ⟨Nat.le_refl _, fun call => nomatch call⟩
  | block known =>
      rcases blockKind?_cases known with ⟨-, rfl⟩ | ⟨-, rfl⟩ | ⟨-, rfl⟩ <;>
        exact ⟨Nat.le_refl _, fun call => nomatch call⟩
  | operation _ _ _ _ allowed count _ =>
      rw [count] at allowed
      exact fits_of_operationKind rfl allowed
  | defineVar => exact ⟨Nat.le_refl _, fun call => nomatch call⟩
  | defineFunc => exact ⟨Nat.le_refl _, fun call => nomatch call⟩
  | setVar => exact ⟨Nat.le_refl _, fun call => nomatch call⟩

/-- A member of a row was elaborated from some item of it. -/
theorem ElaboratesAll.of_mem {arity : ArityTable} {topLevel : Bool} {items : List RawExpr}
    {nodes : List Node} (all : ElaboratesAll arity topLevel items nodes) {node : Node}
    (member : node ∈ nodes) : ∃ item ∈ items, Elaborates arity item topLevel node := by
  induction nodes generalizing items with
  | nil => cases member
  | cons head rest induction =>
      cases items with
      | nil => cases all.1
      | cons item items =>
          rcases List.mem_cons.mp member with equal | member
          · exact ⟨item, by simp, equal ▸ all.2 (item, head) (by simp)⟩
          · have tail : ElaboratesAll arity topLevel items rest :=
              ⟨Nat.succ.inj all.1, fun pair present => all.2 pair (by simp [present])⟩
            rcases induction tail member with ⟨other, present, elaborates⟩
            exact ⟨other, by simp [present], elaborates⟩

theorem parts_compileSymbol (id : UInt32) (span : SourceSpan) (name : String) :
    Node.parts { compileSymbol span name with id } = [] := by
  rcases compileSymbol_cases span name with ⟨-, node⟩ | ⟨color, -, node⟩ | ⟨-, node⟩ <;>
    rw [node] <;> rfl

/-- The items of a list. -/
def RawExpr.items : RawExpr → List RawExpr
  | .list _ items => items
  | _ => []

/-- What stands below an elaborated node was elaborated from an item of its list, away from
the top level. -/
theorem Elaborates.part {arity : ArityTable} {raw : RawExpr} {topLevel : Bool}
    {node part : Node} (elaborates : Elaborates arity raw topLevel node)
    (member : part ∈ node.parts) : ∃ item ∈ raw.items, Elaborates arity item false part := by
  have row {items all : List RawExpr} {nodes : List Node}
      (elaborated : ElaboratesAll arity false items nodes)
      (inside : ∀ item ∈ items, item ∈ all)
      (member : part ∈ nodes) : ∃ item ∈ all, Elaborates arity item false part := by
    rcases elaborated.of_mem member with ⟨item, present, elaborates⟩
    exact ⟨item, inside item present, elaborates⟩
  cases elaborates with
  | integer => cases member
  | symbol => rw [parts_compileSymbol] at member; cases member
  | sequence count each =>
      exact row ⟨count, each⟩ (fun _ present => List.mem_cons_of_mem _ present) member
  | @block _ _ _ _ _ leading _ _ _ _ _ elaborated count each =>
      rcases List.mem_append.mp member with member | member
      · exact ⟨leading, by simp [RawExpr.items], List.mem_singleton.mp member ▸ elaborated⟩
      · exact row ⟨count, each⟩ (fun _ present => by simp [RawExpr.items, present]) member
  | operation _ _ _ _ _ count each =>
      exact row ⟨count, each⟩ (fun _ present => List.mem_cons_of_mem _ present)
        (by simpa [Node.parts] using member)
  | @defineVar _ _ _ _ _ value arg _ _ elaborated =>
      have equal : part = arg := by simpa [Node.parts] using member
      exact ⟨value, by simp [RawExpr.items], equal ▸ elaborated⟩
  | defineFunc _ _ count each =>
      exact row ⟨count, each⟩ (fun _ present => by simp [RawExpr.items, present]) member
  | @setVar _ _ _ _ _ value arg _ _ elaborated =>
      have equal : part = arg := by simpa [Node.parts] using member
      exact ⟨value, by simp [RawExpr.items], equal ▸ elaborated⟩

theorem Elaborates.sound {arity : ArityTable} {node : Node} :
    ∀ {raw topLevel}, Elaborates arity raw topLevel node → node.Sound arity := by
  induction node using Node.induct with
  | step node induction =>
      intro raw topLevel elaborates
      refine .of_parts elaborates.fits ?_
      intro part member
      rcases elaborates.part member with ⟨item, -, partElaborates⟩
      exact induction part member partElaborates

theorem ElaboratesProgram.sound {arity : ArityTable} {exprs : List RawExpr} {root : Node}
    (elaborates : ElaboratesProgram arity exprs root) : root.Sound arity := by
  have sequence {id span items children} (all : ElaboratesAll arity true items children) :
      Node.Sound arity { id, kind := .doForm, span, op := "do", children } := by
    refine .of_parts ⟨Nat.zero_le _, fun call => nomatch call⟩ ?_
    intro part member
    rcases all.of_mem member with ⟨item, -, partElaborates⟩
    exact partElaborates.sound
  cases elaborates with
  | explicit all => exact sequence all
  | single _ node => exact node.sound
  | implicit all => exact sequence all

/-! ## Function definitions -/

theorem kind_ne_defineFunc_of_symbol (span : SourceSpan) (name : String) :
    (compileSymbol span name).kind ≠ .defineFunc := by
  rcases compileSymbol_cases span name with ⟨-, node⟩ | ⟨color, -, node⟩ | ⟨-, node⟩ <;>
    rw [node] <;> exact NodeKind.noConfusion

theorem kind_ne_defineFunc_of_blockKind {op : String} {kind : NodeKind}
    (known : blockKind? op = some kind) : kind ≠ .defineFunc := by
  rcases blockKind?_cases known with ⟨-, rfl⟩ | ⟨-, rfl⟩ | ⟨-, rfl⟩ <;>
    exact NodeKind.noConfusion

theorem kind_ne_defineFunc_of_operationKind {arity : ArityTable} {op : String} {count : Nat}
    {kind : NodeKind} (allowed : operationKind? arity op count = some kind) :
    kind ≠ .defineFunc := by
  rcases operationKind?_cases allowed with ⟨rfl, -⟩ | ⟨rfl, -⟩ | ⟨rfl, -⟩ | operator | ⟨rfl, -⟩
  · exact NodeKind.noConfusion
  · unfold commandKind
    split_ifs <;> exact NodeKind.noConfusion
  · unfold sensorKind
    split_ifs <;> exact NodeKind.noConfusion
  · rcases operatorKind?_cases operator with ⟨rfl, -⟩ | ⟨rfl, -⟩ | ⟨rfl, -⟩ <;>
      exact NodeKind.noConfusion
  · exact NodeKind.noConfusion

theorem AreNames.length_eq {items : List RawExpr} {names : List String}
    (areNames : AreNames items names) : items.length = names.length := by
  induction areNames with
  | nil => rfl
  | cons _ _ induction => exact congrArg Nat.succ induction

/-- The entry `collect_arity` makes for an expression describes the node it
becomes: there is one exactly for a function definition. -/
theorem Elaborates.arityOf {arity : ArityTable} {raw : RawExpr} {topLevel : Bool}
    {node : Node} (elaborates : Elaborates arity raw topLevel node) :
    arityOf? raw =
      if node.kind = .defineFunc then some (node.op, node.params.length) else none := by
  have other {span headSpan op items} (define : op ≠ "define") :
      arityOf? (.list span (.symbol headSpan op :: items)) = none := by
    unfold arityOf? signature?
    split
    next equal =>
      simp only [RawExpr.list.injEq, List.cons.injEq, RawExpr.symbol.injEq] at equal
      exact absurd equal.2.1.2 define
    next => rfl
  cases elaborates with
  | integer => rfl
  | @symbol _ span name =>
      rw [if_neg (kind_ne_defineFunc_of_symbol span name)]
      rfl
  | sequence => exact other (by decide)
  | block known =>
      rcases blockKind?_cases known with ⟨rfl, rfl⟩ | ⟨rfl, rfl⟩ | ⟨rfl, rfl⟩ <;>
        exact other (by decide)
  | operation _ _ define _ allowed =>
      rw [if_neg (kind_ne_defineFunc_of_operationKind allowed)]
      exact other define
  | defineVar => rfl
  | defineFunc _ names =>
      rw [if_pos rfl, ← names.length_eq]
      rfl
  | setVar => exact other (by decide)

theorem Elaborates.kind_ne_defineFunc {arity : ArityTable} {raw : RawExpr} {node : Node}
    (elaborates : Elaborates arity raw false node) : node.kind ≠ .defineFunc := by
  cases elaborates with
  | integer => exact NodeKind.noConfusion
  | symbol => exact kind_ne_defineFunc_of_symbol _ _
  | sequence => exact NodeKind.noConfusion
  | block known => exact kind_ne_defineFunc_of_blockKind known
  | operation _ _ _ _ allowed => exact kind_ne_defineFunc_of_operationKind allowed
  | defineVar => exact NodeKind.noConfusion
  | setVar => exact NodeKind.noConfusion

/-- A function has no built-in name. -/
theorem Elaborates.plain {arity : ArityTable} {raw : RawExpr} {topLevel : Bool} {node : Node}
    (elaborates : Elaborates arity raw topLevel node) (kind : node.kind = .defineFunc) :
    isBuiltinName node.op = false := by
  cases elaborates with
  | defineFunc plain => exact plain
  | symbol => exact absurd kind (kind_ne_defineFunc_of_symbol _ _)
  | block known => exact absurd kind (kind_ne_defineFunc_of_blockKind known)
  | operation _ _ _ _ allowed =>
      exact absurd kind (kind_ne_defineFunc_of_operationKind allowed)
  | integer | sequence | defineVar | setVar => cases kind

theorem Elaborates.inner {arity : ArityTable} {raw : RawExpr} {topLevel : Bool}
    {node inner : Node} (elaborates : Elaborates arity raw topLevel node)
    (within : Node.Within inner node) :
    inner = node ∨ ∃ item, Elaborates arity item false inner := by
  induction within generalizing raw topLevel with
  | self => exact .inl rfl
  | part member _ induction =>
      rcases elaborates.part member with ⟨item, -, part⟩
      rcases induction part with equal | below
      · exact .inr ⟨item, equal ▸ part⟩
      · exact .inr below

/-- Functions are defined by the root or directly below it, nowhere else. -/
theorem ElaboratesProgram.defineFunc_at_top {arity : ArityTable} {exprs : List RawExpr}
    {root node : Node} (elaborates : ElaboratesProgram arity exprs root)
    (within : Node.Within node root) (kind : node.kind = .defineFunc) :
    node = root ∨ node ∈ root.children := by
  have sequence {id span items children}
      (all : ElaboratesAll arity true items children)
      (within : Node.Within node { id, kind := .doForm, span, op := "do", children }) :
      node ∈ children := by
    cases within with
    | self => cases kind
    | part member within =>
        rcases all.of_mem member with ⟨item, -, part⟩
        rcases part.inner within with equal | ⟨other, inner⟩
        · exact equal ▸ member
        · exact absurd kind inner.kind_ne_defineFunc
  cases elaborates with
  | explicit all => exact .inr (sequence all within)
  | single _ top =>
      rcases top.inner within with equal | ⟨other, inner⟩
      · exact .inl equal
      · exact absurd kind inner.kind_ne_defineFunc
  | implicit all => exact .inr (sequence all within)

/-- The top-level forms, each with its node, hold every function definition. -/
theorem ElaboratesProgram.tops {arity : ArityTable} {exprs : List RawExpr} {root : Node}
    (elaborates : ElaboratesProgram arity exprs root) :
    ∃ tops, ElaboratesAll arity true (topForms exprs) tops ∧
      ∀ node, node.kind = .defineFunc → (node ∈ root :: root.children ↔ node ∈ tops) := by
  have sequence {id span children} (node : Node) (kind : node.kind = .defineFunc) :
      node ∈ ({ id, kind := .doForm, span, op := "do", children } : Node) :: children ↔
        node ∈ children := by
    constructor
    · intro member
      rcases List.mem_cons.mp member with equal | member
      · rw [equal] at kind
        cases kind
      · exact member
    · exact List.mem_cons_of_mem _
  cases elaborates with
  | explicit all => exact ⟨_, all, sequence⟩
  | @single top _ shape elaborates =>
      have forms : topForms [top] = [top] := by rw [topForms, shape]
      refine ⟨[root], ?_, ?_⟩
      · rw [forms]
        exact ElaboratesAll.cons elaborates ⟨rfl, fun _ member => nomatch member⟩
      · intro other kind
        constructor
        · intro member
          rcases List.mem_cons.mp member with equal | member
          · exact List.mem_singleton.mpr equal
          · rcases elaborates.part (List.mem_append_right _ member) with ⟨item, -, inner⟩
            exact absurd kind inner.kind_ne_defineFunc
        · intro member
          rw [List.mem_singleton.mp member]
          exact List.mem_cons_self
  | @implicit _ first second rest _ all =>
      have forms : topForms (first :: second :: rest) = first :: second :: rest := by
        rw [topForms]
        cases shape : singleDo? (first :: second :: rest) with
        | none => rfl
        | some found =>
            rcases singleDo?_eq_some shape with ⟨headSpan, equal⟩
            cases equal
      rw [forms]
      exact ⟨_, all, sequence⟩

/-! ## The function table -/

/-- The entry of one node in `collect_functions`. -/
def collectFunction (table : String → Option Node) (node : Node) : String → Option Node :=
  if node.kind = .defineFunc then
    fun name => if name = node.op then some node else table name
  else table

theorem collectFunctions_eq (root : Node) :
    collectFunctions root = (root :: root.children).foldl collectFunction fun _ => none :=
  rfl

theorem collected_some {nodes : List Node} {table : String → Option Node} {name : String}
    {function : Node} (found : nodes.foldl collectFunction table name = some function) :
    table name = some function ∨
      (function ∈ nodes ∧ function.kind = .defineFunc ∧ function.op = name) := by
  induction nodes generalizing table with
  | nil => exact .inl found
  | cons node rest induction =>
      rcases induction found with early | ⟨member, kind, op⟩
      · unfold collectFunction at early
        split at early
        next kind =>
          dsimp only at early
          split at early
          next same =>
            cases early
            exact .inr ⟨List.mem_cons_self, kind, same.symm⟩
          next => exact .inl early
        next => exact .inl early
      · exact .inr ⟨List.mem_cons_of_mem _ member, kind, op⟩

theorem collected_isSome {nodes : List Node} {table : String → Option Node} {name : String}
    (known : (table name).isSome = true ∨
      ∃ node ∈ nodes, node.kind = .defineFunc ∧ node.op = name) :
    (nodes.foldl collectFunction table name).isSome = true := by
  induction nodes generalizing table with
  | nil =>
      rcases known with known | ⟨node, member, -⟩
      · exact known
      · cases member
  | cons node rest induction =>
      apply induction
      unfold collectFunction
      rcases known with known | ⟨other, member, kind, op⟩
      · left
        split
        · dsimp only
          split
          · rfl
          · exact known
        · exact known
      · rcases List.mem_cons.mp member with equal | member
        · left
          rw [← equal, if_pos kind]
          simp [op]
        · exact .inr ⟨other, member, kind, op⟩

theorem lookup_of_mem {table : ArityTable} (nodup : (table.map Prod.fst).Nodup)
    {name : String} {count : Nat} (member : (name, count) ∈ table) :
    table.lookup name = some count := by
  induction table with
  | nil => cases member
  | cons entry rest induction =>
      rw [List.map_cons, List.nodup_cons] at nodup
      rcases List.mem_cons.mp member with equal | member
      · rw [← equal]
        exact List.lookup_cons_self
      · have different : (name == entry.1) = false := by
          rw [beq_eq_false_iff_ne]
          intro same
          exact nodup.1 (same ▸ List.mem_map_of_mem member)
        rw [List.lookup_cons, different]
        exact induction nodup.2 member

theorem ElaboratesAll.exists_node {arity : ArityTable} {topLevel : Bool}
    {items : List RawExpr} {nodes : List Node}
    (all : ElaboratesAll arity topLevel items nodes) {item : RawExpr} (member : item ∈ items) :
    ∃ node ∈ nodes, Elaborates arity item topLevel node := by
  induction nodes generalizing items with
  | nil =>
      rw [List.length_eq_zero_iff.mp all.1] at member
      cases member
  | cons head rest induction =>
      cases items with
      | nil => cases member
      | cons first items =>
          have tail : ElaboratesAll arity topLevel items rest :=
            ⟨Nat.succ.inj all.1, fun pair present => all.2 pair (by simp [present])⟩
          rcases List.mem_cons.mp member with equal | member
          · exact ⟨head, List.mem_cons_self, equal ▸ all.2 (first, head) (by simp)⟩
          · rcases induction tail member with ⟨node, present, elaborates⟩
            exact ⟨node, List.mem_cons_of_mem _ present, elaborates⟩

/-- The table `execute` collects from the tree has the names and parameter
counts of the table the compiler checked calls against. -/
theorem ElaboratesProgram.functions_agree {exprs : List RawExpr} {root : Node}
    (elaborates : ElaboratesProgram (programArity exprs) exprs root)
    (clean : (collectArity (topForms exprs) []).Clean) (name : String) :
    (collectFunctions root name).map (fun function => function.params.length) =
      (programArity exprs).lookup name := by
  have entries : programArity exprs = (topForms exprs).filterMap arityOf? :=
    collectArity_entries clean
  have nodup : ((programArity exprs).map Prod.fst).Nodup :=
    collectArity_nodup clean List.nodup_nil
  rcases elaborates.tops with ⟨tops, all, same⟩
  cases found : collectFunctions root name with
  | some function =>
      rcases collected_some found with absent | ⟨member, kind, op⟩
      · cases absent
      · rcases all.of_mem ((same function kind).mp member) with ⟨item, present, top⟩
        have entry := top.arityOf
        rw [if_pos kind, op] at entry
        have listed : (name, function.params.length) ∈ programArity exprs := by
          rw [entries]
          exact List.mem_filterMap.mpr ⟨item, present, entry⟩
        exact (lookup_of_mem nodup listed).symm
  | none =>
      cases known : (programArity exprs).lookup name with
      | none => rfl
      | some count =>
          have listed : (name, count) ∈ programArity exprs := by
            rcases List.lookup_eq_some_iff.mp known with ⟨before, after, equal, -⟩
            rw [equal]
            simp
          rw [entries] at listed
          rcases List.mem_filterMap.mp listed with ⟨item, present, entry⟩
          rcases all.exists_node present with ⟨node, member, top⟩
          rw [top.arityOf] at entry
          split at entry
          next kind =>
            cases entry
            have known : (collectFunctions root node.op).isSome = true :=
              collected_isSome (.inr ⟨node, (same node kind).mpr member, kind, rfl⟩)
            rw [found] at known
            cases known
          next => cases entry

end CardCode
