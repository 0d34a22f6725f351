import CardCode.Engine.Compiler

/-! # What the compiler accepts

`Elaborates` relates an accepted expression to the node it becomes, one rule for
each shape of form. `compileExpr_elaborates` shows that a compilation without
errors follows these rules, so facts about accepted programs are proved by
induction over them and never unfold the compiler.
-/

namespace CardCode

/-! ## Error-free compilations -/

def Compile.Clean {α : Type} (compiled : Compile α) : Prop :=
  hasErrors compiled.diagnostics = false

@[simp] theorem clean_pure {α : Type} (value : α) : (pure value : Compile α).Clean :=
  rfl

@[simp] theorem clean_bind {α β : Type} (first : Compile α) (next : α → Compile β) :
    (first >>= next).Clean ↔ first.Clean ∧ (next first.value).Clean := by
  simp [Compile.Clean]

@[simp] theorem clean_err (span : SourceSpan) (message : String) :
    ¬ (err span message).Clean := by
  simp [Compile.Clean, hasErrors]

@[simp] theorem clean_reject (span : SourceSpan) (message : String) :
    ¬ (reject span message).Clean := by
  simp [Compile.Clean, hasErrors]

/-! ## The rules -/

/-- The forms that take one leading argument and a body. -/
def blockKind? (op : String) : Option NodeKind :=
  if op = "repeat" then some .repeatForm
  else if op = "when" then some .whenForm
  else if op = "while" then some .whileForm
  else none

/-- The kind of an operator node, where it accepts `count` operands. -/
def operatorKind? (op : String) (count : Nat) : Option NodeKind :=
  if isComparison op then if count = 2 then some .compare else none
  else if isArithmetic op then
    if (op = "-" || op = "/") && count ≠ 2 then none
    else if count < 2 then none
    else some .arithmetic
  else if op = "not" then if count = 1 then some .booleanOp else none
  else if count < 2 then none
  else some .booleanOp

/-- The kind of a form all of whose items are arguments, where it accepts
`count` of them. -/
def operationKind? (arity : ArityTable) (op : String) (count : Nat) : Option NodeKind :=
  if op = "if" then if count = 3 then some .ifForm else none
  else if isCommand op then
    if count = (commandKind op).2 then some (commandKind op).1 else none
  else if isSensor op then if count = 0 then some (sensorKind op) else none
  else if isComparison op || isBooleanOp op || isArithmetic op then operatorKind? op count
  else if arity.lookup op = some count then some .call
  else none

theorem blockKind?_cases {op : String} {kind : NodeKind} (known : blockKind? op = some kind) :
    (op = "repeat" ∧ kind = .repeatForm) ∨ (op = "when" ∧ kind = .whenForm) ∨
      (op = "while" ∧ kind = .whileForm) := by
  rw [blockKind?] at known
  split_ifs at known with isRepeat isWhen isWhile
  · exact .inl ⟨isRepeat, (Option.some.inj known).symm⟩
  · exact .inr (.inl ⟨isWhen, (Option.some.inj known).symm⟩)
  · exact .inr (.inr ⟨isWhile, (Option.some.inj known).symm⟩)

theorem operatorKind?_cases {op : String} {count : Nat} {kind : NodeKind}
    (allowed : operatorKind? op count = some kind) :
    (kind = .compare ∧ count = 2) ∨ (kind = .arithmetic ∧ 2 ≤ count) ∨
      (kind = .booleanOp ∧ 1 ≤ count) := by
  rw [operatorKind?] at allowed
  split_ifs at allowed with _ two _ _ few _ one few
  · cases allowed
    exact .inl ⟨rfl, two⟩
  · cases allowed
    exact .inr (.inl ⟨rfl, by omega⟩)
  · cases allowed
    exact .inr (.inr ⟨rfl, by omega⟩)
  · cases allowed
    exact .inr (.inr ⟨rfl, by omega⟩)

/-- Every way in which a form whose items are all arguments is accepted. -/
theorem operationKind?_cases {arity : ArityTable} {op : String} {count : Nat}
    {kind : NodeKind} (allowed : operationKind? arity op count = some kind) :
    (kind = .ifForm ∧ count = 3) ∨
      (kind = (commandKind op).1 ∧ count = (commandKind op).2) ∨
      (kind = sensorKind op ∧ count = 0) ∨
      operatorKind? op count = some kind ∨
      (kind = .call ∧ arity.lookup op = some count) := by
  rw [operationKind?] at allowed
  split_ifs at allowed with _ three command wanted sensor none operator known
  · cases allowed
    exact .inl ⟨rfl, three⟩
  · cases allowed
    exact .inr (.inl ⟨rfl, wanted⟩)
  · cases allowed
    exact .inr (.inr (.inl ⟨rfl, none⟩))
  · exact .inr (.inr (.inr (.inl allowed)))
  · cases allowed
    exact .inr (.inr (.inr (.inr ⟨rfl, known⟩)))

/-- Items that are all plain names, none of them reserved. -/
inductive AreNames : List RawExpr → List String → Prop
  | nil : AreNames [] []
  | cons {span name items names} :
      isReserved name = false → AreNames items names →
      AreNames (.symbol span name :: items) (name :: names)

/-- `Elaborates arity raw topLevel node`: the accepted expression becomes the
node, whatever id the node is given. -/
inductive Elaborates (arity : ArityTable) : RawExpr → Bool → Node → Prop
  | integer {id span value topLevel} :
      Elaborates arity (.integer span value) topLevel
        { id, kind := .integerLiteral, span, nums := [value] }
  | symbol {id span name topLevel} :
      Elaborates arity (.symbol span name) topLevel { compileSymbol span name with id }
  | sequence {id span headSpan items children topLevel} :
      items.length = children.length →
      (∀ pair ∈ items.zip children, Elaborates arity pair.1 false pair.2) →
      Elaborates arity (.list span (.symbol headSpan "do" :: items)) topLevel
        { id, kind := .doForm, span, op := "do", children }
  | block {id span headSpan op kind leading arg body children topLevel} :
      blockKind? op = some kind →
      Elaborates arity leading false arg →
      body.length = children.length →
      (∀ pair ∈ body.zip children, Elaborates arity pair.1 false pair.2) →
      Elaborates arity (.list span (.symbol headSpan op :: leading :: body)) topLevel
        { id, kind, span, op, args := [arg], children }
  | operation {id span headSpan op kind items args topLevel} :
      op ≠ "do" → blockKind? op = none → op ≠ "define" → op ≠ "set!" →
      operationKind? arity op items.length = some kind →
      items.length = args.length →
      (∀ pair ∈ items.zip args, Elaborates arity pair.1 false pair.2) →
      Elaborates arity (.list span (.symbol headSpan op :: items)) topLevel
        { id, kind, span, op, args }
  | defineVar {id span headSpan nameSpan name value arg topLevel} :
      isReserved name = false → Elaborates arity value false arg →
      Elaborates arity
        (.list span [.symbol headSpan "define", .symbol nameSpan name, value]) topLevel
        { id, kind := .defineVar, span, op := name, args := [arg] }
  | defineFunc {id span headSpan targetSpan nameSpan name items params body children} :
      isBuiltinName name = false → AreNames items params →
      body.length = children.length →
      (∀ pair ∈ body.zip children, Elaborates arity pair.1 false pair.2) →
      Elaborates arity
        (.list span (.symbol headSpan "define" ::
          .list targetSpan (.symbol nameSpan name :: items) :: body)) true
        { id, kind := .defineFunc, span, op := name, children, params }
  | setVar {id span headSpan nameSpan name value arg topLevel} :
      isReserved name = false → Elaborates arity value false arg →
      Elaborates arity
        (.list span [.symbol headSpan "set!", .symbol nameSpan name, value]) topLevel
        { id, kind := .setVar, span, op := name, args := [arg] }

/-! ## Operands -/

/-- An operand whose error-free compilation follows the rules. -/
def Operand.Sound (arity : ArityTable) (operand : Operand) : Prop :=
  operand.compileValue.Clean →
    ∃ node, operand.compileValue.value = some node ∧
      Elaborates arity operand.raw false node

/-- A row of expressions and the nodes they become, one for each. -/
def ElaboratesAll (arity : ArityTable) (topLevel : Bool) (items : List RawExpr)
    (nodes : List Node) : Prop :=
  items.length = nodes.length ∧
    ∀ pair ∈ items.zip nodes, Elaborates arity pair.1 topLevel pair.2

theorem ElaboratesAll.cons {arity : ArityTable} {topLevel : Bool} {item : RawExpr}
    {node : Node} {items : List RawExpr} {nodes : List Node}
    (head : Elaborates arity item topLevel node)
    (tail : ElaboratesAll arity topLevel items nodes) :
    ElaboratesAll arity topLevel (item :: items) (node :: nodes) := by
  refine ⟨congrArg Nat.succ tail.1, ?_⟩
  intro pair member
  rcases List.mem_cons.mp member with equal | member
  · rw [equal]
    exact head
  · exact tail.2 pair member

theorem compileOperands_elaborates {arity : ArityTable} {operands : List Operand}
    (sound : ∀ operand ∈ operands, operand.Sound arity)
    (clean : (compileOperands operands).Clean) :
    ElaboratesAll arity false (operands.map Operand.raw) (compileOperands operands).value := by
  induction operands with
  | nil => exact ⟨rfl, fun _ member => nomatch member⟩
  | cons operand rest induction =>
      simp only [compileOperands, clean_bind, clean_pure, and_true] at clean
      rcases sound operand (by simp) clean.1 with ⟨node, found, elaborates⟩
      have tail := induction (fun other member => sound other (by simp [member])) clean.2
      have value : (compileOperands (operand :: rest)).value =
          node :: (compileOperands rest).value := by
        simp [compileOperands, found]
      rw [value]
      exact tail.cons elaborates

/-! ## Forms -/

section Forms

variable {arity : ArityTable} {span headSpan : SourceSpan} {op : String}
variable {operands : List Operand} {topLevel : Bool}

/-- A compiled form follows the rules for the list it was written as. -/
def FormElaborates (arity : ArityTable) (raw : RawExpr) (topLevel : Bool)
    (compiled : Compile (Option Node)) : Prop :=
  compiled.Clean → ∃ node, compiled.value = some node ∧ Elaborates arity raw topLevel node

theorem reject_elaborates {raw : RawExpr} {message : String} :
    FormElaborates arity raw topLevel (reject span message) :=
  fun clean => absurd clean (clean_reject span message)

/-- The step shared by all forms whose items are arguments. -/
theorem arguments_elaborate {kind : NodeKind}
    (sound : ∀ operand ∈ operands, operand.Sound arity)
    (rule : ∀ args, ElaboratesAll arity false (operands.map Operand.raw) args →
      Elaborates arity (.list span (.symbol headSpan op :: operands.map Operand.raw)) topLevel
        { kind, span, op, args }) :
    FormElaborates arity (.list span (.symbol headSpan op :: operands.map Operand.raw)) topLevel
      (do
        let args ← compileOperands operands
        keepIf (args.length = operands.length) { kind, span, op, args }) := by
  intro clean
  simp only [clean_bind] at clean
  have all := compileOperands_elaborates sound clean.1
  have complete : (compileOperands operands).value.length = operands.length := by
    rw [← all.1, List.length_map]
  refine ⟨_, ?_, rule _ all⟩
  simp [keepIf, complete]

theorem compileCall_elaborates (sound : ∀ operand ∈ operands, operand.Sound arity)
    (rule : ∀ args, arity.lookup op = some operands.length →
      ElaboratesAll arity false (operands.map Operand.raw) args →
      Elaborates arity (.list span (.symbol headSpan op :: operands.map Operand.raw)) topLevel
        { kind := .call, span, op, args }) :
    FormElaborates arity (.list span (.symbol headSpan op :: operands.map Operand.raw)) topLevel
      (compileCall arity span headSpan op operands) := by
  rw [compileCall]
  cases found : arity.lookup op with
  | none => exact reject_elaborates
  | some expected =>
      by_cases count : operands.length = expected
      · simp only [count, ne_eq, not_true_eq_false, if_false]
        rw [← count]
        exact arguments_elaborate sound fun args => rule args (by rw [found, count])
      · simp only [count, ne_eq, not_false_eq_true, if_true]
        exact reject_elaborates

theorem compileCommand_elaborates (sound : ∀ operand ∈ operands, operand.Sound arity)
    (rule : ∀ args, operands.length = (commandKind op).2 →
      ElaboratesAll arity false (operands.map Operand.raw) args →
      Elaborates arity (.list span (.symbol headSpan op :: operands.map Operand.raw)) topLevel
        { kind := (commandKind op).1, span, op, args }) :
    FormElaborates arity (.list span (.symbol headSpan op :: operands.map Operand.raw)) topLevel
      (compileCommand span op operands) := by
  rw [compileCommand]
  by_cases count : operands.length = (commandKind op).2
  · rw [if_neg (by simp [count])]
    intro clean
    rw [clean_bind] at clean
    exact arguments_elaborate sound (fun args => rule args count) clean.2
  · rw [if_pos (by simp [count])]
    exact reject_elaborates

theorem compileOperator_elaborates (sound : ∀ operand ∈ operands, operand.Sound arity)
    (rule : ∀ kind args, operatorKind? op operands.length = some kind →
      ElaboratesAll arity false (operands.map Operand.raw) args →
      Elaborates arity (.list span (.symbol headSpan op :: operands.map Operand.raw)) topLevel
        { kind, span, op, args }) :
    FormElaborates arity (.list span (.symbol headSpan op :: operands.map Operand.raw)) topLevel
      (compileOperator span op operands) := by
  have accepted (kind : NodeKind) (allowed : operatorKind? op operands.length = some kind) :
      FormElaborates arity (.list span (.symbol headSpan op :: operands.map Operand.raw))
        topLevel (do
          let args ← compileOperands operands
          keepIf (args.length = operands.length) { kind, span, op, args }) :=
    arguments_elaborate sound fun args => rule kind args allowed
  rw [compileOperator]
  by_cases comparison : isComparison op = true
  · simp only [comparison, if_true]
    split
    · exact reject_elaborates
    next count =>
      refine accepted .compare ?_
      rw [operatorKind?]
      rw [if_pos comparison, if_pos (not_not.mp count)]
  · simp only [comparison, Bool.false_eq_true, if_false]
    by_cases arithmetic : isArithmetic op = true
    · simp only [arithmetic, if_true]
      split
      · exact reject_elaborates
      next binary =>
        split
        · exact reject_elaborates
        next several =>
          have enough : ¬ operands.length < 2 := by
            simp only [isArithmetic, Bool.or_eq_true, decide_eq_true_eq] at arithmetic
            simp only [Bool.and_eq_true, Bool.or_eq_true, decide_eq_true_eq] at binary several
            intro few
            rcases arithmetic with ((sum | difference) | product) | quotient
            · exact several ⟨.inl sum, few⟩
            · exact binary ⟨.inl difference, by omega⟩
            · exact several ⟨.inr product, few⟩
            · exact binary ⟨.inr quotient, by omega⟩
          refine accepted .arithmetic ?_
          rw [operatorKind?]
          rw [if_neg comparison, if_pos arithmetic, if_neg binary, if_neg enough]
    · simp only [arithmetic, Bool.false_eq_true, if_false]
      split
      next negation =>
        split
        · exact reject_elaborates
        next count =>
          refine accepted .booleanOp ?_
          rw [operatorKind?]
          rw [if_neg comparison, if_neg arithmetic, if_pos negation,
            if_pos (not_not.mp count)]
      next negation =>
        split
        · exact reject_elaborates
        next several =>
          refine accepted .booleanOp ?_
          rw [operatorKind?]
          rw [if_neg comparison, if_neg arithmetic, if_neg negation, if_neg several]

theorem block_elaborates {kind : NodeKind} {leading : Operand} {body : List Operand}
    (known : blockKind? op = some kind) (leadingSound : leading.Sound arity)
    (sound : ∀ operand ∈ body, operand.Sound arity) :
    FormElaborates arity
      (.list span (.symbol headSpan op :: leading.raw :: body.map Operand.raw)) topLevel
      (compileBlock kind span op leading body) := by
  intro clean
  simp only [compileBlock, compileOperands, clean_bind, clean_pure, and_true] at clean
  rcases leadingSound clean.1 with ⟨arg, found, elaborates⟩
  have all := compileOperands_elaborates sound clean.2.1
  refine ⟨{ kind, span, op, args := [arg], children := _ }, ?_,
    .block known elaborates all.1 all.2⟩
  simp [compileBlock, compileOperands, found, keepIf]

theorem compileSet_elaborates (sound : ∀ operand ∈ operands, operand.Sound arity) :
    FormElaborates arity
      (.list span (.symbol headSpan "set!" :: operands.map Operand.raw)) topLevel
      (compileSet span operands) := by
  unfold compileSet
  split
  next target value =>
    have valueSound := sound value (by simp)
    split
    next targetSpan name equal =>
      split
      · exact reject_elaborates
      next unreserved =>
        intro clean
        simp only [compileOperands, clean_bind, clean_pure, and_true] at clean
        rcases valueSound clean.1 with ⟨arg, found, elaborates⟩
        simp only [List.map_cons, List.map_nil, equal]
        refine ⟨{ kind := .setVar, span, op := name, args := [arg] }, ?_,
          .setVar (by simpa using unreserved) elaborates⟩
        simp [compileOperands, found, keepIf]
    · exact reject_elaborates
  · exact reject_elaborates

theorem compileParams_names {items : List RawExpr} (clean : (compileParams items).Clean) :
    AreNames items (compileParams items).value := by
  induction items with
  | nil => exact .nil
  | cons item rest induction =>
      cases item with
      | symbol nameSpan name =>
          cases reserved : isReserved name with
          | true => simp [compileParams, reserved] at clean
          | false =>
              simp only [compileParams, reserved, Bool.false_eq_true, if_false, clean_bind,
                clean_pure, and_true] at clean
              have names := @AreNames.cons nameSpan _ _ _ reserved (induction clean)
              simpa [compileParams, reserved] using names
      | list => simp [compileParams] at clean
      | integer => simp [compileParams] at clean

theorem compileDefine_elaborates (sound : ∀ operand ∈ operands, operand.Sound arity) :
    FormElaborates arity
      (.list span (.symbol headSpan "define" :: operands.map Operand.raw)) topLevel
      (compileDefine span operands topLevel) := by
  unfold compileDefine
  cases operands with
  | nil => exact reject_elaborates
  | cons target body =>
      have bodySound : ∀ operand ∈ body, operand.Sound arity :=
        fun operand member => sound operand (by simp [member])
      rw [List.map_cons]
      dsimp only
      cases shape : target.raw with
      | integer => exact reject_elaborates
      | symbol targetSpan name =>
          dsimp only
          split
          · exact reject_elaborates
          next two =>
            split
            · exact reject_elaborates
            next unreserved =>
              cases body with
              | nil => exact absurd (not_not.mp two) (by simp)
              | cons value rest =>
                  cases rest with
                  | cons => simp at two
                  | nil =>
                      intro clean
                      simp only [compileOperands, clean_bind, clean_pure, and_true] at clean
                      rcases bodySound value (by simp) clean.1 with ⟨arg, found, elaborates⟩
                      refine ⟨{ kind := .defineVar, span, op := name, args := [arg] }, ?_,
                        .defineVar (by simpa using unreserved) elaborates⟩
                      simp [compileOperands, found, keepIf]
      | list targetSpan items =>
          cases topLevel with
          | false => exact reject_elaborates
          | true =>
              dsimp only
              rw [if_neg (show ¬ (!true) = true by decide)]
              split
              next nameSpan name params =>
                split
                · exact reject_elaborates
                next free =>
                  intro clean
                  simp only [clean_bind, clean_pure, and_true] at clean
                  have all := compileOperands_elaborates bodySound clean.2
                  exact ⟨_, rfl, .defineFunc (by simpa using free)
                    (compileParams_names clean.1) all.1 all.2⟩
              · exact reject_elaborates

/-- What `compile_form` accepts follows the rules. -/
theorem compileForm_elaborates (sound : ∀ operand ∈ operands, operand.Sound arity) :
    FormElaborates arity (.list span (.symbol headSpan op :: operands.map Operand.raw)) topLevel
      (compileForm arity span headSpan op operands topLevel) := by
  unfold compileForm
  by_cases isDo : op = "do"
  · rw [if_pos isDo, isDo]
    intro clean
    simp only [clean_bind, clean_pure, and_true] at clean
    have all := compileOperands_elaborates sound clean
    exact ⟨_, rfl, .sequence all.1 all.2⟩
  rw [if_neg isDo]
  by_cases isRepeat : op = "repeat"
  · rw [if_pos isRepeat]
    cases operands with
    | nil => exact reject_elaborates
    | cons count body =>
        intro clean
        rw [clean_bind] at clean
        exact block_elaborates (by simp [blockKind?, isRepeat]) (sound count (by simp))
          (fun operand member => sound operand (by simp [member])) clean.2
  rw [if_neg isRepeat]
  by_cases isWhen : op = "when"
  · rw [if_pos isWhen]
    cases operands with
    | nil => exact reject_elaborates
    | cons condition body =>
        exact block_elaborates (by simp [blockKind?, isWhen]) (sound condition (by simp))
          (fun operand member => sound operand (by simp [member]))
  rw [if_neg isWhen]
  by_cases isIf : op = "if"
  · rw [if_pos isIf]
    split
    · exact reject_elaborates
    next three =>
      intro clean
      simp only [clean_bind] at clean
      have all := compileOperands_elaborates sound clean.1
      have complete : (compileOperands operands).value.length = 3 := by
        rw [← all.1, List.length_map]
        exact not_not.mp three
      have allowed : operationKind? arity op (operands.map Operand.raw).length =
          some .ifForm := by
        rw [List.length_map, operationKind?, if_pos isIf, if_pos (not_not.mp three)]
      have notBlock : blockKind? op = none := by simp [blockKind?, isIf]
      refine ⟨{ kind := .ifForm, span, op, args := _ }, ?_,
        .operation isDo notBlock ?_ ?_ allowed all.1 all.2⟩
      · simp [keepIf, complete]
      · simp [isIf]
      · simp [isIf]
  rw [if_neg isIf]
  by_cases isWhile : op = "while"
  · rw [if_pos isWhile]
    cases operands with
    | nil => exact reject_elaborates
    | cons condition body =>
        exact block_elaborates (by simp [blockKind?, isWhile]) (sound condition (by simp))
          (fun operand member => sound operand (by simp [member]))
  rw [if_neg isWhile]
  by_cases isDefine : op = "define"
  · rw [if_pos isDefine, isDefine]
    exact compileDefine_elaborates sound
  rw [if_neg isDefine]
  by_cases isSet : op = "set!"
  · rw [if_pos isSet, isSet]
    exact compileSet_elaborates sound
  rw [if_neg isSet]
  have notBlock : blockKind? op = none := by
    rw [blockKind?, if_neg isRepeat, if_neg isWhen, if_neg isWhile]
  have rule (kind : NodeKind) (args : List Node)
      (allowed : operationKind? arity op operands.length = some kind)
      (all : ElaboratesAll arity false (operands.map Operand.raw) args) :
      Elaborates arity (.list span (.symbol headSpan op :: operands.map Operand.raw)) topLevel
        { kind, span, op, args } :=
    .operation isDo notBlock isDefine isSet (by rw [List.length_map]; exact allowed) all.1 all.2
  by_cases command : isCommand op = true
  · rw [if_pos command]
    refine compileCommand_elaborates sound fun args count => rule _ args ?_
    rw [operationKind?, if_neg isIf, if_pos command, if_pos count]
  rw [if_neg command]
  by_cases sensor : isSensor op = true
  · rw [if_pos sensor]
    split
    · exact reject_elaborates
    next bare =>
      have empty : operands = [] := List.length_eq_zero_iff.mp (not_not.mp bare)
      intro _
      refine ⟨_, rfl, rule _ [] ?_ ?_⟩
      · rw [operationKind?, if_neg isIf, if_neg command, if_pos sensor,
          if_pos (not_not.mp bare)]
      · rw [empty]
        exact ⟨rfl, fun _ member => nomatch member⟩
  rw [if_neg sensor]
  by_cases operator : (isComparison op || isBooleanOp op || isArithmetic op) = true
  · rw [if_pos operator]
    refine compileOperator_elaborates sound fun kind args allowed => rule kind args ?_
    rw [operationKind?, if_neg isIf, if_neg command, if_neg sensor, if_pos operator, allowed]
  · rw [if_neg operator]
    refine compileCall_elaborates sound fun args known => rule .call args ?_
    rw [operationKind?, if_neg isIf, if_neg command, if_neg sensor, if_neg operator,
      if_pos known]

end Forms

theorem map_raw_operandsOf (arity : ArityTable) (items : List RawExpr) :
    (operandsOf arity items).map Operand.raw = items := by
  induction items with
  | nil => rfl
  | cons item rest induction => rw [operandsOf, List.map_cons, induction]

theorem operandsOf_sound {arity : ArityTable} {items : List RawExpr}
    (sound : ∀ item ∈ items, ∀ topLevel,
      FormElaborates arity item topLevel (compileExpr arity item topLevel)) :
    ∀ operand ∈ operandsOf arity items, operand.Sound arity := by
  induction items with
  | nil => exact fun _ member => nomatch member
  | cons item rest induction =>
      intro operand member
      rcases List.mem_cons.mp member with equal | member
      · rw [equal]
        exact sound item (by simp) false
      · exact induction (fun other present => sound other (by simp [present])) operand member

/-- A symbol is a literal or a variable. -/
theorem compileSymbol_cases (span : SourceSpan) (name : String) :
    ((name = "true" ∨ name = "false") ∧
        compileSymbol span name =
          { kind := .booleanLiteral, span, op := name,
            nums := [if name = "true" then 1 else 0] }) ∨
      (∃ color, Color.fromName name = some color ∧
        compileSymbol span name =
          { kind := .colorLiteral, span, op := name, nums := [color.ordinal] }) ∨
      (isReserved name = false ∧
        compileSymbol span name = { kind := .varRef, span, op := name }) := by
  rw [compileSymbol]
  by_cases boolean : name = "true" ∨ name = "false"
  · rw [if_pos (by simpa using boolean)]
    exact .inl ⟨boolean, rfl⟩
  · rw [if_neg (by simpa using boolean)]
    cases found : Color.fromName name with
    | some color => exact .inr (.inl ⟨color, rfl, rfl⟩)
    | none =>
        rw [not_or] at boolean
        exact .inr (.inr ⟨by simp [isReserved, boolean.1, boolean.2, found], rfl⟩)

/-- What `compile_expr` accepts follows the rules. -/
theorem compileExpr_elaborates (arity : ArityTable) (raw : RawExpr) :
    ∀ topLevel, FormElaborates arity raw topLevel (compileExpr arity raw topLevel) := by
  induction raw using RawExpr.induct with
  | symbol span name =>
      intro topLevel clean
      have unnumbered : ({ compileSymbol span name with id := 0 } : Node) =
          compileSymbol span name := by
        rcases compileSymbol_cases span name with ⟨-, node⟩ | ⟨color, -, node⟩ | ⟨-, node⟩ <;>
          rw [node]
      exact ⟨_, rfl, unnumbered ▸ .symbol⟩
  | integer span value => exact fun _ _ => ⟨_, rfl, .integer⟩
  | list span items induction =>
      intro topLevel
      cases items with
      | nil => exact reject_elaborates
      | cons head args =>
          cases head with
          | list => exact reject_elaborates
          | integer => exact reject_elaborates
          | symbol headSpan op =>
              have sound : ∀ operand ∈ operandsOf arity args, operand.Sound arity :=
                operandsOf_sound fun item member => induction item (by simp [member])
              have form := @compileForm_elaborates arity span headSpan op _ topLevel sound
              rw [map_raw_operandsOf] at form
              exact form

/-! ## Numbering keeps the rules -/

theorem numberedAll_elaborates {arity : ArityTable} {topLevel : Bool}
    {items : List RawExpr} {nodes : List Node} (count : items.length = nodes.length)
    (each : ∀ pair ∈ items.zip nodes, ∀ next,
      Elaborates arity pair.1 topLevel (pair.2.assignPreorder next).1) (next : UInt32) :
    ElaboratesAll arity topLevel items (Node.assignPreorderAll nodes next).1 := by
  induction nodes generalizing items next with
  | nil =>
      rw [List.length_eq_zero_iff.mp count]
      exact ⟨rfl, fun _ member => nomatch member⟩
  | cons node rest induction =>
      cases items with
      | nil => cases count
      | cons item items =>
          have head := each (item, node) (by simp) next
          have tail := induction (Nat.succ.inj count)
            (fun pair member => each pair (by simp [member])) (node.assignPreorder next).2
          exact tail.cons head

/-- Symbols compile to nodes that take no number. -/
theorem compileSymbol_numbered (id : UInt32) (span : SourceSpan) (name : String)
    (next : UInt32) :
    Node.assignPreorder { compileSymbol span name with id } next =
      ({ compileSymbol span name with id }, next) := by
  rcases compileSymbol_cases span name with ⟨-, node⟩ | ⟨color, -, node⟩ | ⟨-, node⟩ <;>
    rw [node] <;> rfl

theorem Elaborates.numbered {arity : ArityTable} {raw : RawExpr} {topLevel : Bool}
    {node : Node} (elaborates : Elaborates arity raw topLevel node) :
    ∀ next, Elaborates arity raw topLevel (node.assignPreorder next).1 := by
  induction elaborates with
  | integer => exact fun _ => .integer
  | symbol =>
      intro next
      rw [compileSymbol_numbered]
      exact .symbol
  | sequence count _ induction =>
      intro next
      have all := numberedAll_elaborates count induction
      exact .sequence (all _).1 (all _).2
  | block known _ count _ argInduction induction =>
      intro next
      have all := numberedAll_elaborates count induction
      exact .block known (argInduction _) (all _).1 (all _).2
  | operation isDo block define set allowed count _ induction =>
      intro next
      have all := numberedAll_elaborates count induction
      exact .operation isDo block define set allowed (all _).1 (all _).2
  | defineVar unreserved _ induction => exact fun _ => .defineVar unreserved (induction _)
  | defineFunc free names count _ induction =>
      intro next
      have all := numberedAll_elaborates count induction
      exact .defineFunc free names (all _).1 (all _).2
  | setVar unreserved _ induction => exact fun _ => .setVar unreserved (induction _)

end CardCode
