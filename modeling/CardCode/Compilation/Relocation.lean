import CardCode.Engine.Compiler
import CardCode.Syntax.Relocation

/-! # Compiling elsewhere

The compiler looks at spans no more than the parser does: expressions that stand
elsewhere become the same tree, with the same diagnostics in the same order.
-/

namespace CardCode

variable (labels : Relabelling) {α β γ δ : Type}

/-! ## Compilations -/

/-- `other` is what becomes of `compiled` elsewhere. -/
def Compile.Moves (change : α → β) (compiled : Compile α) (other : Compile β) : Prop :=
  other = ⟨change compiled.value, compiled.diagnostics.map (Diagnostic.relabel labels)⟩

open Compile

theorem moves_pure {change : α → β} (value : α) :
    Moves labels change (pure value) (pure (change value)) := rfl

variable {labels}

theorem moves_bind {first : α → β} {second : γ → δ} {compiled : Compile α} {other : Compile β}
    {next : α → Compile γ} {following : β → Compile δ} (head : Moves labels first compiled other)
    (tail : ∀ value, Moves labels second (next value) (following (first value))) :
    Moves labels second (compiled >>= next) (other >>= following) := by
  have rest := tail compiled.value
  rw [Moves] at head rest ⊢
  change Compile.bind other following = _
  rw [Compile.bind, head, rest, ← List.map_append]
  rfl

theorem moves_ite {change : α → β} {condition otherCondition : Prop} [Decidable condition]
    [Decidable otherCondition] {yes no : Compile α} {otherYes otherNo : Compile β}
    (same : otherCondition ↔ condition) (whenYes : condition → Moves labels change yes otherYes)
    (whenNo : ¬ condition → Moves labels change no otherNo) :
    Moves labels change (if condition then yes else no)
      (if otherCondition then otherYes else otherNo) := by
  by_cases holds : condition
  · rw [if_pos holds, if_pos (same.mpr holds)]
    exact whenYes holds
  · rw [if_neg holds, if_neg (mt same.mp holds)]
    exact whenNo holds

variable (labels)

theorem moves_err (span : SourceSpan) (message : String) :
    Moves labels id (err span message) (err (labels.span span) message) := rfl

/-- What becomes of the node of an expression. -/
abbrev MovesNode (compiled other : Compile (Option Node)) : Prop :=
  Moves labels (Option.map (Node.relabel labels)) compiled other

theorem moves_reject (span : SourceSpan) (message : String) :
    MovesNode labels (reject span message) (reject (labels.span span) message) := rfl

/-- A node that has no id yet. -/
theorem Node.relabel_new (kind : NodeKind) (span : SourceSpan) (op : String)
    (args children : List Node) (nums : List Int64) (params : List String) :
    Node.relabel labels ⟨0, kind, span, op, args, children, nums, params⟩ =
      ⟨0, kind, labels.span span, op, args.map (Node.relabel labels),
        children.map (Node.relabel labels), nums, params⟩ := by
  rw [Node.relabel_eq, labels.id_zero]

theorem moves_new (kind : NodeKind) (span : SourceSpan) (op : String)
    (args children : List Node) (nums : List Int64) (params : List String) :
    MovesNode labels (pure (some ⟨0, kind, span, op, args, children, nums, params⟩))
      (pure (some ⟨0, kind, labels.span span, op, args.map (Node.relabel labels),
        children.map (Node.relabel labels), nums, params⟩)) := by
  rw [← Node.relabel_new]
  exact moves_pure labels _

theorem moves_keepIf {complete otherComplete : Bool} {node other : Node}
    (sameComplete : otherComplete = complete) (same : other = node.relabel labels) :
    MovesNode labels (keepIf complete node) (keepIf otherComplete other) := by
  rw [sameComplete, same, keepIf, keepIf]
  cases complete with
  | true => exact moves_pure labels _
  | false => exact moves_pure labels _

/-! ## Forms -/

def Operand.relabel (operand : Operand) : Operand where
  raw := operand.raw.relabel labels
  compileValue :=
    ⟨operand.compileValue.value.map (Node.relabel labels),
      operand.compileValue.diagnostics.map (Diagnostic.relabel labels)⟩

theorem compileOperands_moves (operands : List Operand) :
    Moves labels (List.map (Node.relabel labels)) (compileOperands operands)
      (compileOperands (operands.map (Operand.relabel labels))) := by
  induction operands with
  | nil => rfl
  | cons operand rest induction =>
      have head : MovesNode labels operand.compileValue (operand.relabel labels).compileValue := rfl
      apply moves_bind head
      intro node
      apply moves_bind induction
      intro nodes
      cases node with
      | none => rfl
      | some node => rfl

/-- A node whose arguments are all that is compiled for it. -/
theorem arguments_move (kind : NodeKind) (span : SourceSpan) (op : String)
    (operands : List Operand) (count : Nat) :
    MovesNode labels
      (do let args ← compileOperands operands
          keepIf (args.length = count) { kind, span, op, args })
      (do let args ← compileOperands (operands.map (Operand.relabel labels))
          keepIf (args.length = count) { kind, span := labels.span span, op, args }) := by
  apply moves_bind (compileOperands_moves labels operands)
  intro args
  apply moves_keepIf
  · rw [List.length_map]
  · exact (Node.relabel_new labels kind span op args [] [] []).symm

theorem compileCall_moves (arity : ArityTable) (span headSpan : SourceSpan) (op : String)
    (operands : List Operand) :
    MovesNode labels (compileCall arity span headSpan op operands)
      (compileCall arity (labels.span span) (labels.span headSpan) op
        (operands.map (Operand.relabel labels))) := by
  rw [compileCall, compileCall]
  cases arity.lookup op with
  | none => exact moves_reject labels _ _
  | some expected =>
      simp only [List.length_map]
      exact moves_ite Iff.rfl (fun _ => moves_reject labels _ _) fun _ =>
        arguments_move labels _ _ _ _ _

theorem compileParams_moves (items : List RawExpr) :
    Moves labels id (compileParams items) (compileParams (items.map (RawExpr.relabel labels))) := by
  induction items with
  | nil => rfl
  | cons item rest induction =>
      rw [List.map_cons]
      have refused (span : SourceSpan) (message : String) :
          Moves labels id (do err span message; compileParams rest)
            (do err (labels.span span) message
                compileParams (rest.map (RawExpr.relabel labels))) :=
        moves_bind (moves_err labels span message) fun _ => induction
      cases item with
      | symbol span name =>
          rw [RawExpr.relabel_symbol, compileParams, compileParams]
          apply moves_ite Iff.rfl fun _ => refused span _
          intro _
          exact moves_bind induction fun names => moves_pure labels _
      | list span inner =>
          rw [RawExpr.relabel_list]
          exact refused span "function parameters must be names"
      | integer span value =>
          rw [RawExpr.relabel_integer]
          exact refused span "function parameters must be names"

theorem compileDefine_moves (span : SourceSpan) (operands : List Operand) (topLevel : Bool) :
    MovesNode labels (compileDefine span operands topLevel)
      (compileDefine (labels.span span) (operands.map (Operand.relabel labels)) topLevel) := by
  cases operands with
  | nil => exact moves_reject labels _ _
  | cons target body =>
      rcases target with ⟨raw, compiled⟩
      rw [List.map_cons, compileDefine, compileDefine, Operand.relabel]
      cases raw with
      | integer targetSpan value =>
          rw [RawExpr.relabel_integer]
          exact moves_reject labels _ _
      | symbol targetSpan name =>
          rw [RawExpr.relabel_symbol]
          apply moves_ite (by rw [List.length_cons, List.length_cons, List.length_map])
          · exact fun _ => moves_reject labels _ _
          · intro _
            apply moves_ite Iff.rfl fun _ => moves_reject labels _ _
            exact fun _ => arguments_move labels _ _ _ _ _
      | list targetSpan items =>
          rw [RawExpr.relabel_list]
          apply moves_ite Iff.rfl fun _ => moves_reject labels _ _
          intro _
          cases items with
          | nil => exact moves_reject labels _ _
          | cons head params =>
              rw [List.map_cons]
              cases head with
              | list _ _ =>
                  rw [RawExpr.relabel_list]
                  exact moves_reject labels _ _
              | integer _ _ =>
                  rw [RawExpr.relabel_integer]
                  exact moves_reject labels _ _
              | symbol nameSpan name =>
                  rw [RawExpr.relabel_symbol]
                  apply moves_ite Iff.rfl fun _ => moves_reject labels _ _
                  intro _
                  apply moves_bind (compileParams_moves labels params)
                  intro names
                  apply moves_bind (compileOperands_moves labels body)
                  exact fun children => moves_new labels _ _ _ [] children [] names

theorem litCheck_moves (operand : Operand) (low high : Int64) (message : String) :
    Moves labels id (litCheck operand low high message)
      (litCheck (operand.relabel labels) low high message) := by
  rcases operand with ⟨raw, compiled⟩
  rw [litCheck, litCheck, Operand.relabel]
  cases raw with
  | integer span value =>
      rw [RawExpr.relabel_integer]
      exact moves_ite Iff.rfl (fun _ => moves_err labels _ _) fun _ => moves_pure labels ()
  | list _ _ =>
      rw [RawExpr.relabel_list]
      exact moves_pure labels ()
  | symbol _ _ =>
      rw [RawExpr.relabel_symbol]
      exact moves_pure labels ()

theorem repeatCheck_moves (count : Operand) :
    Moves labels id (repeatCheck count) (repeatCheck (count.relabel labels)) := by
  rcases count with ⟨raw, compiled⟩
  rw [repeatCheck, repeatCheck, Operand.relabel]
  cases raw with
  | integer span value =>
      rw [RawExpr.relabel_integer]
      apply moves_ite Iff.rfl fun _ => moves_err labels _ _
      intro _
      exact moves_ite Iff.rfl (fun _ => moves_err labels _ _) fun _ => moves_pure labels ()
  | list _ _ =>
      rw [RawExpr.relabel_list]
      exact moves_pure labels ()
  | symbol _ _ =>
      rw [RawExpr.relabel_symbol]
      exact moves_pure labels ()

theorem commandChecks_moves (kind : NodeKind) (operands : List Operand) :
    Moves labels id (commandChecks kind operands)
      (commandChecks kind (operands.map (Operand.relabel labels))) := by
  rw [commandChecks.eq_def, commandChecks.eq_def]
  cases kind with
  | drive | backward =>
      cases operands with
      | nil => exact moves_pure labels ()
      | cons speed rest =>
          cases rest with
          | nil => exact moves_pure labels ()
          | cons duration rest =>
              exact moves_bind (litCheck_moves labels speed _ _ _) fun _ =>
                litCheck_moves labels duration _ _ _
  | turnLeft | turnRight =>
      cases operands with
      | nil => exact moves_pure labels ()
      | cons degrees rest => exact litCheck_moves labels degrees _ _ _
  | wait =>
      cases operands with
      | nil => exact moves_pure labels ()
      | cons duration rest => exact litCheck_moves labels duration _ _ _
  | _ => exact moves_pure labels ()

theorem compileCommand_moves (span : SourceSpan) (op : String) (operands : List Operand) :
    MovesNode labels (compileCommand span op operands)
      (compileCommand (labels.span span) op (operands.map (Operand.relabel labels))) := by
  rw [compileCommand, compileCommand]
  simp only [List.length_map]
  apply moves_ite Iff.rfl fun _ => moves_reject labels _ _
  intro _
  exact moves_bind (commandChecks_moves labels _ operands) fun _ =>
    arguments_move labels _ _ _ _ _

theorem compileOperator_moves (span : SourceSpan) (op : String) (operands : List Operand) :
    MovesNode labels (compileOperator span op operands)
      (compileOperator (labels.span span) op (operands.map (Operand.relabel labels))) := by
  have refused (message : String) := moves_reject labels span message
  have built (kind : NodeKind) := arguments_move labels kind span op operands operands.length
  rw [compileOperator, compileOperator]
  simp only [List.length_map]
  apply moves_ite Iff.rfl
  · intro _
    exact moves_ite Iff.rfl (fun _ => refused _) fun _ => built .compare
  intro _
  apply moves_ite Iff.rfl
  · intro _
    apply moves_ite Iff.rfl fun _ => refused _
    intro _
    exact moves_ite Iff.rfl (fun _ => refused _) fun _ => built .arithmetic
  intro _
  apply moves_ite Iff.rfl
  · intro _
    exact moves_ite Iff.rfl (fun _ => refused _) fun _ => built .booleanOp
  intro _
  exact moves_ite Iff.rfl (fun _ => refused _) fun _ => built .booleanOp

theorem compileBlock_moves (kind : NodeKind) (span : SourceSpan) (op : String)
    (leading : Operand) (body : List Operand) :
    MovesNode labels (compileBlock kind span op leading body)
      (compileBlock kind (labels.span span) op (leading.relabel labels)
        (body.map (Operand.relabel labels))) := by
  apply moves_bind (compileOperands_moves labels [leading])
  intro args
  apply moves_bind (compileOperands_moves labels body)
  intro children
  apply moves_keepIf
  · rw [List.length_map]
  · exact (Node.relabel_new labels kind span op args children [] []).symm

theorem compileSet_moves (span : SourceSpan) (operands : List Operand) :
    MovesNode labels (compileSet span operands)
      (compileSet (labels.span span) (operands.map (Operand.relabel labels))) := by
  rw [compileSet.eq_def, compileSet.eq_def]
  cases operands with
  | nil => exact moves_reject labels _ _
  | cons target rest =>
      cases rest with
      | nil => exact moves_reject labels _ _
      | cons value rest =>
          cases rest with
          | cons _ _ => exact moves_reject labels _ _
          | nil =>
              rcases target with ⟨raw, compiled⟩
              simp only [List.map_cons, List.map_nil, Operand.relabel]
              cases raw with
              | symbol targetSpan name =>
                  rw [RawExpr.relabel_symbol]
                  apply moves_ite Iff.rfl fun _ => moves_reject labels _ _
                  exact fun _ => arguments_move labels .setVar span name [value] 1
              | list _ _ =>
                  rw [RawExpr.relabel_list]
                  exact moves_reject labels _ _
              | integer _ _ =>
                  rw [RawExpr.relabel_integer]
                  exact moves_reject labels _ _

theorem compileForm_moves (arity : ArityTable) (span headSpan : SourceSpan) (op : String)
    (operands : List Operand) (topLevel : Bool) :
    MovesNode labels (compileForm arity span headSpan op operands topLevel)
      (compileForm arity (labels.span span) (labels.span headSpan) op
        (operands.map (Operand.relabel labels)) topLevel) := by
  have refused (message : String) := moves_reject labels span message
  rw [compileForm.eq_def, compileForm.eq_def]
  simp only [List.length_map]
  apply moves_ite Iff.rfl
  · intro _
    exact moves_bind (compileOperands_moves labels operands) fun children =>
      moves_new labels .doForm span op [] children [] []
  intro _
  apply moves_ite Iff.rfl
  · intro _
    cases operands with
    | nil => exact refused _
    | cons count body =>
        exact moves_bind (repeatCheck_moves labels count) fun _ =>
          compileBlock_moves labels .repeatForm span op count body
  intro _
  apply moves_ite Iff.rfl
  · intro _
    cases operands with
    | nil => exact refused _
    | cons condition body => exact compileBlock_moves labels .whenForm span op condition body
  intro _
  apply moves_ite Iff.rfl
  · intro _
    exact moves_ite Iff.rfl (fun _ => refused _) fun _ => arguments_move labels _ _ _ _ _
  intro _
  apply moves_ite Iff.rfl
  · intro _
    cases operands with
    | nil => exact refused _
    | cons condition body => exact compileBlock_moves labels .whileForm span op condition body
  intro _
  apply moves_ite Iff.rfl fun _ => compileDefine_moves labels span operands topLevel
  intro _
  apply moves_ite Iff.rfl fun _ => compileSet_moves labels span operands
  intro _
  apply moves_ite Iff.rfl fun _ => compileCommand_moves labels span op operands
  intro _
  apply moves_ite Iff.rfl
  · intro _
    exact moves_ite Iff.rfl (fun _ => refused _) fun _ => moves_new labels _ span op [] [] [] []
  intro _
  apply moves_ite Iff.rfl fun _ => compileOperator_moves labels span op operands
  exact fun _ => compileCall_moves labels arity span headSpan op operands

theorem compileSymbol_relabel (span : SourceSpan) (name : String) :
    compileSymbol (labels.span span) name = (compileSymbol span name).relabel labels := by
  rw [compileSymbol, compileSymbol]
  split
  · exact (Node.relabel_new labels _ span name [] [] _ []).symm
  · split
    · exact (Node.relabel_new labels _ span name [] [] _ []).symm
    · exact (Node.relabel_new labels _ span name [] [] _ []).symm

/-! ## Expressions -/

theorem operandsOf_relabel (arity : ArityTable) {items : List RawExpr}
    (moves : ∀ item ∈ items, MovesNode labels (compileExpr arity item false)
      (compileExpr arity (item.relabel labels) false)) :
    operandsOf arity (items.map (RawExpr.relabel labels)) =
      (operandsOf arity items).map (Operand.relabel labels) := by
  induction items with
  | nil => rw [List.map_nil, operandsOf, List.map_nil]
  | cons item rest induction =>
      have head : compileExpr arity (item.relabel labels) false = Compile.mk _ _ :=
        moves item List.mem_cons_self
      have tail := induction fun other member => moves other (List.mem_cons_of_mem _ member)
      rw [List.map_cons, operandsOf, operandsOf, List.map_cons, tail, head, Operand.relabel]

/-- An expression that stands elsewhere compiles to the same node elsewhere. -/
theorem compileExpr_moves (arity : ArityTable) :
    ∀ (raw : RawExpr) (topLevel : Bool), MovesNode labels (compileExpr arity raw topLevel)
      (compileExpr arity (raw.relabel labels) topLevel) := by
  apply RawExpr.induct
  · intro span items induction topLevel
    rw [RawExpr.relabel_list]
    cases items with
    | nil =>
        rw [List.map_nil, compileExpr, compileExpr]
        exact moves_reject labels _ _
    | cons head args =>
        rw [List.map_cons]
        cases head with
        | symbol headSpan op =>
            have operands := operandsOf_relabel labels arity fun item member =>
              induction item (List.mem_cons_of_mem _ member) false
            rw [RawExpr.relabel_symbol, compileExpr, compileExpr, operands]
            exact compileForm_moves labels arity span headSpan op _ topLevel
        | list headSpan inner =>
            rw [RawExpr.relabel_list, compileExpr, compileExpr]
            · exact moves_reject labels _ _
            · exact fun _ _ => RawExpr.noConfusion
            · exact fun _ _ => RawExpr.noConfusion
        | integer headSpan value =>
            rw [RawExpr.relabel_integer, compileExpr, compileExpr]
            · exact moves_reject labels _ _
            · exact fun _ _ => RawExpr.noConfusion
            · exact fun _ _ => RawExpr.noConfusion
  · intro span name topLevel
    rw [RawExpr.relabel_symbol, compileExpr, compileExpr, compileSymbol_relabel]
    exact moves_pure labels _
  · intro span value topLevel
    rw [RawExpr.relabel_integer, compileExpr, compileExpr]
    exact moves_new labels .integerLiteral span _ [] [] _ []

/-! ## Programs -/

theorem signature?_other {span headSpan : SourceSpan} {op : String} {rest : List RawExpr}
    (different : op ≠ "define") :
    signature? (.list span (.symbol headSpan op :: rest)) = none := by
  rw [signature?.eq_def]
  split
  next equal =>
    cases equal
    exact absurd rfl different
  next => rfl

theorem signature?_relabel (top : RawExpr) :
    signature? (top.relabel labels) =
      (signature? top).map fun found => (labels.span found.1, found.2) := by
  cases top with
  | symbol span name => rw [RawExpr.relabel_symbol]; rfl
  | integer span value => rw [RawExpr.relabel_integer]; rfl
  | list span items =>
      rw [RawExpr.relabel_list]
      cases items with
      | nil => rfl
      | cons head rest =>
          rw [List.map_cons]
          cases head with
          | list _ _ => rw [RawExpr.relabel_list]; rfl
          | integer _ _ => rw [RawExpr.relabel_integer]; rfl
          | symbol headSpan op =>
              rw [RawExpr.relabel_symbol]
              by_cases isDefine : op = "define"
              · subst isDefine
                cases rest with
                | nil => rfl
                | cons target body =>
                    rw [List.map_cons]
                    cases target with
                    | symbol _ _ => rw [RawExpr.relabel_symbol]; rfl
                    | integer _ _ => rw [RawExpr.relabel_integer]; rfl
                    | list _ named =>
                        rw [RawExpr.relabel_list]
                        cases named with
                        | nil => rfl
                        | cons name params =>
                            rw [List.map_cons]
                            cases name with
                            | list _ _ => rw [RawExpr.relabel_list]; rfl
                            | integer _ _ => rw [RawExpr.relabel_integer]; rfl
                            | symbol _ _ =>
                                rw [RawExpr.relabel_symbol, signature?, signature?,
                                  List.length_map]
                                rfl
              · rw [signature?_other isDefine, signature?_other isDefine]
                rfl

theorem collectArity_moves (items : List RawExpr) (table : ArityTable) :
    Moves labels id (collectArity items table)
      (collectArity (items.map (RawExpr.relabel labels)) table) := by
  induction items generalizing table with
  | nil => exact moves_pure labels table
  | cons top rest induction =>
      rw [List.map_cons, collectArity, collectArity, signature?_relabel]
      cases signature? top with
      | none => exact induction table
      | some found =>
          rcases found with ⟨nameSpan, name, count⟩
          apply moves_ite Iff.rfl
          · intro _
            exact moves_bind (moves_err labels nameSpan _) fun _ => induction table
          · exact fun _ => induction _

theorem compileTops_moves (arity : ArityTable) (items : List RawExpr) :
    Moves labels (List.map (Node.relabel labels)) (compileTops arity items)
      (compileTops arity (items.map (RawExpr.relabel labels))) := by
  induction items with
  | nil => rfl
  | cons top rest induction =>
      apply moves_bind (compileExpr_moves labels arity top true)
      intro node
      apply moves_bind induction
      intro nodes
      cases node with
      | none => rfl
      | some node => rfl

theorem singleDo?_of_two (first second : RawExpr) (rest : List RawExpr) :
    singleDo? (first :: second :: rest) = none := by
  rw [singleDo?.eq_def]
  split
  next equal => cases equal
  next => rfl

theorem singleDo?_other {span headSpan : SourceSpan} {op : String} {rest : List RawExpr}
    (different : op ≠ "do") : singleDo? [.list span (.symbol headSpan op :: rest)] = none := by
  rw [singleDo?.eq_def]
  split
  next equal =>
    cases equal
    exact absurd rfl different
  next => rfl

theorem singleDo?_relabel (exprs : List RawExpr) :
    singleDo? (exprs.map (RawExpr.relabel labels)) =
      (singleDo? exprs).map fun found =>
        (labels.span found.1, found.2.map (RawExpr.relabel labels)) := by
  cases exprs with
  | nil => rfl
  | cons top rest =>
      rw [List.map_cons]
      cases rest with
      | cons _ _ => rw [List.map_cons, singleDo?_of_two, singleDo?_of_two]; rfl
      | nil =>
          cases top with
          | symbol span name => rw [RawExpr.relabel_symbol]; rfl
          | integer span value => rw [RawExpr.relabel_integer]; rfl
          | list span items =>
              rw [RawExpr.relabel_list]
              cases items with
              | nil => rfl
              | cons head rest =>
                  rw [List.map_cons]
                  cases head with
                  | list _ _ => rw [RawExpr.relabel_list]; rfl
                  | integer _ _ => rw [RawExpr.relabel_integer]; rfl
                  | symbol headSpan op =>
                      rw [RawExpr.relabel_symbol]
                      by_cases isDo : op = "do"
                      · subst isDo
                        rfl
                      · rw [List.map_nil, singleDo?_other isDo, singleDo?_other isDo]
                        rfl

theorem compileExprs_moves (first : RawExpr) (exprs : List RawExpr) :
    MovesNode labels (compileExprs first exprs)
      (compileExprs (first.relabel labels) (exprs.map (RawExpr.relabel labels))) := by
  rw [compileExprs, compileExprs, singleDo?_relabel]
  cases singleDo? exprs with
  | some found =>
      rcases found with ⟨span, items⟩
      apply moves_bind (collectArity_moves labels items [])
      intro arity
      exact moves_bind (compileTops_moves labels arity items) fun children =>
        moves_new labels .doForm span _ [] children [] []
  | none =>
      apply moves_bind (collectArity_moves labels exprs [])
      intro arity
      apply moves_bind (compileTops_moves labels arity exprs)
      intro children
      apply moves_ite (by rw [List.length_map])
      · intro _
        rw [List.head?_map]
        exact moves_pure labels _
      · intro _
        have span : spanOfTops (first.relabel labels) (exprs.map (RawExpr.relabel labels)) =
            labels.span (spanOfTops first exprs) := by
          rw [spanOfTops, spanOfTops, labels.span_join, RawExpr.span_relabel,
            List.getLastD_map, RawExpr.span_relabel]
        rw [span]
        exact moves_new labels .doForm _ _ [] children [] []

/-! ## Results -/

theorem hasErrors_relabel (diagnostics : List Diagnostic) :
    hasErrors (diagnostics.map (Diagnostic.relabel labels)) = hasErrors diagnostics := by
  rw [hasErrors, List.any_map]
  rfl

variable {labels}

theorem assignPreorderAll_relabel {nodes : List Node}
    (parts : ∀ node ∈ nodes, ∀ next, (node.relabel labels).assignPreorder next =
      ((node.assignPreorder next).1.relabel labels, (node.assignPreorder next).2))
    (next : UInt32) :
    Node.assignPreorderAll (nodes.map (Node.relabel labels)) next =
      ((Node.assignPreorderAll nodes next).1.map (Node.relabel labels),
        (Node.assignPreorderAll nodes next).2) := by
  induction nodes generalizing next with
  | nil => rfl
  | cons node rest induction =>
      have tail := induction fun other member => parts other (List.mem_cons_of_mem _ member)
      rw [List.map_cons, Node.assignPreorderAll, Node.assignPreorderAll,
        parts node List.mem_cons_self, tail, List.map_cons]

/-- Ids are assigned without a look at spans. -/
theorem assignPreorder_relabel (keeps : ∀ id, labels.id id = id) :
    ∀ (node : Node) (next : UInt32), (node.relabel labels).assignPreorder next =
      ((node.assignPreorder next).1.relabel labels, (node.assignPreorder next).2) := by
  apply Node.induct
  intro node parts next
  rcases node with ⟨id, kind, span, op, args, children, nums, params⟩
  have below : ∀ part ∈ args ++ children, ∀ next, (part.relabel labels).assignPreorder next =
      ((part.assignPreorder next).1.relabel labels, (part.assignPreorder next).2) := parts
  rw [Node.relabel_eq, Node.assignPreorder, Node.assignPreorder,
    assignPreorderAll_relabel fun part member => below part (List.mem_append_left _ member),
    assignPreorderAll_relabel fun part member => below part (List.mem_append_right _ member),
    Node.relabel_eq]
  simp only [keeps]

variable (labels)

/-- What `compile` makes of a parsed text. -/
def compileParsed (parsed : ParseResult) : CompileResult :=
  match parsed.exprs with
  | [] =>
      { root := none
        diagnostics :=
          if hasErrors parsed.diagnostics then parsed.diagnostics
          else parsed.diagnostics ++
            [{ severity := .error, span := {}, message := "program is empty" }] }
  | first :: rest =>
      let compiled := compileExprs first (first :: rest)
      { root := compiled.value.map assignNodeIds
        diagnostics := parsed.diagnostics ++ compiled.diagnostics }

theorem compile_eq (source : Bytes) : compile source = (parse source).map compileParsed := rfl

def CompileResult.relabel (result : CompileResult) : CompileResult where
  root := result.root.map (Node.relabel labels)
  diagnostics := result.diagnostics.map (Diagnostic.relabel labels)

theorem compileParsed_relabel {labels : Relabelling} (keeps : ∀ id, labels.id id = id)
    (parsed : ParseResult) :
    compileParsed (parsed.relabel labels) = (compileParsed parsed).relabel labels := by
  rcases parsed with ⟨exprs, diagnostics⟩
  cases exprs with
  | nil =>
      rw [ParseResult.relabel, compileParsed, compileParsed, List.map_nil, CompileResult.relabel,
        hasErrors_relabel]
      dsimp only
      split
      · rfl
      · rw [List.map_append, List.map_singleton, Diagnostic.relabel, labels.span_empty]
        rfl
  | cons first rest =>
      have moved : compileExprs (first.relabel labels)
          ((first :: rest).map (RawExpr.relabel labels)) = Compile.mk _ _ :=
        compileExprs_moves labels first (first :: rest)
      rw [List.map_cons] at moved
      rw [ParseResult.relabel, List.map_cons, compileParsed, compileParsed, CompileResult.relabel]
      dsimp only
      rw [moved, List.map_append, Option.map_map, Option.map_map]
      congr 2
      funext root
      rw [Function.comp_apply, Function.comp_apply, assignNodeIds, assignNodeIds,
        assignPreorder_relabel keeps]

end CardCode
