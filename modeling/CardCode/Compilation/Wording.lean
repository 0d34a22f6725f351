import CardCode.Compilation.WellFormed
import CardCode.Semantics.Guarantees
import CardCode.Syntax.Wording

/-! # What the compiler and the interpreter say

Their messages are made of ASCII phrases, numbers and names from the program.
-/

namespace CardCode

/-! ## The compiler -/

variable {α β : Type}

def Compile.InAscii (compiled : Compile α) : Prop :=
  ∀ diagnostic ∈ compiled.diagnostics, CardCode.InAscii diagnostic.message

namespace Compile.InAscii

theorem pure (value : α) : Compile.InAscii (Pure.pure value : Compile α) :=
  fun _ member => nomatch member

theorem bind {compiled : Compile α} {next : α → Compile β} (head : compiled.InAscii)
    (tail : ∀ value, (next value).InAscii) : (compiled >>= next).InAscii :=
  List.forall_mem_append.mpr ⟨head, tail compiled.value⟩

theorem err {message : String} (ascii : CardCode.InAscii message) (span : SourceSpan) :
    (CardCode.err span message).InAscii :=
  List.forall_mem_singleton.mpr ascii

theorem reject {message : String} (ascii : CardCode.InAscii message) (span : SourceSpan) :
    (CardCode.reject span message).InAscii :=
  List.forall_mem_singleton.mpr ascii

theorem ite {condition : Prop} [Decidable condition] {yes no : Compile α} (whenYes : yes.InAscii)
    (whenNo : no.InAscii) : (if condition then yes else no).InAscii := by
  split
  · exact whenYes
  · exact whenNo

theorem keepIf (complete : Bool) (node : Node) : (CardCode.keepIf complete node).InAscii :=
  .pure _

end Compile.InAscii

open Compile

def Operand.NamesInAscii (operand : Operand) : Prop :=
  operand.raw.NamesInAscii ∧ operand.compileValue.InAscii

section Forms

variable {operands : List Operand} {op : String} {span headSpan : SourceSpan}

theorem compileOperands_inAscii (names : ∀ operand ∈ operands, operand.NamesInAscii) :
    (compileOperands operands).InAscii := by
  induction operands with
  | nil => exact .pure _
  | cons operand rest induction =>
      exact (names operand List.mem_cons_self).2.bind fun _ =>
        (induction fun other member => names other (List.mem_cons_of_mem operand member)).bind
          fun _ => .pure _

theorem compileCall_inAscii (arity : ArityTable) (name : InAscii op)
    (names : ∀ operand ∈ operands, operand.NamesInAscii) :
    (compileCall arity span headSpan op operands).InAscii := by
  rw [compileCall]
  split
  · exact .reject (((by decide : InAscii "unknown operation or function '").append name).append
      (by decide)) _
  · apply InAscii.ite
    · refine .reject ?_ _
      exact ((((((by decide : InAscii "function '").append name).append (by decide)).append
        (inAscii_toString _)).append (by decide)).append (inAscii_toString _))
    · exact (compileOperands_inAscii names).bind fun _ => .keepIf _ _

theorem compileParams_inAscii {params : List RawExpr}
    (names : ∀ param ∈ params, param.NamesInAscii) : (compileParams params).InAscii := by
  induction params with
  | nil => exact .pure _
  | cons param rest induction =>
      have later := induction fun other member => names other (List.mem_cons_of_mem param member)
      cases names param List.mem_cons_self with
      | symbol name =>
          rw [compileParams]
          apply InAscii.ite
          · exact (InAscii.err (((by decide : InAscii "'").append name).append (by decide)) _).bind
              fun _ => later
          · exact later.bind fun _ => .pure _
      | list _ => exact (InAscii.err (by decide) _).bind fun _ => later
      | integer => exact (InAscii.err (by decide) _).bind fun _ => later

theorem compileDefine_inAscii (names : ∀ operand ∈ operands, operand.NamesInAscii)
    (topLevel : Bool) : (compileDefine span operands topLevel).InAscii := by
  cases operands with
  | nil => exact .reject (by decide) _
  | cons target body =>
      have bodyNames : ∀ operand ∈ body, operand.NamesInAscii :=
        fun operand member => names operand (List.mem_cons_of_mem target member)
      rcases target with ⟨raw, compiled⟩
      have targetNames : raw.NamesInAscii := (names _ List.mem_cons_self).1
      rw [compileDefine]
      cases targetNames with
      | integer => exact .reject (by decide) _
      | symbol name =>
          apply InAscii.ite
          · exact .reject (by decide) _
          apply InAscii.ite
          · exact .reject (((by decide : InAscii "'").append name).append (by decide)) _
          · exact (compileOperands_inAscii bodyNames).bind fun _ => .keepIf _ _
      | @list _ items itemNames =>
          apply InAscii.ite
          · exact .reject (by decide) _
          cases items with
          | nil => exact .reject (by decide) _
          | cons head params =>
              cases itemNames head List.mem_cons_self with
              | list _ => exact .reject (by decide) _
              | integer => exact .reject (by decide) _
              | symbol name =>
                  apply InAscii.ite
                  · exact .reject (((by decide : InAscii "cannot redefine built-in '").append
                      name).append (by decide)) _
                  · have paramNames : (compileParams params).InAscii := compileParams_inAscii
                      fun param member => itemNames param (List.mem_cons_of_mem _ member)
                    exact paramNames.bind fun _ =>
                      (compileOperands_inAscii bodyNames).bind fun _ => .pure _

theorem litCheck_inAscii {message : String} (ascii : InAscii message) (operand : Operand)
    (low high : Int64) : (litCheck operand low high message).InAscii := by
  rw [litCheck]
  split
  · exact .ite (.err ascii _) (.pure _)
  · exact .pure _

theorem commandChecks_inAscii (kind : NodeKind) (operands : List Operand) :
    (commandChecks kind operands).InAscii := by
  rw [commandChecks.eq_def]
  split
  · exact (litCheck_inAscii (by decide) _ _ _).bind fun _ => litCheck_inAscii (by decide) _ _ _
  · exact (litCheck_inAscii (by decide) _ _ _).bind fun _ => litCheck_inAscii (by decide) _ _ _
  · exact litCheck_inAscii (by decide) _ _ _
  · exact litCheck_inAscii (by decide) _ _ _
  · exact litCheck_inAscii (by decide) _ _ _
  · exact .pure _

theorem compileCommand_inAscii (name : InAscii op)
    (names : ∀ operand ∈ operands, operand.NamesInAscii) :
    (compileCommand span op operands).InAscii := by
  rw [compileCommand]
  apply InAscii.ite
  · refine .reject ?_ _
    exact (((((by decide : InAscii "'").append name).append (by decide)).append
      (inAscii_toString _)).append (by decide)).append (inAscii_toString _)
  · exact (commandChecks_inAscii _ operands).bind fun _ =>
      (compileOperands_inAscii names).bind fun _ => .keepIf _ _

theorem compileOperator_inAscii (name : InAscii op)
    (names : ∀ operand ∈ operands, operand.NamesInAscii) :
    (compileOperator span op operands).InAscii := by
  have built (kind : NodeKind) : (do
      let args ← compileOperands operands
      keepIf (args.length = operands.length) { kind, span, op, args } :
        Compile (Option Node)).InAscii :=
    (compileOperands_inAscii names).bind fun _ => .keepIf _ _
  have refused (phrase : String) (ascii : InAscii phrase) :
      (reject span ("'" ++ op ++ phrase)).InAscii :=
    .reject (((by decide : InAscii "'").append name).append ascii) _
  rw [compileOperator]
  apply InAscii.ite
  · exact .ite (refused _ (by decide)) (built .compare)
  apply InAscii.ite
  · exact .ite (refused _ (by decide)) (.ite (refused _ (by decide)) (built .arithmetic))
  apply InAscii.ite
  · exact .ite (.reject (by decide) _) (built .booleanOp)
  · exact .ite (refused _ (by decide)) (built .booleanOp)

theorem compileBlock_inAscii {leading : Operand} {body : List Operand} (kind : NodeKind)
    (names : ∀ operand ∈ leading :: body, operand.NamesInAscii) :
    (compileBlock kind span op leading body).InAscii := by
  have first : (compileOperands [leading]).InAscii := compileOperands_inAscii
    (List.forall_mem_singleton.mpr (names leading List.mem_cons_self))
  have rest : (compileOperands body).InAscii := compileOperands_inAscii
    fun operand member => names operand (List.mem_cons_of_mem leading member)
  exact first.bind fun _ => rest.bind fun _ => .keepIf _ _

theorem repeatCheck_inAscii (count : Operand) : (repeatCheck count).InAscii := by
  rw [repeatCheck]
  split
  · exact .ite (.err (by decide) _) (.ite (.err (by decide) _) (.pure _))
  · exact .pure _

theorem compileSet_inAscii (names : ∀ operand ∈ operands, operand.NamesInAscii) :
    (compileSet span operands).InAscii := by
  rw [compileSet.eq_def]
  split
  next target value =>
    rcases target with ⟨raw, compiled⟩
    have valueNames := List.forall_mem_singleton.mpr (names value (by simp))
    have targetNames : raw.NamesInAscii := (names _ List.mem_cons_self).1
    cases targetNames with
    | symbol name =>
        apply InAscii.ite
        · exact .reject (((by decide : InAscii "'").append name).append (by decide)) _
        · exact (compileOperands_inAscii valueNames).bind fun _ => .keepIf _ _
    | list _ => exact .reject (by decide) _
    | integer => exact .reject (by decide) _
  next => exact .reject (by decide) _

theorem compileForm_inAscii (arity : ArityTable) (name : InAscii op)
    (names : ∀ operand ∈ operands, operand.NamesInAscii) (topLevel : Bool) :
    (compileForm arity span headSpan op operands topLevel).InAscii := by
  rw [compileForm.eq_def]
  apply InAscii.ite
  · exact (compileOperands_inAscii names).bind fun _ => .pure _
  apply InAscii.ite
  · cases operands with
    | nil => exact .reject (by decide) _
    | cons count body =>
        exact (repeatCheck_inAscii count).bind fun _ => compileBlock_inAscii _ names
  apply InAscii.ite
  · cases operands with
    | nil => exact .reject (by decide) _
    | cons condition body => exact compileBlock_inAscii _ names
  apply InAscii.ite
  · exact .ite (.reject (by decide) _)
      ((compileOperands_inAscii names).bind fun _ => .keepIf _ _)
  apply InAscii.ite
  · cases operands with
    | nil => exact .reject (by decide) _
    | cons condition body => exact compileBlock_inAscii _ names
  apply InAscii.ite (compileDefine_inAscii names topLevel)
  apply InAscii.ite (compileSet_inAscii names)
  apply InAscii.ite (compileCommand_inAscii name names)
  apply InAscii.ite
  · exact .ite (.reject (((by decide : InAscii "'").append name).append (by decide)) _) (.pure _)
  exact .ite (compileOperator_inAscii name names) (compileCall_inAscii arity name names)

end Forms

theorem compileExpr_inAscii (arity : ArityTable) (raw : RawExpr) :
    raw.NamesInAscii → ∀ topLevel, (compileExpr arity raw topLevel).InAscii := by
  induction raw using RawExpr.induct with
  | symbol span name => exact fun _ _ => .pure _
  | integer span value => exact fun _ _ => .pure _
  | list span items induction =>
      intro names topLevel
      cases names with
      | list names =>
          cases items with
          | nil => exact .reject (by decide) _
          | cons head args =>
              have operandNames : ∀ operand ∈ operandsOf arity args, operand.NamesInAscii := by
                have each : ∀ arg ∈ args,
                    arg.NamesInAscii ∧ (compileExpr arity arg false).InAscii := by
                  intro arg member
                  have argNames := names arg (List.mem_cons_of_mem head member)
                  exact ⟨argNames, induction arg (List.mem_cons_of_mem head member) argNames false⟩
                clear induction names
                induction args with
                | nil => exact nofun
                | cons arg rest induction =>
                    intro operand member
                    rcases List.mem_cons.mp member with equal | member
                    · rw [equal]
                      exact each arg List.mem_cons_self
                    · exact induction (fun other inside =>
                        each other (List.mem_cons_of_mem arg inside)) operand member
              cases names head List.mem_cons_self with
              | symbol name => exact compileForm_inAscii arity name operandNames topLevel
              | list _ => exact .reject (by decide) _
              | integer => exact .reject (by decide) _

theorem collectArity_inAscii {items : List RawExpr} (table : ArityTable)
    (names : ∀ item ∈ items, item.NamesInAscii) : (collectArity items table).InAscii := by
  induction items generalizing table with
  | nil => exact .pure _
  | cons top rest induction =>
      have later : ∀ item ∈ rest, item.NamesInAscii :=
        fun item member => names item (List.mem_cons_of_mem top member)
      rw [collectArity]
      split
      · exact induction _ later
      next nameSpan name count found =>
        have nameAscii : InAscii name := by
          have topNames := names top List.mem_cons_self
          rw [signature?.eq_def] at found
          split at found
          next span headSpan targetSpan nameSpan name params body =>
            cases found
            cases topNames with
            | list inside =>
                cases inside (.list targetSpan (.symbol nameSpan name :: params)) (by simp) with
                | list inner =>
                    cases inner (.symbol nameSpan name) List.mem_cons_self with
                    | symbol ascii => exact ascii
          next => cases found
        apply InAscii.ite
        · exact (InAscii.err (((by decide : InAscii "function '").append nameAscii).append
            (by decide)) _).bind fun _ => induction _ later
        · exact induction _ later

theorem compileTops_inAscii (arity : ArityTable) {items : List RawExpr}
    (names : ∀ item ∈ items, item.NamesInAscii) : (compileTops arity items).InAscii := by
  induction items with
  | nil => exact .pure _
  | cons top rest induction =>
      exact (compileExpr_inAscii arity top (names top List.mem_cons_self) true).bind fun _ =>
        (induction fun item member => names item (List.mem_cons_of_mem top member)).bind
          fun _ => .pure _

theorem compileExprs_inAscii {first : RawExpr} {exprs : List RawExpr}
    (names : ∀ expr ∈ exprs, expr.NamesInAscii) : (compileExprs first exprs).InAscii := by
  rw [compileExprs]
  split
  next span items found =>
    rcases singleDo?_eq_some found with ⟨headSpan, rfl⟩
    cases names _ List.mem_cons_self with
    | list inside =>
        have itemNames : ∀ item ∈ items, item.NamesInAscii :=
          fun item member => inside item (List.mem_cons_of_mem _ member)
        exact (collectArity_inAscii [] itemNames).bind fun arity =>
          (compileTops_inAscii arity itemNames).bind fun _ => .pure _
  next =>
    exact (collectArity_inAscii [] names).bind fun arity =>
      (compileTops_inAscii arity names).bind fun _ => .ite (.pure _) (.pure _)

/-- What is said about a source is text exactly where nothing beyond ASCII stands
outside of a comment. -/
theorem compile_encoded_iff {source : Bytes} {result : CompileResult}
    (compiled : compile source = some result) :
    (∀ diagnostic ∈ result.diagnostics, Encoded diagnostic.message) ↔
      quiet false (source.map Char.ofUInt8) = true := by
  rw [compile] at compiled
  rcases Option.map_eq_some_iff.mp compiled with ⟨parsed, parses, rfl⟩
  rcases parse_wording parses with ⟨names, messages⟩
  rw [← messages]
  split
  next =>
    dsimp only
    split
    · exact Iff.rfl
    · constructor
      · exact fun all => (List.forall_mem_append.mp all).1
      · intro spoken
        exact List.forall_mem_append.mpr ⟨spoken,
          List.forall_mem_singleton.mpr (by decide : InAscii "program is empty").encoded⟩
  next first rest exprs =>
    rw [exprs] at names
    have ascii := @compileExprs_inAscii first _ names
    constructor
    · exact fun all => (List.forall_mem_append.mp all).1
    · intro spoken
      exact List.forall_mem_append.mpr ⟨spoken, fun diagnostic member =>
        (ascii diagnostic member).encoded⟩

/-! ## Names in the tree -/

def Node.NamesInAscii (root : Node) : Prop :=
  ∀ node, Node.Within node root → InAscii node.op

theorem Node.NamesInAscii.of_parts {node : Node} (name : InAscii node.op)
    (parts : ∀ part ∈ node.parts, part.NamesInAscii) : node.NamesInAscii := by
  intro inner within
  cases within with
  | self => exact name
  | part member within => exact parts _ member inner within

theorem Node.NamesInAscii.part {node part : Node} (names : node.NamesInAscii)
    (member : part ∈ node.parts) : part.NamesInAscii :=
  fun inner within => names inner (.part member within)

/-- Every node of a row comes from an item of the row of expressions. -/
theorem namesInAscii_of_zip {items : List RawExpr} {nodes : List Node}
    (count : items.length = nodes.length) (names : ∀ item ∈ items, item.NamesInAscii)
    (each : ∀ pair ∈ items.zip nodes, pair.1.NamesInAscii → pair.2.NamesInAscii) :
    ∀ node ∈ nodes, node.NamesInAscii := by
  induction nodes generalizing items with
  | nil => exact nofun
  | cons node rest induction =>
      cases items with
      | nil => cases count
      | cons item items =>
          intro other member
          rcases List.mem_cons.mp member with equal | member
          · rw [equal]
            exact each (item, node) List.mem_cons_self (names item List.mem_cons_self)
          · exact induction (Nat.succ.inj count)
              (fun inner inside => names inner (List.mem_cons_of_mem item inside))
              (fun pair inside => each pair (List.mem_cons_of_mem _ inside)) other member

theorem RawExpr.NamesInAscii.items {span : SourceSpan} {items : List RawExpr}
    (names : (RawExpr.list span items).NamesInAscii) : ∀ item ∈ items, item.NamesInAscii := by
  cases names with
  | list names => exact names

theorem RawExpr.NamesInAscii.name {span : SourceSpan} {name : String}
    (names : (RawExpr.symbol span name).NamesInAscii) : InAscii name := by
  cases names with
  | symbol ascii => exact ascii

theorem Elaborates.namesInAscii {arity : ArityTable} {raw : RawExpr} {topLevel : Bool}
    {node : Node} (elaborates : Elaborates arity raw topLevel node) :
    raw.NamesInAscii → node.NamesInAscii := by
  induction elaborates with
  | integer => exact fun _ => .of_parts (by decide : InAscii "") (List.forall_mem_nil _)
  | @symbol id span name =>
      intro names
      apply Node.NamesInAscii.of_parts
      · rcases compileSymbol_cases span name with ⟨-, node⟩ | ⟨color, -, node⟩ | ⟨-, node⟩ <;>
          rw [node] <;> exact names.name
      · rw [parts_compileSymbol]
        exact List.forall_mem_nil _
  | sequence count _ induction =>
      intro names
      refine .of_parts (by decide : InAscii "do") ?_
      exact namesInAscii_of_zip count
        (fun item member => names.items item (List.mem_cons_of_mem _ member)) induction
  | block _ _ count _ argInduction induction =>
      intro names
      refine .of_parts (names.items _ List.mem_cons_self).name ?_
      intro part member
      rcases List.mem_cons.mp member with equal | member
      · rw [equal]
        exact argInduction (names.items _ (by simp))
      · exact namesInAscii_of_zip count (fun item inside => names.items item (by simp [inside]))
          induction part member
  | operation _ _ _ _ _ count _ induction =>
      intro names
      refine .of_parts (names.items _ List.mem_cons_self).name ?_
      intro part member
      rw [Node.parts, List.append_nil] at member
      exact namesInAscii_of_zip count
        (fun item inside => names.items item (List.mem_cons_of_mem _ inside)) induction part member
  | defineVar _ _ induction | setVar _ _ induction =>
      intro names
      refine .of_parts (names.items _ (List.mem_cons_of_mem _ List.mem_cons_self)).name ?_
      intro part member
      rw [List.mem_singleton.mp member]
      exact induction (names.items _ (by simp))
  | defineFunc _ _ count _ induction =>
      intro names
      have target := (names.items _ (List.mem_cons_of_mem _ List.mem_cons_self)).items
      refine .of_parts (target _ List.mem_cons_self).name ?_
      exact namesInAscii_of_zip count (fun item inside => names.items item (by simp [inside]))
        induction

theorem ElaboratesProgram.namesInAscii {arity : ArityTable} {exprs : List RawExpr} {root : Node}
    (elaborates : ElaboratesProgram arity exprs root)
    (names : ∀ expr ∈ exprs, expr.NamesInAscii) : root.NamesInAscii := by
  cases elaborates with
  | explicit all =>
      refine .of_parts (by decide : InAscii "do") ?_
      exact namesInAscii_of_zip all.1
        (fun item member => (names _ List.mem_cons_self).items item
          (List.mem_cons_of_mem _ member)) fun pair member => (all.2 pair member).namesInAscii
  | single _ top => exact top.namesInAscii (names _ List.mem_cons_self)
  | implicit all =>
      refine .of_parts (by decide : InAscii "do") ?_
      exact namesInAscii_of_zip all.1 names fun pair member => (all.2 pair member).namesInAscii

theorem Program.namesInAscii (program : Program) : program.root.NamesInAscii := by
  rcases program.elaborates with ⟨parsed, parses, -, elaborates⟩
  exact elaborates.namesInAscii (parse_wording parses).1

/-! ## The interpreter -/

theorem complaint_inAscii {node : Node} (name : InAscii node.op) {message : String}
    (listed : message ∈ complaints node) : InAscii message := by
  have quoted (phrase : String) (ascii : InAscii phrase) : InAscii (phrase ++ node.op ++ "'") :=
    (ascii.append name).append (by decide)
  simp only [complaints, List.mem_cons, List.not_mem_nil, or_false] at listed
  rcases listed with rfl | rfl | rfl | rfl | rfl | rfl | rfl | rfl | rfl | rfl | rfl |
    rfl | rfl | rfl | rfl | rfl | rfl
  case inr.inr.inr.inr.inr.inr.inr.inl => exact quoted _ (by decide)
  case inr.inr.inr.inr.inr.inr.inr.inr.inl => exact quoted _ (by decide)
  all_goals decide

/-- The event an entry becomes has an ASCII message. -/
def Action.InAscii (entry : Action) : Prop :=
  ∀ event ∈ entry.event?, CardCode.InAscii event.message

theorem Leaves.inAscii {env : Env} {node : Node} {entry : Action} (names : node.NamesInAscii)
    (leaves : Leaves env node entry) : entry.InAscii := by
  have name := names node .self
  cases leaves with
  | started | done => exact fun event member => Option.some.inj member ▸ name
  | complained listed =>
      exact fun event member => Option.some.inj member ▸ complaint_inAscii name listed
  | undefined =>
      intro event member
      cases member
      exact ((by decide : InAscii "undefined function '").append name).append (by decide)
  | skipped part =>
      exact fun event member => Option.some.inj member ▸ names.part part _ .self
  | issued issues member =>
      cases issues with
      | nothing => cases member
      | command | sensor =>
          rw [List.mem_singleton.mp member]
          exact nofun
  | polled | iterated | repeated | combining | combined | computed | entered | left => exact nofun

end CardCode
