import CardCode.Compilation.NodeIds

/-! # Where nodes end

Every node of an accepted program stands for a piece of its source that is not empty, so
no node has the span of no place at all.
-/

namespace CardCode

/-! ## Expressions -/

/-- An expression and those inside it end behind the start of the source. -/
inductive RawExpr.Extended : RawExpr → Prop
  | list {span items} :
      0 < span.endOffset.toNat → (∀ item ∈ items, Extended item) → Extended (.list span items)
  | symbol {span name} : 0 < span.endOffset.toNat → Extended (.symbol span name)
  | integer {span value} : 0 < span.endOffset.toNat → Extended (.integer span value)

theorem RawExpr.Extended.span {raw : RawExpr} (extended : raw.Extended) :
    0 < raw.span.endOffset.toNat := by
  cases extended with
  | list positive _ | symbol positive | integer positive => exact positive

theorem RawExpr.Extended.item {raw : RawExpr} (extended : raw.Extended) :
    ∀ item ∈ raw.items, item.Extended := by
  cases extended with
  | list _ each => exact each
  | symbol _ | integer _ => exact fun _ member => nomatch member

theorem toRaw_extended {tree : TokenTree Token}
    (tokens : ∀ token ∈ tree.flatten, 0 < token.span.endOffset.toNat) :
    (TokenTree.toRaw tree).Extended := by
  induction tree using TokenTree.induct with
  | leaf token =>
      have positive := tokens token (by simp)
      rw [TokenTree.toRaw, Token.toRaw]
      split
      · exact .integer positive
      · exact .symbol positive
  | group opening items closing induction =>
      rw [TokenTree.toRaw_group]
      apply RawExpr.Extended.list
      · exact tokens closing (by simp)
      · intro item member
        rcases List.mem_map.mp member with ⟨tree, present, rfl⟩
        exact induction tree present fun token inside =>
          tokens token (TokenTree.mem_group present inside)

theorem Reading.extended {source : Bytes} {exprs : List RawExpr}
    (reading : Reading source exprs) : ∀ raw ∈ exprs, raw.Extended := by
  intro raw member
  rw [reading.exprs_eq] at member
  rcases List.mem_map.mp member with ⟨tree, present, rfl⟩
  apply toRaw_extended
  intro token inside
  have lexeme : token.lexeme ∈ (TokenTree.flattenAll reading.trees).map Token.lexeme :=
    List.mem_map_of_mem (TokenTree.mem_flattenAll.mpr ⟨tree, present, inside⟩)
  have ordered := reading.scans.ordered (fun _ => Nat.one_pos) _ lexeme
  exact Nat.lt_of_le_of_lt (Nat.zero_le _) ordered

/-! ## Nodes -/

theorem Elaborates.span_eq {arity : ArityTable} {raw : RawExpr} {topLevel : Bool} {node : Node}
    (elaborates : Elaborates arity raw topLevel node) : node.span = raw.span := by
  cases elaborates with
  | @symbol _ span name =>
      rcases compileSymbol_cases span name with ⟨-, node⟩ | ⟨color, -, node⟩ | ⟨-, node⟩ <;>
        rw [node] <;> rfl
  | _ => rfl

/-- A node and what is below it end behind the start of the source. -/
def Node.Extended (root : Node) : Prop :=
  ∀ node, Node.Within node root → 0 < node.span.endOffset.toNat

theorem Node.Extended.of_parts {node : Node} (own : 0 < node.span.endOffset.toNat)
    (parts : ∀ part ∈ node.parts, part.Extended) : node.Extended := by
  intro inner within
  cases within with
  | self => exact own
  | part member within => exact parts _ member inner within

theorem Elaborates.extended {arity : ArityTable} {node : Node} :
    ∀ {raw topLevel}, Elaborates arity raw topLevel node → raw.Extended → node.Extended := by
  induction node using Node.induct with
  | step node induction =>
      intro raw topLevel elaborates extended
      refine .of_parts (elaborates.span_eq ▸ extended.span) ?_
      intro part member
      rcases elaborates.part member with ⟨item, present, partElaborates⟩
      exact induction part member partElaborates (extended.item item present)

theorem ElaboratesProgram.extended {arity : ArityTable} {exprs : List RawExpr} {root : Node}
    (elaborates : ElaboratesProgram arity exprs root)
    (extended : ∀ raw ∈ exprs, raw.Extended) : root.Extended := by
  have sequence {id span children} {items : List RawExpr} (own : 0 < span.endOffset.toNat)
      (all : ElaboratesAll arity true items children) (each : ∀ item ∈ items, item.Extended) :
      Node.Extended { id, kind := .doForm, span, op := "do", children } := by
    refine .of_parts own fun part member => ?_
    rcases all.of_mem member with ⟨item, present, elaborates⟩
    exact elaborates.extended (each item present)
  cases elaborates with
  | explicit all =>
      have whole := extended _ List.mem_cons_self
      exact sequence whole.span all fun item member =>
        whole.item item (List.mem_cons_of_mem _ member)
  | single _ node => exact node.extended (extended _ List.mem_cons_self)
  | @implicit _ first second rest _ all =>
      have last : (first :: second :: rest).getLastD first ∈ first :: second :: rest := by
        rw [List.getLastD_cons]
        exact List.getLastD_mem_cons
      exact sequence (extended _ last).span all extended

/-- In an accepted program every node ends behind the start of the source. -/
theorem Program.extended (program : Program) : program.root.Extended := by
  rcases program.parses with ⟨parsed, built, parses, clean, -⟩
  rcases program.elaborates with ⟨again, found, -, elaborates⟩
  rw [parses] at found
  cases found
  rcases parse_reads parses clean with ⟨reading⟩
  exact elaborates.extended reading.extended

end CardCode
