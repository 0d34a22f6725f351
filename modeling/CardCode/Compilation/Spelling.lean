import CardCode.Compilation.NodeIds

/-! # How operators are spelled

Every name in an accepted program is a word of the source, so the operator of a
node holds symbol characters only.
-/

namespace CardCode

def IsSpelled (name : String) : Prop :=
  ∀ c ∈ name.toList, isSymbolChar c = true

inductive RawExpr.Spelled : RawExpr → Prop
  | list {span items} : (∀ item ∈ items, Spelled item) → Spelled (.list span items)
  | symbol {span name} : IsSpelled name → Spelled (.symbol span name)
  | integer {span value} : Spelled (.integer span value)

theorem RawExpr.Spelled.item {span : SourceSpan} {items : List RawExpr}
    (spelled : (RawExpr.list span items).Spelled) : ∀ item ∈ items, item.Spelled := by
  cases spelled with
  | list each => exact each

theorem RawExpr.Spelled.name {span : SourceSpan} {name : String}
    (spelled : (RawExpr.symbol span name).Spelled) : IsSpelled name := by
  cases spelled with
  | symbol name => exact name

theorem toRaw_spelled {tree : TokenTree Token} (bracketed : WellBracketed tree)
    (words : ∀ token ∈ tree.flatten, token.IsAtom → IsSpelled token.text) :
    (TokenTree.toRaw tree).Spelled := by
  induction tree using TokenTree.induct with
  | leaf token =>
      cases bracketed with
      | leaf atom =>
          rw [TokenTree.toRaw, Token.toRaw]
          split
          · exact .integer
          · exact .symbol (words token (by simp) atom)
  | group opening items closing induction =>
      cases bracketed with
      | group _ inner _ =>
          rw [TokenTree.toRaw_group]
          apply RawExpr.Spelled.list
          intro item member
          rcases List.mem_map.mp member with ⟨tree, present, rfl⟩
          exact induction tree present (inner tree present) fun token inside =>
            words token (TokenTree.mem_group present inside)

theorem Reading.spelled {source : Bytes} {exprs : List RawExpr}
    (reading : Reading source exprs) : ∀ raw ∈ exprs, raw.Spelled := by
  intro raw member
  rw [reading.exprs_eq] at member
  rcases List.mem_map.mp member with ⟨tree, present, rfl⟩
  apply toRaw_spelled (reading.bracketed tree present)
  intro token inside atom
  have lexeme : token.lexeme ∈ (TokenTree.flattenAll reading.trees).map Token.lexeme :=
    List.mem_map_of_mem (TokenTree.mem_flattenAll.mpr ⟨tree, present, inside⟩)
  have kind : token.lexeme.kind = .word := by
    rcases atom with symbol | integer
    · simp [Token.lexeme, symbol, TokenKind.lexeme]
    · simp [Token.lexeme, integer, TokenKind.lexeme]
  exact (reading.scans.words _ lexeme kind).2

/-! ## Operators -/

theorem isSpelled_do : IsSpelled "do" := by
  exact List.all_eq_true.mp (by decide : "do".toList.all isSymbolChar = true)

/-- Every member of the second of two rows stands across from one of the first. -/
theorem exists_across {items : List RawExpr} {nodes : List Node}
    (count : items.length = nodes.length) {node : Node} (member : node ∈ nodes) :
    ∃ item ∈ items, (item, node) ∈ items.zip nodes := by
  rcases List.getElem_of_mem member with ⟨index, inside, rfl⟩
  have across : index < items.length := by omega
  refine ⟨items[index], List.getElem_mem across, ?_⟩
  exact List.mem_iff_getElem.mpr ⟨index, by simp; omega, by simp⟩

/-- A node and what is below it have spelled operators. -/
def Node.Spelled (root : Node) : Prop :=
  ∀ node, Node.Within node root → IsSpelled node.op

theorem Node.Spelled.of_parts {node : Node} (own : IsSpelled node.op)
    (parts : ∀ part ∈ node.parts, part.Spelled) : node.Spelled := by
  intro inner within
  cases within with
  | self => exact own
  | part member within => exact parts _ member inner within

theorem Elaborates.spelled {arity : ArityTable} {raw : RawExpr} {topLevel : Bool}
    {node : Node} (elaborates : Elaborates arity raw topLevel node) :
    raw.Spelled → node.Spelled := by
  have row {items : List RawExpr} {nodes : List Node} (count : items.length = nodes.length)
      (each : ∀ pair ∈ items.zip nodes, pair.1.Spelled → pair.2.Spelled)
      (spelled : ∀ item ∈ items, item.Spelled) : ∀ node ∈ nodes, node.Spelled := by
    intro node member
    rcases exists_across count member with ⟨item, present, across⟩
    exact each _ across (spelled item present)
  induction elaborates with
  | integer => exact fun _ => .of_parts (by simp [IsSpelled]) (fun _ member => nomatch member)
  | @symbol id span name =>
      intro spelled
      refine .of_parts ?_ fun part member => ?_
      · rcases compileSymbol_cases span name with ⟨-, node⟩ | ⟨color, -, node⟩ | ⟨-, node⟩ <;>
          rw [node] <;> exact spelled.name
      · rw [parts_compileSymbol] at member
        cases member
  | sequence count _ induction =>
      intro spelled
      exact .of_parts isSpelled_do (row count induction fun item member =>
        spelled.item item (List.mem_cons_of_mem _ member))
  | block _ _ count _ argInduction induction =>
      intro spelled
      refine .of_parts (spelled.item _ List.mem_cons_self).name fun part member => ?_
      rcases List.mem_cons.mp member with rfl | member
      · exact argInduction (spelled.item _ (by simp))
      · exact row count induction (fun item present => spelled.item item (by simp [present]))
          part member
  | operation _ _ _ _ _ count _ induction =>
      intro spelled
      refine .of_parts (spelled.item _ List.mem_cons_self).name ?_
      rw [Node.parts, List.append_nil]
      exact row count induction fun item member => spelled.item item (List.mem_cons_of_mem _ member)
  | @defineVar _ _ _ _ _ _ arg _ _ _ induction | @setVar _ _ _ _ _ _ arg _ _ _ induction =>
      intro spelled
      refine .of_parts (spelled.item _ (List.mem_cons_of_mem _ List.mem_cons_self)).name ?_
      intro part member
      have only : part = arg := by simpa [Node.parts] using member
      rw [only]
      exact induction (spelled.item _ (by simp))
  | defineFunc _ _ count _ induction =>
      intro spelled
      have target := spelled.item _ (List.mem_cons_of_mem _ List.mem_cons_self)
      refine .of_parts (target.item _ List.mem_cons_self).name ?_
      exact row count induction fun item member => spelled.item item (by simp [member])

theorem ElaboratesProgram.spelled {arity : ArityTable} {exprs : List RawExpr} {root : Node}
    (elaborates : ElaboratesProgram arity exprs root)
    (spelled : ∀ raw ∈ exprs, raw.Spelled) : root.Spelled := by
  have sequence {id span children} {items : List RawExpr}
      (all : ElaboratesAll arity true items children) (each : ∀ item ∈ items, item.Spelled) :
      Node.Spelled { id, kind := .doForm, span, op := "do", children } := by
    refine .of_parts isSpelled_do fun part member => ?_
    rcases all.of_mem member with ⟨item, present, elaborates⟩
    exact elaborates.spelled (each item present)
  cases elaborates with
  | explicit all =>
      exact sequence all fun item member =>
        (spelled _ List.mem_cons_self).item item (List.mem_cons_of_mem _ member)
  | single _ node => exact node.spelled (spelled _ List.mem_cons_self)
  | implicit all => exact sequence all spelled

/-- In an accepted program every operator is spelled. -/
theorem Program.spelled (program : Program) : program.root.Spelled := by
  rcases program.parses with ⟨parsed, built, parses, clean, -⟩
  rcases program.elaborates with ⟨again, found, -, elaborates⟩
  rw [parses] at found
  cases found
  rcases parse_reads parses clean with ⟨reading⟩
  exact elaborates.spelled reading.spelled

end CardCode
