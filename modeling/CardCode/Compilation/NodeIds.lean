import CardCode.Compilation.WellFormed
import CardCode.Syntax.Trees
import Mathlib.Data.List.Nodup

/-! # Node ids

The highlightable nodes of an accepted program are numbered in preorder without
a gap. There are fewer of them than tokens, so no number wraps around and every
id names one node.
-/

namespace CardCode

namespace Node

mutual

/-- The highlightable nodes of a tree, in the order ids are assigned. -/
def highlighted : Node → List Node
  | ⟨id, kind, span, op, args, children, nums, params⟩ =>
      (if kind.isHighlightable then [⟨id, kind, span, op, args, children, nums, params⟩]
        else []) ++ (highlightedAll args ++ highlightedAll children)

def highlightedAll : List Node → List Node
  | [] => []
  | node :: rest => highlighted node ++ highlightedAll rest

end

theorem highlightedAll_append (first second : List Node) :
    highlightedAll (first ++ second) = highlightedAll first ++ highlightedAll second := by
  induction first with
  | nil => rw [highlightedAll, List.nil_append, List.nil_append]
  | cons node rest induction =>
      rw [List.cons_append, highlightedAll, highlightedAll, induction, List.append_assoc]

theorem highlighted_eq (node : Node) :
    node.highlighted =
      (if node.kind.isHighlightable then [node] else []) ++ highlightedAll node.parts := by
  rcases node with ⟨id, kind, span, op, args, children, nums, params⟩
  rw [highlighted, parts, highlightedAll_append]

theorem mem_highlightedAll {node : Node} {nodes : List Node} :
    node ∈ highlightedAll nodes ↔ ∃ root ∈ nodes, node ∈ root.highlighted := by
  induction nodes with
  | nil => simp [highlightedAll]
  | cons head rest induction => simp [highlightedAll, induction]

theorem mem_highlighted {node root : Node} (within : Within node root)
    (lit : node.kind.isHighlightable = true) : node ∈ root.highlighted := by
  induction within with
  | self =>
      rw [highlighted_eq, if_pos lit]
      exact List.mem_cons_self
  | part member _ induction =>
      rw [highlighted_eq]
      exact List.mem_append_right _ (mem_highlightedAll.mpr ⟨_, member, induction⟩)

theorem Within.trans {inner node root : Node} (first : Within inner node)
    (second : Within node root) : Within inner root := by
  induction second with
  | self => exact first
  | part member _ induction => exact .part member induction

theorem within_of_mem {node root : Node} :
    node ∈ root.highlighted → Within node root := by
  induction root using induct with
  | step root induction =>
      intro member
      rw [highlighted_eq] at member
      rcases List.mem_append.mp member with member | member
      · split at member
        next =>
          rw [List.mem_singleton.mp member]
          exact .self
        next => cases member
      · rcases mem_highlightedAll.mp member with ⟨part, present, member⟩
        exact .part present (induction part present member)

/-! ## Numbering -/

/-- Numbered from `next`, the highlightable nodes get the ids from there on up to
`after`, one each. -/
structure NumbersFrom (nodes numbered : List Node) (next after : UInt32) : Prop where
  length : (highlightedAll numbered).length = (highlightedAll nodes).length
  ids : next.toNat + (highlightedAll nodes).length < 2 ^ 32 →
    (highlightedAll numbered).map (fun node => node.id.toNat) =
        List.range' next.toNat (highlightedAll nodes).length ∧
      after.toNat = next.toNat + (highlightedAll nodes).length

theorem NumbersFrom.append {first second firstNumbered secondNumbered : List Node}
    {next middle after : UInt32} (head : NumbersFrom first firstNumbered next middle)
    (tail : NumbersFrom second secondNumbered middle after) :
    NumbersFrom (first ++ second) (firstNumbered ++ secondNumbered) next after := by
  constructor
  · rw [highlightedAll_append, highlightedAll_append, List.length_append, List.length_append,
      head.length, tail.length]
  · intro fits
    rw [highlightedAll_append, List.length_append] at fits
    rw [highlightedAll_append first second, List.length_append]
    rcases head.ids (by omega) with ⟨headIds, headEnd⟩
    rcases tail.ids (by omega) with ⟨tailIds, tailEnd⟩
    rw [highlightedAll_append, List.map_append, headIds, tailIds, headEnd, List.range'_append_1]
    exact ⟨rfl, by omega⟩

theorem assignPreorderAll_numbers {nodes : List Node}
    (each : ∀ node ∈ nodes, ∀ next,
      NumbersFrom [node] [(node.assignPreorder next).1] next (node.assignPreorder next).2)
    (next : UInt32) :
    NumbersFrom nodes (assignPreorderAll nodes next).1 next (assignPreorderAll nodes next).2 := by
  induction nodes generalizing next with
  | nil => exact ⟨rfl, fun _ => by simp [assignPreorderAll, highlightedAll]⟩
  | cons node rest induction =>
      rw [assignPreorderAll]
      exact (each node (by simp) next).append
        (induction (fun other member => each other (by simp [member])) _)

theorem assignPreorder_numbers (node : Node) (next : UInt32) :
    NumbersFrom [node] [(node.assignPreorder next).1] next (node.assignPreorder next).2 := by
  induction node using induct generalizing next with
  | step node induction =>
      rcases node with ⟨id, kind, span, op, args, children, nums, params⟩
      have parts (start : UInt32) : NumbersFrom (args ++ children)
          ((assignPreorderAll args start).1 ++
            (assignPreorderAll children (assignPreorderAll args start).2).1) start
          (assignPreorderAll children (assignPreorderAll args start).2).2 :=
        (assignPreorderAll_numbers
          (fun arg member => induction arg (List.mem_append_left _ member)) start).append
        (assignPreorderAll_numbers
          (fun child member => induction child (List.mem_append_right _ member)) _)
      have single (other : Node) : highlightedAll [other] = other.highlighted := by
        rw [highlightedAll, highlightedAll, List.append_nil]
      by_cases lit : kind.isHighlightable = true
      · have rest := parts (next + 1)
        constructor
        · rw [single, single, highlighted_eq, highlighted_eq, assignPreorder]
          simp only [Node.parts, lit, if_true, List.length_append, List.length_singleton]
          rw [rest.length]
        · intro fits
          rw [single, highlighted_eq, List.length_append] at fits
          rw [single, single, highlighted_eq, highlighted_eq, assignPreorder]
          simp only [Node.parts, lit, if_true, List.length_singleton] at fits ⊢
          have moved : (next + 1).toNat = next.toNat + 1 := by
            rw [UInt32.toNat_add]
            exact Nat.mod_eq_of_lt (show next.toNat + 1 < 2 ^ 32 by omega)
          rcases rest.ids (by omega) with ⟨ids, last⟩
          rw [List.map_append, ids, moved, List.length_append, List.length_singleton,
            Nat.add_comm 1, List.range'_succ]
          exact ⟨by simp, by omega⟩
      · have rest := parts next
        constructor
        · rw [single, single, highlighted_eq, highlighted_eq, assignPreorder]
          simp only [Node.parts, lit, Bool.false_eq_true, if_false, List.nil_append]
          exact rest.length
        · intro fits
          rw [single, highlighted_eq, List.length_append] at fits
          rw [single, single, highlighted_eq, highlighted_eq, assignPreorder]
          simp only [Node.parts, lit, Bool.false_eq_true, if_false, List.nil_append,
            List.length_nil, Nat.zero_add] at fits ⊢
          exact rest.ids fits

theorem assignNodeIds_ids {built : Node} :
    (assignNodeIds built).highlighted.length < 2 ^ 32 →
      (assignNodeIds built).highlighted.map (fun node => node.id.toNat) =
        List.range (assignNodeIds built).highlighted.length := by
  intro fits
  have numbers := assignPreorder_numbers built 0
  have length := numbers.length
  have ids := numbers.ids
  rw [highlightedAll, highlightedAll, List.append_nil, highlightedAll, highlightedAll,
    List.append_nil] at length ids
  rw [assignNodeIds] at fits ⊢
  rw [← length] at ids
  rw [(ids (by simpa using fits)).1, List.range_eq_range']
  simp

end Node

/-! ## How many there are -/

namespace RawExpr

mutual

/-- The number of tokens an expression is written with. -/
def size : RawExpr → Nat
  | .list _ items => sizeAll items + 2
  | .symbol _ _ => 1
  | .integer _ _ => 1

def sizeAll : List RawExpr → Nat
  | [] => 0
  | item :: rest => size item + sizeAll rest

end

end RawExpr

namespace TokenTree

theorem sizeAll_toRaw_of {trees : List (TokenTree Token)}
    (each : ∀ tree ∈ trees, (toRaw tree).size = tree.flatten.length) :
    RawExpr.sizeAll (trees.map toRaw) = (flattenAll trees).length := by
  induction trees with
  | nil => simp [RawExpr.sizeAll]
  | cons tree rest induction =>
      rw [List.map_cons, RawExpr.sizeAll, flattenAll_cons, List.length_append,
        each tree (by simp), induction fun other member => each other (by simp [member])]

theorem size_toRaw (tree : TokenTree Token) : (toRaw tree).size = tree.flatten.length := by
  induction tree using induct with
  | leaf token =>
      rw [toRaw, Token.toRaw]
      split <;> simp [RawExpr.size]
  | group opening items closing induction =>
      rw [toRaw_group, RawExpr.size, sizeAll_toRaw_of induction]
      simp

end TokenTree

theorem highlightedAll_lt {items : List RawExpr} {nodes : List Node}
    (count : items.length = nodes.length)
    (each : ∀ pair ∈ items.zip nodes, pair.2.highlighted.length < pair.1.size) :
    (Node.highlightedAll nodes).length + nodes.length ≤ RawExpr.sizeAll items := by
  induction nodes generalizing items with
  | nil => simp [Node.highlightedAll]
  | cons node rest induction =>
      cases items with
      | nil => cases count
      | cons item items =>
          have head := each (item, node) (by simp)
          have tail := induction (Nat.succ.inj count) fun pair member =>
            each pair (by simp [member])
          rw [Node.highlightedAll, RawExpr.sizeAll, List.length_append, List.length_cons]
          dsimp only at head
          omega

/-- A node is lit at most once itself. -/
theorem highlighted_length_le (node : Node) :
    node.highlighted.length ≤ (Node.highlightedAll node.parts).length + 1 := by
  rw [Node.highlighted_eq, List.length_append]
  split <;> simp
  omega

/-- A tree has fewer highlightable nodes than the expression has tokens. -/
theorem Elaborates.highlighted_lt {arity : ArityTable} {raw : RawExpr} {topLevel : Bool}
    {node : Node} (elaborates : Elaborates arity raw topLevel node) :
    node.highlighted.length < raw.size := by
  induction elaborates with
  | integer => simp [Node.highlighted, Node.highlightedAll, NodeKind.isHighlightable, RawExpr.size]
  | @symbol id span name =>
      have dark : (compileSymbol span name).kind.isHighlightable = false := by
        rcases compileSymbol_cases span name with ⟨-, node⟩ | ⟨color, -, node⟩ | ⟨-, node⟩ <;>
          rw [node] <;> rfl
      rw [Node.highlighted_eq, parts_compileSymbol, if_neg (by simp [dark]), RawExpr.size]
      simp [Node.highlightedAll]
  | sequence count _ induction =>
      have inner := highlightedAll_lt count induction
      apply Nat.lt_of_le_of_lt (highlighted_length_le _)
      simp only [Node.parts, List.nil_append, RawExpr.size, RawExpr.sizeAll]
      omega
  | block _ _ count _ argInduction induction =>
      have inner := highlightedAll_lt count induction
      apply Nat.lt_of_le_of_lt (highlighted_length_le _)
      simp only [Node.parts, Node.highlightedAll_append, Node.highlightedAll, List.append_nil,
        List.length_append, RawExpr.size, RawExpr.sizeAll]
      omega
  | operation _ _ _ _ _ count _ induction =>
      have inner := highlightedAll_lt count induction
      apply Nat.lt_of_le_of_lt (highlighted_length_le _)
      simp only [Node.parts, List.append_nil, RawExpr.size, RawExpr.sizeAll]
      omega
  | defineVar _ _ induction | setVar _ _ induction =>
      apply Nat.lt_of_le_of_lt (highlighted_length_le _)
      simp only [Node.parts, Node.highlightedAll, List.append_nil, RawExpr.size, RawExpr.sizeAll]
      omega
  | defineFunc _ _ count _ induction =>
      have inner := highlightedAll_lt count induction
      apply Nat.lt_of_le_of_lt (highlighted_length_le _)
      simp only [Node.parts, List.nil_append, RawExpr.size, RawExpr.sizeAll]
      omega

theorem ElaboratesProgram.highlighted_lt {arity : ArityTable} {exprs : List RawExpr}
    {root : Node} (elaborates : ElaboratesProgram arity exprs root) :
    root.highlighted.length < RawExpr.sizeAll exprs := by
  cases elaborates with
  | explicit all =>
      have inner := highlightedAll_lt all.1 fun pair member => (all.2 pair member).highlighted_lt
      apply Nat.lt_of_le_of_lt (highlighted_length_le _)
      simp only [Node.parts, List.nil_append, RawExpr.size, RawExpr.sizeAll]
      omega
  | single _ node =>
      have only := node.highlighted_lt
      rw [RawExpr.sizeAll, RawExpr.sizeAll]
      omega
  | implicit all =>
      have inner := highlightedAll_lt all.1 fun pair member => (all.2 pair member).highlighted_lt
      have count := all.1
      rw [List.length_cons, List.length_cons] at count
      apply Nat.lt_of_le_of_lt (highlighted_length_le _)
      simp only [Node.parts, List.nil_append]
      omega

/-! ## Accepted programs -/

/-- An accepted source is free of lexical and syntactic errors, and its tree is
numbered. -/
theorem Program.parses (program : Program) :
    ∃ parsed built, parse program.source = some parsed ∧
      hasErrors parsed.diagnostics = false ∧ program.root = assignNodeIds built := by
  have compiled := program.compiled
  have accepted := program.accepted
  rw [compile] at compiled
  rcases Option.map_eq_some_iff.mp compiled with ⟨parsed, parses, result⟩
  split at result
  next => cases result
  next first rest =>
    rw [CompileResult.mk.injEq] at result
    rw [← result.2, hasErrors_append, Bool.or_eq_false_iff] at accepted
    rcases Option.map_eq_some_iff.mp result.1 with ⟨built, -, numbered⟩
    exact ⟨parsed, built, parses, accepted.1, numbered.symm⟩

/-- The ids of an accepted program's highlightable nodes are `0`, `1`, `2` and so on. -/
theorem Program.ids_eq (program : Program) :
    program.root.highlighted.map (fun node => node.id.toNat) =
      List.range program.root.highlighted.length := by
  rcases program.parses with ⟨parsed, built, parses, clean, numbered⟩
  rcases program.elaborates with ⟨again, found, -, elaborates⟩
  rw [parses] at found
  cases found
  rcases parse_reads parses clean with ⟨reading⟩
  have fewer := elaborates.highlighted_lt
  have tokens := reading.scans.length_le
  have fits := reading.fits
  rw [reading.exprs_eq, TokenTree.sizeAll_toRaw_of fun tree _ => TokenTree.size_toRaw tree] at fewer
  rw [List.length_map, List.length_map] at tokens
  rw [numbered] at fewer ⊢
  exact Node.assignNodeIds_ids (by omega)

theorem Program.ids_nodup (program : Program) :
    (program.root.highlighted.map Node.id).Nodup := by
  apply List.Nodup.of_map UInt32.toNat
  rw [List.map_map]
  have ids : program.root.highlighted.map (UInt32.toNat ∘ Node.id) = _ := program.ids_eq
  rw [ids]
  exact List.nodup_range

theorem filter_eq_singleton {nodes : List Node} {node : Node}
    (nodup : (nodes.map Node.id).Nodup) (member : node ∈ nodes) :
    nodes.filter (fun other => other.id = node.id) = [node] := by
  classical
  have same : nodes.filter (fun other => other.id = node.id) =
      nodes.filter fun other => other = node := by
    apply List.filter_congr
    intro other present
    rw [Bool.eq_iff_iff, decide_eq_true_eq, decide_eq_true_eq]
    exact ⟨List.inj_on_of_nodup_map nodup present member, congrArg Node.id⟩
  rw [same, List.filter_eq, List.count_eq_one_of_mem nodup.of_map member, List.replicate_one]

/-- The id of a highlightable node of an accepted program is its own. -/
theorem Program.filter_id (program : Program) {node : Node}
    (within : Node.Within node program.root) (lit : node.kind.isHighlightable = true) :
    program.root.highlighted.filter (fun other => other.id = node.id) = [node] :=
  filter_eq_singleton program.ids_nodup (Node.mem_highlighted within lit)

end CardCode
