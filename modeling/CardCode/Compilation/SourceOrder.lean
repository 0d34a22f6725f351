import CardCode.Compilation.NodeIds

/-! # Ids follow the source

The highlightable nodes of a tree, in the order of their ids, begin at different places of
the source, one after another: an expression begins before its parts, and these begin in
the order in which they are written. Only the `do` that several statements are put under
begins with its first statement.
-/

namespace CardCode

/-! ## Where expressions begin -/

namespace RawExpr

mutual

/-- Where an expression and those inside it begin, in the order in which they are written. -/
def starts : RawExpr → List Nat
  | .list span items => span.startOffset.toNat :: startsAll items
  | .symbol span _ => [span.startOffset.toNat]
  | .integer span _ => [span.startOffset.toNat]

def startsAll : List RawExpr → List Nat
  | [] => []
  | item :: rest => item.starts ++ startsAll rest

end

end RawExpr

open RawExpr

def Token.start (token : Token) : Nat :=
  token.span.startOffset.toNat

namespace TokenTree

theorem startsAll_toRaw {trees : List (TokenTree Token)}
    (each : ∀ tree ∈ trees, (toRaw tree).starts.Sublist (tree.flatten.map Token.start)) :
    (startsAll (trees.map toRaw)).Sublist ((flattenAll trees).map Token.start) := by
  induction trees with
  | nil => exact .slnil
  | cons tree rest induction =>
      rw [List.map_cons, startsAll, flattenAll_cons, List.map_append]
      exact (each tree List.mem_cons_self).append
        (induction fun other member => each other (List.mem_cons_of_mem tree member))

/-- Expressions begin where their tokens do. -/
theorem starts_toRaw (tree : TokenTree Token) :
    (toRaw tree).starts.Sublist (tree.flatten.map Token.start) := by
  induction tree using induct with
  | leaf token =>
      rw [toRaw, Token.toRaw, flatten_leaf]
      split <;> exact List.Sublist.refl _
  | group opening items closing induction =>
      rw [toRaw_group, starts, flatten_group, List.map_cons, List.map_append]
      exact ((startsAll_toRaw induction).trans (List.sublist_append_left _ _)).cons_cons _

end TokenTree

/-- Of two expressions of a source the one that is written first begins first. -/
theorem Reading.starts_ascending {source : Bytes} {exprs : List RawExpr}
    (reading : Reading source exprs) : (startsAll exprs).Pairwise (· < ·) := by
  have ascending := reading.scans.ascending fun _ => Nat.one_pos
  have tokens : ((TokenTree.flattenAll reading.trees).map Token.lexeme).map Lexeme.start =
      (TokenTree.flattenAll reading.trees).map Token.start := by
    rw [List.map_map]
    rfl
  have inner := TokenTree.startsAll_toRaw fun tree (_ : tree ∈ reading.trees) =>
    TokenTree.starts_toRaw tree
  rw [reading.exprs_eq]
  exact (tokens ▸ ascending.2).sublist inner

/-! ## Where nodes begin -/

def Node.start (node : Node) : Nat :=
  node.span.startOffset.toNat

/-- Where the highlightable nodes of a row of trees begin. -/
def litStarts (nodes : List Node) : List Nat :=
  (Node.highlightedAll nodes).map Node.start

theorem litStarts_cons (node : Node) (rest : List Node) :
    litStarts (node :: rest) = node.highlighted.map Node.start ++ litStarts rest := by
  rw [litStarts, Node.highlightedAll, List.map_append]
  rfl

theorem litStarts_nil : litStarts [] = [] :=
  rfl

/-- A node begins with its expression, and the nodes inside it where expressions inside
that do. -/
def Node.BeginsAs (node : Node) (raw : RawExpr) : Prop :=
  ∃ inner, raw.starts = node.start :: inner ∧ (litStarts node.parts).Sublist inner

theorem Node.BeginsAs.starts {node : Node} {raw : RawExpr} (begins : node.BeginsAs raw) :
    (node.highlighted.map Node.start).Sublist raw.starts := by
  rcases begins with ⟨inner, written, parts⟩
  rw [written, Node.highlighted_eq, List.map_append]
  split
  · exact parts.cons_cons node.start
  · exact parts.cons node.start

theorem row_starts {items : List RawExpr} {nodes : List Node} (count : items.length = nodes.length)
    (each : ∀ pair ∈ items.zip nodes, pair.2.BeginsAs pair.1) :
    (litStarts nodes).Sublist (startsAll items) := by
  induction nodes generalizing items with
  | nil => exact List.nil_sublist _
  | cons node rest induction =>
      cases items with
      | nil => cases count
      | cons item items =>
          rw [litStarts_cons, startsAll]
          exact (each (item, node) List.mem_cons_self).starts.append (induction (Nat.succ.inj count)
            fun pair member => each pair (List.mem_cons_of_mem _ member))

/-- The nodes of a tree begin where expressions do, and in their order. -/
theorem Elaborates.begins {arity : ArityTable} {raw : RawExpr} {topLevel : Bool} {node : Node}
    (elaborates : Elaborates arity raw topLevel node) : node.BeginsAs raw := by
  induction elaborates with
  | integer => exact ⟨[], rfl, .slnil⟩
  | @symbol id span name =>
      have begins : Node.start { compileSymbol span name with id } = span.startOffset.toNat := by
        rcases compileSymbol_cases span name with ⟨-, node⟩ | ⟨color, -, node⟩ | ⟨-, node⟩ <;>
          rw [node] <;> rfl
      refine ⟨[], by rw [begins, RawExpr.starts], ?_⟩
      rw [parts_compileSymbol]
      exact .slnil
  | sequence count _ induction =>
      refine ⟨_, rfl, ?_⟩
      rw [Node.parts, List.nil_append, startsAll]
      exact (row_starts count induction).trans (List.sublist_append_right _ _)
  | block _ _ count _ argInduction induction =>
      refine ⟨_, rfl, ?_⟩
      rw [Node.parts, List.singleton_append, litStarts_cons, startsAll, startsAll]
      exact (argInduction.starts.append (row_starts count induction)).trans
        (List.sublist_append_right _ _)
  | operation _ _ _ _ _ count _ induction =>
      refine ⟨_, rfl, ?_⟩
      rw [Node.parts, List.append_nil, startsAll]
      exact (row_starts count induction).trans (List.sublist_append_right _ _)
  | defineVar _ _ induction | setVar _ _ induction =>
      refine ⟨_, rfl, ?_⟩
      rw [Node.parts, List.append_nil, litStarts_cons, litStarts_nil, startsAll, startsAll,
        startsAll, startsAll]
      exact ((induction.starts.append .slnil).trans (List.sublist_append_right _ _)).trans
        (List.sublist_append_right _ _)
  | defineFunc _ _ count _ induction =>
      refine ⟨_, rfl, ?_⟩
      rw [Node.parts, List.nil_append, startsAll, startsAll]
      exact ((row_starts count induction).trans (List.sublist_append_right _ _)).trans
        (List.sublist_append_right _ _)

/-! ## Programs -/

/-- The source holds several statements, which `compile` puts under a `do`. -/
def Program.HasImplicitRoot (program : Program) : Prop :=
  ∃ parsed, parse program.source = some parsed ∧ 1 < parsed.exprs.length

/-- The nodes are numbered in the order in which they begin. -/
theorem ordered_of_ascending {nodes : List Node}
    (ids : (nodes.map fun node => node.id.toNat).Pairwise (· < ·))
    (starts : (nodes.map Node.start).Pairwise (· < ·)) :
    ∀ first ∈ nodes, ∀ second ∈ nodes, first.id < second.id →
      first.start < second.start := by
  rw [List.pairwise_map] at ids starts
  have backwards : nodes.Pairwise fun second first =>
      first.id < second.id → first.start < second.start :=
    ids.imp fun before less =>
      absurd (UInt32.lt_iff_toNat_lt.mp less) (Nat.lt_asymm before)
  have forwards : nodes.Pairwise fun first second =>
      first.id < second.id → first.start < second.start := by
    refine starts.imp ?_
    intro first second before _
    exact before
  intro first firstMember second secondMember
  exact List.Pairwise.forall_of_forall_of_flip
    (R := fun first second => first.id < second.id → first.start < second.start)
    (fun node _ less => absurd less (UInt32.lt_irrefl node.id)) forwards backwards firstMember
    secondMember

theorem RawExpr.starts_head (raw : RawExpr) :
    raw.starts.head? = some raw.span.startOffset.toNat := by
  cases raw <;> rfl

/-- Every node under an implicit `do` begins behind it, but for the first statement. -/
theorem implicit_starts {arity : ArityTable} {first : RawExpr} {rest : List RawExpr}
    {child : Node} {children : List Node}
    (all : ElaboratesAll arity true (first :: rest) (child :: children))
    (ascending : (startsAll (first :: rest)).Pairwise (· < ·)) :
    ∀ node ∈ Node.highlightedAll (child :: children),
      first.span.startOffset.toNat < node.start ∨
        node = child ∧ first.span.startOffset.toNat = node.start := by
  rcases all with ⟨count, each⟩
  rcases (each (first, child) List.mem_cons_self).begins with ⟨inner, written, parts⟩
  have others := row_starts (Nat.succ.inj count) fun pair member =>
    (each pair (List.mem_cons_of_mem _ member)).begins
  have head := RawExpr.starts_head first
  rw [written, List.head?_cons, Option.some.injEq] at head
  rw [startsAll, written, List.cons_append, List.pairwise_cons] at ascending
  intro node member
  rw [Node.highlightedAll, Node.highlighted_eq] at member
  rw [← head]
  rcases List.mem_append.mp member with member | member
  · rcases List.mem_append.mp member with own | member
    · split at own
      · rw [List.mem_singleton.mp own]
        exact .inr ⟨rfl, rfl⟩
      · cases own
    · exact .inl (ascending.1 _ (List.mem_append_left _
        (parts.subset (List.mem_map_of_mem member))))
  · exact .inl (ascending.1 _ (List.mem_append_right _
      (others.subset (List.mem_map_of_mem member))))

theorem Node.lit_of_mem {node root : Node} :
    node ∈ root.highlighted → node.kind.isHighlightable = true := by
  induction root using Node.induct with
  | step root induction =>
      intro member
      rw [highlighted_eq] at member
      rcases List.mem_append.mp member with own | member
      · split at own
        next lit =>
          rw [List.mem_singleton.mp own]
          exact lit
        next => cases own
      · rcases mem_highlightedAll.mp member with ⟨part, present, member⟩
        exact induction part present member

theorem Program.ids_ascending (program : Program) :
    (program.root.highlighted.map fun node => node.id.toNat).Pairwise (· < ·) := by
  rw [program.ids_eq]
  exact List.pairwise_lt_range

/-- The nodes begin one after another, but for a root that the source does not hold. -/
theorem ElaboratesProgram.starts {arity : ArityTable} {exprs : List RawExpr} {root : Node}
    (elaborates : ElaboratesProgram arity exprs root)
    (ascending : (startsAll exprs).Pairwise (· < ·)) :
    (root.highlighted.map Node.start).Pairwise (· < ·) ∨
      ∃ child children, root.children = child :: children ∧ 1 < exprs.length ∧
        root.highlighted = root :: Node.highlightedAll (child :: children) ∧
        (litStarts (child :: children)).Pairwise (· < ·) ∧
        ∀ node ∈ Node.highlightedAll (child :: children),
          root.start < node.start ∨ node = child ∧ root.start = node.start := by
  cases elaborates with
  | explicit all =>
      rw [startsAll, startsAll, List.append_nil] at ascending
      have rows := row_starts all.1 fun pair member => (all.2 pair member).begins
      refine .inl (ascending.sublist (Node.BeginsAs.starts ⟨_, rfl, ?_⟩))
      rw [Node.parts, List.nil_append, startsAll]
      exact rows.trans (List.sublist_append_right _ _)
  | single _ top =>
      rw [startsAll, startsAll, List.append_nil] at ascending
      exact .inl (ascending.sublist top.begins.starts)
  | @implicit _ first second rest children all =>
      cases children with
      | nil => cases all.1
      | cons child children =>
          have rows := row_starts all.1 fun pair member => (all.2 pair member).begins
          refine .inr ⟨child, children, rfl, Nat.succ_lt_succ (Nat.succ_pos _), ?_,
            ascending.sublist rows, implicit_starts all ascending⟩
          rw [Node.highlighted_eq]
          rfl

/-- Of two highlightable nodes the one of the smaller id begins first; only the `do` that
several statements are put under begins with the first of them. -/
theorem Program.starts_follow_ids (program : Program) :
    ∀ first ∈ program.root.highlighted, ∀ second ∈ program.root.highlighted,
      first.id < second.id →
      first.start < second.start ∨
        first = program.root ∧ program.HasImplicitRoot ∧
          program.root.children.head? = some second ∧ first.start = second.start := by
  rcases program.parses with ⟨parsed, built, parses, clean, -⟩
  rcases program.elaborates with ⟨again, found, -, elaborates⟩
  rw [parses] at found
  cases found
  rcases parse_reads parses clean with ⟨reading⟩
  have ids := program.ids_ascending
  intro first firstMember second secondMember less
  rcases elaborates.starts reading.starts_ascending with
    starts | ⟨child, children, shape, several, all, starts, behind⟩
  · exact .inl (ordered_of_ascending ids starts first firstMember second secondMember less)
  · rw [all] at firstMember secondMember ids
    rw [List.map_cons, List.pairwise_cons] at ids
    have smaller := UInt32.lt_iff_toNat_lt.mp less
    rcases List.mem_cons.mp secondMember with equal | secondMember
    · rcases List.mem_cons.mp firstMember with same | firstMember
      · rw [same, equal] at smaller
        exact absurd smaller (Nat.lt_irrefl _)
      · have larger := ids.1 _ (List.mem_map_of_mem firstMember)
        rw [equal] at smaller
        exact absurd smaller (Nat.lt_asymm larger)
    rcases List.mem_cons.mp firstMember with equal | firstMember
    · rw [equal]
      rcases behind second secondMember with before | ⟨isChild, same⟩
      · exact .inl before
      · refine .inr ⟨rfl, ⟨parsed, parses, several⟩, ?_, same⟩
        rw [shape, isChild]
        rfl
    · exact .inl (ordered_of_ascending ids.2 starts first firstMember second secondMember less)

/-- The ids of the highlightable nodes of an accepted program are the numbers below their
count, one each, and follow the source. -/
theorem Program.ids_follow_source (program : Program) :
    (∀ node, node ∈ program.root.highlighted ↔
      Node.Within node program.root ∧ node.kind.isHighlightable = true) ∧
    (program.root.highlighted.map Node.id).Nodup ∧
    (∀ number, number ∈ program.root.highlighted.map (fun node => node.id.toNat) ↔
      number < program.root.highlighted.length) ∧
    ∀ first ∈ program.root.highlighted, ∀ second ∈ program.root.highlighted,
      first.id < second.id →
      first.span.startOffset < second.span.startOffset ∨
        first = program.root ∧ program.HasImplicitRoot ∧
          program.root.children.head? = some second ∧
          first.span.startOffset = second.span.startOffset := by
  refine ⟨?_, program.ids_nodup, ?_, ?_⟩
  · intro node
    exact ⟨fun member => ⟨Node.within_of_mem member, Node.lit_of_mem member⟩,
      fun both => Node.mem_highlighted both.1 both.2⟩
  · intro number
    rw [program.ids_eq]
    exact List.mem_range
  · intro first firstMember second secondMember less
    rcases program.starts_follow_ids first firstMember second secondMember less with
      before | ⟨isRoot, implicit, isFirst, same⟩
    · exact .inl (UInt32.lt_iff_toNat_lt.mpr before)
    · exact .inr ⟨isRoot, implicit, isFirst, UInt32.toNat_inj.mp same⟩

end CardCode
