import CardCode.App.Values
import CardCode.Compilation.Spelling

/-! # What the engine accepts is regular

The engine's compiler checks what the projection relies on: every list is headed
by a name, `set!` has a name and a value, `if` three arguments, and a signature
nothing but names.
-/

namespace CardCode.App

/-- Every member of the first of two rows stands across from one of the second. -/
theorem across {items : List RawExpr} {nodes : List Node} (count : items.length = nodes.length)
    {item : RawExpr} (member : item ∈ items) : ∃ node, (item, node) ∈ items.zip nodes := by
  rcases List.getElem_of_mem member with ⟨index, inside, rfl⟩
  have second : index < nodes.length := by omega
  exact ⟨nodes[index], List.mem_iff_getElem.mpr ⟨index, by simp; omega, by simp⟩⟩

theorem FormRegular.other {name : String} {args : List Shape} (notSet : name ≠ "set!")
    (notIf : name ≠ "if") (notDefine : name ≠ "define") : FormRegular name args where
  set := fun equal => absurd equal notSet
  branch := fun equal => absurd equal notIf
  define := fun equal => absurd equal notDefine

theorem FormRegular.definition {args : List Shape}
    (signature : ∀ items, args.head? = some (.list items) →
      ∀ item ∈ items, ∃ param, item = .symbol param) : FormRegular "define" args where
  set := fun equal => absurd equal (by decide)
  branch := fun equal => absurd equal (by decide)
  define := fun _ => signature

theorem FormRegular.assignment {target : String} {value : Shape}
    (free : CardCode.isReserved target = false) :
    FormRegular "set!" [.symbol target, value] where
  set := fun _ => ⟨target, value, rfl, free⟩
  branch := fun equal => absurd equal (by decide)
  define := fun equal => absurd equal (by decide)

theorem blockKind?_name {op : String} {kind : NodeKind} (known : blockKind? op = some kind) :
    op ≠ "set!" ∧ op ≠ "if" ∧ op ≠ "define" := by
  rcases blockKind?_cases known with ⟨rfl, -⟩ | ⟨rfl, -⟩ | ⟨rfl, -⟩ <;> decide

theorem builtin_names {name : String} (free : CardCode.isBuiltinName name = false) :
    name ≠ "set!" ∧ name ≠ "if" ∧ name ≠ "define" := by
  have differs {taken : String} (builtin : CardCode.isBuiltinName taken = true) : name ≠ taken := by
    intro equal
    rw [equal, builtin] at free
    cases free
  exact ⟨differs (by decide), differs (by decide), differs (by decide)⟩

theorem names_regular {items : List RawExpr} {names : List String}
    (areNames : AreNames items names) :
    ∀ item ∈ items, ∃ name, rawShape item = .symbol name := by
  induction areNames with
  | nil => exact fun _ member => nomatch member
  | cons _ _ induction => exact List.forall_mem_cons.mpr ⟨⟨_, rawShape_symbol _ _⟩, induction⟩

/-- A list of items with these shapes. -/
theorem regular_form {span headSpan : SourceSpan} {name : String} {items : List RawExpr}
    (each : ∀ item ∈ items, Regular (rawShape item))
    (form : FormRegular name (items.map rawShape)) :
    Regular (rawShape (.list span (.symbol headSpan name :: items))) := by
  rw [rawShape_list, List.map_cons, rawShape_symbol]
  refine .list ?_ form
  intro shape member
  rcases List.mem_map.mp member with ⟨item, present, rfl⟩
  exact each item present

theorem elaborates_regular {arity : ArityTable} {raw : RawExpr} {topLevel : Bool} {node : Node}
    (elaborates : Elaborates arity raw topLevel node) : Regular (rawShape raw) := by
  have row {items : List RawExpr} {nodes : List Node} (count : items.length = nodes.length)
      (each : ∀ pair ∈ items.zip nodes, Regular (rawShape pair.1)) :
      ∀ item ∈ items, Regular (rawShape item) := by
    intro item member
    rcases across count member with ⟨node, pair⟩
    exact each _ pair
  have symbol (span : SourceSpan) (name : String) : Regular (rawShape (.symbol span name)) := by
    rw [rawShape_symbol]
    exact .symbol
  induction elaborates with
  | integer =>
      rw [rawShape]
      exact .integer
  | symbol => exact symbol _ _
  | sequence count _ induction =>
      exact regular_form (row count induction) (.other (by decide) (by decide) (by decide))
  | block known _ count _ leadingRegular induction =>
      rcases blockKind?_name known with ⟨notSet, notIf, notDefine⟩
      exact regular_form (List.forall_mem_cons.mpr ⟨leadingRegular, row count induction⟩)
        (.other notSet notIf notDefine)
  | @operation _ _ _ op _ items _ _ _ _ notDefine notSet allowed count _ induction =>
      refine regular_form (row count induction) ⟨fun equal => absurd equal notSet, ?_,
        fun equal => absurd equal notDefine⟩
      intro isIf
      rw [isIf, operationKind?, if_pos rfl] at allowed
      split_ifs at allowed with three
      rw [List.length_map]
      exact three
  | defineVar _ _ induction =>
      refine regular_form ?_ (.definition ?_)
      · exact List.forall_mem_cons.mpr ⟨symbol _ _, List.forall_mem_singleton.mpr induction⟩
      · simp
  | defineFunc free areNames count _ induction =>
      rcases builtin_names free with ⟨notSet, notIf, notDefine⟩
      have params := names_regular areNames
      refine regular_form ?_ (.definition ?_)
      · refine List.forall_mem_cons.mpr ⟨?_, row count induction⟩
        refine regular_form ?_ (.other notSet notIf notDefine)
        intro item member
        rcases params item member with ⟨name, shape⟩
        rw [shape]
        exact .symbol
      · intro shapes head item member
        rw [List.map_cons, List.head?_cons, rawShape_list, List.map_cons, rawShape_symbol,
          Option.some.injEq, Shape.list.injEq] at head
        rw [← head] at member
        rcases List.mem_cons.mp member with rfl | member
        · exact ⟨_, rfl⟩
        · rcases List.mem_map.mp member with ⟨param, present, rfl⟩
          exact params param present
  | setVar free _ induction =>
      refine regular_form
        (List.forall_mem_cons.mpr ⟨symbol _ _, List.forall_mem_singleton.mpr induction⟩) ?_
      rw [List.map_cons, rawShape_symbol]
      exact .assignment free

theorem program_regular {arity : ArityTable} {exprs : List RawExpr} {root : Node}
    (elaborates : ElaboratesProgram arity exprs root) :
    ∀ raw ∈ exprs, Regular (rawShape raw) := by
  have row {items : List RawExpr} {nodes : List Node} (all : ElaboratesAll arity true items nodes) :
      ∀ item ∈ items, Regular (rawShape item) := by
    intro item member
    rcases across all.1 member with ⟨node, pair⟩
    exact elaborates_regular (all.2 _ pair)
  cases elaborates with
  | explicit all =>
      intro raw member
      rw [List.mem_singleton.mp member]
      exact regular_form (row all) (.other (by decide) (by decide) (by decide))
  | single _ node =>
      intro raw member
      rw [List.mem_singleton.mp member]
      exact elaborates_regular node
  | implicit all => exact row all

end CardCode.App
