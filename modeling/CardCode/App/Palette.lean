import CardCode.App.Edits
import CardCode.App.SoundTrees

/-! # New cards and new values (`app/src/edit.js`, `app/src/render.js`)

The picker offers the commands, controls and bindings of the manifest, and a parameter's
editor the values of its kind. A card that is built and a card whose parameter is set are
sound.
-/

namespace CardCode.App

/-! ## The manifest's parameters -/

/-- The kind of a parameter, by which its editor is chosen. -/
inductive ParamKind where
  | expression
  | symbol
  | symbolList
  | enum (values : List String)

structure PaletteParam where
  name : String
  kind : ParamKind
  default : CardValue

/-- The rows of cards that a card has: `children` or `branches`. -/
inductive Rows where
  | none
  | children
  | branches

/-- What is read of a manifest card to build a card and to edit its parameters. -/
structure PaletteCard where
  id : String
  rows : Rows
  params : List PaletteParam

/-- The cards of the default manifest whose kinds can be picked. -/
def palette : List PaletteCard := [
  ⟨"control.do", .children, []⟩,
  ⟨"control.repeat", .children, [⟨"count", .expression, .number 4⟩]⟩,
  ⟨"control.when", .children, [⟨"condition", .expression, .boolean true⟩]⟩,
  ⟨"control.if", .branches, [⟨"condition", .expression, .boolean true⟩]⟩,
  ⟨"control.while", .children, [⟨"condition", .expression, .boolean true⟩]⟩,
  ⟨"binding.define-var", .none,
    [⟨"name", .symbol, .text "x"⟩, ⟨"value", .expression, .number 0⟩]⟩,
  ⟨"binding.define-func", .children,
    [⟨"name", .symbol, .text "my-function"⟩, ⟨"params", .symbolList, .names []⟩]⟩,
  ⟨"binding.set", .none, [⟨"name", .symbol, .text "x"⟩, ⟨"value", .expression, .number 0⟩]⟩,
  ⟨"robot.drive", .none,
    [⟨"speed", .expression, .number 40⟩, ⟨"durationMs", .expression, .number 1000⟩]⟩,
  ⟨"robot.backward", .none,
    [⟨"speed", .expression, .number 40⟩, ⟨"durationMs", .expression, .number 1000⟩]⟩,
  ⟨"robot.turn-left", .none, [⟨"degrees", .expression, .number 90⟩]⟩,
  ⟨"robot.turn-right", .none, [⟨"degrees", .expression, .number 90⟩]⟩,
  ⟨"robot.stop", .none, []⟩,
  ⟨"robot.wait", .none, [⟨"durationMs", .expression, .number 1000⟩]⟩,
  ⟨"robot.light", .none,
    [⟨"color", .enum ["off", "red", "green", "blue", "yellow", "white"], .text "red"⟩]⟩,
  ⟨"robot.beep", .none, []⟩]

def pickableKinds : List CardKind :=
  [.command, .control, .binding]

theorem palette_pickable :
    palette.map (fun entry => (entry.id, entry.params.map PaletteParam.name)) =
      (defaultManifest.cards.filter fun card => card.kind ∈ pickableKinds).map
        fun card => (card.id, card.params) := by
  decide +kernel

/-- The manifest's entry for a parameter of a card. -/
def paramMeta (cardId name : String) : Option ParamKind := do
  let entry ← palette.find? fun entry => entry.id = cardId
  let param ← entry.params.find? fun param => param.name = name
  some param.kind

/-- A new card, with the manifest's defaults. -/
def buildCardFromManifest (entry : PaletteCard) : Card :=
  let head := baseCard "new" (cardById defaultManifest entry.id) default
    (entry.params.map fun param => (param.name, ⟨param.default, default⟩))
  match entry.rows with
  | .none => .leaf head
  | .children => .body head []
  | .branches => .fork head [] []

/-- A card of the manifest that can be picked, as it is when it is new: with the defaults of
its parameters and nothing below it. -/
structure Card.NewFrom (entry : PaletteCard) (new : Card) : Prop where
  picked : ∃ card ∈ defaultManifest.cards, card.kind ∈ pickableKinds ∧ entry.id = card.id ∧
    entry.params.map PaletteParam.name = card.params ∧ new.head.cardId = card.id ∧
    new.head.form = card.form ∧ new.head.kind = card.kind ∧
    new.head.category = card.category ∧ new.head.label = card.label
  values : new.head.params.map (fun param => (param.1, param.2.value)) =
    entry.params.map fun param => (param.name, param.default)
  empty : new.parts = []

theorem cardById_default :
    ∀ card ∈ defaultManifest.cards, cardById defaultManifest card.id = card := by
  decide +kernel

theorem built_newFrom {entry : PaletteCard} (picked : entry ∈ palette) :
    (buildCardFromManifest entry).NewFrom entry := by
  have listed : (entry.id, entry.params.map PaletteParam.name) ∈
      (defaultManifest.cards.filter fun card => card.kind ∈ pickableKinds).map
        fun card => (card.id, card.params) := by
    rw [← palette_pickable]
    exact List.mem_map_of_mem picked
  rcases List.mem_map.mp listed with ⟨card, member, same⟩
  rcases List.mem_filter.mp member with ⟨inside, pickable⟩
  rcases Prod.mk.inj same with ⟨sameId, sameParams⟩
  have found := cardById_default card inside
  have head : (buildCardFromManifest entry).head =
      baseCard "new" card default
        (entry.params.map fun param => (param.name, ⟨param.default, default⟩)) := by
    rw [buildCardFromManifest, ← sameId, found]
    cases entry.rows <;> rfl
  constructor
  · refine ⟨card, inside, of_decide_eq_true pickable, sameId.symm, sameParams.symm, ?_⟩
    rw [head]
    exact ⟨rfl, rfl, rfl, rfl, rfl⟩
  · rw [head, baseCard, List.map_map]
    rfl
  · rw [buildCardFromManifest]
    cases entry.rows <;> rfl

/-! ## Values -/

theorem number_shown {value : Int} (safe : -maxSafeInteger ≤ value ∧ value ≤ maxSafeInteger) :
    (CardValue.number value).IsShown := by
  rcases integerText_word value with ⟨isWord, isInteger, same⟩
  refine ⟨.integer (String.ofList (integerText value)) default, .integer ?_ ?_, .integer, ?_⟩
  · rw [String.toList_ofList]
    exact isInteger
  · rw [String.toList_ofList]
    exact isWord
  · rw [projectValue, projectIntegerValue, String.toList_ofList, same, if_pos safe]

theorem boolean_shown (value : Bool) : (CardValue.boolean value).IsShown := by
  cases value with
  | true => exact ⟨.symbol "true" default, IsName.spelled (by decide), .symbol, by rfl⟩
  | false => exact ⟨.symbol "false" default, IsName.spelled (by decide), .symbol, by rfl⟩

/-- The colours a light can be set to. -/
theorem colour_shown {raw : String}
    (colour : raw ∈ ["off", "red", "green", "blue", "yellow", "white"]) :
    (CardValue.text raw).IsShown := by
  simp only [List.mem_cons, List.not_mem_nil, or_false] at colour
  refine ⟨.symbol raw default, IsName.spelled ?_, .symbol, ?_⟩
  · rcases colour with rfl | rfl | rfl | rfl | rfl | rfl <;> decide
  · rcases colour with rfl | rfl | rfl | rfl | rfl | rfl <;> rfl

/-! ## Built cards -/

theorem simple_built {entry : PaletteCard}
    (chosen : chooseCard defaultManifest (cardById defaultManifest entry.id).form =
      some (cardById defaultManifest entry.id))
    (other : (cardById defaultManifest entry.id).form ∉ specialForms)
    (notSet : (cardById defaultManifest entry.id).form ≠ "set!") (noRows : entry.rows = .none)
    (names : entry.params.map PaletteParam.name = (cardById defaultManifest entry.id).params)
    (shown : ∀ value ∈ entry.params.map PaletteParam.default, value.IsShown) :
    (buildCardFromManifest entry).Sound := by
  have count : (entry.params.map PaletteParam.default).length =
      (cardById defaultManifest entry.id).params.length := by
    rw [← names, List.length_map, List.length_map]
  rw [buildCardFromManifest, noRows]
  refine .simple chosen other notSet (baseCard_is "new" _ default ?_) count shown
  rw [List.map_map, ← names, List.zip_map']
  rfl

/-- Every card that can be picked is built sound. -/
theorem built_sound {entry : PaletteCard} (picked : entry ∈ palette) :
    (buildCardFromManifest entry).Sound := by
  have four : (CardValue.number 4).IsShown := number_shown (by decide)
  have zero : (CardValue.number 0).IsShown := number_shown (by decide)
  have speed : (CardValue.number 40).IsShown := number_shown (by decide)
  have duration : (CardValue.number 1000).IsShown := number_shown (by decide)
  have degrees : (CardValue.number 90).IsShown := number_shown (by decide)
  have colour : (CardValue.text "red").IsShown := colour_shown (by decide)
  have motion : ∀ value ∈ [CardValue.number 40, .number 1000], value.IsShown :=
    List.forall_mem_cons.mpr ⟨speed, List.forall_mem_singleton.mpr duration⟩
  simp only [palette, List.mem_cons, List.not_mem_nil, or_false] at picked
  rcases picked with rfl | rfl | rfl | rfl | rfl | rfl | rfl | rfl | rfl | rfl | rfl | rfl | rfl |
    rfl | rfl | rfl
  · exact .sequence (baseCard_is "new" _ default rfl) (List.forall_mem_nil _)
  · exact .led .repeat' (baseCard_is "new" _ default rfl) four (List.forall_mem_nil _)
  · exact .led .when' (baseCard_is "new" _ default rfl) (boolean_shown true)
      (List.forall_mem_nil _)
  · exact .branches (baseCard_is "new" _ default rfl) (boolean_shown true) (List.forall_mem_nil _)
      (List.forall_mem_nil _)
  · exact .led .while' (baseCard_is "new" _ default rfl) (boolean_shown true)
      (List.forall_mem_nil _)
  · exact .variable (baseCard_is "new" _ default rfl) (by decide) zero
  · exact .function (baseCard_is "new" _ default rfl) (by decide) (List.forall_mem_nil _)
      (List.forall_mem_nil _)
  · exact .assignment (baseCard_is "new" _ default rfl) (.text (by decide)) zero
  · exact simple_built (by decide +kernel) (by decide) (by decide) rfl rfl motion
  · exact simple_built (by decide +kernel) (by decide) (by decide) rfl rfl motion
  · exact simple_built (by decide +kernel) (by decide) (by decide) rfl rfl
      (List.forall_mem_singleton.mpr degrees)
  · exact simple_built (by decide +kernel) (by decide) (by decide) rfl rfl
      (List.forall_mem_singleton.mpr degrees)
  · exact simple_built (by decide +kernel) (by decide) (by decide) rfl rfl (List.forall_mem_nil _)
  · exact simple_built (by decide +kernel) (by decide) (by decide) rfl rfl
      (List.forall_mem_singleton.mpr duration)
  · exact simple_built (by decide +kernel) (by decide) (by decide) rfl rfl
      (List.forall_mem_singleton.mpr colour)
  · exact simple_built (by decide +kernel) (by decide) (by decide) rfl rfl (List.forall_mem_nil _)

/-! ## Set parameters -/

/-- The values that the editor of a parameter of this kind can give it, where its text is a
name or a row of names and its code an expression in which every list is headed. -/
def ParamKind.Accepts : ParamKind → CardValue → Prop
  | .expression, value => value.IsShown
  | .symbol, .text name => IsName name
  | .symbolList, .names names => ∀ name ∈ names, IsName name
  | .enum values, .text value => value ∈ values
  | _, _ => False

theorem symbol_accepts {value : CardValue} (accepts : ParamKind.symbol.Accepts value) :
    ∃ name, value = .text name ∧ IsName name := by
  cases value with
  | text name => exact ⟨name, rfl, accepts⟩
  | null => exact accepts.elim
  | number value => exact accepts.elim
  | boolean value => exact accepts.elim
  | names names => exact accepts.elim
  | var name span => exact accepts.elim
  | call form args span => exact accepts.elim

theorem symbolList_accepts {value : CardValue} (accepts : ParamKind.symbolList.Accepts value) :
    ∃ names, value = .names names ∧ ∀ name ∈ names, IsName name := by
  cases value with
  | names names => exact ⟨names, rfl, accepts⟩
  | null => exact accepts.elim
  | number value => exact accepts.elim
  | boolean value => exact accepts.elim
  | text raw => exact accepts.elim
  | var name span => exact accepts.elim
  | call form args span => exact accepts.elim

/-- Whether the values of the kind are those of expressions. -/
def ParamKind.isValue : ParamKind → Bool
  | .expression => true
  | .enum values => values = ["off", "red", "green", "blue", "yellow", "white"]
  | _ => false

theorem value_accepts {kind : ParamKind} {value : CardValue} (isValue : kind.isValue = true)
    (accepts : kind.Accepts value) : value.IsShown := by
  cases kind with
  | expression => exact accepts
  | symbol => cases isValue
  | symbolList => cases isValue
  | enum values =>
      rw [ParamKind.isValue, decide_eq_true_eq] at isValue
      rw [isValue] at accepts
      cases value with
      | text raw => exact colour_shown accepts
      | null => exact accepts.elim
      | number value => exact accepts.elim
      | boolean value => exact accepts.elim
      | names names => exact accepts.elim
      | var name span => exact accepts.elim
      | call form args span => exact accepts.elim

/-- The parameters of the simple forms have values of expressions. -/
theorem simple_params :
    palette.all (fun entry => entry.id ∈ specialCards ||
      entry.params.all fun param => param.kind.isValue) = true := by
  decide

theorem paramMeta_simple {cardId name : String} {kind : ParamKind}
    (simple : cardId ∉ specialCards) (found : paramMeta cardId name = some kind) :
    kind.isValue = true := by
  rw [paramMeta] at found
  rcases Option.bind_eq_some_iff.mp found with ⟨entry, isEntry, found⟩
  rcases Option.bind_eq_some_iff.mp found with ⟨param, isParam, same⟩
  have entryId := List.find?_some isEntry
  have values := List.all_eq_true.mp simple_params entry (List.mem_of_find?_eq_some isEntry)
  rw [decide_eq_true_eq] at entryId
  rw [Bool.or_eq_true, decide_eq_true_eq, entryId] at values
  rw [← Option.some.inj same]
  rcases values with special | values
  · exact absurd special simple
  · exact List.all_eq_true.mp values param (List.mem_of_find?_eq_some isParam)

section SetParam

variable {head : CardHead} {card : ManifestCard} {values : List CardValue}

/-- The head of a card after a parameter is set. -/
def setParamHead (head : CardHead) (name : String) (value : CardValue) : CardHead :=
  { head with
    params := head.params.map fun param =>
      if param.1 = name then (name, { param.2 with value }) else param }

def setValue (name : String) (value : CardValue) (param : String) (old : CardValue) : CardValue :=
  if param = name then value else old

theorem setParam_values (name : String) (value : CardValue) (params : List (String × Param)) :
    (params.map fun param => if param.1 = name then (name, { param.2 with value }) else param).map
        (fun param => (param.1, param.2.value)) =
      (params.map fun param => (param.1, param.2.value)).map
        fun param => (param.1, setValue name value param.1 param.2) := by
  rw [List.map_map, List.map_map]
  apply List.map_congr_left
  intro param member
  simp only [Function.comp_apply, setValue]
  split
  next same => rw [same]
  next => rfl

theorem zip_setValue (name : String) (value : CardValue) (names : List String)
    (values : List CardValue) :
    (names.zip values).map (fun param => (param.1, setValue name value param.1 param.2)) =
      names.zip (names.zipWith (setValue name value) values) := by
  induction names generalizing values with
  | nil => rfl
  | cons first names induction =>
      cases values with
      | nil => rfl
      | cons old values =>
          rw [List.zip_cons_cons, List.map_cons, List.zipWith_cons_cons, List.zip_cons_cons,
            induction]

theorem CardHead.Is.setParam (is : head.Is card values) (name : String) (value : CardValue) :
    (setParamHead head name value).Is card (card.params.zipWith (setValue name value) values) := by
  refine ⟨is.cardId, is.form, is.kind, is.category, is.label, ?_, is.args⟩
  rw [setParamHead, setParam_values, is.params, zip_setValue]

end SetParam

/-- A card whose parameter is set to a value of its kind is sound. -/
theorem setParam_sound {card : Card} (sound : card.Sound) {name : String} {kind : ParamKind}
    (found : paramMeta card.head.cardId name = some kind) {value : CardValue}
    (accepts : kind.Accepts value) : (card.setParam name value).Sound := by
  have shown {cardId param : String} {old : CardValue} (oldShown : old.IsShown)
      (cardIdIs : card.head.cardId = cardId) (metaIs : paramMeta cardId param = some .expression) :
      (setValue name value param old).IsShown := by
    rw [setValue]
    split
    next same =>
      rw [cardIdIs, ← same, metaIs] at found
      rw [← Option.some.inj found] at accepts
      exact accepts
    next => exact oldShown
  have named {cardId param old : String} (isName : IsName old)
      (cardIdIs : card.head.cardId = cardId) (metaIs : paramMeta cardId param = some .symbol) :
      ∃ word, setValue name value param (.text old) = .text word ∧ IsName word := by
    rw [setValue]
    split
    next same =>
      rw [cardIdIs, ← same, metaIs] at found
      rw [← Option.some.inj found] at accepts
      exact symbol_accepts accepts
    next => exact ⟨old, rfl, isName⟩
  cases sound with
  | @sequence head children is each =>
      have isSet := is.setParam name value
      rw [List.zipWith_nil_right] at isSet
      exact .sequence isSet each
  | @led form cardId param head old children led is oldShown each =>
      rcases led_card led with ⟨cardIdIs, params, -, -⟩
      have isSet := is.setParam name value
      rw [params] at isSet
      refine .led led isSet (shown oldShown (is.cardId.trans cardIdIs) ?_) each
      cases led <;> rfl
  | @branches head old thenCards elseCards is oldShown thenEach elseEach =>
      have params : (cardById defaultManifest "control.if").params = ["condition"] := by decide
      have isSet := is.setParam name value
      rw [params] at isSet
      exact .branches isSet (shown oldShown (is.cardId.trans (cardById_id (by decide))) rfl)
        thenEach elseEach
  | @function head old params children is isName paramsNamed each =>
      have names : (cardById defaultManifest "binding.define-func").params =
          ["name", "params"] := by decide
      have cardIdIs := is.cardId.trans (cardById_id (by decide))
      have isSet := is.setParam name value
      have nameIs : paramMeta "binding.define-func" "name" = some .symbol := rfl
      rw [names] at isSet
      rcases named isName cardIdIs nameIs with ⟨word, nameSet, wordNamed⟩
      have rowSet : ∃ row, setValue name value "params" (.names params) = .names row ∧
          ∀ param ∈ row, IsName param := by
        rw [setValue]
        split
        next same =>
          rw [Card.head, cardIdIs, ← same] at found
          have kindIs : paramMeta "binding.define-func" "params" = some .symbolList := rfl
          rw [kindIs] at found
          rw [← Option.some.inj found] at accepts
          exact symbolList_accepts accepts
        next => exact ⟨params, rfl, paramsNamed⟩
      rcases rowSet with ⟨row, paramsSet, rowNamed⟩
      rw [List.zipWith_cons_cons, List.zipWith_cons_cons, nameSet, paramsSet] at isSet
      exact .function isSet wordNamed rowNamed each
  | @«variable» head old oldValue is isName oldShown =>
      have names : (cardById defaultManifest "binding.define-var").params = ["name", "value"] := by
        decide
      have cardIdIs := is.cardId.trans (cardById_id (by decide))
      have isSet := is.setParam name value
      have nameIs : paramMeta "binding.define-var" "name" = some .symbol := rfl
      rw [names] at isSet
      rcases named isName cardIdIs nameIs with ⟨word, nameSet, wordNamed⟩
      rw [List.zipWith_cons_cons, nameSet] at isSet
      exact .variable isSet wordNamed (shown oldShown cardIdIs rfl)
  | @assignment head target old is isTarget oldShown =>
      have cardIdIs : head.cardId = "binding.set" := by rw [is.cardId, assignment_params]
      have isSet := is.setParam name value
      rw [assignment_params] at isSet
      refine .assignment (assignment_params ▸ isSet) ?_ (shown oldShown cardIdIs rfl)
      rw [setValue]
      split
      next same =>
        rw [Card.head, cardIdIs, ← same] at found
        have kindIs : paramMeta "binding.set" "name" = some .symbol := rfl
        rw [kindIs] at found
        rw [← Option.some.inj found] at accepts
        rcases symbol_accepts accepts with ⟨word, rfl, isName⟩
        exact .text isName.2
      next => exact isTarget
  | @simple head manifestCard values chosen other notSet is count each =>
      rcases chooseCard_some chosen with ⟨member, -, kindIs⟩
      have isSimple := default_cards manifestCard member kindIs other notSet
      rw [Card.head, is.cardId] at found
      have isShown := value_accepts (paramMeta_simple isSimple found) accepts
      refine .simple chosen other notSet (is.setParam name value)
        (by rw [List.length_zipWith, count, Nat.min_self]) ?_
      intro set member
      rcases List.mem_iff_get.mp member with ⟨index, rfl⟩
      rw [List.get_eq_getElem, List.getElem_zipWith, setValue]
      split
      · exact isShown
      · exact each _ (List.getElem_mem _)
  | generic is isName stays =>
      rw [Card.head, is.cardId] at found
      cases found

end CardCode.App
