import CardCode.App.Compiling
import CardCode.App.Palette
import CardCode.App.SettledTrees

/-! # Block edits (`app/src/app.js`)

A block edit changes the tree of cards, writes it as source and projects that again, twice.
Whatever has happened in the editor before, the cards that are shown then are those of the
edited tree, settled twice.
-/

namespace CardCode.App

inductive BlockEdit where
  | insert (target : Target) (entry : PaletteCard)
  | delete (id : String)
  | setParam (id name : String) (value : CardValue)

/-- The report of the edit's mutator, and the tree it leaves. -/
def BlockEdit.mutate (edit : BlockEdit) (cards : List Card) : Option (Bool × List Card) :=
  match edit with
  | .insert target entry => insertCard cards target (buildCardFromManifest entry)
  | .delete id => some (deleteCardById cards id)
  | .setParam id name value => some (updateParamValue cards id name value)

/-- `mutateTree`. Where the mutator reports `false`, or the generator throws, nothing is
done. -/
def Ui.mutateTree (ui : Ui) (edit : BlockEdit) : Ui :=
  match edit.mutate ui.state.cards with
  | some (true, tree) =>
      match generateProgram tree with
      | .ok generated => (applySourceToState ui defaultManifest generated.source true).2
      | .error _ => ui
  | _ => ui

/-- The edits that the cards shown offer: a button below every row, a cross on every card,
and for every parameter the values of its editor. -/
inductive Offered (cards : List Card) : BlockEdit → Prop
  | insertLast {entry} : entry ∈ palette → Offered cards (.insert {} entry)
  | insertChild {id entry head children} :
      findCard cards id = some (.body head children) → entry ∈ palette →
      Offered cards (.insert { parentId := some id } entry)
  | insertThen {id entry head thenCards elseCards} :
      findCard cards id = some (.fork head thenCards elseCards) → entry ∈ palette →
      Offered cards (.insert { parentId := some id, branch := some "then" } entry)
  | insertElse {id entry head thenCards elseCards} :
      findCard cards id = some (.fork head thenCards elseCards) → entry ∈ palette →
      Offered cards (.insert { parentId := some id, branch := some "else" } entry)
  | delete {id card} : findCard cards id = some card → Offered cards (.delete id)
  | setParam {id name value card kind} :
      findCard cards id = some card → card.hasParam name = true →
      paramMeta card.head.cardId name = some kind → kind.Accepts value →
      Offered cards (.setParam id name value)

/-- What an edit makes of the cards: one row of the tree has a new card at its end, a card
less, or a card with another value, and the rest is as it was. -/
inductive Becomes (cards : List Card) : BlockEdit → List Card → Prop
  | insertedLast {entry new} :
      new.NewFrom entry → Becomes cards (.insert {} entry) (cards ++ [new])
  | insertedChild {entry new spot before head children after} :
      new.NewFrom entry → cards = Spot.fill spot (before ++ .body head children :: after) →
      Becomes cards (.insert { parentId := some head.id } entry)
        (Spot.fill spot (before ++ .body head (children ++ [new]) :: after))
  | insertedThen {entry new spot before head thenCards elseCards after} :
      new.NewFrom entry →
      cards = Spot.fill spot (before ++ .fork head thenCards elseCards :: after) →
      Becomes cards (.insert { parentId := some head.id, branch := some "then" } entry)
        (Spot.fill spot (before ++ .fork head (thenCards ++ [new]) elseCards :: after))
  | insertedElse {entry new spot before head thenCards elseCards after} :
      new.NewFrom entry →
      cards = Spot.fill spot (before ++ .fork head thenCards elseCards :: after) →
      Becomes cards (.insert { parentId := some head.id, branch := some "else" } entry)
        (Spot.fill spot (before ++ .fork head thenCards (elseCards ++ [new]) :: after))
  | deleted {spot before card after} :
      cards = Spot.fill spot (before ++ card :: after) →
      Becomes cards (.delete card.id) (Spot.fill spot (before ++ after))
  | updated {name value spot before card changed after} :
      cards = Spot.fill spot (before ++ card :: after) → card.Updated name value changed →
      Becomes cards (.setParam card.id name value) (Spot.fill spot (before ++ changed :: after))

/-! ## Edited trees are sound -/

theorem Card.Sound.children {head : CardHead} {children : List Card}
    (sound : (Card.body head children).Sound) :
    (∀ child ∈ children, child.Sound) ∧
      ∀ others, (∀ other ∈ others, other.Sound) → (Card.body head others).Sound := by
  cases sound with
  | sequence is each => exact ⟨each, fun others others' => .sequence is others'⟩
  | led led is shown each => exact ⟨each, fun others others' => .led led is shown others'⟩
  | function is isName named each =>
      exact ⟨each, fun others others' => .function is isName named others'⟩

theorem Card.Sound.branches' {head : CardHead} {thenCards elseCards : List Card}
    (sound : (Card.fork head thenCards elseCards).Sound) :
    ((∀ card ∈ thenCards, card.Sound) ∧ ∀ card ∈ elseCards, card.Sound) ∧
      ∀ thens elses, (∀ card ∈ thens, card.Sound) → (∀ card ∈ elses, card.Sound) →
        (Card.fork head thens elses).Sound := by
  cases sound with
  | branches is shown thenEach elseEach =>
      exact ⟨⟨thenEach, elseEach⟩, fun thens elses thenOthers elseOthers =>
        .branches is shown thenOthers elseOthers⟩

/-- A row in a sound tree is sound, and another sound row may take its place. -/
theorem Spot.fill_sound (spot : Spot) {row : List Card}
    (sound : ∀ card ∈ spot.fill row, card.Sound) :
    (∀ card ∈ row, card.Sound) ∧
      ∀ others, (∀ card ∈ others, card.Sound) → ∀ card ∈ spot.fill others, card.Sound := by
  induction spot with
  | top => exact ⟨sound, fun others each => each⟩
  | children before head inner after induction =>
      rw [fill, List.forall_mem_append, List.forall_mem_cons] at sound
      rcases sound with ⟨front, middle, back⟩
      rcases middle.children with ⟨inside, replace⟩
      rcases induction inside with ⟨rowSound, refill⟩
      refine ⟨rowSound, fun others each => ?_⟩
      rw [fill, List.forall_mem_append, List.forall_mem_cons]
      exact ⟨front, replace _ (refill others each), back⟩
  | thenBranch before head inner elseCards after induction =>
      rw [fill, List.forall_mem_append, List.forall_mem_cons] at sound
      rcases sound with ⟨front, middle, back⟩
      rcases middle.branches' with ⟨⟨inside, elses⟩, replace⟩
      rcases induction inside with ⟨rowSound, refill⟩
      refine ⟨rowSound, fun others each => ?_⟩
      rw [fill, List.forall_mem_append, List.forall_mem_cons]
      exact ⟨front, replace _ _ (refill others each) elses, back⟩
  | elseBranch before head thenCards inner after induction =>
      rw [fill, List.forall_mem_append, List.forall_mem_cons] at sound
      rcases sound with ⟨front, middle, back⟩
      rcases middle.branches' with ⟨⟨thens, inside⟩, replace⟩
      rcases induction inside with ⟨rowSound, refill⟩
      refine ⟨rowSound, fun others each => ?_⟩
      rw [fill, List.forall_mem_append, List.forall_mem_cons]
      exact ⟨front, replace _ _ thens (refill others each), back⟩

theorem EditsCard.sound {cards before after : List Card} {card : Card} {spot : Spot}
    (edits : EditsCard cards spot before card after) (sound : ∀ card ∈ cards, card.Sound) :
    card.Sound ∧ (∀ card ∈ spot.fill (before ++ after), card.Sound) ∧
      ∀ other : Card, other.Sound → ∀ card ∈ spot.fill (before ++ other :: after), card.Sound := by
  rw [edits.placed] at sound
  rcases spot.fill_sound sound with ⟨row, refill⟩
  rw [List.forall_mem_append, List.forall_mem_cons] at row
  rcases row with ⟨front, middle, back⟩
  refine ⟨middle, refill _ (List.forall_mem_append.mpr ⟨front, back⟩), fun other holds => ?_⟩
  exact refill _ (List.forall_mem_append.mpr ⟨front, List.forall_mem_cons.mpr ⟨holds, back⟩⟩)

theorem appended_sound {cards : List Card} {card : Card} (each : ∀ card ∈ cards, card.Sound)
    (sound : card.Sound) : ∀ other ∈ cards ++ [card], other.Sound :=
  List.forall_mem_append.mpr ⟨each, List.forall_mem_singleton.mpr sound⟩

/-- An edit that is offered is made, and leaves a sound tree. -/
theorem Offered.mutates {cards : List Card} {edit : BlockEdit} (offered : Offered cards edit)
    (distinct : (idsOf cards).Nodup) (sound : ∀ card ∈ cards, card.Sound) :
    ∃ tree, Becomes cards edit tree ∧ edit.mutate cards = some (true, tree) ∧
      ∀ card ∈ tree, card.Sound := by
  cases offered with
  | insertLast picked =>
      exact ⟨_, .insertedLast (built_newFrom picked), rfl,
        appended_sound sound (built_sound picked)⟩
  | @insertChild id entry head children found picked =>
      rcases editsCard_of_found distinct found with ⟨rfl, spot, before, after, edits⟩
      rcases edits.sound sound with ⟨here, -, replaced⟩
      rcases here.children with ⟨each, refill⟩
      refine ⟨_, .insertedChild (built_newFrom picked) edits.placed,
        edits.child_inserted head children _ rfl, replaced _ (refill _ ?_)⟩
      exact appended_sound each (built_sound picked)
  | @insertThen id entry head thenCards elseCards found picked =>
      rcases editsCard_of_found distinct found with ⟨rfl, spot, before, after, edits⟩
      rcases edits.sound sound with ⟨here, -, replaced⟩
      rcases here.branches' with ⟨⟨thens, elses⟩, refill⟩
      refine ⟨_, .insertedThen (built_newFrom picked) edits.placed,
        edits.then_inserted head thenCards elseCards _ rfl, replaced _ (refill _ _ ?_ elses)⟩
      exact appended_sound thens (built_sound picked)
  | @insertElse id entry head thenCards elseCards found picked =>
      rcases editsCard_of_found distinct found with ⟨rfl, spot, before, after, edits⟩
      rcases edits.sound sound with ⟨here, -, replaced⟩
      rcases here.branches' with ⟨⟨thens, elses⟩, refill⟩
      refine ⟨_, .insertedElse (built_newFrom picked) edits.placed,
        edits.else_inserted head thenCards elseCards _ rfl, replaced _ (refill _ _ thens ?_)⟩
      exact appended_sound elses (built_sound picked)
  | @delete id card found =>
      rcases editsCard_of_found distinct found with ⟨rfl, spot, before, after, edits⟩
      rcases edits.sound sound with ⟨-, removed, -⟩
      exact ⟨_, .deleted edits.placed, congrArg some edits.deleted, removed⟩
  | @setParam id name value card kind found has metaIs accepts =>
      rcases editsCard_of_found distinct found with ⟨rfl, spot, before, after, edits⟩
      rcases edits.sound sound with ⟨here, -, replaced⟩
      rcases edits.updated name value has with ⟨changed, updated, result⟩
      refine ⟨_, .updated edits.placed updated, congrArg some result, replaced _ ?_⟩
      rw [updated.eq_setParam]
      exact setParam_sound here metaIs accepts

/-! ## What is shown after an edit -/

/-- The cards are those of the source, and they are the cards of the edited tree, settled
twice; of a settled tree, its own. -/
structure ShowsEdited (ui : Ui) (tree : List Card) : Prop where
  parsed : ∃ ast, parseCardCode ui.state.source = .ok ast ∧
    (∀ expr ∈ ast.children, expr.Headed) ∧
    ui.state.cards = projectProgram ast.children defaultManifest
  accepted : ui.localError = none
  settled : ui.state.cards.map Card.bare = (Card.settleAll (Card.settleAll tree)).map Card.bare
  unchanged : Card.areSettled tree = true → ui.state.cards.map Card.bare = tree.map Card.bare

/-- Source whose expressions are headed is canonicalised to the settled cards. -/
theorem canonical_settles {source : Text} {ast : ProgramAst}
    (parsed : parseCardCode source = .ok ast) (headed : ∀ expr ∈ ast.children, expr.Headed)
    (ui : Ui) :
    ∃ again, let shown := (applySourceToState ui defaultManifest source true).2
      parseCardCode shown.state.source = .ok again ∧ (∀ expr ∈ again.children, expr.Headed) ∧
      shown.state.cards = projectProgram again.children defaultManifest ∧
      shown.localError = none ∧
      shown.state.cards.map Card.bare =
        (Card.settleAll (projectProgram ast.children defaultManifest)).map Card.bare := by
  rcases sound_settles (projectProgram_sound (parsed_spelled parsed) headed) with
    ⟨generated, again, written, parsedAgain, headedAgain, settled⟩
  rcases projectSource_parsed parsedAgain with ⟨last, projected, -⟩
  have first : projectSource source defaultManifest =
      .ok ⟨projectProgram ast.children defaultManifest, generated⟩ := by
    rw [projectSource, parsed]
    dsimp only [Except.mapError, Bind.bind, Except.bind]
    rw [written]
    rfl
  have next : nextProjection defaultManifest source true =
      .ok (generated.source, ⟨projectProgram again.children defaultManifest, last⟩) := by
    rw [nextProjection, first]
    dsimp only [Bind.bind, Except.bind]
    rw [if_pos rfl, projected]
    rfl
  rw [applySourceToState_ok next]
  exact ⟨again, parsedAgain, headedAgain, rfl, rfl, settled⟩

/-- An edit that leaves a sound tree shows its cards. -/
theorem mutateTree_shows {ui : Ui} {edit : BlockEdit} {tree : List Card}
    (mutated : edit.mutate ui.state.cards = some (true, tree))
    (sound : ∀ card ∈ tree, card.Sound) : ShowsEdited (ui.mutateTree edit) tree := by
  rcases sound_settles sound with ⟨generated, ast, written, parsed, headed, settled⟩
  rcases canonical_settles parsed headed ui with
    ⟨again, parsedAgain, headedAgain, cards, accepted, settledAgain⟩
  have after : ui.mutateTree edit =
      (applySourceToState ui defaultManifest generated.source true).2 := by
    rw [Ui.mutateTree, mutated]
    dsimp only
    rw [written]
  have twice := settledAgain.trans (Card.settleAll_bare_congr settled)
  rw [← after] at parsedAgain cards accepted twice
  refine ⟨⟨again, parsedAgain, headedAgain, cards⟩, accepted, twice, fun same => ?_⟩
  rw [Card.areSettled_eq, List.all_eq_true] at same
  have once : Card.settleAll tree = tree :=
    Card.settleAll_same fun card member => Card.settle_settled card (same card member)
  rw [twice, once, once]

/-! ## The editor -/

/-- `DEFAULT_SOURCE`. -/
def defaultSource : Text :=
  "(repeat 4 (drive 40 1000) (turn-right 90))".toList

/-- What `boot` shows, once the manifest is loaded. -/
def bootUi : Ui :=
  (applySourceToState {} defaultManifest defaultSource true).2

inductive EditorEvent where
  | source (text : Text)
  | block (edit : BlockEdit)
  | message (message : HostMessage)
  | connection (connected : Bool)

def Ui.handle (ui : Ui) : EditorEvent → Ui
  | .source text => (applySourceToState ui defaultManifest text false).2
  | .block edit => ui.mutateTree edit
  | .message message => ui.receive message
  | .connection connected => { ui with state := reduceState ui.state (.connection connected) }

/-- Source that is typed in has headed lists, or else does not parse; and block edits are
those that the cards offer. -/
def Permitted (ui : Ui) : EditorEvent → Prop
  | .source text =>
      ∀ ast, parseCardCode text = .ok ast → ∀ expr ∈ ast.children, expr.Headed
  | .block edit => Offered ui.state.cards edit
  | .message _ => True
  | .connection _ => True

/-- The states of the interface after permitted events in any order. -/
inductive Edited : Ui → Prop
  | boot : Edited bootUi
  | step {ui event} : Edited ui → Permitted ui event → Edited (ui.handle event)

/-- The cards are those of a program with headed lists. -/
def HoldsProgram (ui : Ui) : Prop :=
  ∃ exprs : List Expr, (∀ expr ∈ exprs, expr.Spelled) ∧ (∀ expr ∈ exprs, expr.Headed) ∧
    ui.state.cards = projectProgram exprs defaultManifest

theorem ShowsEdited.holdsProgram {ui : Ui} {tree : List Card} (shows : ShowsEdited ui tree) :
    HoldsProgram ui := by
  rcases shows.parsed with ⟨ast, parsed, headed, cards⟩
  exact ⟨ast.children, parsed_spelled parsed, headed, cards⟩

theorem HoldsProgram.mutates {ui : Ui} (holds : HoldsProgram ui) {edit : BlockEdit}
    (offered : Offered ui.state.cards edit) :
    ∃ tree, Becomes ui.state.cards edit tree ∧
      edit.mutate ui.state.cards = some (true, tree) ∧ ∀ card ∈ tree, card.Sound := by
  rcases holds with ⟨exprs, spelled, headed, cards⟩
  rw [cards] at offered ⊢
  exact offered.mutates (projectProgram_nodup defaultManifest exprs)
    (projectProgram_sound spelled headed)

theorem receive_cards (ui : Ui) (message : HostMessage) :
    (ui.receive message).state.cards = ui.state.cards := by
  cases message <;> rfl

theorem handle_holds {ui : Ui} {event : EditorEvent} (holds : HoldsProgram ui)
    (permitted : Permitted ui event) : HoldsProgram (ui.handle event) := by
  cases event with
  | source text =>
      rw [Ui.handle]
      cases parsed : parseCardCode text with
      | error failure =>
          rw [applySourceToState_failed parsed]
          exact holds
      | ok ast =>
          rcases projectSource_parsed parsed with ⟨generated, projected, -⟩
          have next : nextProjection defaultManifest text false =
              .ok (text, ⟨projectProgram ast.children defaultManifest, generated⟩) := by
            rw [nextProjection, projected]
            rfl
          rw [applySourceToState_ok next]
          exact ⟨ast.children, parsed_spelled parsed, permitted ast parsed, rfl⟩
  | block edit =>
      rcases holds.mutates permitted with ⟨tree, -, mutated, sound⟩
      exact (mutateTree_shows mutated sound).holdsProgram
  | message message =>
      rw [Ui.handle, HoldsProgram, receive_cards]
      exact holds
  | connection connected => exact holds

/-! ## Booting -/

/-- A headed expression, written as a value, parses as a program of headed expressions. -/
theorem value_parses {expr : Expr} (spelled : expr.Spelled) (headed : expr.Headed) :
    ∃ ast, parseCardCode (valueLayout expr []).text = .ok ast ∧
      ∀ read ∈ ast.children, read.Headed := by
  have spaced : ∀ item ∈ [valueLayout expr []], Layout.WellSpaced appAlphabet item :=
    List.forall_mem_singleton.mpr (valueLayout_spaced expr spelled [] (List.forall_mem_nil _))
  have scans := Layout.row_scans spaced (List.forall_mem_nil _)
  rw [Layout.rowText_cons, Layout.rowText_nil, List.append_nil] at scans
  refine ⟨_, parseCardCode_reads (row_bracketed (fun item _ => layout_bracketed item) 0) scans, ?_⟩
  intro read member
  rw [List.mem_singleton.mp member]
  exact Expr.Alike.headed expr headed _
    (value_alike expr spelled headed [] _ (layout_readsAs _ _ _))

def defaultExpr : Expr :=
  .list [.symbol "repeat" default, .integer "4" default,
    .list [.symbol "drive" default, .integer "40" default, .integer "1000" default] default,
    .list [.symbol "turn-right" default, .integer "90" default] default] default

theorem default_headed :
    ∃ ast, parseCardCode defaultSource = .ok ast ∧ ∀ expr ∈ ast.children, expr.Headed := by
  have drive : ∀ arg ∈ [Expr.integer "40" default, .integer "1000" default],
      arg.Spelled ∧ arg.Headed :=
    List.forall_mem_cons.mpr ⟨⟨.integer (by decide) (by decide), .integer⟩,
      List.forall_mem_singleton.mpr ⟨.integer (by decide) (by decide), .integer⟩⟩
  have turn : ∀ arg ∈ [Expr.integer "90" default], arg.Spelled ∧ arg.Headed :=
    List.forall_mem_singleton.mpr ⟨.integer (by decide) (by decide), .integer⟩
  have list {form : String} {args : List Expr} (isName : IsName form)
      (each : ∀ arg ∈ args, arg.Spelled ∧ arg.Headed) :
      (Expr.list (.symbol form default :: args) default).Spelled ∧
        (Expr.list (.symbol form default :: args) default).Headed :=
    ⟨form_spelled isName fun arg member => (each arg member).1,
      .list fun arg member => (each arg member).2⟩
  have whole : defaultExpr.Spelled ∧ defaultExpr.Headed :=
    list (by decide) (List.forall_mem_cons.mpr ⟨⟨.integer (by decide) (by decide), .integer⟩,
      List.forall_mem_cons.mpr ⟨list (by decide) drive,
        List.forall_mem_singleton.mpr (list (by decide) turn)⟩⟩)
  have text : (valueLayout defaultExpr []).text = defaultSource := by decide
  rcases value_parses whole.1 whole.2 with ⟨ast, parsed, headed⟩
  exact ⟨ast, text ▸ parsed, headed⟩

theorem Edited.holdsProgram {ui : Ui} (edited : Edited ui) : HoldsProgram ui := by
  induction edited with
  | boot =>
      rcases default_headed with ⟨ast, parsed, headed⟩
      rcases canonical_settles parsed headed {} with ⟨again, parsedAgain, headedAgain, cards, -⟩
      rw [HoldsProgram, bootUi]
      exact ⟨again.children, parsed_spelled parsedAgain, headedAgain, cards⟩
  | step _ permitted holds => exact handle_holds holds permitted

/-- After whatever events, an edit that is offered is made: the source parses, and what is
shown are the cards of the edited tree, settled twice. -/
theorem Edited.edit_shown {ui : Ui} (edited : Edited ui) {edit : BlockEdit}
    (offered : Offered ui.state.cards edit) :
    ∃ tree, Becomes ui.state.cards edit tree ∧
      edit.mutate ui.state.cards = some (true, tree) ∧
      ShowsEdited (ui.mutateTree edit) tree := by
  rcases edited.holdsProgram.mutates offered with ⟨tree, becomes, mutated, sound⟩
  exact ⟨tree, becomes, mutated, mutateTree_shows mutated sound⟩

/-- The last card of the palette, a beep. -/
def beepEntry : PaletteCard :=
  ⟨"robot.beep", .none, []⟩

theorem beep_picked : beepEntry ∈ palette := by
  simp [palette, beepEntry]

theorem beep_shown :
    ∃ tree, Becomes bootUi.state.cards (.insert {} beepEntry) tree ∧
      (BlockEdit.insert {} beepEntry).mutate bootUi.state.cards = some (true, tree) ∧
      ShowsEdited (bootUi.mutateTree (.insert {} beepEntry)) tree := by
  have offered : Offered bootUi.state.cards (.insert {} beepEntry) := .insertLast beep_picked
  exact Edited.boot.edit_shown offered

end CardCode.App
