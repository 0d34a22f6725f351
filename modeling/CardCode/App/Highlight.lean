import CardCode.App.Cards
import CardCode.App.Encoding
import CardCode.Semantics.NodeEvents

/-! # Which cards are highlighted

The user interface adds the cards of a node to a set when the node starts and
takes them out when it is done or skipped. The set is right as long as no node
that stays open shares a card with the one that is done or skipped.
-/

namespace CardCode.App

open Process

/-- Started and not yet done: started more often than done. -/
def IsOpen (past : Trace) (node : Node) : Prop :=
  (Trace.brackets past).count (.closing (node.id, node.span)) <
    (Trace.brackets past).count (.opening (node.id, node.span))

instance (past : Trace) (node : Node) : Decidable (IsOpen past node) :=
  inferInstanceAs (Decidable (_ < _))

/-- Exactly the cards of open nodes are highlighted after the messages so far. -/
def Highlights (state : State) (root : Node) (past : Trace) : Prop :=
  ∀ card ∈ flattenCards state.cards,
    card.id ∈ (applyMessages state (Trace.messages past)).activeCardIds ↔
      ∃ node ∈ root.highlighted, IsOpen past node ∧
        card ∈ cardsForNodeSpan state.cards node.span

/-- A run that has started and not ended. -/
def InProgress (past : Trace) : Prop :=
  ∃ body, past = .emitProgram .programStart "" :: body ∧
    ∀ type message, .emitProgram type message ∉ body

/-- No open node maps to a card the given node maps to. -/
def Unshared (cards : List Card) (root : Node) (past : Trace) (node : Node) : Prop :=
  ∀ other ∈ root.highlighted, IsOpen past other →
    ∀ card ∈ cardsForNodeSpan cards node.span, card ∉ cardsForNodeSpan cards other.span

/-! ## The reducer's sets -/

theorem mem_insertAll {ids : List String} {active : Finset String} {id : String} :
    id ∈ ids.foldl (updateActive .start) active ↔ id ∈ active ∨ id ∈ ids := by
  induction ids generalizing active with
  | nil => simp
  | cons head rest induction =>
      rw [List.foldl_cons, induction, updateActive, Finset.mem_insert, List.mem_cons]
      tauto

theorem mem_eraseAll {event : NodeEvent} (clears : event = .done ∨ event = .skipped)
    {ids : List String} {active : Finset String} {id : String} :
    id ∈ ids.foldl (updateActive event) active ↔ id ∈ active ∧ id ∉ ids := by
  have erases (set : Finset String) (other : String) :
      updateActive event set other = set.erase other := by
    rcases clears with rfl | rfl <;> rfl
  induction ids generalizing active with
  | nil => simp
  | cons head rest induction =>
      rw [List.foldl_cons]
      apply induction.trans
      rw [erases, Finset.mem_erase, List.mem_cons]
      tauto

theorem updateActive_error (ids : List String) (active : Finset String) :
    ids.foldl (updateActive .error) active = active := by
  induction ids with
  | nil => rfl
  | cons head rest induction => exact induction

theorem cardsForNodeSpan_subset {cards : List Card} {span : Span} {card : Card}
    (hit : card ∈ cardsForNodeSpan cards span) : card ∈ flattenCards cards := by
  rw [cardsForNodeSpan] at hit
  dsimp only at hit
  split at hit
  · split at hit
    · cases hit
    · exact List.mem_of_mem_filter (List.mem_of_mem_filter (List.mem_of_mem_filter hit))
  · exact List.mem_of_mem_filter (List.mem_of_mem_filter hit)

/-- Where ids are distinct, a card is hit when its id is. -/
theorem hit_iff {cards : List Card} (nodup : ((flattenCards cards).map Card.id).Nodup)
    {card : Card} (member : card ∈ flattenCards cards) (span : Span) :
    card.id ∈ (cardsForNodeSpan cards span).map Card.id ↔ card ∈ cardsForNodeSpan cards span := by
  constructor
  · intro idMember
    rcases List.mem_map.mp idMember with ⟨other, hit, same⟩
    have equal : other = card :=
      List.inj_on_of_nodup_map nodup (cardsForNodeSpan_subset hit) member same
    exact equal ▸ hit
  · exact List.mem_map_of_mem

/-! ## Messages of a run -/

theorem applyMessages_cards (state : State) (messages : List HostMessage) :
    (applyMessages state messages).cards = state.cards := by
  induction messages generalizing state with
  | nil => rfl
  | cons message rest induction =>
      have kept : (applyRuntimeMessage state message).cards = state.cards := by
        cases message <;> rfl
      exact (induction _).trans kept

theorem applyMessages_entry (state : State) (past : Trace) (entry : Action) :
    applyMessages state (Trace.messages (past ++ [entry])) =
      match entry.message? with
      | some message => applyRuntimeMessage (applyMessages state (Trace.messages past)) message
      | none => applyMessages state (Trace.messages past) := by
  rw [Trace.messages, List.filterMap_append, applyMessages, List.foldl_append]
  cases found : entry.message? with
  | none =>
      rw [List.filterMap_cons_none found]
      rfl
  | some message =>
      rw [List.filterMap_cons_some found]
      rfl

theorem brackets_snoc (past : Trace) (entry : Action) :
    Trace.brackets (past ++ [entry]) = Trace.brackets past ++ entry.bracket?.toList := by
  rw [Trace.brackets, List.filterMap_append]
  congr 1

/-- What a run in progress can add to its trace. -/
inductive Adds (root : Node) : Action → Prop
  | started {node message} : node ∈ root.highlighted → Adds root (.emit .nodeStart node message)
  | done {node message} : node ∈ root.highlighted → Adds root (.emit .nodeDone node message)
  | skipped {node message} : Adds root (.emit .nodeSkipped node message)
  | failed {node message} : Adds root (.emit .nodeError node message)
  | command {call issuer} : Adds root (.command call issuer)
  | sensor {reading issuer} : Adds root (.sensor reading issuer)
  | poll {cancelled} : Adds root (.poll cancelled)
  | mark {point} : Adds root (.mark point)

section Steps

variable {state : State} {root node other : Node} {past : Trace} {entry : Action}
variable {message : String}

/-- No node has been done more often than started. -/
def IsOrdered (past : Trace) : Prop :=
  ∀ label, (Trace.brackets past).count (.closing label) ≤
    (Trace.brackets past).count (.opening label)

theorem isOpen_quiet (quiet : entry.bracket? = none) :
    IsOpen (past ++ [entry]) other ↔ IsOpen past other := by
  rw [IsOpen, brackets_snoc, quiet, Option.toList_none, List.append_nil]
  rfl

theorem isOpen_started (ordered : IsOrdered past) :
    IsOpen (past ++ [.emit .nodeStart node message]) other ↔
      IsOpen past other ∨ (node.id, node.span) = (other.id, other.span) := by
  have order := ordered (other.id, other.span)
  rw [IsOpen, brackets_snoc, IsOpen]
  simp only [Action.bracket?, Option.toList_some, List.count_append, List.count_singleton,
    beq_iff_eq, Bracket.opening.injEq, reduceCtorEq, if_false]
  split
  next same => exact iff_of_true (by omega) (.inr same)
  next different =>
    rw [Nat.add_zero, Nat.add_zero]
    exact (or_iff_left different).symm

theorem isOpen_done (different : (node.id, node.span) ≠ (other.id, other.span)) :
    IsOpen (past ++ [.emit .nodeDone node message]) other ↔ IsOpen past other := by
  rw [IsOpen, brackets_snoc, IsOpen]
  simp only [Action.bracket?, Option.toList_some, List.count_append, List.count_singleton,
    beq_iff_eq, Bracket.closing.injEq, reduceCtorEq, if_false, different, Nat.add_zero]

theorem IsOpen.of_done (isOpen : IsOpen (past ++ [.emit .nodeDone node message]) other) :
    IsOpen past other := by
  rw [IsOpen, brackets_snoc, List.count_append, List.count_append] at isOpen
  simp only [Action.bracket?, Option.toList_some, List.count_singleton, beq_iff_eq, reduceCtorEq,
    if_false] at isOpen
  rw [IsOpen]
  omega

/-- What a node's message does to the highlighted cards. -/
theorem active_snoc {type : ExecutionEventType} (event : NodeEvent)
    (written : onEvent ⟨type, node.id, node.span, message⟩ =
      .node (nodeJson event ⟨type, node.id, node.span, message⟩)) :
    (applyMessages state (Trace.messages (past ++ [.emit type node message]))).activeCardIds =
      ((cardsForNodeSpan state.cards node.span).map Card.id).foldl (updateActive event)
        (applyMessages state (Trace.messages past)).activeCardIds := by
  have found : Action.message? (.emit type node message) =
      some (.node (nodeJson event ⟨type, node.id, node.span, message⟩)) :=
    congrArg some written
  rw [applyMessages_entry, found]
  dsimp only
  rw [applyRuntimeMessage, applyNodeMessage, applyMessages_cards]
  rfl

theorem active_snoc_quiet
    (quiet : ∀ message, entry.message? = some message → ∀ before : State,
      (applyRuntimeMessage before message).activeCardIds = before.activeCardIds) :
    (applyMessages state (Trace.messages (past ++ [entry]))).activeCardIds =
      (applyMessages state (Trace.messages past)).activeCardIds := by
  rw [applyMessages_entry]
  split
  next message found => exact quiet message found _
  next => rfl

/-- Entries that neither open nor close a node and highlight nothing. -/
theorem highlights_quiet (highlights : Highlights state root past)
    (active : (applyMessages state (Trace.messages (past ++ [entry]))).activeCardIds =
      (applyMessages state (Trace.messages past)).activeCardIds)
    (bracket : entry.bracket? = none) : Highlights state root (past ++ [entry]) := by
  intro card member
  rw [active, highlights card member]
  simp only [isOpen_quiet bracket]

theorem highlights_started (nodup : ((flattenCards state.cards).map Card.id).Nodup)
    (ordered : IsOrdered past) (lit : node ∈ root.highlighted)
    (highlights : Highlights state root past) :
    Highlights state root (past ++ [.emit .nodeStart node message]) := by
  intro card member
  rw [active_snoc .start rfl, mem_insertAll, highlights card member, hit_iff nodup member]
  constructor
  · intro shown
    rcases shown with ⟨other, present, isOpen, hit⟩ | hit
    · exact ⟨other, present, (isOpen_started ordered).mpr (.inl isOpen), hit⟩
    · exact ⟨node, lit, (isOpen_started ordered).mpr (.inr rfl), hit⟩
  · intro shown
    rcases shown with ⟨other, present, isOpen, hit⟩
    rcases (isOpen_started ordered).mp isOpen with isOpen | same
    · exact .inl ⟨other, present, isOpen, hit⟩
    · have span : node.span = other.span := congrArg Prod.snd same
      rw [span]
      exact .inr hit

/-- A message that takes cards out of the set leaves it right exactly when no node
that is open afterwards needs them. -/
theorem highlights_cleared {type : ExecutionEventType} {event : NodeEvent}
    (nodup : ((flattenCards state.cards).map Card.id).Nodup)
    (written : onEvent ⟨type, node.id, node.span, message⟩ =
      .node (nodeJson event ⟨type, node.id, node.span, message⟩))
    (clears : event = .done ∨ event = .skipped)
    (closes : ∀ other, IsOpen (past ++ [.emit type node message]) other → IsOpen past other)
    (keeps : ∀ other : Node, other.span ≠ node.span → IsOpen past other →
      IsOpen (past ++ [.emit type node message]) other)
    (highlights : Highlights state root past) :
    Highlights state root (past ++ [.emit type node message]) ↔
      Unshared state.cards root (past ++ [.emit type node message]) node := by
  constructor
  · intro after other present isOpen card hit otherHit
    have member := cardsForNodeSpan_subset hit
    have shown := (after card member).mpr ⟨other, present, isOpen, otherHit⟩
    rw [active_snoc event written, mem_eraseAll clears, hit_iff nodup member] at shown
    exact shown.2 hit
  · intro unshared card member
    rw [active_snoc event written, mem_eraseAll clears, highlights card member,
      hit_iff nodup member]
    constructor
    · intro shown
      rcases shown with ⟨⟨other, present, isOpen, otherHit⟩, notHit⟩
      refine ⟨other, present, keeps other ?_ isOpen, otherHit⟩
      intro same
      rw [same] at otherHit
      exact notHit otherHit
    · intro shown
      rcases shown with ⟨other, present, isOpen, otherHit⟩
      exact ⟨⟨other, present, closes other isOpen, otherHit⟩,
        fun hit => unshared other present isOpen card hit otherHit⟩

/-- Whether an entry keeps the highlighted cards right. -/
theorem highlights_step (nodup : ((flattenCards state.cards).map Card.id).Nodup)
    (ordered : IsOrdered past) (adds : Adds root entry)
    (highlights : Highlights state root past) :
    Highlights state root (past ++ [entry]) ↔
      ∀ type node message, entry = .emit type node message →
        type = .nodeDone ∨ type = .nodeSkipped →
        Unshared state.cards root (past ++ [entry]) node := by
  have quiet (active : (applyMessages state (Trace.messages (past ++ [entry]))).activeCardIds =
        (applyMessages state (Trace.messages past)).activeCardIds)
      (bracket : entry.bracket? = none)
      (other : ∀ type node message, entry = .emit type node message →
        ¬ (type = .nodeDone ∨ type = .nodeSkipped)) :
      Highlights state root (past ++ [entry]) ↔
        ∀ type node message, entry = .emit type node message →
          type = .nodeDone ∨ type = .nodeSkipped →
          Unshared state.cards root (past ++ [entry]) node :=
    iff_of_true (highlights_quiet highlights active bracket)
      fun type node message same clears => absurd clears (other type node message same)
  cases adds with
  | started lit =>
      refine iff_of_true (highlights_started nodup ordered lit highlights) ?_
      intro type node message same clears
      cases same
      simp at clears
  | @done node message lit =>
      have cleared : Highlights state root (past ++ [.emit .nodeDone node message]) ↔
          Unshared state.cards root (past ++ [.emit .nodeDone node message]) node :=
        highlights_cleared nodup rfl (.inl rfl) (fun other isOpen => isOpen.of_done)
          (fun other different => (isOpen_done fun same =>
            different (congrArg Prod.snd same).symm).mpr) highlights
      rw [cleared]
      refine ⟨fun unshared type other text same _ => ?_, fun each => each _ _ _ rfl (.inl rfl)⟩
      cases same
      exact unshared
  | @skipped node message =>
      have cleared : Highlights state root (past ++ [.emit .nodeSkipped node message]) ↔
          Unshared state.cards root (past ++ [.emit .nodeSkipped node message]) node :=
        highlights_cleared nodup rfl (.inr rfl) (fun other => (isOpen_quiet rfl).mp)
          (fun other _ => (isOpen_quiet rfl).mpr) highlights
      rw [cleared]
      refine ⟨fun unshared type other text same _ => ?_, fun each => each _ _ _ rfl (.inr rfl)⟩
      cases same
      exact unshared
  | failed =>
      refine quiet ?_ rfl ?_
      · rw [active_snoc .error rfl, updateActive_error]
      · intro type node message same
        cases same
        simp
  | command | sensor =>
      refine quiet (active_snoc_quiet ?_) rfl (fun _ _ _ same => nomatch same)
      intro message found before
      cases found
      rfl
  | poll | mark =>
      refine quiet (active_snoc_quiet ?_) rfl (fun _ _ _ same => nomatch same)
      intro message found
      cases found

end Steps

/-! ## Runs -/

theorem brackets_visible (trace : Trace) :
    Trace.brackets (Trace.visible trace) = Trace.brackets trace := by
  rw [Trace.brackets, Trace.visible, List.filterMap_filter]
  apply List.filterMap_congr
  intro entry _
  cases entry <;> rfl

theorem brackets_framed {body tail : Trace} (quiet : Trace.brackets tail = []) :
    Trace.brackets (.emitProgram .programStart "" :: body ++ tail) = Trace.brackets body := by
  have start : Trace.brackets (.emitProgram .programStart "" :: body) = Trace.brackets body :=
    List.filterMap_cons_none rfl
  rw [Trace.brackets, List.filterMap_append, ← Trace.brackets, ← Trace.brackets, quiet, start,
    List.append_nil]

/-- What is bracketed in a run is bracketed as in a balanced word. -/
theorem shape_balanced {trace : Trace} {result : ExecutionResult}
    (shape : RunShape trace result) : ∃ closing, Balanced (Trace.brackets trace ++ closing) := by
  cases shape with
  | done _ _ balanced => exact ⟨[], by rw [brackets_framed rfl, List.append_nil]; exact balanced⟩
  | @failed _ _ _ _ closing _ _ balanced =>
      exact ⟨closing, by rw [brackets_framed rfl]; exact balanced⟩
  | @cancelled _ _ _ closing _ _ balanced =>
      exact ⟨closing, by rw [brackets_framed rfl]; exact balanced⟩

theorem run_ordered (program : Program) (setting : Setting) {past rest : Trace}
    {outcome : Except Fault ExecutionResult}
    (run : Run (execute setting program.root) (past ++ rest) outcome) : IsOrdered past := by
  rcases program.run_extends setting run with ⟨more, result, state, performs, -⟩
  rcases shape_balanced (executeBody_shape performs) with ⟨closing, balanced⟩
  rw [brackets_visible, Trace.brackets, List.append_assoc, List.filterMap_append,
    List.append_assoc] at balanced
  exact fun label => balanced.count_closing_le label

theorem Program.run_adds (program : Program) (setting : Setting) {trace : Trace}
    {outcome : Except Fault ExecutionResult}
    (run : Run (execute setting program.root) trace outcome) :
    ∀ entry ∈ trace, (∀ type message, entry ≠ .emitProgram type message) →
      Adds program.root entry := by
  intro entry member inside
  rcases program.run_leaves setting run (program.within_inherited setting) .self entry member with
    report | ⟨own, within, leaves⟩
  · cases report with
    | program => exact absurd rfl (inside _ _)
    | stop => exact .command
  cases leaves with
  | polled => exact .poll
  | started lit => exact .started (Node.mem_highlighted within lit)
  | done lit => exact .done (Node.mem_highlighted within lit)
  | complained => exact .failed
  | undefined => exact .failed
  | skipped => exact .skipped
  | iterated | repeated | combining | combined | computed | entered | left => exact .mark
  | issued issues issued =>
      cases issues with
      | nothing => cases issued
      | command =>
          rw [List.mem_singleton.mp issued]
          exact .command
      | sensor =>
          rw [List.mem_singleton.mp issued]
          exact .sensor

theorem InProgress.snoc {past : Trace} {entry : Action} (inProgress : InProgress past)
    (inside : ∀ type message, entry ≠ .emitProgram type message) :
    InProgress (past ++ [entry]) := by
  rcases inProgress with ⟨body, rfl, plain⟩
  refine ⟨body ++ [entry], rfl, fun type message member => ?_⟩
  rcases List.mem_append.mp member with member | member
  · exact plain type message member
  · exact inside type message (List.mem_singleton.mp member).symm

/-- Nothing is open and nothing is highlighted when a run has just started. -/
theorem highlights_start (state : State) (root : Node) :
    Highlights state root [.emitProgram .programStart ""] := by
  intro card _
  refine iff_of_false ?_ ?_
  · exact Finset.notMem_empty card.id
  · intro shown
    rcases shown with ⟨node, -, isOpen, -⟩
    exact absurd isOpen (Nat.lt_irrefl 0)

/-- In every run, whatever cards are shown, the highlighted ones are those of the
open nodes all along exactly when no message that a node is done or skipped
concerns a card that a node still open maps to. -/
theorem highlights_iff (program : Program) (setting : Setting) {manifest : Manifest}
    {exprs : List Expr} {state : State} (projected : state.cards = projectProgram exprs manifest)
    {trace : Trace} {outcome : Except Fault ExecutionResult}
    (run : Run (execute setting program.root) trace outcome) :
    (∀ past rest, trace = past ++ rest → InProgress past →
        Highlights state program.root past) ↔
      ∀ past type node message rest, trace = past ++ .emit type node message :: rest →
        InProgress past → type = .nodeDone ∨ type = .nodeSkipped →
        Unshared state.cards program.root (past ++ [.emit type node message]) node := by
  have nodup : ((flattenCards state.cards).map Card.id).Nodup := by
    rw [projected]
    exact projectProgram_nodup manifest exprs
  have step {past rest : Trace} {entry : Action} (split : trace = past ++ entry :: rest)
      (inside : ∀ type message, entry ≠ .emitProgram type message)
      (highlights : Highlights state program.root past) :=
    highlights_step nodup (run_ordered program setting (split ▸ run))
      (Program.run_adds program setting run entry (by simp [split]) inside) highlights
  constructor
  · intro always past type node message rest split inProgress clears
    have highlights := always past _ split inProgress
    have after := always (past ++ [.emit type node message]) rest (by simp [split])
      (inProgress.snoc fun _ _ same => nomatch same)
    exact (step split (fun _ _ same => nomatch same) highlights).mp after _ _ _ rfl clears
  · intro unshared past rest split inProgress
    rcases inProgress with ⟨body, rfl, plain⟩
    induction body using List.reverseRecOn generalizing rest with
    | nil => exact highlights_start state program.root
    | append_singleton body entry induction =>
        have earlier : ∀ type message, .emitProgram type message ∉ body :=
          fun type message member => plain type message (List.mem_append_left _ member)
        have inside : ∀ type message, entry ≠ .emitProgram type message :=
          fun type message same => plain type message (by simp [same])
        have cut : trace = (.emitProgram .programStart "" :: body) ++ entry :: rest := by
          simp [split]
        have highlights := induction (entry :: rest) earlier cut
        refine (step cut inside highlights).mpr ?_
        intro type node message same clears
        rw [same] at cut ⊢
        exact unshared _ type node message rest cut ⟨body, rfl, earlier⟩ clears

/-! ## A condition with a sensor -/

def waitingSource : Text :=
  "(when (button) (beep))".toList

def waitingProgram : Program :=
  (Program.ofSource? (utf8 waitingSource)).get (by decide +kernel)

def waitingState : State where
  cards := match parseCardCode waitingSource with
    | .ok ast => projectProgram ast.children defaultManifest
    | .error _ => []

def waitingRun : Trace × Except Fault ExecutionResult :=
  respond (fun _ => Query.still) 0 (execute calmSetting waitingProgram.root)

def isNoReport : Action → Bool
  | .emitProgram _ _ => false
  | _ => true

theorem waiting_projected :
    ∃ ast, parseCardCode waitingSource = .ok ast ∧
      waitingState.cards = projectProgram ast.children defaultManifest := by
  have isParsed : (parseCardCode waitingSource).toOption.isSome = true := by decide +kernel
  cases parsed : parseCardCode waitingSource with
  | ok ast => exact ⟨ast, rfl, by rw [waitingState, parsed]⟩
  | error failure =>
      rw [parsed] at isParsed
      cases isParsed

theorem waiting_highlights_iff :
    (∀ past rest, waitingRun.1 = past ++ rest → InProgress past →
        Highlights waitingState waitingProgram.root past) ↔
      ∀ past type node message rest, waitingRun.1 = past ++ .emit type node message :: rest →
        InProgress past → type = .nodeDone ∨ type = .nodeSkipped →
        Unshared waitingState.cards waitingProgram.root (past ++ [.emit type node message])
          node :=
  highlights_iff waitingProgram calmSetting waiting_projected.choose_spec.2 (run_respond _ _ 0)

/-- When the sensor is done, its card is taken out although the node the card was
made for is still open. -/
theorem waiting_not_highlighted :
    ¬ ∀ (program : Program) (source : Text) (ast : ProgramAst) (state : State)
        (setting : Setting) (trace : Trace) (outcome : Except Fault ExecutionResult),
      (∀ c ∈ source, c.toNat < 128) → program.source = utf8 source →
      parseCardCode source = .ok ast →
      state.cards = projectProgram ast.children defaultManifest →
      Run (execute setting program.root) trace outcome →
      ∀ past rest, trace = past ++ rest → InProgress past →
        Highlights state program.root past := by
  intro always
  rcases waiting_projected with ⟨ast, parsed, projected⟩
  have run : Run (execute calmSetting waitingProgram.root) waitingRun.1 waitingRun.2 :=
    run_respond _ _ 0
  have inProgress : InProgress (waitingRun.1.take 7) := by
    have ended : waitingRun.2.toOption.isSome = true := by
      decide +kernel
    rcases Option.isSome_iff_exists.mp ended with ⟨result, found⟩
    rw [ok_of_toOption found] at run
    rcases execute_run run with ⟨state, performs⟩
    rcases executeBody_activity performs with ⟨body, ending, -, -, trace⟩
    have plain : (waitingRun.1.take 7).tail.all isNoReport = true := by
      decide +kernel
    rw [trace] at plain ⊢
    refine ⟨_, rfl, fun type message member => ?_⟩
    exact absurd (List.all_eq_true.mp plain _ member) (by simp [isNoReport])
  have split : waitingRun.1 = waitingRun.1.take 7 ++ waitingRun.1.drop 7 :=
    (List.take_append_drop 7 waitingRun.1).symm
  have ascii : (waitingSource.all fun c => c.toNat < 128) = true := by decide +kernel
  have source : waitingProgram.source = utf8 waitingSource := by decide +kernel
  have highlights : Highlights waitingState waitingProgram.root (waitingRun.1.take 7) :=
    always waitingProgram waitingSource ast waitingState calmSetting waitingRun.1 waitingRun.2
      (fun c member => of_decide_eq_true (List.all_eq_true.mp ascii c member)) source parsed
      projected run _ _ split inProgress
  have hits : (cardsForNodeSpan waitingState.cards waitingProgram.root.span).map Card.id =
      ["card-1"] := by
    decide +kernel
  rcases List.map_eq_singleton_iff.mp hits with ⟨card, only, id⟩
  have hit : card ∈ cardsForNodeSpan waitingState.cards waitingProgram.root.span := by
    rw [only]
    exact List.mem_singleton_self card
  have lit : waitingProgram.root.kind.isHighlightable = true := by decide +kernel
  have isOpen : IsOpen (waitingRun.1.take 7) waitingProgram.root := by decide +kernel
  have present : waitingProgram.root ∈ waitingProgram.root.highlighted :=
    Node.mem_highlighted .self lit
  have inactive : "card-1" ∉
      (applyMessages waitingState (Trace.messages (waitingRun.1.take 7))).activeCardIds := by
    decide +kernel
  have shown := highlights card (cardsForNodeSpan_subset hit)
  rw [id] at shown
  -- The set itself is not to be evaluated any further.
  generalize (applyMessages waitingState (Trace.messages (waitingRun.1.take 7))).activeCardIds =
    active at inactive shown
  exact inactive (shown.mpr ⟨waitingProgram.root, present, isOpen, hit⟩)

end CardCode.App
