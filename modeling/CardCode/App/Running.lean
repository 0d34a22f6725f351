import CardCode.App.State
import CardCode.Harness.Serial

/-! # Whether the user interface shows a program as running

The reducer is compared with the messages of the bridge, whose control thread may
answer a request with an error while a program is between its start and its end.
-/

namespace CardCode.App

open Harness

def isProgramMessage : HostMessage → Bool
  | .programStart | .programDone | .programError _ _ => true
  | _ => false

/-- A program has started and has not ended: the last of these messages is a start. -/
def InProgram (messages : List HostMessage) : Prop :=
  (messages.filter isProgramMessage).getLast? = some .programStart

instance (messages : List HostMessage) : Decidable (InProgram messages) :=
  inferInstanceAs (Decidable (_ = _))

/-! ## Any row of messages -/

theorem inProgram_snoc {messages : List HostMessage} {message : HostMessage}
    (isProgram : isProgramMessage message = true) :
    InProgram (messages ++ [message]) ↔ message = .programStart := by
  rw [InProgram, List.filter_append, List.filter_cons_of_pos isProgram, List.filter_nil,
    List.getLast?_concat, Option.some.injEq]

theorem inProgram_keep {messages : List HostMessage} {message : HostMessage}
    (other : isProgramMessage message = false) :
    InProgram (messages ++ [message]) ↔ InProgram messages := by
  rw [InProgram, List.filter_append, List.filter_cons_of_neg (by rw [other]; simp),
    List.filter_nil, List.append_nil, InProgram]

/-- What the reducer shows after one more message: only an error that arrives in the
middle of a program sets it apart from the host. -/
theorem shows_snoc {state : State} {messages : List HostMessage} {message : HostMessage}
    (shows : (applyMessages state messages).running = true ↔ InProgram messages) :
    ((applyMessages state (messages ++ [message])).running = true ↔
        InProgram (messages ++ [message])) ↔
      ∀ text, message = .error text → ¬InProgram messages := by
  rw [applyMessages_snoc]
  cases message with
  | programStart => rw [inProgram_snoc rfl]; simp [applyRuntimeMessage]
  | programDone => rw [inProgram_snoc rfl]; simp [applyRuntimeMessage]
  | programError => rw [inProgram_snoc rfl]; simp [applyRuntimeMessage]
  | error => rw [inProgram_keep rfl]; simp [applyRuntimeMessage]
  | diagnostics => rw [inProgram_keep rfl]; simp [applyRuntimeMessage, shows]
  | node => rw [inProgram_keep rfl]; simp [applyRuntimeMessage, applyNodeMessage, shows]
  | robotCommand => rw [inProgram_keep rfl]; simp [applyRuntimeMessage, shows]
  | sensorRead => rw [inProgram_keep rfl]; simp [applyRuntimeMessage, shows]

/-- The reducer agrees with a row of messages at each point of it where no error has
arrived in the middle of a program. -/
theorem shows_iff {state : State} (idle : state.running = false) (messages : List HostMessage) :
    (∀ shown rest, messages = shown ++ rest →
        ((applyMessages state shown).running = true ↔ InProgram shown)) ↔
      ∀ before text after, messages = before ++ .error text :: after → ¬InProgram before := by
  constructor
  · intro shows before text after split
    have late := shows (before ++ [.error text]) after (by rw [split, List.append_assoc]; rfl)
    exact (shows_snoc (shows before _ split)).mp late text rfl
  · intro apart shown
    induction shown using List.reverseRecOn with
    | nil => simp [applyMessages, idle, InProgram]
    | append_singleton front message induction =>
        intro rest split
        rw [List.append_assoc, List.singleton_append] at split
        refine (shows_snoc (induction _ split)).mpr ?_
        intro text same
        rw [same] at split
        exact apart front text rest split

/-! ## The bridge -/

theorem block_no_error {overflow : String → Int64 → Int64 → Int64} {job : Job}
    {block : List HostMessage}
    (isBlock : IsBlock overflow job block ∨ IsTornBlock overflow job block) (text : String) :
    .error text ∉ block := by
  rcases isBlock with isBlock | isTorn
  · cases isBlock with
    | rejected => simp
    | ran _ _ _ _ steps isEnd =>
        intro member
        simp only [List.mem_append, List.mem_cons, List.not_mem_nil, or_false, false_or,
          reduceCtorEq] at member
        rcases member with inside | rfl
        · cases steps _ inside
        · cases isEnd
  · cases isTorn with
    | trapped _ _ _ _ steps =>
        intro member
        simp only [List.mem_cons, false_or, reduceCtorEq] at member
        cases steps _ member

section Histories

variable {overflow : String → Int64 → Int64 → Int64} {history : List Label} {bridge : Bridge}

/-- The thread of a run emits no error message. -/
theorem emits_no_error (reaches : Reaches overflow history bridge) (run : Nat) (text : String) :
    .emit run (.error text) ∉ history := by
  intro member
  rcases reaches.phase.serial with ⟨blocks, serial⟩
  have shown : (run, .error text) ∈ tagged blocks := by
    rw [← serial.emissions_eq]
    exact List.mem_filterMap.mpr ⟨_, member, rfl⟩
  rcases List.mem_flatten.mp shown with ⟨messages, inside, found⟩
  rcases List.mem_mapIdx.mp inside with ⟨place, bound, rfl⟩
  rcases List.mem_map.mp found with ⟨message, inBlock, same⟩
  cases same
  have jobAt := List.getElem?_eq_getElem (serial.count ▸ bound)
  rcases serial.begun run _ _ jobAt (List.getElem?_eq_getElem bound) with empty | ⟨rest, block⟩
  · rw [empty] at inBlock
    cases inBlock
  · exact block_no_error block text (List.mem_append_left _ inBlock)

/-- The reducer's `running` is right after every prefix of the messages of a connection
exactly where the control thread reports no error in the middle of a program. -/
theorem running_iff (reaches : Reaches overflow history bridge) {state : State}
    (idle : state.running = false) :
    (∀ shown rest, emitted history = shown ++ rest →
        ((applyMessages state shown).running = true ↔ InProgram shown)) ↔
      ∀ before text after, history = before ++ .reply (.error text) :: after →
        ¬InProgram (emitted before) := by
  rw [shows_iff idle]
  constructor
  · intro apart before text after split
    refine apart (emitted before) text (emitted after) ?_
    rw [split, emitted, List.filterMap_append]
    rfl
  · intro apart before text after split
    rcases List.filterMap_eq_append_iff.mp split with ⟨early, late, rfl, rfl, errors⟩
    rcases List.filterMap_eq_cons_iff.mp errors with ⟨quiet, label, rest, rfl, silent, found, -⟩
    have replied : label = .reply (.error text) := by
      cases label with
      | reply message => cases found; rfl
      | emit run message =>
          cases found
          exact absurd (by simp) (emits_no_error reaches run text)
      | _ => cases found
    have still : emitted quiet = [] := List.filterMap_eq_nil_iff.mpr silent
    have apart := apart (early ++ quiet) text rest (by rw [replied, List.append_assoc])
    rwa [emitted, List.filterMap_append, ← emitted, ← emitted, still, List.append_nil] at apart

end Histories

/-! ## A request that is refused -/

theorem refused_running_iff :
    (∀ shown rest, emitted (cancelledHistory beepProgram) = shown ++ rest →
        ((applyMessages {} shown).running = true ↔ InProgram shown)) ↔
      ∀ before text after,
        cancelledHistory beepProgram = before ++ .reply (.error text) :: after →
        ¬InProgram (emitted before) := by
  rcases beep_reaches with ⟨bridge, reaches⟩
  exact running_iff reaches rfl

/-- The second request is refused while the program runs, and the user interface no
longer shows it as running. -/
theorem refused_not_running :
    ¬ ∀ (overflow : String → Int64 → Int64 → Int64) (history : List Label) (bridge : Bridge),
      Reaches overflow history bridge → ∀ shown rest, emitted history = shown ++ rest →
        ((applyMessages {} shown).running = true ↔ InProgram shown) := by
  intro always
  rcases beep_reaches with ⟨bridge, reaches⟩
  have shows := always _ _ bridge reaches (emitted (cancelledHistory beepProgram)) []
    (List.append_nil _).symm
  have started : InProgram (emitted (cancelledHistory beepProgram)) := rfl
  have stopped :
      (applyMessages {} (emitted (cancelledHistory beepProgram))).running = false := rfl
  rw [stopped] at shows
  exact Bool.false_ne_true (shows.mpr started)

end CardCode.App
