import CardCode.App.SameTrees

/-! # Spans in bytes and in code units

The engine counts the bytes of a text and the user interface its UTF-16 code units.
The spans of an expression agree exactly when only ASCII characters stand before its
end, and its end is not past what the engine's column can count.
-/

namespace CardCode.App

open TokenTree

/-- A span of the engine equals one of the user interface in all six fields. -/
structure Agrees (engine : SourceSpan) (app : Span) : Prop where
  startOffset : engine.startOffset.toNat = app.startOffset
  endOffset : engine.endOffset.toNat = app.endOffset
  startLine : engine.startLine.toNat = app.startLine
  startColumn : engine.startColumn.toNat = app.startColumn
  endLine : engine.endLine.toNat = app.endLine
  endColumn : engine.endColumn.toNat = app.endColumn

/-- Two trees of the same shape, with a relation between the spans of every two
expressions that stand at the same place in them. -/
inductive Alongside (Holds : SourceSpan → Span → Prop) : RawExpr → Expr → Prop
  | integer {engine value app raw} :
      Holds engine app → Alongside Holds (.integer engine value) (.integer raw app)
  | symbol {engine name app raw} :
      Holds engine app → Alongside Holds (.symbol engine name) (.symbol raw app)
  | list {engine items app children} :
      Holds engine app → List.Forall₂ (Alongside Holds) items children →
      Alongside Holds (.list engine items) (.list children app)

def IsAscii (text : Text) : Prop :=
  ∀ c ∈ text, c.toNat < 128

/-- Up to the end of the span the text is ASCII, and the last line of that part is
no longer than 32 bits can count. -/
def Plain (text : Text) (span : Span) : Prop :=
  (∃ front back, text = front ++ back ∧ textLength front = span.endOffset ∧ IsAscii front) ∧
    span.endColumn < 2 ^ 32

/-! ## Lengths -/

theorem length_le_textLength (text : Text) : text.length ≤ textLength text := by
  induction text with
  | nil => exact Nat.le_refl 0
  | cons c rest induction =>
      have positive := codeUnits_pos c
      rw [List.length_cons, textLength]
      omega

/-- No character takes fewer bytes than code units, and only ASCII as few. -/
theorem codeUnits_le_utf8Size (c : Char) :
    codeUnits c ≤ c.utf8Size ∧ (codeUnits c = c.utf8Size → c.toNat < 128) := by
  have value : c.val.toNat = c.toNat := rfl
  rw [codeUnits, Char.utf8Size]
  simp only [UInt32.le_iff_toNat_le, value, UInt32.toNat_ofNatLT]
  split_ifs
  all_goals
    constructor
    · omega
    · omega

/-- A text is as long in bytes as in code units exactly when it is ASCII. -/
theorem textLength_le_bytes (text : Text) :
    textLength text ≤ (engineText text).length ∧
      (textLength text = (engineText text).length → IsAscii text) := by
  induction text with
  | nil => exact ⟨Nat.le_refl 0, fun _ _ member => absurd member List.not_mem_nil⟩
  | cons c rest induction =>
      have head := codeUnits_le_utf8Size c
      rw [engineText_cons, List.length_append, encoded, List.length_map,
        String.length_utf8EncodeChar, textLength]
      refine ⟨by omega, ?_⟩
      intro same
      exact List.forall_mem_cons.mpr ⟨head.2 (by omega), induction.2 (by omega)⟩

theorem textLength_ascii {text : Text} (ascii : IsAscii text) : textLength text = text.length := by
  induction text with
  | nil => rfl
  | cons c rest induction =>
      have narrow := ascii c List.mem_cons_self
      rw [textLength, induction fun d member => ascii d (List.mem_cons_of_mem _ member),
        List.length_cons, codeUnits, if_pos (by omega)]
      exact Nat.add_comm 1 _

/-- Parts of a text from its start are told apart by their lengths. -/
theorem eq_of_textLength {first second text : Text} (firstPrefix : first <+: text)
    (secondPrefix : second <+: text) (same : textLength first = textLength second) :
    first = second := by
  have ordered {short long : Text} (isPrefix : short <+: long)
      (same : textLength short = textLength long) : short = long := by
    rcases isPrefix with ⟨rest, rfl⟩
    rw [textLength_append] at same
    have bounded := length_le_textLength rest
    have none : rest = [] := List.eq_nil_of_length_eq_zero (by omega)
    rw [none, List.append_nil]
  rcases List.prefix_or_prefix_of_prefix firstPrefix secondPrefix with inside | beyond
  · exact ordered inside same
  · exact (ordered beyond same.symm).symm

/-! ## Positions -/

theorem lineColumnFrom_ascii {before : Text} (ascii : IsAscii before) (after : Text)
    (line column : Nat) :
    lineColumnFrom (before ++ after) before.length line column =
      before.foldl stepLine (line, column) := by
  induction before generalizing line column with
  | nil =>
      cases after with
      | nil => rfl
      | cons => rfl
  | cons c rest induction =>
      have narrow := ascii c List.mem_cons_self
      have others := induction fun d member => ascii d (List.mem_cons_of_mem _ member)
      have one : codeUnits c = 1 := by
        rw [codeUnits, if_pos (by omega)]
      rw [List.cons_append, List.length_cons, lineColumnFrom, if_neg (Nat.succ_ne_zero _), one,
        Nat.add_sub_cancel, List.foldl_cons, stepLine]
      split
      · exact others (line + 1) 1
      · have step : min (rest.length + 1) 1 = 1 := by omega
        rw [step]
        exact others line (column + 1)

/-- After ASCII text both sides count the same lines and columns. -/
theorem lineColumnAt_ascii {text before : Text} (inside : before <+: text)
    (ascii : IsAscii before) : lineColumnAt text (textLength before) = lineColumn before := by
  rcases inside with ⟨after, rfl⟩
  rw [textLength_ascii ascii]
  exact lineColumnFrom_ascii ascii after 1 1

/-- Where an expression reaches from the start of one lexeme to the end of another. -/
structure Reach (text : Text) (first last : Place) : Prop where
  order : first.before <+: last.before
  inside : last.before ++ last.word <+: text
  solid : last.word ≠ [] ∧ '\n' ∉ last.word
  fits : (utf8 text).length < 2 ^ 32

/-- The spans agree exactly when the text is plain up to their end. -/
theorem Reach.agrees_iff {text : Text} {first last : Place} (reach : Reach text first last) :
    Agrees
        ((positionAfter (engineText first.before)).spanTo
          (positionAfter (engineText (last.before ++ last.word))))
        (spanFromOffsets text (textLength first.before)
          (textLength (last.before ++ last.word))) ↔
      Plain text (spanFromOffsets text (textLength first.before)
        (textLength (last.before ++ last.word))) := by
  have short : (engineText (last.before ++ last.word)).length < 2 ^ 32 := by
    have bounded := (engineText_isPrefix reach.inside).length_le
    exact Nat.lt_of_le_of_lt bounded (engineText_length text ▸ reach.fits)
  constructor
  · intro agrees
    have offset : (positionAfter (engineText (last.before ++ last.word))).offset.toNat =
        textLength (last.before ++ last.word) := agrees.endOffset
    rw [positionAfter_eq] at offset
    dsimp only at offset
    rw [UInt32.toNat_ofNat_of_lt' short] at offset
    rcases reach.inside with ⟨rest, whole⟩
    refine ⟨⟨_, rest, whole.symm, rfl, ?_⟩, ?_⟩
    · exact (textLength_le_bytes _).2 offset.symm
    · rw [← agrees.endColumn]
      exact UInt32.toNat_lt _
  · intro plain
    rcases plain with ⟨⟨front, back, whole, length, ascii⟩, column⟩
    have same : front = last.before ++ last.word :=
      eq_of_textLength ⟨back, whole.symm⟩ reach.inside length
    rw [same] at ascii
    have beforeAscii : IsAscii last.before :=
      fun c member => ascii c (List.mem_append_left _ member)
    have firstAscii : IsAscii first.before :=
      fun c member => beforeAscii c (reach.order.subset member)
    have firstInside : first.before <+: text :=
      reach.order.trans ((List.prefix_append _ _).trans reach.inside)
    have exact (number : Nat) (fits : number < 2 ^ 32) : (UInt32.ofNat number).toNat = number :=
      UInt32.toNat_ofNat_of_lt' fits
    have wordLength : 1 ≤ last.word.length := List.length_pos_iff.mpr reach.solid.1
    have firstBounds := lineColumn_le first.before
    have lastBounds := lineColumn_le last.before
    have ending := @lineColumn_append last.before last.word reach.solid.2
    have order := reach.order.length_le
    rw [engineText_ascii ascii, List.length_append] at short
    rw [engineText_ascii ascii, engineText_ascii firstAscii, positionAfter_eq, positionAfter_eq]
    rw [spanFromOffsets, lineColumnAt_ascii reach.inside ascii] at column ⊢
    rw [lineColumnAt_ascii firstInside firstAscii, textLength_ascii ascii,
      textLength_ascii firstAscii]
    rw [ending] at column ⊢
    dsimp only at column
    constructor
    · exact exact _ (by omega)
    · exact exact _ (by rw [List.length_append]; exact short)
    · exact exact _ (by omega)
    · exact exact _ (by omega)
    · exact exact _ (by dsimp only; omega)
    · exact exact _ column

/-! ## Expressions -/

/-- The two spans of an expression agree exactly where the text is plain. -/
def AgreesWhenPlain (text : Text) (engine : SourceSpan) (app : Span) : Prop :=
  Agrees engine app ↔ Plain text app

theorem agreesWhenPlain {text : Text} {first last : Sighting}
    (fits : (utf8 text).length < 2 ^ 32) (order : first.2.before <+: last.2.before)
    (firstSound : Sighting.Sound text first) (lastSound : Sighting.Sound text last) :
    AgreesWhenPlain text (first.1.span.join last.1.span)
      (spanFromOffsets text (Sighting.lexeme first).start (Sighting.lexeme last).stop) := by
  have reach : Reach text first.2 last.2 := ⟨order, lastSound.inside, lastSound.solid, fits⟩
  have start : (Sighting.lexeme first).start = textLength first.2.before := by
    rw [← appAlphabet_extent]
    exact Nat.zero_add _
  have stop : (Sighting.lexeme last).stop = textLength (last.2.before ++ last.2.word) := by
    rw [← appAlphabet_extent]
    exact Nat.zero_add _
  rw [start, stop, firstSound.span, lastSound.span]
  exact reach.agrees_iff

theorem sighting_alongside {text : Text} (fits : (utf8 text).length < 2 ^ 32)
    (tree : TokenTree Sighting) :
    WellBracketed (tree.map Prod.fst) → (∀ sighting ∈ tree.flatten, Sighting.Sound text sighting) →
      (tree.flatten.Pairwise fun first second => first.2.Precedes second.2) →
      Alongside (AgreesWhenPlain text) (toRaw (tree.map Prod.fst)) (sightingExpr text tree) := by
  induction tree using TokenTree.induct with
  | leaf sighting =>
      intro bracketed sound _
      have own := sound sighting (by simp)
      have spans := agreesWhenPlain fits (List.prefix_refl _) own own
      rw [map_leaf] at bracketed ⊢
      rw [sightingExpr, map_leaf, treeExpr, TokenTree.toRaw]
      cases bracketed with
      | leaf atom =>
          have isInteger := Sighting.Sound.isInteger_iff own atom
          have spelled : (Sighting.lexeme sighting).text = sighting.2.word := rfl
          rw [Token.toRaw, atomExpr, spelled]
          by_cases integer : sighting.1.kind = .integer
          · rw [if_pos integer, if_pos (isInteger.mp integer)]
            exact .integer spans
          · rw [if_neg integer, if_neg (integer ∘ isInteger.mpr)]
            exact .symbol spans
  | group opening items closing induction =>
      intro bracketed sound ordered
      rw [map_group] at bracketed ⊢
      rw [sightingExpr_group, TokenTree.toRaw_group]
      rw [flatten_group] at ordered
      rcases List.pairwise_cons.mp ordered with ⟨after, inner⟩
      have order : opening.2.before <+: closing.2.before :=
        (List.prefix_append _ _).trans (after closing (by simp))
      cases bracketed with
      | group _ brackets _ =>
          apply Alongside.list
          · exact agreesWhenPlain fits order (sound opening (by simp)) (sound closing (by simp))
          · rw [List.map_map, List.forall₂_map_left_iff, List.forall₂_map_right_iff,
              List.forall₂_same]
            intro item member
            apply induction item member (brackets _ (List.mem_map_of_mem member))
            · exact fun sighting inside => sound sighting (mem_group member inside)
            · exact (List.pairwise_append.mp inner).1.sublist (flatten_sublist member)

/-- In every text the engine accepts, the two spans of an expression agree exactly
when the text is plain up to their end. -/
theorem spans_agree_iff (text : Text) (parsed : ParseResult)
    (found : parse (utf8 text) = some parsed) (clean : hasErrors parsed.diagnostics = false) :
    ∃ ast, parseCardCode text = .ok ast ∧
      List.Forall₂ (Alongside fun engine app => Agrees engine app ↔ Plain text app)
        parsed.exprs ast.children := by
  rcases shared_reading found clean with ⟨reading⟩
  refine ⟨_, reading.parses, ?_⟩
  have exprs := reading.exprs_eq
  have trees : List.Forall₂ (Alongside (AgreesWhenPlain text))
      (reading.trees.map fun tree => toRaw (tree.map Prod.fst))
      (reading.trees.map (sightingExpr text)) := by
    rw [List.forall₂_map_left_iff, List.forall₂_map_right_iff, List.forall₂_same]
    intro tree member
    apply sighting_alongside reading.fits tree (reading.bracketed tree member)
    · intro sighting inside
      exact reading.sound sighting (mem_flattenAll.mpr ⟨tree, member, inside⟩)
    · exact reading.ordered.sublist (flatten_sublist member)
  rw [← exprs] at trees
  exact trees

theorem commented_spans_agree_iff :
    ∃ parsed ast, parse (utf8 commentedText) = some parsed ∧
      parseCardCode commentedText = .ok ast ∧
      List.Forall₂ (Alongside fun engine app => Agrees engine app ↔ Plain commentedText app)
        parsed.exprs ast.children := by
  rcases commented_parses with ⟨parsed, found, clean⟩
  rcases spans_agree_iff commentedText parsed found clean with ⟨ast, rest⟩
  exact ⟨parsed, ast, found, rest⟩

/-- A program below a comment that is not ASCII. -/
def accentedText : Text :=
  "; é\n(beep)".toList

theorem accented_spans_differ :
    ¬ ∀ text parsed ast, parse (utf8 text) = some parsed → parsed.diagnostics = [] →
      parseCardCode text = .ok ast →
      List.Forall₂ (Alongside Agrees) parsed.exprs ast.children := by
  intro always
  have engine : (parse (utf8 accentedText)).map
      (fun parsed => (parsed.diagnostics, parsed.exprs.map RawExpr.span)) =
        some ([], [⟨5, 11, 2, 1, 2, 7⟩]) := by decide +kernel
  have app : (parseCardCode accentedText).toOption.map
      (fun ast => ast.children.map Expr.span) = some [⟨4, 10, 2, 1, 2, 7⟩] := by decide +kernel
  rcases Option.map_eq_some_iff.mp engine with ⟨parsed, found, spans⟩
  rcases Option.map_eq_some_iff.mp app with ⟨ast, result, appSpans⟩
  have parses : parseCardCode accentedText = .ok ast := by
    generalize parseCardCode accentedText = outcome at result ⊢
    cases outcome with
    | error => cases result
    | ok => rw [Option.some.inj result]
  have silent := congrArg Prod.fst spans
  have engineSpans := congrArg Prod.snd spans
  dsimp only at silent engineSpans
  have alongside := always accentedText parsed ast found silent parses
  rcases List.map_eq_singleton_iff.mp engineSpans with ⟨raw, exprs, rawSpan⟩
  rcases List.map_eq_singleton_iff.mp appSpans with ⟨expr, children, exprSpan⟩
  rw [exprs, children, List.forall₂_cons] at alongside
  have agrees : Agrees raw.span expr.span := by
    cases alongside.1 with
    | integer agrees => exact agrees
    | symbol agrees => exact agrees
    | list agrees => exact agrees
  rw [rawSpan, exprSpan] at agrees
  exact absurd agrees.startOffset (by decide)

end CardCode.App
