import CardCode.App.Again
import CardCode.App.Edits
import Mathlib.Data.List.DropRight

/-! # Arguments edited as code (`formatParam` of `app/src/render.js`, `app/src/app.js`)

The parameter editor shows a value as text and takes the text back as code. The text is
the one the generator writes for the value, and it is read back as the same expression.
-/

namespace CardCode.App

/-! ## Showing a value -/

mutual

def formatParam : CardValue → Text
  | .null => "null".toList
  | .number value => integerText value
  | .boolean value => (if value then "true" else "false").toList
  | .text raw => raw.toList
  | .names names => joinSpaced (names.map String.toList)
  | .var name _ => name.toList
  | .call form args _ => '(' :: (form.toList ++ spacedArgs (formatParams args) ++ [')'])

def formatParams : List CardValue → List Text
  | [] => []
  | value :: rest => formatParam value :: formatParams rest

end

theorem values_shown {exprs : List Expr}
    (each : ∀ expr ∈ exprs,
      emitValue (projectValue expr) = .ok (formatParam (projectValue expr))) :
    emitValues (projectValues exprs) = .ok (formatParams (projectValues exprs)) := by
  induction exprs with
  | nil => rw [projectValues, emitValues, formatParams]
  | cons expr rest induction =>
      rw [projectValues, emitValues, formatParams, each expr List.mem_cons_self,
        induction fun other member => each other (List.mem_cons_of_mem expr member)]
      rfl

/-- The two printers agree on the value of an expression. -/
theorem value_shown (expr : Expr) :
    emitValue (projectValue expr) = .ok (formatParam (projectValue expr)) := by
  induction expr using Expr.induct with
  | integer raw span =>
      rw [projectValue, projectIntegerValue]
      split_ifs <;> rw [emitValue, formatParam]
  | symbol raw span =>
      rw [projectValue, projectSymbolValue]
      split_ifs <;> rw [emitValue, formatParam]
  | list children span induction =>
      cases children with
      | nil => rw [projectValue, emitValue, emitValues, formatParam, formatParams]; rfl
      | cons head args =>
          have shown := values_shown fun arg member =>
            induction arg (List.mem_cons_of_mem head member)
          rw [projectValue, emitValue, shown, formatParam]
          rfl

theorem shown_layout (expr : Expr) :
    (valueLayout expr []).text = formatParam (projectValue expr) := by
  rcases value_isEmitted expr with ⟨text, emitted, layout⟩
  rw [value_shown] at emitted
  rw [layout, List.nil_append, Except.ok.inj emitted]

/-! ## Reading it back -/

/-- The text of a headed value is one expression, the value again. -/
theorem shown_parses {expr : Expr} (spelled : expr.Spelled) (headed : expr.Headed) :
    ∃ ast read, parseCardCode (formatParam (projectValue expr)) = .ok ast ∧
      ast.children = [read] ∧ IsAgain expr read := by
  have spaced : ∀ item ∈ [valueLayout expr []], Layout.WellSpaced appAlphabet item :=
    List.forall_mem_singleton.mpr (valueLayout_spaced expr spelled [] (List.forall_mem_nil _))
  have scans := Layout.row_scans spaced (List.forall_mem_nil _)
  rw [Layout.rowText_cons, Layout.rowText_nil, List.append_nil, shown_layout] at scans
  refine ⟨_, _, parseCardCode_reads (row_bracketed (fun item _ => layout_bracketed item) 0) scans,
    rfl, ?_⟩
  exact value_isAgain expr spelled headed [] _ (layout_readsAs _ _ _)

/-! ## Committing it -/

/-- `trim`, whose blanks are those of `/\s/`. -/
def trim (text : Text) : Text :=
  (text.dropWhile isSpace).rdropWhile isSpace

inductive ExpressionError where
  | unreadable (failure : ParseFailure)
  | notSingle

def parseExpressionValue (text : Text) : Except ExpressionError CardValue :=
  match parseCardCode text with
  | .error failure => .error (.unreadable failure)
  | .ok ast =>
      match ast.children with
      | [expr] => .ok (projectValue expr)
      | _ => .error .notSingle

/-- The tree that `setParamExpression` has the source generated from, for the text in the
editor's field. -/
def setParamExpression (cards : List Card) (id name : String) (field : Text) :
    Except ExpressionError (Bool × List Card) := do
  let value ← parseExpressionValue (trim field)
  pure (updateParamValue cards id name value)

/-! ## Values that are written alike -/

theorem emitValues_bare {values : List CardValue}
    (each : ∀ value ∈ values, emitValue value.bare = emitValue value) :
    emitValues (CardValue.bareAll values) = emitValues values := by
  induction values with
  | nil => rw [CardValue.bareAll]
  | cons value rest induction =>
      rw [CardValue.bareAll, emitValues, emitValues, each value List.mem_cons_self,
        induction fun other member => each other (List.mem_cons_of_mem value member)]

theorem emitValue_bare (value : CardValue) : emitValue value.bare = emitValue value := by
  induction value using CardValue.induct with
  | call form args span induction =>
      rw [CardValue.bare, emitValue, emitValue, emitValues_bare induction]
  | var name span => rw [CardValue.bare, emitValue, emitValue]
  | null => rw [CardValue.bare]
  | number value => rw [CardValue.bare]
  | boolean value => rw [CardValue.bare]
  | text raw => rw [CardValue.bare]
  | names all => rw [CardValue.bare]

/-- Equal up to spans. -/
def CardValue.SameBare (value other : CardValue) : Prop :=
  other.bare = value.bare

theorem CardValue.SameBare.emitted {value other : CardValue} (same : value.SameBare other) :
    emitValue other = emitValue value := by
  rw [← emitValue_bare other, same, emitValue_bare]

theorem interpolate_bare (value : CardValue) : interpolate value.bare = interpolate value := by
  cases value <;> rfl

theorem CardValue.SameBare.interpolated {value other : CardValue} (same : value.SameBare other) :
    interpolate other = interpolate value := by
  rw [← interpolate_bare other, same, interpolate_bare]

/-! ## Results that come again -/

/-- Where the first generates something, the second generates something related. -/
def Reproduces {First Second : Type} (related : First → Second → Prop) (first : Generate First)
    (second : Generate Second) : Prop :=
  ∀ result, first = .ok result → ∃ other, second = .ok other ∧ related result other

namespace Reproduces

variable {First Second Third Fourth : Type}

theorem refl (first : Generate First) : Reproduces Eq first first :=
  fun result done => ⟨result, done, rfl⟩

theorem error {related : First → Second → Prop} (failure : GenerateError)
    (second : Generate Second) : Reproduces related (.error failure) second := by
  intro result done
  cases done

theorem bind {related : First → Second → Prop} {after : Third → Fourth → Prop}
    {first : Generate First} {second : Generate Second} {next : First → Generate Third}
    {other : Second → Generate Fourth} (start : Reproduces related first second)
    (rest : ∀ result again, related result again → Reproduces after (next result) (other again)) :
    Reproduces after (first >>= next) (second >>= other) := by
  intro final done
  cases begun : first with
  | error failure =>
      rw [begun] at done
      cases done
  | ok result =>
      rw [begun] at done
      rcases start result begun with ⟨again, same, relation⟩
      rcases rest result again relation final done with ⟨last, finished, following⟩
      refine ⟨last, ?_, following⟩
      rw [same]
      exact finished

/-- The same computation after results that are equal. -/
theorem andThen {after : Third → Fourth → Prop} {first second : Generate First}
    {next : First → Generate Third} {other : First → Generate Fourth}
    (start : Reproduces Eq first second)
    (rest : ∀ result, Reproduces after (next result) (other result)) :
    Reproduces after (first >>= next) (second >>= other) := by
  apply start.bind
  intro result again same
  rw [← same]
  exact rest result

end Reproduces

/-! ## Cards that are written alike -/

/-- Two heads that differ only in the spans of their parameters' values. -/
structure CardHead.SameBare (head other : CardHead) : Prop where
  id : other.id = head.id
  cardId : other.cardId = head.cardId
  form : other.form = head.form
  args : other.args = head.args
  params : List.Forall₂
    (fun param again => again.1 = param.1 ∧ param.2.value.SameBare again.2.value)
    head.params other.params

theorem CardValue.SameBare.names {all : List String} {other : CardValue}
    (same : (CardValue.names all).SameBare other) : other = .names all := by
  cases other <;> cases same
  rfl

theorem CardHead.SameBare.refl (head : CardHead) : head.SameBare head :=
  ⟨rfl, rfl, rfl, rfl, List.forall₂_same.mpr fun _ _ => ⟨rfl, rfl⟩⟩

/-- Writers of which the second writes what the first writes. -/
def SameWriter (writer other : Writer) : Prop :=
  ∀ ctx, Reproduces Eq (writer ctx) (other ctx)

def SameRow (writers others : List (Nat → Writer)) : Prop :=
  List.Forall₂ (fun writer other => ∀ indent, SameWriter (writer indent) (other indent))
    writers others

theorem SameWriter.refl (writer : Writer) : SameWriter writer writer :=
  fun ctx => .refl (writer ctx)

theorem SameWriter.ite {condition : Prop} [Decidable condition] {first second : Writer}
    {other again : Writer} (whenYes : SameWriter first other) (whenNo : SameWriter second again) :
    SameWriter (if condition then first else second) (if condition then other else again) := by
  split
  · exact whenYes
  · exact whenNo

theorem SameRow.refl (writers : List (Nat → Writer)) : SameRow writers writers :=
  List.forall₂_same.mpr fun writer _ indent => .refl (writer indent)

section Writers

variable {head other : CardHead} {rows otherRows : List (Nat → Writer)}

theorem paramValue_same (heads : head.SameBare other) (name : String) :
    Reproduces CardValue.SameBare (paramValue head name) (paramValue other name) := by
  have params := heads.params
  rw [paramValue, paramValue]
  generalize head.params = first at params ⊢
  generalize other.params = second at params ⊢
  induction params with
  | nil =>
      intro result done
      cases done
  | @cons param again _ _ same _ induction =>
      rcases param with ⟨key, param⟩
      rcases again with ⟨otherKey, again⟩
      rcases same with ⟨rfl, value⟩
      rw [List.lookup_cons, List.lookup_cons]
      cases name == otherKey with
      | true =>
          intro result done
          cases done
          exact ⟨again.value, rfl, value⟩
      | false => exact induction

theorem writeLines_same (same : SameRow rows otherRows) :
    ∀ indent, SameWriter (writeLines rows indent) (writeLines otherRows indent) := by
  intro indent
  induction same with
  | nil => exact .refl _
  | cons first _ induction =>
      intro ctx
      rw [writeLines, writeLines]
      exact (first indent _).andThen induction

theorem writeSequence_same (same : SameRow rows otherRows) (indent : Nat) (form : Text)
    (firstArg : Option Text) :
    SameWriter (writeSequence rows indent form firstArg)
      (writeSequence otherRows indent form firstArg) := by
  intro ctx
  rw [writeSequence, writeSequence]
  exact (writeLines_same same (indent + 1) _).andThen fun _ => .refl _

theorem writeLedSequence_same (heads : head.SameBare other) (same : SameRow rows otherRows)
    (indent : Nat) (form param : String) :
    SameWriter (writeLedSequence head rows indent form param)
      (writeLedSequence other otherRows indent form param) := by
  intro ctx
  rw [writeLedSequence, writeLedSequence]
  apply (paramValue_same heads param).bind
  intro value again sameValue
  rw [sameValue.emitted]
  exact (Reproduces.refl _).andThen fun first =>
    writeSequence_same same indent form.toList (some first) ctx

theorem writeBranch_same (same : SameRow rows otherRows) (indent : Nat) :
    SameWriter (writeBranch rows indent) (writeBranch otherRows indent) := by
  intro ctx
  cases same with
  | nil => exact .refl _
  | cons first rest =>
      cases rest with
      | nil => exact first indent ctx
      | cons second others =>
          rw [writeBranch, writeBranch]
          · exact (writeLines_same (.cons first (.cons second others)) (indent + 1) _).andThen
              fun _ => .refl _
          · simp
          · simp
          · simp
          · simp

theorem writeIf_same {elseRows otherElse : List (Nat → Writer)} (heads : head.SameBare other)
    (thenSame : SameRow rows otherRows) (elseSame : SameRow elseRows otherElse) (indent : Nat) :
    SameWriter (writeIf head rows elseRows indent) (writeIf other otherRows otherElse indent) := by
  intro ctx
  rw [writeIf, writeIf]
  apply (paramValue_same heads "condition").bind
  intro value again sameValue
  rw [sameValue.emitted]
  apply (Reproduces.refl _).andThen
  intro condition
  apply (writeBranch_same thenSame (indent + 1) _).andThen
  intro ctx
  exact (writeBranch_same elseSame (indent + 1) _).andThen fun _ => .refl _

theorem joinedNames_same (heads : head.SameBare other) :
    Reproduces Eq (joinedNames head) (joinedNames other) := by
  rw [joinedNames, joinedNames]
  apply (paramValue_same heads "params").bind
  intro value again same
  cases value with
  | names all =>
      rw [same.names]
      exact .refl _
  | null => exact .error _ _
  | number value => exact .error _ _
  | boolean value => exact .error _ _
  | text raw => exact .error _ _
  | var name span => exact .error _ _
  | call form args span => exact .error _ _

theorem writeFunction_same (heads : head.SameBare other) (same : SameRow rows otherRows)
    (indent : Nat) : SameWriter (writeFunction head rows indent)
      (writeFunction other otherRows indent) := by
  intro ctx
  rw [writeFunction, writeFunction]
  apply (joinedNames_same heads).andThen
  intro params
  apply (paramValue_same heads "name").bind
  intro name again sameName
  rw [sameName.interpolated]
  exact (writeLines_same same (indent + 1) _).andThen fun _ => .refl _

theorem writeBinding_same (heads : head.SameBare other) (form : String) (indent : Nat) :
    SameWriter (writeBinding head form indent) (writeBinding other form indent) := by
  intro ctx
  rw [writeBinding, writeBinding]
  apply (paramValue_same heads "name").bind
  intro name againName sameName
  rw [sameName.interpolated]
  apply (paramValue_same heads "value").bind
  intro value again sameValue
  rw [sameValue.emitted]
  exact .refl _

theorem values_same {values others : List CardValue}
    (each : List.Forall₂ CardValue.SameBare values others) :
    emitValues others = emitValues values := by
  induction each with
  | nil => rfl
  | cons same _ induction => rw [emitValues, emitValues, same.emitted, induction]

theorem writeArgs_same (form : String) {values others : List CardValue}
    (each : List.Forall₂ CardValue.SameBare values others) (indent : Nat) :
    SameWriter (writeArgs form values indent) (writeArgs form others indent) := by
  intro ctx
  rw [writeArgs, writeArgs, values_same each]
  exact .refl _

theorem writeForm_same {thenRows otherThen elseRows otherElse : List (Nat → Writer)}
    (heads : head.SameBare other) (same : SameRow rows otherRows)
    (thenSame : SameRow thenRows otherThen) (elseSame : SameRow elseRows otherElse)
    (indent : Nat) :
    SameWriter (writeForm head rows thenRows elseRows indent)
      (writeForm other otherRows otherThen otherElse indent) := by
  rw [writeForm, writeForm, heads.cardId, heads.form, heads.args]
  apply SameWriter.ite
  · exact writeSequence_same same indent _ _
  apply SameWriter.ite
  · exact writeLedSequence_same heads same indent _ _
  apply SameWriter.ite
  · exact writeLedSequence_same heads same indent _ _
  apply SameWriter.ite
  · exact writeLedSequence_same heads same indent _ _
  apply SameWriter.ite
  · exact writeIf_same heads thenSame elseSame indent
  apply SameWriter.ite
  · exact writeFunction_same heads same indent
  apply SameWriter.ite
  · exact writeBinding_same heads "define" indent
  apply SameWriter.ite
  · exact writeBinding_same heads "set!" indent
  apply SameWriter.ite
  · exact .refl _
  · apply writeArgs_same
    rw [List.forall₂_map_left_iff, List.forall₂_map_right_iff]
    exact heads.params.imp fun _ _ same => same.2

theorem withSpan_same {writer again : Writer} (id : String) (same : SameWriter writer again) :
    SameWriter (withSpan id writer) (withSpan id again) := by
  intro ctx
  rw [withSpan, withSpan]
  exact (same ctx).andThen fun _ => .refl _

end Writers

/-! ## Trees that are written alike -/

def SameCard (card other : Card) : Prop :=
  ∀ indent, SameWriter (writeCard card indent) (writeCard other indent)

def SameCards (cards others : List Card) : Prop :=
  List.Forall₂ SameCard cards others

theorem SameCards.row {cards others : List Card} (same : SameCards cards others) :
    SameRow (writersOf cards) (writersOf others) := by
  induction same with
  | nil => rw [writersOf]; exact .nil
  | cons first _ induction => rw [writersOf, writersOf]; exact .cons first induction

theorem SameCard.refl (card : Card) : SameCard card card :=
  fun indent => .refl (writeCard card indent)

theorem SameCards.replace {before after : List Card} {card other : Card}
    (same : SameCard card other) : SameCards (before ++ card :: after) (before ++ other :: after) :=
  List.rel_append (List.forall₂_same.mpr fun card _ => .refl card)
    (.cons same (List.forall₂_same.mpr fun card _ => .refl card))

theorem body_same {head other : CardHead} {children others : List Card}
    (heads : head.SameBare other) (same : SameCards children others) :
    SameCard (.body head children) (.body other others) := by
  intro indent
  rw [writeCard, writeCard, heads.id]
  exact withSpan_same _ (writeForm_same heads same.row .nil .nil indent)

theorem fork_same {head other : CardHead} {thenCards elseCards otherThen otherElse : List Card}
    (heads : head.SameBare other) (thenSame : SameCards thenCards otherThen)
    (elseSame : SameCards elseCards otherElse) :
    SameCard (.fork head thenCards elseCards) (.fork other otherThen otherElse) := by
  intro indent
  rw [writeCard, writeCard, heads.id]
  exact withSpan_same _ (writeForm_same heads .nil thenSame.row elseSame.row indent)

/-- A tree is written as before where a card that is written as before is put in the place
of another. -/
theorem Spot.fill_same (spot : Spot) {cards others : List Card} (same : SameCards cards others) :
    SameCards (spot.fill cards) (spot.fill others) := by
  have kept (cards : List Card) : SameCards cards cards :=
    List.forall₂_same.mpr fun card _ => .refl card
  induction spot with
  | top => exact same
  | children before head inner after induction =>
      exact .replace (body_same (.refl head) induction)
  | thenBranch before head inner elseCards after induction =>
      exact .replace (fork_same (.refl head) induction (kept elseCards))
  | elseBranch before head thenCards inner after induction =>
      exact .replace (fork_same (.refl head) (kept thenCards) induction)

theorem writeProgram_same {cards others : List Card} (same : SameCards cards others) :
    ∀ isFirst, SameWriter (writeProgram cards isFirst) (writeProgram others isFirst) := by
  induction same with
  | nil => exact fun _ => .refl _
  | cons first _ induction =>
      intro isFirst ctx
      rw [writeProgram, writeProgram]
      exact (first 0 _).andThen (induction false)

theorem setParam_sameBare {head : CardHead} {name : String} {value : CardValue}
    (same : ∀ param, (name, param) ∈ head.params → param.value.SameBare value) :
    head.SameBare { head with
      params := head.params.map fun param =>
        if param.1 = name then (name, { param.2 with value }) else param } := by
  refine ⟨rfl, rfl, rfl, rfl, ?_⟩
  rw [List.forall₂_map_right_iff]
  apply List.forall₂_same.mpr
  intro param member
  rcases param with ⟨key, param⟩
  by_cases named : key = name
  · rw [if_pos named]
    exact ⟨named.symm, same param (named ▸ member)⟩
  · rw [if_neg named]
    exact ⟨rfl, rfl⟩

/-- A card is written as before where its parameter keeps its value up to spans. -/
theorem setParam_same {card : Card} {name : String} {value : CardValue}
    (same : ∀ param, (name, param) ∈ card.head.params → param.value.SameBare value) :
    SameCard card (card.setParam name value) := by
  have kept (cards : List Card) : SameCards cards cards :=
    List.forall₂_same.mpr fun card _ => .refl card
  cases card with
  | leaf head =>
      intro indent
      rw [Card.setParam, Card.mapHead, writeCard, writeCard]
      exact withSpan_same _
        (writeForm_same (setParam_sameBare same) (.refl _) (.refl _) (.refl _) indent)
  | body head children => exact body_same (setParam_sameBare same) (kept children)
  | fork head thenCards elseCards =>
      exact fork_same (setParam_sameBare same) (kept thenCards) (kept elseCards)

/-! ## The round trip -/

theorem trim_eq {text : Text} (first : ∀ c ∈ text.head?, isSpace c = false)
    (last : ∀ c ∈ text.getLast?, isSpace c = false) : trim text = text := by
  have front : text.dropWhile isSpace = text := by
    cases text with
    | nil => rfl
    | cons c rest => rw [List.dropWhile_cons_of_neg (by simp [first c rfl])]
  rw [trim, front, List.rdropWhile_eq_self_iff]
  intro nonempty
  rw [last _ (List.getLast?_eq_some_getLast nonempty)]
  exact Bool.false_ne_true

/-- A layout without a gap before it begins and ends with what is not blank. -/
theorem layout_trimmed {layout : Layout} (spaced : Layout.WellSpaced appAlphabet layout)
    (flush : layout.gap = []) : trim layout.text = layout.text := by
  cases spaced with
  | @word gap text _ _ letters =>
      have plain : ∀ c ∈ text, isSpace c = false := by
        intro c member
        by_contra blank
        have notWord : appAlphabet.isWord c = false :=
          Layout.blank_not_word (by simpa [appAlphabet] using blank)
        rw [letters c member] at notWord
        cases notWord
      have bare : gap = [] := flush
      rw [Layout.text_word, bare, List.nil_append]
      exact trim_eq (fun c found => plain c (List.mem_of_mem_head? found))
        fun c found => plain c (List.mem_of_mem_getLast? found)
  | @group gap items _ _ _ =>
      have bare : gap = [] := flush
      rw [Layout.text_group, bare, List.nil_append]
      apply trim_eq
      · intro c found
        cases found
        decide
      · intro c found
        rw [← List.cons_append, List.getLast?_concat] at found
        cases found
        decide

/-- The text a headed value is shown as is the text it is written as. It is read as that
value again, up to spans and the digits of integers, and a program in which it is committed
unchanged is written as before. -/
theorem argument_round_trips (expr : Expr) (spelled : expr.Spelled) (headed : expr.Headed) :
    ∃ text, emitValue (projectValue expr) = .ok text ∧ formatParam (projectValue expr) = text ∧
      (∃ ast read, parseCardCode text = .ok ast ∧ ast.children = [read] ∧
        read.shape = expr.shape ∧ (projectValue read).bare = (projectValue expr).bare) ∧
      ∀ source ast id name card, parseCardCode source = .ok ast →
        findCard (projectProgram ast.children defaultManifest) id = some card →
        card.hasParam name = true →
        (∀ param, (name, param) ∈ card.head.params → param.value = projectValue expr) →
        ∃ edited generated,
          setParamExpression (projectProgram ast.children defaultManifest) id name text =
            .ok (true, edited) ∧
          generateProgram (projectProgram ast.children defaultManifest) = .ok generated ∧
          generateProgram edited = .ok generated := by
  refine ⟨_, value_shown expr, rfl, ?_, ?_⟩
  · rcases shown_parses spelled headed with ⟨ast, read, parsed, single, again⟩
    exact ⟨ast, read, parsed, single, again.shape, again.value⟩
  · intro source ast id name card accepted found has held
    rcases shown_parses spelled headed with ⟨shown, read, parsed, single, again⟩
    have flush := valueLayout_gap expr []
    have trimmed := layout_trimmed
      (valueLayout_spaced expr spelled [] (List.forall_mem_nil _)) flush
    rw [shown_layout] at trimmed
    have value : parseExpressionValue (trim (formatParam (projectValue expr))) =
        .ok (projectValue read) := by
      rw [trimmed, parseExpressionValue, parsed]
      simp only [single]
    rcases editsCard_of_found (projectProgram_nodup defaultManifest ast.children) found with
      ⟨same, spot, before, after, edits⟩
    rcases generateProgram_source (parsed_spelled accepted) with ⟨generated, written, -⟩
    rcases edits.updated name (projectValue read) has with ⟨changed, updated, result⟩
    refine ⟨spot.fill (before ++ changed :: after), generated, ?_, written, ?_⟩
    · rw [setParamExpression, value, ← same]
      exact congrArg Except.ok result
    · have kept : SameCard card changed := by
        rw [updated.eq_setParam]
        apply setParam_same
        intro param member
        rw [held param member]
        exact again.value
      rw [edits.placed] at written
      rcases writeProgram_same (spot.fill_same (.replace kept)) true {} generated written with
        ⟨other, rewritten, equal⟩
      rw [equal]
      exact rewritten


/-- `(repeat 4)`. -/
def fourTimes : Expr :=
  .list [.symbol "repeat" default, .integer "4" default] default

theorem fourTimes_read {read : Expr} (again : IsAgain fourTimes read) :
    ∃ raw formSpan countSpan span,
      read = .list [.symbol "repeat" formSpan, .integer raw countSpan] span ∧
      projectValue (.integer raw countSpan) = .number 4 := by
  have shape : read.shape = .list [.symbol "repeat", .integer 4] := again.shape
  cases read with
  | integer raw span => cases shape
  | symbol raw span => cases shape
  | list children span =>
      rw [shape_list, Shape.list.injEq, List.map_eq_cons_iff] at shape
      rcases shape with ⟨form, rest, rfl, formShape, restShape⟩
      rw [List.map_eq_singleton_iff] at restShape
      rcases restShape with ⟨count, rfl, countShape⟩
      cases form with
      | integer raw formSpan => cases formShape
      | list items formSpan => cases formShape
      | symbol raw formSpan =>
          cases formShape
          cases count with
          | symbol raw countSpan => cases countShape
          | list items countSpan => cases countShape
          | integer raw countSpan =>
              rw [shape_integer, Shape.integer.injEq] at countShape
              refine ⟨raw, formSpan, countSpan, span, rfl, ?_⟩
              rw [projectValue, projectIntegerValue, countShape]
              rfl

theorem fourTimes_round_trips :
    ∃ source ast edited generated, parseCardCode source = .ok ast ∧
      setParamExpression (projectProgram ast.children defaultManifest) "card-1" "count"
        "4".toList = .ok (true, edited) ∧
      generateProgram (projectProgram ast.children defaultManifest) = .ok generated ∧
      generateProgram edited = .ok generated := by
  have number : (Expr.integer "4" default).Spelled := .integer (by decide) (by decide)
  have spelled : fourTimes.Spelled := by
    apply Expr.Spelled.list
    intro child member
    rcases List.mem_pair.mp member with rfl | rfl
    · exact .symbol (by decide) (by decide)
    · exact number
  have headed : fourTimes.Headed := .list (List.forall_mem_singleton.mpr .integer)
  rcases shown_parses spelled headed with ⟨ast, read, parsed, single, again⟩
  rcases fourTimes_read again with ⟨raw, formSpan, countSpan, span, rfl, value⟩
  rcases argument_round_trips (.integer "4" default) number .integer with
    ⟨text, emitted, -, -, commits⟩
  have four : text = "4".toList := by
    rw [projectValue] at emitted
    exact (Except.ok.inj emitted).symm
  have found : findCard (projectProgram ast.children defaultManifest) "card-1" =
      some (.body (baseCard "card-1" (cardById defaultManifest "control.repeat") span
        [("count", ⟨projectValue (.integer raw countSpan), countSpan⟩)]) []) := by
    rw [single]
    rfl
  have held : ∀ param,
      ("count", param) ∈ [("count", (⟨projectValue (.integer raw countSpan), countSpan⟩ : Param))] →
      param.value = projectValue (.integer "4" default) := by
    intro param member
    rw [(Prod.mk.inj (List.mem_singleton.mp member)).2]
    exact value
  rcases commits _ ast "card-1" "count" _ parsed found rfl held with
    ⟨edited, generated, facts⟩
  exact ⟨_, ast, edited, generated, parsed, four ▸ facts⟩

end CardCode.App
