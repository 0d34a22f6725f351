import CardCode.App.Rereading

/-! # Canonicalising twice

A statement is steady when its layout is found again in what is read off it. The
one thing that is not is a list in a value that is headed by a list and has more in
it: its head is lost, and the gap after it stays before the next item.
-/

namespace CardCode.App

/-! ## Values -/

mutual

/-- In no list of a value does anything follow a list that heads it. -/
def isSteadyValue : Expr → Bool
  | .integer _ _ => true
  | .symbol _ _ => true
  | .list [] _ => true
  | .list (.integer _ _ :: args) _ => areSteadyValues args
  | .list (.symbol _ _ :: args) _ => areSteadyValues args
  | .list (.list _ _ :: args) _ => args.isEmpty

def areSteadyValues : List Expr → Bool
  | [] => true
  | expr :: rest => isSteadyValue expr && areSteadyValues rest

end

theorem areSteadyValues_eq (exprs : List Expr) :
    areSteadyValues exprs = exprs.all isSteadyValue := by
  induction exprs with
  | nil => rw [areSteadyValues, List.all_nil]
  | cons expr rest induction => rw [areSteadyValues, List.all_cons, induction]

/-- An integer is written as it was written before. -/
theorem integerWord_again (raw : String) :
    integerWord (String.ofList (integerWord raw)) = integerWord raw := by
  rw [integerWord, String.toList_ofList]
  by_cases safe : -maxSafeInteger ≤ integerValue raw.toList ∧
      integerValue raw.toList ≤ maxSafeInteger
  · have word : integerWord raw = integerText (integerValue raw.toList) := if_pos safe
    rw [word, (integerText_word _).2.2]
    exact if_pos safe
  · have word : integerWord raw = raw.toList := if_neg safe
    rw [word]
    exact if_neg safe

/-- What is read off the layout of a value is laid out as the value was. -/
def ValueIff (expr : Expr) : Prop :=
  ∀ gap read, ReadsAs (valueLayout expr gap) read →
    ∀ other, valueLayout read other = valueLayout expr other ↔ isSteadyValue expr = true

theorem values_iff {exprs reads : List Expr} (each : ∀ expr ∈ exprs, ValueIff expr)
    (row : List.Forall₂ ReadsAs (valueLayouts exprs) reads) :
    valueLayouts reads = valueLayouts exprs ↔ exprs.all isSteadyValue = true := by
  rw [valueLayouts_eq, valueLayouts_eq]
  rw [valueLayouts_eq] at row
  apply rows_iff
  apply reads_each row
  intro expr member read reads
  exact each expr member _ read reads [' ']

theorem integer_iff {raw : String} {span : Span} (spelled : (Expr.integer raw span).Spelled) :
    ValueIff (.integer raw span) := by
  intro gap read reads other
  rcases reads.integer_eq spelled with ⟨readSpan, rfl⟩
  rw [valueLayout, integerWord_again, valueLayout]
  exact iff_of_true rfl rfl

theorem symbol_iff {raw : String} {span : Span} (spelled : (Expr.symbol raw span).Spelled) :
    ValueIff (.symbol raw span) := by
  intro gap read reads other
  rcases reads.symbol_eq spelled with ⟨readSpan, rfl⟩
  rw [valueLayout, valueLayout]
  exact iff_of_true rfl rfl

/-- An atom at the head of a value is read as an atom that is written alike. -/
theorem atom_headed_iff {head : Expr} {word : Text} {args : List Expr} {span : Span}
    (layouts : headLayouts head = [.word [] word])
    (again : ∀ readSpan, headLayouts (atomExpr word readSpan) = [.word [] word])
    (steady : isSteadyValue (.list (head :: args) span) = areSteadyValues args)
    (each : ∀ arg ∈ args, ValueIff arg) : ValueIff (.list (head :: args) span) := by
  intro gap read reads other
  rw [valueLayout, layouts] at reads
  rcases reads.group_eq with ⟨children, readSpan, rfl, row⟩
  cases row with
  | @cons _ readHead _ readArgs first rest =>
      rcases first.word_eq with ⟨headSpan, rfl⟩
      rw [valueLayout, valueLayout, layouts, again, Layout.group.injEq, List.append_cancel_left_eq,
        values_iff each rest, steady, areSteadyValues_eq]
      exact and_iff_right rfl

/-- Behind a list that heads a value stands a gap, which is gone when the value is
read again. -/
theorem list_headed_iff {inner args : List Expr} {headSpan span : Span} :
    ValueIff (.list (.list inner headSpan :: args) span) := by
  intro gap read reads other
  rw [valueLayout, headLayouts, List.nil_append] at reads
  rcases reads.group_eq with ⟨children, readSpan, rfl, row⟩
  cases args with
  | nil =>
      cases row with
      | nil => exact iff_of_true rfl rfl
  | cons first rest =>
      rw [valueLayouts_eq, List.map_cons] at row
      cases row with
      | @cons _ readFirst _ readRest _ tail =>
          refine iff_of_false ?_ (by simp [isSteadyValue])
          intro same
          have count := tail.length_eq
          rw [valueLayout, valueLayout, headLayouts, List.nil_append, Layout.group.injEq,
            valueLayouts_eq, valueLayouts_eq, List.map_cons] at same
          have atom {word : Text} (layouts : headLayouts readFirst = [.word [] word]) : False := by
            have gaps := congrArg Layout.gap (List.cons.inj (layouts ▸ same.2)).1
            rw [valueLayout_gap] at gaps
            cases gaps
          cases readFirst with
          | integer raw firstSpan => exact atom rfl
          | symbol raw firstSpan => exact atom rfl
          | list items firstSpan =>
              have lengths := congrArg List.length same.2
              rw [headLayouts, List.nil_append, List.length_map, List.length_cons,
                List.length_map] at lengths
              rw [List.length_map] at count
              omega

theorem value_iff (expr : Expr) : expr.Spelled → ValueIff expr := by
  induction expr using Expr.induct with
  | integer raw span => exact integer_iff
  | symbol raw span => exact symbol_iff
  | list children span induction =>
      intro spelled
      cases children with
      | nil =>
          intro gap read reads other
          rw [valueLayout] at reads
          rcases reads.group_eq with ⟨children, readSpan, rfl, row⟩
          cases row with
          | nil => exact iff_of_true rfl rfl
      | cons head args =>
          have each : ∀ arg ∈ args, ValueIff arg := fun arg member =>
            induction arg (List.mem_cons_of_mem _ member)
              (spelled.child arg (List.mem_cons_of_mem _ member))
          have headSpelled := spelled.child head List.mem_cons_self
          cases head with
          | integer raw headSpan =>
              refine atom_headed_iff rfl (fun readSpan => ?_) rfl each
              rw [atomExpr_integer headSpelled.word.1, headLayouts, String.toList_ofList]
          | symbol raw headSpan =>
              refine atom_headed_iff rfl (fun readSpan => ?_) rfl each
              rw [atomExpr_symbol headSpelled, headLayouts]
          | list inner headSpan => exact list_headed_iff

/-! ## Statements -/

/-- Of a binding whose name is written as an object's, only the value is left. -/
def isSteadyBinding : List Expr → Bool
  | [_, value] => isSteadyValue value
  | args => args.all isSteadyValue

def isSteadyFront : Expr → Bool
  | .list (.symbol form _ :: args) _ =>
      if form = "set!" then isSteadyBinding args
      else (args.take (leadingValues form args)).all isSteadyValue
  | .list children _ => children.tail.all isSteadyValue
  | .integer _ _ => true
  | .symbol _ _ => true

mutual

/-- The values in a statement and in the statements below it are steady. -/
def isSteady : Expr → Bool
  | .list (.symbol form headSpan :: args) span =>
      isSteadyFront (.list (.symbol form headSpan :: args) span) &&
        areSteady (leadingValues form args) args
  | .list children span => isSteadyFront (.list children span)
  | .integer raw span => isSteadyFront (.integer raw span)
  | .symbol raw span => isSteadyFront (.symbol raw span)

def areSteady : Nat → List Expr → Bool
  | _, [] => true
  | 0, expr :: rest => isSteady expr && areSteady 0 rest
  | skipped + 1, _ :: rest => areSteady skipped rest

end

theorem areSteady_eq (skipped : Nat) (exprs : List Expr) :
    areSteady skipped exprs = (exprs.drop skipped).all isSteady := by
  induction exprs generalizing skipped with
  | nil => rw [areSteady, List.drop_nil, List.all_nil]
  | cons expr rest induction =>
      cases skipped with
      | zero => rw [areSteady, induction, List.drop_zero, List.drop_zero, List.all_cons]
      | succ skipped => rw [areSteady, induction, List.drop_succ_cons]

theorem isSteady_eq (expr : Expr) :
    isSteady expr = (isSteadyFront expr && (statementArgs expr).all isSteady) := by
  have bare (steady : Bool) : steady = (steady && ([] : List Expr).all isSteady) := by
    rw [List.all_nil, Bool.and_true]
  cases expr with
  | integer raw span => exact bare _
  | symbol raw span => exact bare _
  | list children span =>
      cases children with
      | nil => exact bare _
      | cons head args =>
          cases head with
          | symbol form headSpan => rw [isSteady, areSteady_eq, statementArgs]
          | integer raw headSpan => exact bare _
          | list inner headSpan => exact bare _

/-- What is read off the layout of a statement is laid out as the statement was. -/
def StatementIff (expr : Expr) : Prop :=
  ∀ indent gap read, ReadsAs (statementLayout expr indent gap) read →
    ∀ other, statementLayout read indent other = statementLayout expr indent other ↔
      isSteady expr = true

/-- The statements in a statement are read as the statements of what is read, and the
first line decides about the rest. -/
theorem statement_iff_of {expr read : Expr} {indent : Nat} {lineReads : List Expr}
    (each : ∀ arg ∈ statementArgs expr, StatementIff arg)
    (row : List.Forall₂ ReadsAs (lines expr (indent + 1)) lineReads)
    (args : statementArgs read = lineReads)
    (front : frontLayouts read = frontLayouts expr ↔ isSteadyFront expr = true) (other : Text) :
    statementLayout read indent other = statementLayout expr indent other ↔
      isSteady expr = true := by
  rw [lines] at row
  have count := row.length_eq
  rw [List.length_map] at count
  have below : lines read (indent + 1) = lines expr (indent + 1) ↔
      (statementArgs expr).all isSteady = true := by
    rw [lines, lines, args]
    apply rows_iff
    apply reads_each row
    intro arg member lineRead reads
    exact each arg member _ _ _ reads _
  rw [statementLayout_eq, statementLayout_eq, Layout.group.injEq, isSteady_eq, Bool.and_eq_true,
    ← front, ← below]
  constructor
  · intro same
    apply List.append_inj' same.2
    rw [lines, lines, List.length_map, List.length_map, args, count]
  · intro same
    exact ⟨rfl, by rw [same.1, same.2]⟩

/-! ## First lines -/

/-- What is read off a value is a symbol only where the value is one. -/
theorem isSymbol_reads {expr read : Expr} {gap : Text} (spelled : expr.Spelled)
    (reads : ReadsAs (valueLayout expr gap) read) : isSymbol read = isSymbol expr := by
  cases expr with
  | integer raw span =>
      rcases reads.integer_eq spelled with ⟨readSpan, rfl⟩
      rfl
  | symbol raw span =>
      rcases reads.symbol_eq spelled with ⟨readSpan, rfl⟩
      rfl
  | list children span =>
      cases children with
      | nil =>
          rw [valueLayout] at reads
          rcases reads.group_eq with ⟨children, readSpan, rfl, -⟩
          rfl
      | cons head args =>
          rw [valueLayout] at reads
          rcases reads.group_eq with ⟨children, readSpan, rfl, -⟩
          rfl

theorem allSymbols_reads {exprs reads : List Expr} (spelled : ∀ expr ∈ exprs, expr.Spelled)
    (row : List.Forall₂ ReadsAs (valueLayouts exprs) reads) :
    reads.all isSymbol = exprs.all isSymbol := by
  induction exprs generalizing reads with
  | nil =>
      rw [valueLayouts] at row
      cases row with
      | nil => rfl
  | cons expr exprs induction =>
      rw [valueLayouts] at row
      cases row with
      | @cons _ read _ reads head tail =>
          rw [List.all_cons, List.all_cons, isSymbol_reads (spelled expr List.mem_cons_self) head,
            induction (fun other member => spelled other (List.mem_cons_of_mem _ member)) tail]

/-- A steady value is read as a signature only where it is one. -/
theorem isSignature_reads {target read : Expr} {gap : Text} (spelled : target.Spelled)
    (steady : isSteadyValue target = true) (reads : ReadsAs (valueLayout target gap) read) :
    isSignature read = isSignature target := by
  cases target with
  | integer raw span =>
      rcases reads.integer_eq spelled with ⟨readSpan, rfl⟩
      rfl
  | symbol raw span =>
      rcases reads.symbol_eq spelled with ⟨readSpan, rfl⟩
      rfl
  | list children span =>
      cases children with
      | nil =>
          rw [valueLayout] at reads
          rcases reads.group_eq with ⟨children, readSpan, rfl, row⟩
          cases row with
          | nil => rfl
      | cons head args =>
          have headSpelled := spelled.child head List.mem_cons_self
          rw [valueLayout] at reads
          rcases reads.group_eq with ⟨children, readSpan, rfl, row⟩
          cases head with
          | integer raw headSpan =>
              cases row with
              | cons first rest =>
                  rcases first.word_eq with ⟨firstSpan, rfl⟩
                  rw [atomExpr_integer headSpelled.word.1]
                  rfl
          | symbol raw headSpan =>
              cases row with
              | cons first rest =>
                  rcases first.symbol_eq headSpelled with ⟨firstSpan, rfl⟩
                  exact allSymbols_reads (fun arg member =>
                    spelled.child arg (List.mem_cons_of_mem _ member)) rest
          | list inner headSpan =>
              rw [isSteadyValue, List.isEmpty_iff] at steady
              rw [steady] at row
              cases row with
              | nil => rfl

/-! ## Forms -/

theorem values_iff_of_spelled {exprs reads : List Expr} (spelled : ∀ expr ∈ exprs, expr.Spelled)
    (row : List.Forall₂ ReadsAs (valueLayouts exprs) reads) :
    valueLayouts reads = valueLayouts exprs ↔ exprs.all isSteadyValue = true :=
  values_iff (fun expr member => value_iff expr (spelled expr member)) row

theorem valueReads_length {exprs reads : List Expr}
    (row : List.Forall₂ ReadsAs (valueLayouts exprs) reads) : reads.length = exprs.length := by
  rw [← row.length_eq, valueLayouts_eq, List.length_map]

theorem lineReads_length {expr : Expr} {indent : Nat} {reads : List Expr}
    (row : List.Forall₂ ReadsAs (lines expr indent) reads) :
    reads.length = (statementArgs expr).length := by
  rw [← row.length_eq, lines, List.length_map]

/-- A row in two parts of the lengths another one is cut into is cut alike. -/
theorem cut_alike {front back args : List Expr} {count : Nat}
    (fronts : front.length = (args.take count).length)
    (backs : back.length = (args.drop count).length) :
    (front ++ back).take count = front ∧ (front ++ back).drop count = back := by
  rw [List.length_take] at fronts
  rw [List.length_drop] at backs
  by_cases inside : count ≤ args.length
  · have length : front.length = count := by omega
    exact ⟨List.take_left' length, List.drop_left' length⟩
  · have none : back = [] := List.eq_nil_of_length_eq_zero (by omega)
    rw [none, List.append_nil]
    exact ⟨List.take_of_length_le (by omega), List.drop_of_length_le (by omega)⟩

/-- Only `define` looks at more of its arguments than how many there are. -/
theorem leadingValues_same {form : String} {args reads : List Expr} (notDefine : form ≠ "define")
    (count : reads.length = args.length) : leadingValues form reads = leadingValues form args := by
  rw [leadingValues, leadingValues, count]
  simp [notDefine]

section Forms

variable {form : String} {headSpan span : Span} {args : List Expr}

/-- A form that projection cuts into values and statements where it did before. -/
theorem form_iff (spelled : ∀ arg ∈ args, arg.Spelled) (notSet : form ≠ "set!")
    (each : ∀ arg ∈ statementArgs (.list (.symbol form headSpan :: args) span), StatementIff arg)
    {indent : Nat} {readHead readSpan : Span} {values lineReads : List Expr}
    (valueRow : List.Forall₂ ReadsAs (valueLayouts (args.take (leadingValues form args))) values)
    (lineRow : List.Forall₂ ReadsAs
      (lines (.list (.symbol form headSpan :: args) span) (indent + 1)) lineReads)
    (same : leadingValues form (values ++ lineReads) = leadingValues form args) (other : Text) :
    statementLayout (.list (.symbol form readHead :: (values ++ lineReads)) readSpan) indent other =
        statementLayout (.list (.symbol form headSpan :: args) span) indent other ↔
      isSteady (.list (.symbol form headSpan :: args) span) = true := by
  have backs := lineReads_length lineRow
  rw [statementArgs] at backs
  rcases cut_alike (valueReads_length valueRow) backs with ⟨front, back⟩
  apply statement_iff_of each lineRow
  · rw [statementArgs, same, back]
  · rw [frontLayouts, frontLayouts, if_neg notSet, if_neg notSet, same, front, isSteadyFront,
      if_neg notSet, List.cons.injEq,
      values_iff_of_spelled (fun arg member => spelled arg (List.mem_of_mem_take member)) valueRow]
    exact and_iff_right rfl

/-- What is read off the layout of a form. -/
theorem form_reads (spelled : (Expr.list (.symbol form headSpan :: args) span).Spelled)
    (notSet : form ≠ "set!") {indent : Nat} {gap : Text} {read : Expr}
    (reads : ReadsAs (statementLayout (.list (.symbol form headSpan :: args) span) indent gap)
      read) :
    ∃ readHead readSpan values lineReads,
      read = .list (.symbol form readHead :: (values ++ lineReads)) readSpan ∧
      List.Forall₂ ReadsAs (valueLayouts (args.take (leadingValues form args))) values ∧
      List.Forall₂ ReadsAs (lines (.list (.symbol form headSpan :: args) span) (indent + 1))
        lineReads := by
  rw [statementLayout_eq, frontLayouts, if_neg notSet] at reads
  rcases reads.group_eq with ⟨children, readSpan, rfl, row⟩
  cases row with
  | cons first rest =>
      rcases first.symbol_eq (spelled.child _ List.mem_cons_self) with ⟨readHead, rfl⟩
      rcases reads_append rest with ⟨values, lineReads, rfl, valueRow, lineRow⟩
      exact ⟨readHead, readSpan, values, lineReads, rfl, valueRow, lineRow⟩

theorem form_statement_iff (spelled : (Expr.list (.symbol form headSpan :: args) span).Spelled)
    (notSet : form ≠ "set!") (notDefine : form ≠ "define")
    (each : ∀ arg ∈ statementArgs (.list (.symbol form headSpan :: args) span), StatementIff arg) :
    StatementIff (.list (.symbol form headSpan :: args) span) := by
  intro indent gap read reads other
  rcases form_reads spelled notSet reads with
    ⟨readHead, readSpan, values, lineReads, rfl, valueRow, lineRow⟩
  apply form_iff (fun arg member => spelled.child arg (List.mem_cons_of_mem _ member)) notSet each
    valueRow lineRow
  apply leadingValues_same notDefine
  have fronts := valueReads_length valueRow
  have backs := lineReads_length lineRow
  rw [List.length_take] at fronts
  rw [statementArgs, List.length_drop] at backs
  rw [List.length_append]
  omega

/-- The target of a definition is a value on its first line. -/
theorem define_leading {target : Expr} {body : List Expr} :
    ∃ count, leadingValues "define" (target :: body) = count + 1 := by
  rw [leadingValues]
  simp only [String.reduceEq, if_false, false_and, true_and, or_self, List.length_cons]
  split
  · exact ⟨0, rfl⟩
  · exact ⟨_, rfl⟩

theorem define_statement_iff
    (spelled : (Expr.list (.symbol "define" headSpan :: args) span).Spelled)
    (each : ∀ arg ∈ statementArgs (.list (.symbol "define" headSpan :: args) span),
      StatementIff arg) :
    StatementIff (.list (.symbol "define" headSpan :: args) span) := by
  intro indent gap read reads other
  have argsSpelled : ∀ arg ∈ args, arg.Spelled := fun arg member =>
    spelled.child arg (List.mem_cons_of_mem _ member)
  rcases form_reads spelled (by decide) reads with
    ⟨readHead, readSpan, values, lineReads, rfl, valueRow, lineRow⟩
  have fronts := valueReads_length valueRow
  have backs := lineReads_length lineRow
  rw [List.length_take] at fronts
  rw [statementArgs, List.length_drop] at backs
  cases args with
  | nil =>
      have none : values ++ lineReads = [] := List.eq_nil_of_length_eq_zero (by
        rw [List.length_append, fronts, backs]
        simp)
      apply form_iff argsSpelled (by decide) each valueRow lineRow
      rw [none]
  | cons target body =>
      rcases @define_leading target body with ⟨count, leading⟩
      rw [leading, List.take_succ_cons, valueLayouts] at valueRow
      cases valueRow with
      | @cons _ readTarget _ values first rest =>
          have targetSpelled := argsSpelled target List.mem_cons_self
          by_cases steady : isSteadyValue target = true
          · apply form_iff argsSpelled (by decide) each (by
              rw [leading, List.take_succ_cons, valueLayouts]
              exact .cons first rest) lineRow
            have lengths : (values ++ lineReads).length = body.length := by
              rw [List.length_cons, List.length_cons] at fronts
              rw [List.length_cons] at backs
              rw [List.length_append]
              omega
            have signature := isSignature_reads targetSpelled steady first
            have functions : definesFunction (readTarget :: (values ++ lineReads)) =
                definesFunction (target :: body) := by
              cases body with
              | nil =>
                  rw [List.eq_nil_of_length_eq_zero lengths]
                  rfl
              | cons statement body =>
                  cases rows : values ++ lineReads with
                  | nil =>
                      rw [rows] at lengths
                      cases lengths
                  | cons => exact signature
            rw [List.cons_append, leadingValues, leadingValues, functions, List.length_cons,
              lengths, List.length_cons]
          · -- The target is on the first line of what is read as well, and laid out otherwise.
            rcases @define_leading readTarget (values ++ lineReads) with ⟨readCount, readLeading⟩
            rw [List.cons_append]
            refine iff_of_false ?_ ?_
            · intro same
              rw [statementLayout_eq, statementLayout_eq, frontLayouts, frontLayouts,
                if_neg (by decide), if_neg (by decide), readLeading, leading,
                List.take_succ_cons, List.take_succ_cons, valueLayouts, valueLayouts,
                Layout.group.injEq] at same
              have targets := (List.cons.inj (List.cons.inj same.2).2).1
              exact steady ((value_iff target targetSpelled _ _ first [' ']).mp targets)
            · rw [isSteady_eq, isSteadyFront, if_neg (by decide), leading, List.take_succ_cons,
                List.all_cons]
              simp [steady]

end Forms

/-! ## Bindings -/

/-- A name that is one word is read as it was written. -/
theorem name_reads {name read : Expr} {word : Text} (spelled : name.Spelled)
    (layouts : nameLayouts name = [.word [' '] word]) (reads : ReadsAs (.word [' '] word) read) :
    nameLayouts read = nameLayouts name := by
  rcases reads.word_eq with ⟨span, rfl⟩
  cases name with
  | integer raw nameSpan =>
      have same : integerWord raw = word := by
        rw [nameLayouts] at layouts
        cases layouts
        rfl
      rw [← same, atomExpr_integer (integerWord_isInteger spelled.word.1), nameLayouts,
        integerWord_again, nameLayouts]
  | list children nameSpan => cases layouts
  | symbol raw nameSpan =>
      rw [nameLayouts] at layouts
      split at layouts
      next literal =>
        cases layouts
        rw [atomExpr_symbol spelled, nameLayouts, nameLayouts]
      next => cases layouts

theorem nameLayouts_cases (name : Expr) :
    (∃ word, nameLayouts name = [.word [' '] word]) ∨ nameLayouts name = objectLayouts := by
  cases name with
  | integer raw span => exact .inl ⟨_, rfl⟩
  | list children span => exact .inr rfl
  | symbol raw span =>
      rw [nameLayouts]
      split
      · exact .inl ⟨_, rfl⟩
      · exact .inr rfl

/-- An object's name is read as two symbols. -/
theorem object_symbols (span : Span) :
    (Expr.symbol "[object" span).Spelled ∧ (Expr.symbol "Object]" span).Spelled :=
  ⟨.symbol (by decide) (by decide), .symbol (by decide) (by decide)⟩

theorem binding_iff {args reads : List Expr} (spelled : ∀ arg ∈ args, arg.Spelled)
    (row : List.Forall₂ ReadsAs (bindingLayouts args) reads) :
    bindingLayouts reads = bindingLayouts args ↔ isSteadyBinding args = true := by
  by_cases pair : ∃ name value, args = [name, value]
  · rcases pair with ⟨name, value, rfl⟩
    rw [bindingLayouts] at row
    rcases reads_append row with ⟨names, values, rfl, nameRow, valueRow⟩
    have valueSpelled : ∀ expr ∈ [value], expr.Spelled := fun expr member =>
      spelled expr (List.mem_cons_of_mem _ member)
    have valueIff := values_iff_of_spelled valueSpelled valueRow
    rw [List.all_cons, List.all_nil, Bool.and_true] at valueIff
    rcases List.length_eq_one_iff.mp (valueReads_length valueRow) with ⟨readValue, rfl⟩
    rcases nameLayouts_cases name with ⟨word, single⟩ | object
    · rw [single] at nameRow
      cases nameRow with
      | cons first rest =>
          cases rest with
          | nil =>
              rw [List.singleton_append, bindingLayouts, bindingLayouts,
                name_reads (spelled name List.mem_cons_self) single first,
                List.append_cancel_left_eq, valueIff, isSteadyBinding]
    · rw [object, objectLayouts] at nameRow
      cases nameRow with
      | cons first rest =>
          cases rest with
          | cons second rest =>
              cases rest with
              | nil =>
                  rcases first.symbol_eq (object_symbols default).1 with ⟨firstSpan, rfl⟩
                  rcases second.symbol_eq (object_symbols default).2 with ⟨secondSpan, rfl⟩
                  have again : bindingLayouts [.symbol "[object" firstSpan,
                      .symbol "Object]" secondSpan, readValue] =
                        objectLayouts ++ valueLayouts [readValue] := by
                    rw [bindingLayouts]
                    · rw [valueLayouts, valueLayouts, valueLayout, valueLayout, objectLayouts]
                      rfl
                    · intro name value same
                      cases same
                  rw [List.cons_append, List.singleton_append, again, bindingLayouts, object,
                    List.append_cancel_left_eq, valueIff, isSteadyBinding]
  · have plain : bindingLayouts args = valueLayouts args := by
      rw [bindingLayouts]
      exact fun name value same => pair ⟨name, value, same⟩
    rw [plain] at row
    have again : bindingLayouts reads = valueLayouts reads := by
      rw [bindingLayouts]
      intro name value same
      have count := valueReads_length row
      rw [same] at count
      exact pair (List.length_eq_two.mp count.symm)
    have steady : isSteadyBinding args = args.all isSteadyValue := by
      rw [isSteadyBinding]
      exact fun name value same => pair ⟨name, value, same⟩
    rw [again, plain, values_iff_of_spelled spelled row, steady]

theorem set_statement_iff {headSpan span : Span} {args : List Expr}
    (spelled : (Expr.list (.symbol "set!" headSpan :: args) span).Spelled) :
    StatementIff (.list (.symbol "set!" headSpan :: args) span) := by
  have argsSpelled : ∀ arg ∈ args, arg.Spelled := fun arg member =>
    spelled.child arg (List.mem_cons_of_mem _ member)
  have none (others : List Expr) (otherHead otherSpan : Span) :
      statementArgs (.list (.symbol "set!" otherHead :: others) otherSpan) = [] :=
    statementArgs_values (leadingValues_other (by decide))
  intro indent gap read reads other
  rw [statementLayout_eq, lines, none, List.map_nil, List.append_nil, frontLayouts,
    if_pos rfl] at reads
  rcases reads.group_eq with ⟨children, readSpan, rfl, row⟩
  cases row with
  | @cons _ readHead _ readArgs first rest =>
      rcases first.symbol_eq (spelled.child _ List.mem_cons_self) with ⟨readHead, rfl⟩
      refine @statement_iff_of _ _ _ [] ?_ ?_ (none _ _ _) ?_ other
      · rw [none]
        exact List.forall_mem_nil _
      · rw [lines, none]
        exact .nil
      · rw [frontLayouts, frontLayouts, if_pos rfl, if_pos rfl, List.cons.injEq,
          binding_iff argsSpelled rest, isSteadyFront, if_pos rfl]
        exact and_iff_right rfl

/-! ## Other statements -/

/-- A statement that is no form is written as a form of its values. -/
theorem wrapped_iff {expr : Expr} {exprs : List Expr} (spelled : ∀ expr ∈ exprs, expr.Spelled)
    (front : frontLayouts expr = .word [] "expr".toList :: valueLayouts exprs)
    (none : statementArgs expr = [])
    (steady : isSteadyFront expr = exprs.all isSteadyValue) : StatementIff expr := by
  have symbol (span : Span) : (Expr.symbol "expr" span).Spelled :=
    .symbol (by decide) (by decide)
  intro indent gap read reads other
  rw [statementLayout_eq, lines, none, List.map_nil, List.append_nil, front] at reads
  rcases reads.group_eq with ⟨children, readSpan, rfl, row⟩
  cases row with
  | @cons _ readHead _ readArgs first rest =>
      rcases first.symbol_eq (symbol default) with ⟨readHead, rfl⟩
      have all : leadingValues "expr" readArgs = readArgs.length :=
        leadingValues_other (by decide)
      refine @statement_iff_of _ _ _ [] ?_ ?_ (statementArgs_values all) ?_ other
      · rw [none]
        exact List.forall_mem_nil _
      · rw [lines, none]
        exact .nil
      · rw [frontLayouts_values all (by decide), genericLayouts, front, List.cons.injEq,
          values_iff_of_spelled spelled rest, steady]
        exact and_iff_right rfl

theorem statement_iff (expr : Expr) : expr.Spelled → StatementIff expr := by
  induction expr using statement_induct with
  | step expr induction =>
      intro spelled
      have each : ∀ arg ∈ statementArgs expr, StatementIff arg := fun arg member =>
        induction arg member (spelled.arg member)
      cases expr with
      | integer raw span =>
          have only : ∀ expr ∈ [Expr.integer raw span], expr.Spelled :=
            List.forall_mem_singleton.mpr spelled
          exact wrapped_iff only rfl rfl rfl
      | symbol raw span =>
          have only : ∀ expr ∈ [Expr.symbol raw span], expr.Spelled :=
            List.forall_mem_singleton.mpr spelled
          exact wrapped_iff only rfl rfl rfl
      | list children span =>
          cases children with
          | nil => exact wrapped_iff (List.forall_mem_nil _) rfl rfl rfl
          | cons head args =>
              have argsSpelled : ∀ arg ∈ args, arg.Spelled := fun arg member =>
                spelled.child arg (List.mem_cons_of_mem _ member)
              cases head with
              | integer raw headSpan => exact wrapped_iff argsSpelled rfl rfl rfl
              | list inner headSpan => exact wrapped_iff argsSpelled rfl rfl rfl
              | symbol form headSpan =>
                  by_cases assignment : form = "set!"
                  · rw [assignment] at spelled ⊢
                    exact set_statement_iff spelled
                  by_cases definition : form = "define"
                  · rw [definition] at spelled each ⊢
                    exact define_statement_iff spelled each
                  exact form_statement_iff spelled assignment definition each

/-! ## Programs -/

/-- The program read off a program's layout is laid out alike where each of its
statements is steady. -/
theorem program_iff {exprs reads : List Expr} (spelled : ∀ expr ∈ exprs, expr.Spelled)
    (row : List.Forall₂ ReadsAs (programLayouts exprs) reads) :
    programLayouts reads = programLayouts exprs ↔ exprs.all isSteady = true := by
  cases exprs with
  | nil =>
      cases row with
      | nil => exact iff_of_true rfl rfl
  | cons first rest =>
      rw [programLayouts] at row
      cases row with
      | @cons _ read _ reads head tail =>
          have others : reads.map (fun expr => statementLayout expr 0 ['\n']) =
              rest.map (fun expr => statementLayout expr 0 ['\n']) ↔
                rest.all isSteady = true := by
            apply rows_iff
            apply reads_each tail
            intro expr member read reads
            exact statement_iff expr (spelled expr (List.mem_cons_of_mem _ member)) _ _ _ reads _
          rw [programLayouts, programLayouts, List.cons.injEq, others, List.all_cons,
            Bool.and_eq_true, statement_iff first (spelled first List.mem_cons_self) _ _ _ head]

end CardCode.App
