import CardCode.App.Rereading

/-! # Values that are read back

What is read off the layout of a value in which every list is headed by a symbol is the
value again: the same expression, but for its spans and the digits of its integers.
-/

namespace CardCode.App

namespace CardValue

mutual

/-- A value without the places it was read from. -/
def bare : CardValue → CardValue
  | .var name _ => .var name default
  | .call form args _ => .call form (bareAll args) default
  | .null => .null
  | .number value => .number value
  | .boolean value => .boolean value
  | .text raw => .text raw
  | .names all => .names all

def bareAll : List CardValue → List CardValue
  | [] => []
  | value :: rest => value.bare :: bareAll rest

end

theorem bareAll_eq (values : List CardValue) : bareAll values = values.map bare := by
  induction values with
  | nil => rw [bareAll, List.map_nil]
  | cons value rest induction => rw [bareAll, List.map_cons, induction]

/-- A property of a value that a call inherits from its arguments. -/
theorem induct {Property : CardValue → Prop}
    (call : ∀ form args span, (∀ arg ∈ args, Property arg) → Property (.call form args span))
    (null : Property .null) (number : ∀ value, Property (.number value))
    (boolean : ∀ value, Property (.boolean value)) (text : ∀ raw, Property (.text raw))
    (names : ∀ names, Property (.names names)) (var : ∀ name span, Property (.var name span)) :
    ∀ value, Property value := by
  intro value
  refine @CardValue.rec Property (fun values => ∀ value ∈ values, Property value) null number
    boolean text names var call (by simp) ?_ value
  intro head tail headHolds tailHold value member
  rcases List.mem_cons.mp member with equal | member
  · exact equal ▸ headHolds
  · exact tailHold value member

end CardValue

/-- In every list a symbol comes first. -/
inductive Expr.Headed : Expr → Prop
  | integer {raw span} : Headed (.integer raw span)
  | symbol {raw span} : Headed (.symbol raw span)
  | list {raw headSpan args span} :
      (∀ arg ∈ args, Headed arg) → Headed (.list (.symbol raw headSpan :: args) span)

/-- The expressions that the engine accepts are headed. -/
theorem headed_of_regular (expr : Expr) : Regular expr.shape → expr.Headed := by
  induction expr using Expr.induct with
  | integer raw span => exact fun _ => .integer
  | symbol raw span => exact fun _ => .symbol
  | list children span induction =>
      intro regular
      rcases regular_list regular with ⟨name, headSpan, args, rfl, each, -⟩
      exact .list fun arg member =>
        induction arg (List.mem_cons_of_mem _ member) (each arg member)

/-- The same expression and the same value, up to spans and the digits of an integer. -/
structure IsAgain (expr read : Expr) : Prop where
  shape : read.shape = expr.shape
  value : (projectValue read).bare = (projectValue expr).bare

theorem integerWord_value (raw : String) :
    integerValue (integerWord raw) = integerValue raw.toList := by
  rw [integerWord]
  split
  · exact (integerText_word _).2.2
  · rfl

theorem projectIntegerValue_again (raw : String) :
    projectIntegerValue (String.ofList (integerWord raw)) = projectIntegerValue raw := by
  rw [projectIntegerValue, projectIntegerValue, String.toList_ofList, integerWord_value]
  split_ifs with safe
  · rfl
  · rw [integerWord, if_neg safe, String.ofList_toList]

theorem integer_isAgain {raw : String} {span readSpan : Span} :
    IsAgain (.integer raw span) (.integer (String.ofList (integerWord raw)) readSpan) := by
  constructor
  · rw [shape_integer, shape_integer, String.toList_ofList, integerWord_value]
  · rw [projectValue, projectValue, projectIntegerValue_again]

theorem symbol_isAgain {raw : String} {span readSpan : Span} :
    IsAgain (.symbol raw span) (.symbol raw readSpan) := by
  constructor
  · rw [shape_symbol, shape_symbol]
  · rw [projectValue, projectValue, projectSymbolValue, projectSymbolValue]
    split_ifs <;> rfl

theorem rows_again {exprs reads : List Expr} (each : List.Forall₂ IsAgain exprs reads) :
    reads.map Expr.shape = exprs.map Expr.shape ∧
      (reads.map projectValue).map CardValue.bare =
        (exprs.map projectValue).map CardValue.bare := by
  induction each with
  | nil => exact ⟨rfl, rfl⟩
  | cons again _ induction =>
      simp only [List.map_cons, again.shape, again.value, induction.1, induction.2, and_self]

theorem list_isAgain {raw : String} {headSpan readHeadSpan span readSpan : Span}
    {args reads : List Expr} (each : List.Forall₂ IsAgain args reads) :
    IsAgain (.list (.symbol raw headSpan :: args) span)
      (.list (.symbol raw readHeadSpan :: reads) readSpan) := by
  rcases rows_again each with ⟨shapes, values⟩
  constructor
  · rw [shape_list, shape_list, List.map_cons, List.map_cons, shapes]
    rfl
  · rw [projectValue, projectValue, CardValue.bare, CardValue.bare, projectValues_eq,
      projectValues_eq, CardValue.bareAll_eq, CardValue.bareAll_eq, values]
    rfl

/-- What is read off the layout of a headed value is the value again. -/
theorem value_isAgain (expr : Expr) : expr.Spelled → expr.Headed → ∀ gap read,
    ReadsAs (valueLayout expr gap) read → IsAgain expr read := by
  induction expr using Expr.induct with
  | integer raw span =>
      intro spelled _ gap read reads
      rcases reads.integer_eq spelled with ⟨readSpan, rfl⟩
      exact integer_isAgain
  | symbol raw span =>
      intro spelled _ gap read reads
      rcases reads.symbol_eq spelled with ⟨readSpan, rfl⟩
      exact symbol_isAgain
  | list children span induction =>
      intro spelled headed gap read reads
      cases headed with
      | @list raw headSpan args _ each =>
          rw [valueLayout, headLayouts, List.singleton_append] at reads
          rcases reads.group_eq with ⟨children, readSpan, rfl, row⟩
          cases row with
          | @cons _ readHead _ readArgs first rest =>
              rcases first.symbol_eq (spelled.child _ List.mem_cons_self) with
                ⟨readHeadSpan, rfl⟩
              rw [valueLayouts_eq] at rest
              apply list_isAgain
              apply reads_each rest
              intro arg member
              exact induction arg (List.mem_cons_of_mem _ member)
                (spelled.child arg (List.mem_cons_of_mem _ member)) (each arg member) _

end CardCode.App
