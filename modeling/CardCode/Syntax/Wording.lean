import CardCode.Foundation.Utf8
import CardCode.Syntax.Trees

/-! # What the front end says

A name holds ASCII characters only, and the messages of the lexer and the parser are
ASCII but for one: the lexer quotes the byte it does not know, and a byte of a longer
character is no text by itself.
-/

namespace CardCode

/-! ## Texts -/

def InAscii (text : String) : Prop :=
  ∀ c ∈ text.toList, c.toNat < 128

instance (text : String) : Decidable (InAscii text) :=
  List.decidableBAll (fun c : Char => c.toNat < 128) text.toList

theorem forall_mem_none {α : Type} {Holds : α → Prop} : ∀ value ∈ (none : Option α), Holds value :=
  fun value member => absurd member (Option.not_mem_none value)

theorem InAscii.append {first second : String} (left : InAscii first) (right : InAscii second) :
    InAscii (first ++ second) := by
  intro c member
  rw [String.toList_append] at member
  rcases List.mem_append.mp member with member | member
  · exact left c member
  · exact right c member

theorem inAscii_toString (number : Nat) : InAscii (toString number) := by
  intro c member
  have digits : (toString number).toList = Nat.toDigits 10 number := by
    change (String.ofList (Nat.toDigits 10 number)).toList = _
    rw [String.toList_ofList]
  rw [digits] at member
  have digit : c.isDigit = true := Nat.isDigit_of_mem_toDigits (by decide) (by decide) member
  have range : 48 ≤ c.toNat ∧ c.toNat ≤ 57 := by
    simpa [Char.isDigit, UInt32.le_iff_toNat_le] using digit
  omega

theorem bytes_append (first second : String) :
    bytes (first ++ second) = bytes first ++ bytes second := by
  rw [bytes, String.toList_append, List.map_append]
  rfl

/-- The bytes of a text of the engine are UTF-8. -/
def Encoded (text : String) : Prop :=
  ValidUtf8 (bytes text)

theorem InAscii.bytes {text : String} (ascii : InAscii text) :
    ∀ byte ∈ bytes text, byte < 0x80 := by
  intro byte member
  rcases List.mem_map.mp member with ⟨c, inside, rfl⟩
  have small := ascii c inside
  rw [UInt8.lt_iff_toNat_lt, Char.toUInt8, UInt32.toNat_toUInt8]
  change c.toNat % 256 < 128
  omega

theorem InAscii.encoded {text : String} (ascii : InAscii text) : Encoded text :=
  .of_ascii ascii.bytes

/-! ## The lexer -/

/-- Outside of comments the text holds ASCII characters only. -/
def quiet : Bool → List Char → Bool
  | _, [] => true
  | commented, c :: rest =>
      (commented || c.toNat < 128) && quiet (c ≠ '\n' && (commented || c = ';')) rest

theorem quiet_ascii {c : Char} (ascii : c.toNat < 128) (plain : c ≠ ';') (rest : List Char) :
    quiet false (c :: rest) = quiet false rest := by
  simp [quiet, ascii, plain]

theorem quiet_word {word : List Char} (letters : ∀ c ∈ word, isSymbolChar c = true)
    (rest : List Char) : quiet false (word ++ rest) = quiet false rest := by
  induction word with
  | nil => rfl
  | cons c word induction =>
      have code := symbolChar_code (letters c List.mem_cons_self)
      have plain : c ≠ ';' := by
        intro equal
        rw [equal] at code
        exact absurd rfl code.2.2.2.2
      rw [List.cons_append, quiet_ascii (by omega) plain,
        induction fun other member => letters other (List.mem_cons_of_mem c member)]

theorem quiet_comment {body rest : List Char} (inside : '\n' ∉ body)
    (ends : Alphabet.EndsLine rest) : quiet true (body ++ rest) = quiet false rest := by
  induction body with
  | nil =>
      cases rest with
      | nil => rfl
      | cons c rest =>
          have newline : c = '\n' := ends c rfl
          rw [newline]
          rfl
  | cons c body induction =>
      have plain : c ≠ '\n' := fun equal => inside (by rw [equal]; exact List.mem_cons_self)
      rw [List.cons_append, quiet]
      simp only [plain, Bool.true_or, ne_eq, not_false_eq_true, decide_true, Bool.true_and]
      exact induction fun member => inside (List.mem_cons_of_mem c member)

/-- What the lexer says about a character it does not know is text exactly where the
character is in ASCII. -/
theorem encoded_unexpected {c : Char} (byte : c.toNat < 256) :
    Encoded ("unexpected character '" ++ String.singleton c ++ "'") ↔ c.toNat < 128 := by
  have code : c.toUInt8.toNat = c.toNat := by
    rw [Char.toUInt8, UInt32.toNat_toUInt8]
    change c.toNat % 256 = c.toNat
    omega
  constructor
  · intro valid
    by_contra wide
    rw [Encoded, bytes_append, bytes_append] at valid
    have single : bytes (String.singleton c) = [c.toUInt8] := by
      rw [bytes, String.toList_singleton]
      rfl
    have mark : bytes "'" = [39] := by decide
    rw [single, mark, List.append_assoc, List.singleton_append] at valid
    have opening : bytes "unexpected character '" = bytes "unexpected character " ++ [39] := by
      decide
    rw [opening, List.append_assoc, List.singleton_append,
      ValidUtf8.append_cons_iff (by decide)] at valid
    have quoted : ValidUtf8 ([c.toUInt8] ++ [39]) := valid.2
    rw [ValidUtf8.append_cons_iff (by decide)] at quoted
    exact ValidUtf8.not_singleton (by rw [UInt8.le_iff_toNat_le, code]; exact Nat.le_of_not_lt wide)
      quoted.1
  · intro ascii
    apply InAscii.encoded
    apply InAscii.append (InAscii.append (by decide) _) (by decide)
    intro other member
    rw [String.toList_singleton, List.mem_singleton] at member
    rw [member]
    exact ascii

theorem wordToken_wording {span : SourceSpan} {word : List Char}
    (letters : ∀ c ∈ word, isSymbolChar c = true) :
    InAscii (wordToken span word).1.text ∧
      ∀ diagnostic ∈ (wordToken span word).2, InAscii diagnostic.message := by
  have text : InAscii (String.ofList word) := by
    intro c member
    rw [String.toList_ofList] at member
    exact ascii_of_symbolChar (letters c member)
  rw [wordToken]
  split
  · split
    · exact ⟨text, List.forall_mem_nil _⟩
    · refine ⟨text, List.forall_mem_singleton.mpr ?_⟩
      exact InAscii.append (by decide) text
  · split
    · refine ⟨text, List.forall_mem_singleton.mpr ?_⟩
      exact InAscii.append (InAscii.append (by decide) text) (by decide)
    · exact ⟨text, List.forall_mem_nil _⟩

/-- The tokens' texts are ASCII, and the messages are text exactly where nothing
beyond ASCII stands outside of a comment. -/
structure LexResult.Worded (result : LexResult) (text : List Char) : Prop where
  tokens : ∀ token ∈ result.tokens, InAscii token.text
  diagnostics : (∀ diagnostic ∈ result.diagnostics, Encoded diagnostic.message) ↔
    quiet false text = true

theorem LexResult.Worded.prepend {result : LexResult} {text rest : List Char}
    {tokens : List Token} {diagnostics : List Diagnostic} (worded : result.Worded rest)
    (tokenTexts : ∀ token ∈ tokens, InAscii token.text)
    (messages : ((∀ diagnostic ∈ diagnostics, Encoded diagnostic.message) ∧
      quiet false rest = true) ↔ quiet false text = true) :
    (result.prepend tokens diagnostics).Worded text := by
  constructor
  · exact List.forall_mem_append.mpr ⟨tokenTexts, worded.tokens⟩
  · rw [← messages, ← worded.diagnostics]
    exact List.forall_mem_append

theorem worded_end (span : SourceSpan) : LexResult.Worded ⟨[⟨.end, span, "", 0⟩], []⟩ [] := by
  refine ⟨?_, ⟨fun _ => rfl, fun _ => nofun⟩⟩
  intro token member
  rw [List.mem_singleton.mp member]
  exact (by decide : InAscii "")

theorem Lexes.worded {before text : List Char} {result : LexResult}
    (lexes : Lexes before text result) : (∀ c ∈ text, c.toNat < 256) → result.Worded text := by
  induction lexes with
  | done => exact fun _ => worded_end _
  | @blank _ c rest _ blank _ induction =>
      intro code
      have worded := induction fun other member => code other (List.mem_cons_of_mem c member)
      have skipped : quiet false (c :: rest) = quiet false rest := by
        simp only [isBlank, Bool.or_eq_true, decide_eq_true_eq] at blank
        rcases blank with ((rfl | rfl) | rfl) | rfl <;> rfl
      exact ⟨worded.tokens, by rw [skipped]; exact worded.diagnostics⟩
  | @comment _ body rest _ inside ends _ induction =>
      intro code
      have worded := induction fun other member => code other (List.mem_append_right _ member)
      have skipped : quiet false (';' :: body ++ rest) = quiet false rest :=
        quiet_comment inside ends
      exact ⟨worded.tokens, by rw [skipped]; exact worded.diagnostics⟩
  | @bracket _ c rest _ bracket _ induction =>
      intro code
      apply (induction fun other member => code other (List.mem_cons_of_mem c member)).prepend
      · intro token member
        have ascii : InAscii (String.singleton c) := by
          rcases bracket with rfl | rfl <;> decide
        rw [List.mem_singleton.mp member]
        exact ascii
      · have skipped : quiet false (c :: rest) = quiet false rest := by
          rcases bracket with rfl | rfl <;> rfl
        rw [skipped]
        exact ⟨And.right, fun rest => ⟨List.forall_mem_nil _, rest⟩⟩
  | @word before word _ _ _ letters _ _ induction =>
      intro code
      have wording := @wordToken_wording (spanAround before word) word letters
      apply (induction fun other member => code other (List.mem_append_right _ member)).prepend
        (List.forall_mem_singleton.mpr wording.1)
      rw [quiet_word letters]
      exact ⟨And.right, fun rest => ⟨fun diagnostic member =>
        (wording.2 diagnostic member).encoded, rest⟩⟩
  | @unknown _ c _ _ _ notMark _ _ induction =>
      intro code
      have single := encoded_unexpected (code c List.mem_cons_self)
      have plain : c ≠ ';' := by
        intro equal
        rw [equal] at notMark
        cases notMark
      apply (induction fun other member => code other (List.mem_cons_of_mem c member)).prepend
      · exact List.forall_mem_nil _
      constructor
      · intro both
        have unexpected := both.1 _ List.mem_cons_self
        have ascii := single.mp unexpected
        rw [quiet_ascii ascii plain]
        exact both.2
      · intro calm
        have ascii : c.toNat < 128 := by
          rw [quiet, Bool.and_eq_true, Bool.false_or, decide_eq_true_eq] at calm
          exact calm.1
        rw [quiet_ascii ascii plain] at calm
        exact ⟨List.forall_mem_singleton.mpr (single.mpr ascii), calm⟩

theorem lex_worded {source : Bytes} {result : LexResult} (found : lex source = some result) :
    result.Worded (source.map Char.ofUInt8) := by
  apply (lex_lexes found).worded
  intro c member
  rcases List.mem_map.mp member with ⟨byte, -, rfl⟩
  exact byte.toNat_lt

/-! ## The parser -/

inductive RawExpr.NamesInAscii : RawExpr → Prop
  | list {span items} : (∀ item ∈ items, NamesInAscii item) → NamesInAscii (.list span items)
  | symbol {span name} : InAscii name → NamesInAscii (.symbol span name)
  | integer {span value} : NamesInAscii (.integer span value)

/-- What the parser leaves holds ASCII texts only. -/
structure Parsed.Worded (parsed : Parsed) : Prop where
  expr : ∀ expr ∈ parsed.expr, expr.NamesInAscii
  rest : ∀ token ∈ parsed.rest, InAscii token.text
  diagnostics : ∀ diagnostic ∈ parsed.diagnostics, InAscii diagnostic.message

theorem parse_worded (fuel : Nat) :
    (∀ tokens parsed, (∀ token ∈ tokens, InAscii token.text) →
      parseExpr fuel tokens = some parsed → parsed.Worded) ∧
    ∀ lparen span items tokens parsed, (∀ item ∈ items, RawExpr.NamesInAscii item) →
      (∀ token ∈ tokens, InAscii token.text) →
      parseList fuel lparen span items tokens = some parsed → parsed.Worded := by
  induction fuel with
  | zero =>
      constructor
      · intro tokens parsed texts found
        cases found
      · intro lparen span items tokens parsed names texts found
        cases found
  | succ fuel induction =>
      rcases induction with ⟨exprs, lists⟩
      constructor
      · intro tokens parsed texts found
        cases tokens with
        | nil => cases found
        | cons token rest =>
            have later : ∀ other ∈ rest, InAscii other.text :=
              fun other member => texts other (List.mem_cons_of_mem token member)
            have unread : ∀ other ∈ (if token.kind = .end then token :: rest else rest),
                InAscii other.text := by
              split
              · exact texts
              · exact later
            rw [parseExpr, nextToken] at found
            dsimp only at found
            cases kind : token.kind with
            | lParen =>
                rw [kind] at found unread
                exact lists _ _ [] _ _ (List.forall_mem_nil _) unread found
            | symbol =>
                rw [kind] at found unread
                cases found
                refine ⟨?_, unread, List.forall_mem_nil _⟩
                intro expr member
                cases member
                exact .symbol (texts token List.mem_cons_self)
            | integer =>
                rw [kind] at found unread
                cases found
                refine ⟨?_, unread, List.forall_mem_nil _⟩
                intro expr member
                cases member
                exact .integer
            | rParen =>
                rw [kind] at found unread
                cases found
                refine ⟨forall_mem_none, unread, ?_⟩
                intro diagnostic member
                rw [List.mem_singleton.mp member]
                exact (by decide : InAscii "unexpected ')'")
            | «end» =>
                rw [kind] at found unread
                cases found
                refine ⟨forall_mem_none, unread, ?_⟩
                intro diagnostic member
                rw [List.mem_singleton.mp member]
                exact (by decide : InAscii "unexpected end of input")
      · intro lparen span items tokens parsed names texts found
        cases tokens with
        | nil => cases found
        | cons token rest =>
            have later : ∀ other ∈ rest, InAscii other.text :=
              fun other member => texts other (List.mem_cons_of_mem token member)
            by_cases close : token.kind = .rParen
            · rw [parseList, close] at found
              cases found
              refine ⟨?_, later, List.forall_mem_nil _⟩
              intro expr member
              cases member
              exact .list names
            · by_cases isEnd : token.kind = .end
              · rw [parseList, isEnd] at found
                cases found
                refine ⟨forall_mem_none, texts, ?_⟩
                intro diagnostic member
                rw [List.mem_singleton.mp member]
                exact (by decide : InAscii "missing closing parenthesis")
              · rw [parseList_item close isEnd] at found
                cases first : parseExpr fuel (token :: rest) with
                | none =>
                    rw [first] at found
                    cases found
                | some item =>
                    have worded := exprs _ _ texts first
                    rcases item with ⟨expr, unread, diagnostics⟩
                    rw [first] at found
                    cases expr with
                    | none =>
                        cases found
                        exact ⟨forall_mem_none, worded.rest, worded.diagnostics⟩
                    | some child =>
                        rcases Option.map_eq_some_iff.mp found with ⟨more, moreFound, rfl⟩
                        have tail := lists _ _ _ _ _ (List.forall_mem_append.mpr ⟨names,
                          List.forall_mem_singleton.mpr (worded.expr child rfl)⟩) worded.rest
                          moreFound
                        exact ⟨tail.expr, tail.rest,
                          List.forall_mem_append.mpr ⟨worded.diagnostics, tail.diagnostics⟩⟩

theorem parseLoop_worded {fuel budget : Nat} {tokens : List Token} {parsed : ParseResult}
    (texts : ∀ token ∈ tokens, InAscii token.text)
    (found : parseLoop fuel budget tokens = some parsed) :
    (∀ expr ∈ parsed.exprs, expr.NamesInAscii) ∧
      ∀ diagnostic ∈ parsed.diagnostics, InAscii diagnostic.message := by
  induction budget generalizing tokens parsed with
  | zero =>
      cases tokens with
      | nil => cases found
      | cons token rest =>
          rw [parseLoop] at found
          split at found
          · cases found
            exact ⟨List.forall_mem_nil _, List.forall_mem_nil _⟩
          · cases found
  | succ budget induction =>
      cases tokens with
      | nil => cases found
      | cons token rest =>
          rw [parseLoop] at found
          split at found
          · cases found
            exact ⟨List.forall_mem_nil _, List.forall_mem_nil _⟩
          · cases first : parseExpr fuel (token :: rest) with
            | none =>
                rw [first] at found
                cases found
            | some item =>
                have worded := (parse_worded fuel).1 _ _ texts first
                rw [first] at found
                rcases Option.map_eq_some_iff.mp found with ⟨tail, tailFound, rfl⟩
                rcases induction worded.rest tailFound with ⟨exprs, messages⟩
                constructor
                · intro expr member
                  rcases List.mem_append.mp member with member | member
                  · exact worded.expr expr (Option.mem_toList.mp member)
                  · exact exprs expr member
                · exact List.forall_mem_append.mpr ⟨worded.diagnostics, messages⟩

/-- The parser's names are ASCII, and what is said about the source is text exactly
where nothing beyond ASCII stands outside of a comment. -/
theorem parse_wording {source : Bytes} {parsed : ParseResult} (found : parse source = some parsed) :
    (∀ expr ∈ parsed.exprs, expr.NamesInAscii) ∧
      ((∀ diagnostic ∈ parsed.diagnostics, Encoded diagnostic.message) ↔
        quiet false (source.map Char.ofUInt8) = true) := by
  rw [parse] at found
  cases lexes : lex source with
  | none =>
      rw [lexes] at found
      cases found
  | some lexed =>
      rw [lexes] at found
      rcases Option.map_eq_some_iff.mp found with ⟨loop, looped, rfl⟩
      have worded := lex_worded lexes
      rcases parseLoop_worded worded.tokens looped with ⟨names, messages⟩
      refine ⟨names, ?_⟩
      rw [← worded.diagnostics]
      constructor
      · exact fun all => (List.forall_mem_append.mp all).1
      · intro first
        exact List.forall_mem_append.mpr ⟨first, fun diagnostic member =>
          (messages diagnostic member).encoded⟩

end CardCode
