import CardCode.Engine.Lexer
import CardCode.Foundation.Decoding

/-! # Lines from the harness (`tools/dev-server.js`)

What the harness prints arrives in chunks. Each chunk is decoded by itself, and the lines
that are ended by then are sent to the browser, a message each.
-/

namespace CardCode.DevServer

/-! ## The model -/

/-- Put a character in front of the first line. -/
def prependTo (c : Char) : List (List Char) → List (List Char)
  | [] => [[c]]
  | line :: lines => (c :: line) :: lines

/-- `split(/\r?\n/)`. -/
def splitLines : List Char → List (List Char)
  | [] => [[]]
  | c :: rest =>
      if c = '\n' then [] :: splitLines rest
      else if c = '\r' ∧ rest.head? = some '\n' then splitLines rest
      else prependTo c (splitLines rest)

/-- The lines `attachRuntimeSocket` sends when a chunk arrives, and what is left in
`lineBuffer`. -/
def relayChunk (lineBuffer : List Char) (chunk : Bytes) : List (List Char) × List Char :=
  let lines := splitLines (lineBuffer ++ decodeUtf8 chunk)
  (lines.dropLast.filter fun line => 0 < line.length, lines.getLast?.getD [])

/-- The messages to the browser, over all that arrives. -/
def relay : List Char → List Bytes → List (List Char)
  | _, [] => []
  | lineBuffer, chunk :: chunks =>
      let relayed := relayChunk lineBuffer chunk
      relayed.1 ++ relay relayed.2 chunks

/-! ## Lines of a text -/

/-- The lines of a text that are ended and not empty. -/
def endedLines (text : List Char) : List (List Char) :=
  (splitLines text).dropLast.filter fun line => 0 < line.length

theorem prependTo_ne_nil (c : Char) (lines : List (List Char)) : prependTo c lines ≠ [] := by
  cases lines with
  | nil => exact List.cons_ne_nil _ _
  | cons line lines => exact List.cons_ne_nil _ _

theorem splitLines_ne_nil (text : List Char) : splitLines text ≠ [] := by
  induction text with
  | nil => exact List.cons_ne_nil _ _
  | cons c rest induction =>
      rw [splitLines]
      split
      · exact List.cons_ne_nil _ _
      split
      · exact induction
      · exact prependTo_ne_nil c _

theorem splitLines_single {text : List Char} (unended : '\n' ∉ text) :
    splitLines text = [text] := by
  induction text with
  | nil => rw [splitLines]
  | cons c rest induction =>
      rw [List.mem_cons, not_or] at unended
      have noFeed : ¬ (c = '\r' ∧ rest.head? = some '\n') := fun found =>
        unended.2 (List.mem_of_mem_head? found.2)
      rw [splitLines, if_neg fun same => unended.1 same.symm, if_neg noFeed,
        induction unended.2, prependTo]

/-- Behind an ended line there is another one. -/
theorem splitLines_several {text : List Char} (ended : '\n' ∈ text) :
    ∃ line next lines, splitLines text = line :: next :: lines := by
  induction text with
  | nil => cases ended
  | cons c rest induction =>
      rw [splitLines]
      split
      next =>
        rcases List.exists_cons_of_ne_nil (splitLines_ne_nil rest) with ⟨next, lines, same⟩
        exact ⟨[], next, lines, by rw [same]⟩
      next other =>
        rcases List.mem_cons.mp ended with same | inside
        · exact absurd same.symm other
        · rcases induction inside with ⟨line, next, lines, same⟩
          rw [same]
          split
          · exact ⟨line, next, lines, rfl⟩
          · exact ⟨c :: line, next, lines, rfl⟩

theorem splitLines_last (text : List Char) :
    ∃ lines last, splitLines text = lines ++ [last] ∧ '\n' ∉ last := by
  induction text with
  | nil => exact ⟨[], [], rfl, List.not_mem_nil⟩
  | cons c rest induction =>
      rcases induction with ⟨lines, last, same, unended⟩
      rw [splitLines, same]
      split
      · exact ⟨[] :: lines, last, rfl, unended⟩
      split
      · exact ⟨lines, last, rfl, unended⟩
      next other _ =>
        cases lines with
        | nil => exact ⟨[], c :: last, rfl, by simp [unended, Ne.symm other]⟩
        | cons line lines => exact ⟨(c :: line) :: lines, last, rfl, unended⟩

/-- A text goes on where its last line does. -/
theorem splitLines_append {front last : List Char} {lines : List (List Char)}
    (split : splitLines front = lines ++ [last]) (back : List Char) :
    splitLines (front ++ back) = lines ++ splitLines (last ++ back) := by
  induction front generalizing lines with
  | nil =>
      cases lines with
      | nil =>
          cases split
          rfl
      | cons line lines =>
          have lengths := congrArg List.length split
          simp [splitLines] at lengths
  | cons c rest induction =>
      by_cases ended : '\n' ∈ c :: rest
      · rw [List.cons_append, splitLines]
        rw [splitLines] at split
        by_cases feed : c = '\n'
        · rw [if_pos feed] at split ⊢
          cases lines with
          | nil => exact absurd (List.cons.inj split).2 (splitLines_ne_nil rest)
          | cons line lines =>
              rw [List.cons_append, List.cons.injEq] at split
              rw [induction split.2, ← split.1]
              rfl
        · rw [if_neg feed] at split ⊢
          have inside : '\n' ∈ rest := by
            rcases List.mem_cons.mp ended with same | inside
            · exact absurd same.symm feed
            · exact inside
          have head : (rest ++ back).head? = rest.head? :=
            List.head?_append_of_ne_nil _ (List.ne_nil_of_mem inside)
          rw [head]
          by_cases mark : c = '\r' ∧ rest.head? = some '\n'
          · rw [if_pos mark] at split ⊢
            exact induction split
          · rw [if_neg mark] at split ⊢
            rcases splitLines_several inside with ⟨line, next, others, several⟩
            rw [several, prependTo] at split
            cases lines with
            | nil => cases split
            | cons first lines =>
                rw [List.cons_append, List.cons.injEq] at split
                have again : splitLines rest = (line :: lines) ++ [last] := by
                  rw [several, split.2, List.cons_append]
                rw [induction again, ← split.1]
                rfl
      · rw [splitLines_single ended] at split
        cases lines with
        | nil =>
            rw [List.nil_append, List.singleton_inj] at split
            rw [split]
            rfl
        | cons line lines =>
            have lengths := congrArg List.length split
            simp at lengths

/-- What ends no line changes none of the lines that are ended. -/
theorem endedLines_append {front back : List Char} (unended : '\n' ∉ back) :
    endedLines (front ++ back) = endedLines front := by
  rcases splitLines_last front with ⟨lines, last, split, single⟩
  have whole : '\n' ∉ last ++ back := by simp [single, unended]
  rw [endedLines, splitLines_append split, splitLines_single whole, endedLines, split,
    List.dropLast_concat, List.dropLast_concat]

/-- The relay sends the ended lines of all the chunks' texts put together. -/
theorem relay_eq (chunks : List Bytes) : ∀ {lineBuffer : List Char}, '\n' ∉ lineBuffer →
    relay lineBuffer chunks = endedLines (lineBuffer ++ chunks.flatMap decodeUtf8) := by
  induction chunks with
  | nil =>
      intro lineBuffer unended
      rw [relay, List.flatMap_nil, List.append_nil, endedLines, splitLines_single unended]
      rfl
  | cons chunk chunks induction =>
      intro lineBuffer _
      rcases splitLines_last (lineBuffer ++ decodeUtf8 chunk) with ⟨lines, last, split, unended⟩
      rw [relay, relayChunk, split]
      dsimp only
      rw [List.dropLast_concat, List.getLast?_concat, Option.getD_some, induction unended,
        List.flatMap_cons, ← List.append_assoc, endedLines, endedLines, splitLines_append split,
        List.dropLast_append_of_ne_nil (splitLines_ne_nil _), List.filter_append]

/-! ## How much is in the lines -/

/-- How many characters stand in the ended lines. -/
def endedSize (text : List Char) : Nat :=
  ((splitLines text).dropLast.map List.length).sum

theorem endedLines_size (text : List Char) :
    ((endedLines text).map List.length).sum = endedSize text := by
  rw [endedLines, endedSize]
  generalize (splitLines text).dropLast = lines
  induction lines with
  | nil => rfl
  | cons line lines induction =>
      rw [List.filter_cons]
      cases line with
      | nil => simpa using induction
      | cons c line => simpa using induction

theorem endedSize_unended {text : List Char} (unended : '\n' ∉ text) : endedSize text = 0 := by
  rw [endedSize, splitLines_single unended]
  rfl

theorem endedSize_cons_unended {rest : List Char} (unended : '\n' ∉ rest) (c : Char) :
    endedSize (c :: rest) = 0 := by
  by_cases feed : c = '\n'
  · rw [endedSize, splitLines, if_pos feed, splitLines_single unended]
    rfl
  · apply endedSize_unended
    rw [List.mem_cons, not_or]
    exact ⟨Ne.symm feed, unended⟩

/-- Whether a character in front of a text stands in a line of its own or of the text's. -/
def isShown (c : Char) (rest : List Char) : Bool :=
  c ≠ '\n' && !(c = '\r' && rest.head? = some '\n')

theorem endedSize_cons {rest : List Char} (ended : '\n' ∈ rest) (c : Char) :
    endedSize (c :: rest) = endedSize rest + (isShown c rest).toNat := by
  rcases splitLines_several ended with ⟨line, next, lines, several⟩
  rw [endedSize, splitLines, endedSize]
  by_cases feed : c = '\n'
  · simp [feed, isShown, several]
  · by_cases mark : c = '\r' ∧ rest.head? = some '\n'
    · simp [mark, isShown]
    · have shown : isShown c rest = true := by
        grind [isShown]
      rw [if_neg feed, if_neg mark, several, prependTo, shown]
      simp
      omega

theorem endedSize_replaced {rest : List Char} (ended : '\n' ∈ rest) (count : Nat) :
    endedSize (List.replicate count replacement ++ rest) = endedSize rest + count := by
  induction count with
  | zero => rfl
  | succ count induction =>
      have inside : '\n' ∈ List.replicate count replacement ++ rest :=
        List.mem_append_right _ ended
      rw [List.replicate_succ, List.cons_append, endedSize_cons inside, induction]
      rfl

/-! ## Lines of a garbled text -/

def newline : UInt8 :=
  0x0A

theorem newline_in_char {c : Char} : newline ∈ String.utf8EncodeChar c ↔ '\n' = c := by
  by_cases ascii : c.toNat < 128
  · rw [ascii_encoded ascii, List.mem_singleton, ← UInt8.toNat_inj, UInt8.toNat_ofNat',
      ← Char.toNat_inj]
    have code : newline.toNat = '\n'.toNat := rfl
    omega
  · constructor
    · intro member
      have high := high_bytes (Nat.le_of_not_lt ascii) newline member
      exact absurd high (by decide)
    · intro same
      rw [← same] at ascii
      exact absurd (by decide) ascii

theorem newline_encoded {text : List Char} :
    newline ∈ text.flatMap String.utf8EncodeChar ↔ '\n' ∈ text := by
  induction text with
  | nil => simp
  | cons c text induction =>
      rw [List.flatMap_cons, List.mem_append, induction, newline_in_char, List.mem_cons]

/-- A character beyond ASCII ends no line, and neither does its replacement. -/
theorem wide_not_newline {c : Char} (wide : 128 ≤ c.toNat) : '\n' ≠ c := by
  intro same
  rw [← same] at wide
  exact absurd wide (by decide)

theorem newline_not_replaced (count : Nat) : '\n' ∉ List.replicate count replacement := by
  intro member
  exact absurd (List.eq_of_mem_replicate member) (by decide)

section Garbled

variable {cuts : CutBytes} {text out : List Char}

theorem garbled_bytes (garbled : Garbled cuts text out) :
    bytesOf cuts = text.flatMap String.utf8EncodeChar := by
  induction garbled with
  | done bare => exact bare
  | whole skipped _ induction => simp [skipped, induction]
  | broken _ _ _ encoded _ _ induction =>
      rw [bytesOf_append, bytesOf_cut, bytesOf_append, ← List.append_assoc, encoded, induction,
        List.flatMap_cons]

theorem garbled_ended (garbled : Garbled cuts text out) : '\n' ∈ out ↔ '\n' ∈ text := by
  induction garbled with
  | done _ => exact Iff.rfl
  | whole _ _ induction => rw [List.mem_cons, List.mem_cons, induction]
  | broken wide _ _ _ _ _ induction =>
      rw [List.mem_append, List.mem_cons, induction, or_iff_right (newline_not_replaced _),
        or_iff_right (wide_not_newline wide)]

theorem garbled_head (garbled : Garbled cuts text out) :
    out.head? = some '\n' ↔ text.head? = some '\n' := by
  cases garbled with
  | done _ => exact Iff.rfl
  | whole _ _ => exact Iff.rfl
  | @broken _ _ c count _ _ _ wide _ _ _ many _ =>
      rcases Nat.exists_eq_add_of_le' many with ⟨more, rfl⟩
      apply iff_of_false
      · rw [List.replicate_succ]
        simp [replacement]
      · intro same
        exact wide_not_newline wide (Option.some.inj same).symm

/-- Where the cuts are between characters, as far as lines are ended, the text and what
becomes of it differ behind the last of these lines. -/
theorem garbled_alike (garbled : Garbled cuts text out) : CutsBetween newline cuts →
    ∃ front back garbage, text = front ++ back ∧ out = front ++ garbage ∧
      '\n' ∉ back ∧ '\n' ∉ garbage := by
  induction garbled with
  | done _ => exact fun _ => ⟨[], [], [], rfl, rfl, List.not_mem_nil, List.not_mem_nil⟩
  | @whole _ c _ _ _ skipped _ induction =>
      intro between
      rcases induction ((cutsBetween_whole_iff skipped).mp between) with
        ⟨front, back, garbage, rfl, rfl, backUnended, garbageUnended⟩
      exact ⟨c :: front, back, garbage, rfl, rfl, backUnended, garbageUnended⟩
  | @broken front back c count rest text out wide some more encoded many garbled _ =>
      intro between
      have unended : '\n' ∉ text := by
        intro member
        rw [← newline_encoded, ← garbled_bytes garbled] at member
        have behind : newline ∈ bytesOf (back ++ rest) := by
          rw [bytesOf_append]
          exact List.mem_append_right _ member
        exact not_valid_of_broken some more encoded (between front _ rfl behind)
      have garbage : '\n' ∉ List.replicate count replacement ++ out := by
        rw [List.mem_append, garbled_ended garbled, not_or]
        exact ⟨newline_not_replaced count, unended⟩
      refine ⟨[], c :: text, _, rfl, rfl, ?_, garbage⟩
      rw [List.mem_cons, not_or]
      exact ⟨wide_not_newline wide, unended⟩

/-- A character that is cut leaves more in its line than there was. -/
theorem garbled_size (garbled : Garbled cuts text out) :
    endedSize text ≤ endedSize out ∧
      (endedSize out = endedSize text → CutsBetween newline cuts) := by
  have absent {cuts : CutBytes} {text out : List Char} (garbled : Garbled cuts text out)
      (unended : '\n' ∉ text) : CutsBetween newline cuts := by
    apply CutsBetween.of_absent
    rw [garbled_bytes garbled, newline_encoded]
    exact unended
  induction garbled with
  | done bare => exact ⟨Nat.le_refl _, fun _ => .of_absent (by rw [bare]; exact List.not_mem_nil)⟩
  | @whole gap c rest text out skipped garbled induction =>
      by_cases ended : '\n' ∈ text
      · have alike : isShown c out = isShown c text := by
          simp only [isShown, garbled_head garbled]
        rw [endedSize_cons ended, endedSize_cons ((garbled_ended garbled).mpr ended), alike,
          cutsBetween_whole_iff skipped]
        exact ⟨by omega, fun same => induction.2 (by omega)⟩
      · rw [endedSize_cons_unended ended, cutsBetween_whole_iff skipped]
        exact ⟨Nat.zero_le _, fun _ => absent garbled ended⟩
  | @broken front back c count rest text out wide some more encoded many garbled induction =>
      by_cases ended : '\n' ∈ text
      · have shown := Bool.toNat_le (isShown c text)
        rw [endedSize_cons ended, endedSize_replaced ((garbled_ended garbled).mpr ended)]
        exact ⟨by omega, fun same => by omega⟩
      · rw [endedSize_cons_unended ended]
        refine ⟨Nat.zero_le _, fun _ => ?_⟩
        apply absent (.broken wide some more encoded many garbled)
        rw [List.mem_cons, not_or]
        exact ⟨wide_not_newline wide, ended⟩

end Garbled

/-- The relay sends the ended lines of what the harness prints exactly where, as far as a
newline is still to come, every chunk ends between two characters. -/
theorem relay_lines_iff (text : List Char) (chunks : List Bytes)
    (printed : chunks.flatten = text.flatMap String.utf8EncodeChar) :
    relay [] chunks = endedLines text ↔
      ∀ front back, chunks = front ++ back → newline ∈ back.flatten →
        ValidUtf8 front.flatten := by
  rw [← cutsBetween_chunks_iff, relay_eq chunks List.not_mem_nil, List.nil_append,
    ← decodeCuts_chunks]
  rw [← bytesOf_cutChunks] at printed
  have garbled := decodeCuts_garbled printed
  constructor
  · intro same
    apply (garbled_size garbled).2
    rw [← endedLines_size, ← endedLines_size, same]
  · intro between
    rcases garbled_alike garbled between with
      ⟨front, back, garbage, rfl, decoded, backUnended, garbageUnended⟩
    rw [decoded, endedLines_append garbageUnended, endedLines_append backUnended]

/-- The answer to a message of type `é`. -/
def unknownType : List Char :=
  "\x7b\"type\":\"error\",\"message\":\"unknown message type 'é'\"\x7d\r\n".toList

def unknownBytes : Bytes :=
  unknownType.flatMap String.utf8EncodeChar

/-- It arrives as it was sent when it is cut between the carriage return and the newline. -/
theorem unknownType_relayed :
    relay [] [unknownBytes.dropLast, [newline]] = endedLines unknownType := by
  apply (relay_lines_iff unknownType _ (by decide +kernel)).mpr
  intro front back same member
  rcases List.cons_eq_append_iff.mp same with ⟨rfl, -⟩ | ⟨rest, rfl, more⟩
  · exact .nil
  · rcases List.cons_eq_append_iff.mp more with ⟨rfl, -⟩ | ⟨last, rfl, none⟩
    · exact ⟨unknownType.dropLast, by decide +kernel⟩
    · rw [(List.nil_eq_append_iff.mp none).2] at member
      cases member

/-- Cut within `é` it does not. -/
theorem unknownType_not_relayed :
    ¬ ∀ text chunks, chunks.flatten = text.flatMap String.utf8EncodeChar →
      relay [] chunks = endedLines text := by
  intro always
  have same := always unknownType [unknownBytes.take 50, unknownBytes.drop 50]
    (by simp [unknownBytes])
  exact absurd same (by decide +kernel)

end CardCode.DevServer
