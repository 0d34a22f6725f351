import CardCode.Harness.MessageReader
import Mathlib.Data.List.DropRight

/-! # What the harness writes can be read back -/

namespace CardCode.Harness

/-! ## Strings -/

theorem hexValues_hexDigit :
    ∀ code : Fin 32, hexValues [byte '0', byte '0', hexDigit (UInt8.ofNat code / 16),
      hexDigit (UInt8.ofNat code % 16)] 0 = some (UInt32.ofNat code) := by
  decide

/-- A control byte is written in hexadecimal and decoded to itself. -/
theorem control_decoded {c : UInt8} (control : c < 0x20) :
    hexValues [byte '0', byte '0', hexDigit (c / 16), hexDigit (c % 16)] 0 =
        some c.toUInt32 ∧
      encodeCodePoint c.toUInt32 = [c] := by
  have small : c.toNat < 32 := UInt8.lt_iff_toNat_lt.mp control
  have written := hexValues_hexDigit ⟨c.toNat, small⟩
  have ascii : c.toUInt32 < 0x80 := by
    rw [UInt32.lt_iff_toNat_lt, UInt8.toNat_toUInt32]
    exact Nat.lt_of_lt_of_le small (by decide)
  have code : UInt32.ofNat c.toNat = c.toUInt32 := by
    rw [← UInt8.toNat_toUInt32, UInt32.ofNat_toNat]
  constructor
  · rw [← code]
    rw [UInt8.ofNat_toNat] at written
    exact written
  · rw [encodeCodePoint, if_pos ascii, UInt8.toUInt8_toUInt32]

theorem stringLoop_short {e meant : UInt8} (short : e ≠ byte 'u')
    (means : unescape e = some meant) (rest out : Bytes) :
    stringLoop (byte '\\' :: e :: rest) out = stringLoop rest (out ++ [meant]) := by
  rw [stringLoop.eq_def]
  dsimp only
  rw [if_neg (by decide), if_pos rfl, if_neg short, means]

/-- One written byte is read as that byte. -/
theorem stringLoop_escape (c : UInt8) (rest out : Bytes) :
    stringLoop (jsonEscapeByte c ++ rest) out = stringLoop rest (out ++ [c]) := by
  rw [jsonEscapeByte]
  split_ifs with quote backslash newline return' tab backspace formFeed control
  · rw [quote]
    exact stringLoop_short (by decide) rfl rest out
  · rw [backslash]
    exact stringLoop_short (by decide) rfl rest out
  · rw [newline]
    exact stringLoop_short (by decide) rfl rest out
  · rw [return']
    exact stringLoop_short (by decide) rfl rest out
  · rw [tab]
    exact stringLoop_short (by decide) rfl rest out
  · rw [backspace]
    exact stringLoop_short (by decide) rfl rest out
  · rw [formFeed]
    exact stringLoop_short (by decide) rfl rest out
  · rcases control_decoded control with ⟨decoded, encoded⟩
    change stringLoop (byte '\\' :: byte 'u' :: byte '0' :: byte '0' :: hexDigit (c / 16) ::
      hexDigit (c % 16) :: rest) out = _
    rw [stringLoop.eq_def]
    dsimp only
    rw [if_neg (by decide), if_pos rfl, if_pos rfl, decoded]
    dsimp only
    rw [encoded]
  · rw [List.singleton_append, stringLoop.eq_def]
    dsimp only
    rw [if_neg quote, if_neg backslash]

theorem stringLoop_jsonEscape (text rest out : Bytes) :
    stringLoop (jsonEscape text ++ byte '"' :: rest) out = some (out ++ text, rest) := by
  induction text generalizing out with
  | nil =>
      rw [List.append_nil]
      change stringLoop (byte '"' :: rest) out = _
      rw [stringLoop.eq_def]
      exact if_pos rfl
  | cons c text induction =>
      rw [jsonEscape, List.flatMap_cons, List.append_assoc, stringLoop_escape, ← jsonEscape,
        induction, List.append_assoc]
      rfl

theorem parseString_jstr (text rest : Bytes) :
    parseString (jstr text ++ rest) = some (text, rest) := by
  rw [jstr, List.cons_append, parseString, if_pos rfl, List.append_assoc,
    List.singleton_append, stringLoop_jsonEscape, List.nil_append]

/-! ## Numbers -/

/-- `strtod` is exact on the decimal text of integers a `double` holds. -/
def StrtodExact (strtod : Bytes → Rat) : Prop :=
  ∀ number : Int, number.natAbs ≤ 2 ^ 53 → strtod (jnum number) = number

/-- What may follow a value. -/
def EndsNumber (rest : Bytes) : Prop :=
  ∀ c ∈ rest.head?, isNumberByte c = false

/-- A digit is a byte of the same code. -/
theorem digit_code {digit : Char} (isDigit : digit.isDigit = true) :
    (48 ≤ digit.toNat ∧ digit.toNat ≤ 57) ∧ digit.toUInt8.toNat = digit.toNat := by
  have range : 48 ≤ digit.toNat ∧ digit.toNat ≤ 57 := by
    simpa [Char.isDigit, UInt32.le_iff_toNat_le] using isDigit
  refine ⟨range, ?_⟩
  rw [Char.toUInt8, UInt32.toNat_toUInt8]
  change digit.toNat % 256 = digit.toNat
  omega

theorem digit_byte {digit : Char} (isDigit : digit.isDigit = true) :
    isNumberByte digit.toUInt8 = true := by
  rcases digit_code isDigit with ⟨range, code⟩
  simp only [isNumberByte, Bool.or_eq_true, Bool.and_eq_true, decide_eq_true_eq,
    UInt8.le_iff_toNat_le, code]
  exact .inl (.inl (.inl (.inl (.inl range))))

theorem digits_bytes (magnitude : Nat) :
    ∀ c ∈ (Nat.toDigits 10 magnitude).map Char.toUInt8, isNumberByte c = true := by
  intro c member
  rcases List.mem_map.mp member with ⟨digit, inside, rfl⟩
  exact digit_byte (Nat.isDigit_of_mem_toDigits (by decide) (by decide) inside)

theorem jnum_bytes (number : Int) :
    jnum number ≠ [] ∧ ∀ c ∈ jnum number, isNumberByte c = true := by
  cases number with
  | ofNat magnitude =>
      exact ⟨by simp [jnum, Nat.toDigits_ne_nil], digits_bytes magnitude⟩
  | negSucc less =>
      refine ⟨by simp [jnum], ?_⟩
      intro c member
      rcases List.mem_cons.mp member with rfl | digit
      · decide
      · exact digits_bytes _ c digit

theorem number_scanned {number rest : Bytes} (digits : ∀ c ∈ number, isNumberByte c = true)
    (ends : EndsNumber rest) :
    (number ++ rest).takeWhile isNumberByte = number ∧
      (number ++ rest).dropWhile isNumberByte = rest := by
  have stop : rest.takeWhile isNumberByte = [] ∧ rest.dropWhile isNumberByte = rest := by
    cases rest with
    | nil => exact ⟨rfl, rfl⟩
    | cons c rest =>
        have other : isNumberByte c = false := ends c rfl
        rw [List.takeWhile_cons_of_neg (by simp [other]),
          List.dropWhile_cons_of_neg (by simp [other])]
        exact ⟨rfl, rfl⟩
  rw [List.takeWhile_append_of_pos digits, List.dropWhile_append_of_pos digits, stop.1, stop.2,
    List.append_nil]
  exact ⟨rfl, rfl⟩

/-! ## Values -/

theorem skipWs_cons {c : UInt8} {rest : Bytes} (solid : isSpaceByte c = false) :
    skipWs (c :: rest) = c :: rest :=
  List.dropWhile_cons_of_neg (by simp [solid])

/-- The first byte of a value that is not a number. -/
def isOpener (c : UInt8) : Bool :=
  c = byte '{' || c = byte '[' || c = byte '"' || c = byte 't' || c = byte 'f' || c = byte 'n'

/-- A written value starts with a byte that no surrounding piece of text uses. -/
def StartsValue (text : Bytes) : Prop :=
  ∃ c rest, text = c :: rest ∧ (isOpener c = true ∨ isNumberByte c = true)

/-- What holds of every code holds of every byte. -/
theorem forall_bytes {Holds : UInt8 → Prop} (each : ∀ code : Fin 256, Holds (UInt8.ofNat code))
    (c : UInt8) : Holds c := by
  have found := each ⟨c.toNat, c.toNat_lt⟩
  rw [UInt8.ofNat_toNat] at found
  exact found

theorem value_byte : ∀ c : UInt8, isOpener c = true ∨ isNumberByte c = true →
    isSpaceByte c = false ∧ c ≠ byte ']' := by
  apply forall_bytes
  decide +kernel

/-- A byte of a number opens no other value. -/
theorem number_byte : ∀ c : UInt8, isNumberByte c = true →
    isSpaceByte c = false ∧ isOpener c = false := by
  apply forall_bytes
  decide +kernel

namespace JsonTree

theorem writeAll_eq (items : List JsonTree) : writeAll items = items.map write := by
  induction items with
  | nil => rfl
  | cons item rest induction => rw [writeAll, induction, List.map_cons]

theorem valueAll_eq (items : List JsonTree) : valueAll items = items.map value := by
  induction items with
  | nil => rfl
  | cons item rest induction => rw [valueAll, induction, List.map_cons]

theorem writeFields_eq (fields : List (Bytes × JsonTree)) :
    writeFields fields = fields.map fun field => (field.1, field.2.write) := by
  induction fields with
  | nil => rfl
  | cons field rest induction => rw [writeFields, induction, List.map_cons]

theorem valueFields_eq (fields : List (Bytes × JsonTree)) :
    valueFields fields = fields.map fun field => (field.1, field.2.value) := by
  induction fields with
  | nil => rfl
  | cons field rest induction => rw [valueFields, induction, List.map_cons]

theorem write_starts (tree : JsonTree) : StartsValue tree.write := by
  cases tree with
  | str text => exact ⟨byte '"', _, rfl, .inl (by decide)⟩
  | bool value =>
      cases value with
      | true => exact ⟨byte 't', bytes "rue", by decide, .inl (by decide)⟩
      | false => exact ⟨byte 'f', bytes "alse", by decide, .inl (by decide)⟩
  | arr items => exact ⟨byte '[', _, rfl, .inl (by decide)⟩
  | obj fields => exact ⟨byte '{', _, rfl, .inl (by decide)⟩
  | int number =>
      rcases jnum_bytes number with ⟨nonempty, digits⟩
      rcases List.exists_cons_of_ne_nil nonempty with ⟨c, rest, written⟩
      exact ⟨c, rest, written, .inr (digits c (by rw [written]; exact List.mem_cons_self))⟩

end JsonTree

/-- The text is read as the value wherever it stands, whatever the fuel beyond its
length. -/
def ReadAs (strtod : Bytes → Rat) (text : Bytes) (value : JsonValue) : Prop :=
  ∀ fuel rest, text.length < fuel → EndsNumber rest →
    parseValue strtod fuel (text ++ rest) = some (value, rest)

/-- So is it, but for white space at its end. -/
def Reads (strtod : Bytes → Rat) (text : Bytes) (value : JsonValue) : Prop :=
  ∀ fuel rest, text.length < fuel → EndsNumber rest →
    ∃ left, parseValue strtod fuel (text ++ rest) = some (value, left) ∧ skipWs left = skipWs rest

/-- Behind white space a value starts. -/
def OpensValue (text : Bytes) : Prop :=
  StartsValue (skipWs text)

section Reading

variable {strtod : Bytes → Rat}

theorem ReadAs.reads {text : Bytes} {value : JsonValue} (readAs : ReadAs strtod text value) :
    Reads strtod text value :=
  fun fuel rest enough ends => ⟨rest, readAs fuel rest enough ends, rfl⟩

theorem str_readAs (text : Bytes) : ReadAs strtod (jstr text) (.str text) := by
  intro fuel rest enough _
  cases fuel with
  | zero => omega
  | succ fuel =>
      have parsed := parseString_jstr text rest
      rw [jstr, List.cons_append] at parsed ⊢
      rw [parseValue, skipWs_cons (by decide)]
      dsimp only
      rw [if_neg (by decide), if_neg (by decide), if_pos rfl, parsed]
      rfl

theorem bool_readAs (value : Bool) : ReadAs strtod (jbool value) (.bool value) := by
  intro fuel rest enough _
  cases fuel with
  | zero => omega
  | succ fuel => cases value <;> rfl

/-- A row of the bytes of numbers is what `strtod` makes of it. -/
theorem num_readAs {number : Bytes} (nonempty : number ≠ [])
    (digits : ∀ c ∈ number, isNumberByte c = true) :
    ReadAs strtod number (.num (strtod number)) := by
  intro fuel rest enough ends
  cases fuel with
  | zero => omega
  | succ fuel =>
      rcases number_scanned digits ends with ⟨scanned, left⟩
      rcases List.exists_cons_of_ne_nil nonempty with ⟨c, tail, rfl⟩
      have first := number_byte c (digits c List.mem_cons_self)
      rw [List.cons_append] at scanned left
      have other := first.2
      simp only [isOpener, Bool.or_eq_false_iff, decide_eq_false_iff_not] at other
      rw [List.cons_append, parseValue, skipWs_cons first.1]
      dsimp only
      rw [if_neg (by simp [other]), if_neg (by simp [other]), if_neg (by simp [other]),
        if_neg (by simp [other]), if_neg (by simp [other]), parseNumber, scanned, left]
      rfl

theorem int_readAs (exact : StrtodExact strtod) {number : Int} (small : number.natAbs ≤ 2 ^ 53) :
    ReadAs strtod (jnum number) (.num number) := by
  rw [← exact number small]
  exact num_readAs (jnum_bytes number).1 (jnum_bytes number).2

/-! ### White space -/

theorem skipWs_skipWs (text : Bytes) : skipWs (skipWs text) = skipWs text := by
  rw [skipWs, skipWs]
  exact List.dropWhile_idempotent isSpaceByte text

theorem skipWs_append {blank : Bytes} (white : ∀ c ∈ blank, isSpaceByte c = true) (text : Bytes) :
    skipWs (blank ++ text) = skipWs text :=
  List.dropWhile_append_of_pos white

theorem parseValue_skipWs (fuel : Nat) (text : Bytes) :
    parseValue strtod fuel (skipWs text) = parseValue strtod fuel text := by
  cases fuel with
  | zero => rfl
  | succ fuel => rw [parseValue, parseValue, skipWs_skipWs]

theorem arrayLoop_skipWs (fuel bound : Nat) (seen : List JsonValue) (text : Bytes) :
    arrayLoop (parseValue strtod fuel) bound seen (skipWs text) =
      arrayLoop (parseValue strtod fuel) bound seen text := by
  cases bound with
  | zero => rfl
  | succ bound => rw [arrayLoop, arrayLoop, parseValue_skipWs]

theorem objectLoop_skipWs (fuel bound : Nat) (seen : List (Bytes × JsonValue)) (text : Bytes) :
    objectLoop (parseValue strtod fuel) bound seen (skipWs text) =
      objectLoop (parseValue strtod fuel) bound seen text := by
  cases bound with
  | zero => rfl
  | succ bound => rw [objectLoop, objectLoop, skipWs_skipWs]

theorem StartsValue.opens {text : Bytes} (starts : StartsValue text) : OpensValue text := by
  rcases starts with ⟨c, rest, rfl, first⟩
  exact ⟨c, rest, skipWs_cons (value_byte c first).1, first⟩

/-- What white space hides stays in front of what follows. -/
theorem skipWs_opened {text : Bytes} {c : UInt8} {tail : Bytes} (opened : skipWs text = c :: tail)
    (more : Bytes) : skipWs (text ++ more) = c :: (tail ++ more) := by
  induction text with
  | nil => cases opened
  | cons first text induction =>
      by_cases white : isSpaceByte first = true
      · rw [skipWs, List.dropWhile_cons_of_pos white] at opened
        rw [List.cons_append, skipWs, List.dropWhile_cons_of_pos white]
        exact induction opened
      · rw [skipWs, List.dropWhile_cons_of_neg white] at opened
        rw [opened, List.cons_append, skipWs, List.dropWhile_cons_of_neg ?_]
        rw [List.cons.injEq] at opened
        exact opened.1 ▸ white

/-! ### Arrays and objects -/

theorem commaSeparated_cons (item next : Bytes) (rest : List Bytes) :
    commaSeparated (item :: next :: rest) = item ++ byte ',' :: commaSeparated (next :: rest) :=
  rfl

theorem length_commaSeparated (texts : List Bytes) :
    texts.length ≤ (commaSeparated texts).length + 1 := by
  induction texts with
  | nil => exact Nat.zero_le _
  | cons text rest induction =>
      cases rest with
      | nil => simp [commaSeparated]
      | cons next rest =>
          rw [commaSeparated_cons, List.length_append]
          simp only [List.length_cons] at induction ⊢
          omega

/-- A row begins like its first text. -/
theorem commaSeparated_opened {text : Bytes} {c : UInt8} {tail : Bytes}
    (opened : skipWs text = c :: tail) (rest : List Bytes) :
    ∃ more, skipWs (commaSeparated (text :: rest)) = c :: more := by
  cases rest with
  | nil => exact ⟨tail, opened⟩
  | cons next rest => exact ⟨_, skipWs_opened opened _⟩

/-- The loop over the rest of an array, after the elements in `seen`. -/
theorem arrayLoop_reads {items : List (Bytes × JsonValue)} (nonempty : items ≠ [])
    {fuel bound : Nat} {seen : List JsonValue} {rest : Bytes}
    (reads : ∀ item ∈ items, Reads strtod item.1 item.2)
    (enough : (commaSeparated (items.map Prod.fst)).length < fuel)
    (iterations : items.length ≤ bound) :
    arrayLoop (parseValue strtod fuel) bound seen
        (commaSeparated (items.map Prod.fst) ++ byte ']' :: rest) =
      some (.arr (seen ++ items.map Prod.snd), rest) := by
  induction items generalizing bound seen with
  | nil => exact absurd rfl nonempty
  | cons item others induction =>
      cases bound with
      | zero => cases iterations
      | succ bound =>
          have itemReads := reads item List.mem_cons_self
          cases others with
          | nil =>
              rw [List.map_singleton, commaSeparated] at enough ⊢
              rcases itemReads fuel (byte ']' :: rest) enough
                (by intro c found; cases found; decide) with ⟨left, parsed, white⟩
              rw [arrayLoop, parsed]
              dsimp only
              rw [white, skipWs_cons (by decide)]
              dsimp only
              rw [if_neg (by decide), if_pos rfl]
              rfl
          | cons next others =>
              rw [List.map_cons, List.map_cons, commaSeparated_cons, ← List.map_cons] at enough ⊢
              rw [List.length_append, List.length_cons] at enough
              rcases itemReads fuel
                (byte ',' :: (commaSeparated ((next :: others).map Prod.fst) ++ byte ']' :: rest))
                (by omega) (by intro c found; cases found; decide) with ⟨left, parsed, white⟩
              rw [List.append_assoc, List.cons_append, arrayLoop, parsed]
              dsimp only
              rw [white, skipWs_cons (by decide)]
              dsimp only
              rw [if_pos rfl, induction (by simp)
                (fun other member => reads other (List.mem_cons_of_mem _ member)) (by omega)
                (Nat.le_of_succ_le_succ iterations), List.append_assoc]
              rfl

/-- An array is read as the row of what its elements are read as. -/
theorem array_readAs {blank : Bytes} {items : List (Bytes × JsonValue)}
    (white : ∀ c ∈ blank, isSpaceByte c = true) (opens : ∀ item ∈ items, OpensValue item.1)
    (reads : ∀ item ∈ items, Reads strtod item.1 item.2) :
    ReadAs strtod (byte '[' :: (blank ++ commaSeparated (items.map Prod.fst) ++ [byte ']']))
      (.arr (items.map Prod.snd)) := by
  intro fuel rest enough _
  cases fuel with
  | zero => omega
  | succ fuel =>
      rw [List.length_cons, List.length_append, List.length_append, List.length_singleton] at enough
      rw [List.cons_append, parseValue, skipWs_cons (by decide)]
      dsimp only
      rw [if_neg (by decide), if_pos rfl, List.append_assoc, List.append_assoc,
        List.singleton_append, parseArray, skipWs_append white]
      cases items with
      | nil =>
          rw [List.map_nil, commaSeparated, List.nil_append, skipWs_cons (by decide)]
          exact if_pos rfl
      | cons item others =>
          have count := length_commaSeparated ((item :: others).map Prod.fst)
          rw [List.length_map] at count
          rcases opens item List.mem_cons_self with ⟨c, tail, opened, first⟩
          rcases commaSeparated_opened opened (others.map Prod.fst) with ⟨more, found⟩
          rw [← List.map_cons] at found
          have begins := skipWs_opened found (byte ']' :: rest)
          have looped := @arrayLoop_reads strtod (item :: others) (by simp) fuel fuel [] rest reads
            (by omega) (by omega)
          rw [← arrayLoop_skipWs, begins] at looped
          rw [begins]
          dsimp only
          rw [if_neg (value_byte c first).2, looped]
          rfl

/-- The text is read as a field with this key and value, up to what follows it. -/
def ReadsField (strtod : Bytes → Rat) (text key : Bytes) (value : JsonValue) : Prop :=
  ∀ fuel bound seen c rest, text.length < fuel → isSpaceByte c = false → isNumberByte c = false →
    objectLoop (parseValue strtod fuel) (bound + 1) seen (text ++ c :: rest) =
      if c = byte ',' then objectLoop (parseValue strtod fuel) bound (emplace seen key value) rest
      else if c = byte '}' then some (.obj (emplace seen key value), rest)
      else none

/-- A field is its key and its value with a colon between them. -/
theorem field_reads {name text key : Bytes} {value : JsonValue}
    (named : ∀ rest, ∃ left, parseString (skipWs (name ++ byte ':' :: rest)) = some (key, left) ∧
      skipWs left = byte ':' :: rest)
    (reads : Reads strtod text value) :
    ReadsField strtod (name ++ byte ':' :: text) key value := by
  intro fuel bound seen c rest enough solid ends
  rw [List.length_append, List.length_cons] at enough
  rcases named (text ++ c :: rest) with ⟨afterName, keyRead, colon⟩
  rcases reads fuel (c :: rest) (by omega) (by intro other found; cases found; exact ends) with
    ⟨left, read, white⟩
  rw [List.append_assoc, List.cons_append, objectLoop, keyRead]
  dsimp only
  rw [colon]
  dsimp only
  rw [if_pos rfl, read]
  dsimp only
  rw [white, skipWs_cons solid]

/-- What an object holds whose fields are met in this order. -/
def collected (fields seen : List (Bytes × JsonValue)) : List (Bytes × JsonValue) :=
  fields.foldl (fun seen field => emplace seen field.1 field.2) seen

/-- A field as it is written, its key and its value. -/
abbrev FieldText :=
  Bytes × Bytes × JsonValue

/-- The loop over the rest of an object, after the fields in `seen`. -/
theorem objectLoop_reads {fields : List FieldText} (nonempty : fields ≠ [])
    {fuel bound : Nat} {seen : List (Bytes × JsonValue)} {rest : Bytes}
    (reads : ∀ field ∈ fields, ReadsField strtod field.1 field.2.1 field.2.2)
    (enough : (commaSeparated (fields.map Prod.fst)).length < fuel)
    (iterations : fields.length ≤ bound) :
    objectLoop (parseValue strtod fuel) bound seen
        (commaSeparated (fields.map Prod.fst) ++ byte '}' :: rest) =
      some (.obj (collected (fields.map Prod.snd) seen), rest) := by
  induction fields generalizing bound seen with
  | nil => exact absurd rfl nonempty
  | cons field others induction =>
      cases bound with
      | zero => cases iterations
      | succ bound =>
          have fieldReads := reads field List.mem_cons_self
          cases others with
          | nil =>
              rw [List.map_singleton, commaSeparated] at enough ⊢
              rw [fieldReads fuel bound seen _ _ enough (by decide) (by decide),
                if_neg (by decide), if_pos rfl]
              rfl
          | cons next others =>
              rw [List.map_cons, List.map_cons, commaSeparated_cons, ← List.map_cons] at enough ⊢
              rw [List.length_append, List.length_cons] at enough
              rw [List.append_assoc, List.cons_append,
                fieldReads fuel bound seen _ _ (by omega) (by decide) (by decide), if_pos rfl,
                induction (by simp)
                  (fun other member => reads other (List.mem_cons_of_mem _ member))
                  (by omega) (Nat.le_of_succ_le_succ iterations)]
              rfl

/-- An object is read as its fields, the first of every key. -/
theorem object_readAs {blank : Bytes} {fields : List FieldText}
    (white : ∀ c ∈ blank, isSpaceByte c = true)
    (opens : ∀ field ∈ fields, ∃ tail, skipWs field.1 = byte '"' :: tail)
    (reads : ∀ field ∈ fields, ReadsField strtod field.1 field.2.1 field.2.2) :
    ReadAs strtod (byte '{' :: (blank ++ commaSeparated (fields.map Prod.fst) ++ [byte '}']))
      (.obj (collected (fields.map Prod.snd) [])) := by
  intro fuel rest enough _
  cases fuel with
  | zero => omega
  | succ fuel =>
      rw [List.length_cons, List.length_append, List.length_append, List.length_singleton] at enough
      rw [List.cons_append, parseValue, skipWs_cons (by decide)]
      dsimp only
      rw [if_pos rfl, List.append_assoc, List.append_assoc, List.singleton_append, parseObject,
        skipWs_append white]
      cases fields with
      | nil =>
          rw [List.map_nil, commaSeparated, List.nil_append, skipWs_cons (by decide)]
          exact if_pos rfl
      | cons field others =>
          have count := length_commaSeparated ((field :: others).map Prod.fst)
          rw [List.length_map] at count
          rcases opens field List.mem_cons_self with ⟨tail, opened⟩
          rcases commaSeparated_opened opened (others.map Prod.fst) with ⟨more, found⟩
          rw [← List.map_cons] at found
          have begins := skipWs_opened found (byte '}' :: rest)
          have looped := @objectLoop_reads strtod (field :: others) (by simp) fuel fuel [] rest
            reads (by omega) (by omega)
          rw [← objectLoop_skipWs, begins] at looped
          rw [begins]
          dsimp only
          rw [if_neg (by decide), looped]

/-! ### Trees -/

theorem arr_readAs {items : List JsonTree}
    (reads : ∀ item ∈ items, ReadAs strtod item.write item.value) :
    ReadAs strtod (JsonTree.arr items).write (JsonTree.arr items).value := by
  have read := @array_readAs strtod [] (items.map fun item => (item.write, item.value))
    (fun _ member => nomatch member)
    (by
      intro text member
      rcases List.mem_map.mp member with ⟨item, -, rfl⟩
      exact item.write_starts.opens)
    (by
      intro text member
      rcases List.mem_map.mp member with ⟨item, inside, rfl⟩
      exact (reads item inside).reads)
  rw [List.map_map, List.map_map, List.nil_append] at read
  rw [JsonTree.write, jarr, JsonTree.writeAll_eq, JsonTree.value, JsonTree.valueAll_eq]
  exact read

theorem emplace_new {seen : List (Bytes × JsonValue)} {key : Bytes} {value : JsonValue}
    (fresh : key ∉ seen.map Prod.fst) : emplace seen key value = seen ++ [(key, value)] := by
  have absent : seen.lookup key = none := by
    rw [List.lookup_eq_none_iff]
    intro field member
    rw [bne_iff_ne]
    intro same
    exact fresh (same ▸ List.mem_map_of_mem member)
  rw [emplace, absent]
  rfl

/-- Fields with keys of their own are all kept. -/
theorem collected_distinct {fields seen : List (Bytes × JsonValue)}
    (distinct : (seen.map Prod.fst ++ fields.map Prod.fst).Nodup) :
    collected fields seen = seen ++ fields := by
  induction fields generalizing seen with
  | nil => exact (List.append_nil seen).symm
  | cons field others induction =>
      rw [List.map_cons, List.nodup_append] at distinct
      have fresh : field.1 ∉ seen.map Prod.fst := fun member =>
        distinct.2.2 _ member _ List.mem_cons_self rfl
      have later : ((seen ++ [field]).map Prod.fst ++ others.map Prod.fst).Nodup := by
        rw [List.map_append, List.append_assoc, List.map_singleton, List.singleton_append,
          List.nodup_append]
        exact distinct
      rw [collected, List.foldl_cons, emplace_new fresh, ← collected, induction later,
        List.append_assoc]
      rfl

/-- A field of an object as it is written. -/
def fieldText (field : Bytes × JsonTree) : Bytes :=
  jstr field.1 ++ byte ':' :: field.2.write

theorem fieldText_opens (field : Bytes × JsonTree) :
    ∃ tail, skipWs (fieldText field) = byte '"' :: tail := by
  rw [fieldText, jstr, List.cons_append, skipWs_cons (by decide)]
  exact ⟨_, rfl⟩

theorem fieldText_reads {field : Bytes × JsonTree}
    (reads : ReadAs strtod field.2.write field.2.value) :
    ReadsField strtod (fieldText field) field.1 field.2.value := by
  apply field_reads _ reads.reads
  intro rest
  refine ⟨byte ':' :: rest, ?_, skipWs_cons (by decide)⟩
  have opens : skipWs (jstr field.1 ++ byte ':' :: rest) = jstr field.1 ++ byte ':' :: rest := by
    rw [jstr, List.cons_append]
    exact skipWs_cons (by decide)
  rw [opens, parseString_jstr]

theorem obj_readAs {fields : List (Bytes × JsonTree)} (distinct : (fields.map Prod.fst).Nodup)
    (reads : ∀ field ∈ fields, ReadAs strtod field.2.write field.2.value) :
    ReadAs strtod (JsonTree.obj fields).write (JsonTree.obj fields).value := by
  have read := @object_readAs strtod []
    (fields.map fun field => (fieldText field, field.1, field.2.value))
    (fun _ member => nomatch member)
    (by
      intro text member
      rcases List.mem_map.mp member with ⟨field, -, rfl⟩
      exact fieldText_opens field)
    (by
      intro text member
      rcases List.mem_map.mp member with ⟨field, inside, rfl⟩
      exact fieldText_reads (reads field inside))
  rw [List.map_map, List.map_map, collected_distinct (by rw [List.map_map]; exact distinct),
    List.nil_append, List.nil_append] at read
  rw [JsonTree.write, jobjV, JsonTree.writeFields_eq, List.map_map, JsonTree.value,
    JsonTree.valueFields_eq]
  exact read

/-- A tree is read back from its text, whatever follows the text. -/
theorem JsonTree.Exact.readAs (exact : StrtodExact strtod) {tree : JsonTree}
    (writable : tree.Exact) :
    ReadAs strtod tree.write tree.value := by
  induction writable with
  | str => exact str_readAs _
  | bool => exact bool_readAs _
  | int small => exact int_readAs exact small
  | arr _ induction => exact arr_readAs induction
  | obj distinct _ induction => exact obj_readAs distinct induction

end Reading

/-! ## Messages -/

@[simp] theorem textField_key (key text : String) : (textField key text).1 = bytes key := rfl

@[simp] theorem textField_exact (key text : String) : (textField key text).2.Exact := .str

@[simp] theorem intField_key (key : String) (number : Int) : (intField key number).1 = bytes key :=
  rfl

@[simp] theorem bool_exact (value : Bool) : (JsonTree.bool value).Exact := .bool

@[simp] theorem uint32_exact (key : String) (number : UInt32) :
    (intField key number.toNat).2.Exact := by
  refine .int ?_
  have bound := number.toNat_lt
  rw [Int.natAbs_natCast]
  omega

theorem int32_exact (number : Int32) : (JsonTree.int number.toInt).Exact := by
  refine .int ?_
  have low := number.le_toInt
  have high := number.toInt_lt
  omega

@[simp] theorem int32Field_exact (key : String) (number : Int32) :
    (intField key number.toInt).2.Exact :=
  int32_exact number

@[simp] theorem span_exact (span : SourceSpan) : (spanTree span).Exact := by
  refine .obj ?_ (by simp)
  simp only [List.map_cons, List.map_nil, intField_key]
  decide

@[simp] theorem diagnostic_exact (diagnostic : Diagnostic) : (diagnosticTree diagnostic).Exact := by
  refine .obj ?_ (by simp)
  simp only [List.map_cons, List.map_nil, textField_key]
  decide

theorem node_exact (message : NodeMessage) : (nodeTree message).Exact := by
  rw [nodeTree]
  cases message.message with
  | none =>
      refine .obj ?_ (by simp)
      simp only [List.append_nil, List.map_cons, List.map_nil, textField_key, intField_key]
      decide
  | some text =>
      refine .obj ?_ (by simp)
      simp only [List.cons_append, List.nil_append, List.map_cons, List.map_nil, textField_key,
        intField_key]
      decide

@[simp] theorem arguments_exact (call : RobotCommand) :
    (JsonTree.obj (commandFields call).2).Exact := by
  cases call with
  | driveForward | driveBackward =>
      refine .obj ?_ (by simp [commandFields])
      simp only [commandFields, List.map_cons, List.map_nil, intField_key]
      decide
  | _ => exact .obj (by simp [commandFields]) (by simp [commandFields])

@[simp] theorem reading_exact (reading : SensorReading) : (sensorFields reading).2.Exact := by
  cases reading with
  | distanceCm value => exact int32_exact value
  | _ => exact .bool

/-- Every message is a tree the writer and the parser agree on. -/
theorem message_exact (message : HostMessage) : (messageTree message).Exact := by
  cases message with
  | node message => exact node_exact message
  | diagnostics ok diagnostics =>
      have listed : (JsonTree.arr (diagnostics.map diagnosticTree)).Exact := by
        refine .arr ?_
        intro tree member
        rcases List.mem_map.mp member with ⟨diagnostic, -, rfl⟩
        exact diagnostic_exact diagnostic
      refine .obj ?_ (by simp [listed])
      simp only [List.map_cons, List.map_nil, textField_key]
      decide
  | _ =>
      refine .obj ?_ (by simp)
      simp only [List.map_cons, List.map_nil, textField_key]
      decide

/-- The text of a tree is read to its end. -/
theorem JsonTree.Exact.parsed {strtod : Bytes → Rat} {tree : JsonTree} (writable : tree.Exact)
    (exact : StrtodExact strtod) : parseText strtod tree.write = some (tree.value, []) := by
  have read := writable.readAs exact (tree.write.length + 1) [] (Nat.lt_succ_self _)
    (by intro c found; cases found)
  rw [List.append_nil] at read
  rw [parseText, read]
  rfl

/-- What the writer makes of a tree is read back as that tree, up to the end of the
text; so is every message the harness emits, and its fields are those of the message. -/
theorem json_round_trip {strtod : Bytes → Rat} (exact : StrtodExact strtod) :
    (∀ tree : JsonTree, tree.Exact →
      parseText strtod tree.write = some (tree.value, []) ∧
      ∀ fuel rest, tree.write.length < fuel → EndsNumber rest →
        parseValue strtod fuel (tree.write ++ rest) = some (tree.value, rest)) ∧
    ∀ message : HostMessage,
      jsonParse strtod (messageText message) = some (messageTree message).value ∧
      ((∀ text ∈ quotedTexts message, OfBytes text) →
        (jsonParse strtod (messageText message)).bind readMessage = some message) := by
  refine ⟨fun tree writable => ⟨writable.parsed exact, writable.readAs exact⟩, ?_⟩
  intro message
  have parses : jsonParse strtod (messageText message) = some (messageTree message).value := by
    rw [jsonParse, messageText, (message_exact message).parsed exact]
    rfl
  refine ⟨parses, ?_⟩
  intro ofBytes
  rw [parses, Option.bind_some]
  exact readMessage_value ofBytes

/-! ## A decimal reader -/

/-- What `strtod` reads from the decimal text of an integer. -/
def readDecimal (text : Bytes) : Rat :=
  match text.map Char.ofUInt8 with
  | '-' :: digits => -(Nat.ofDigitChars 10 digits 0 : Rat)
  | digits => Nat.ofDigitChars 10 digits 0

theorem ofUInt8_toUInt8 {digit : Char} (isDigit : digit.isDigit = true) :
    Char.ofUInt8 digit.toUInt8 = digit := by
  apply Char.ext
  apply UInt32.toNat_inj.mp
  change digit.toUInt8.toUInt32.toNat = digit.toNat
  rw [UInt8.toNat_toUInt32]
  exact (digit_code isDigit).2

theorem digits_restored (magnitude : Nat) :
    ((Nat.toDigits 10 magnitude).map Char.toUInt8).map Char.ofUInt8 =
      Nat.toDigits 10 magnitude := by
  rw [List.map_map, List.map_congr_left, List.map_id]
  intro digit member
  exact ofUInt8_toUInt8 (Nat.isDigit_of_mem_toDigits (by decide) (by decide) member)

theorem readDecimal_exact : StrtodExact readDecimal := by
  intro number _
  cases number with
  | ofNat magnitude =>
      rw [readDecimal, jnum, digits_restored]
      split
      next digits negative =>
        have digit := Nat.isDigit_of_mem_toDigits (by decide) (by decide)
          (negative ▸ List.mem_cons_self : '-' ∈ Nat.toDigits 10 magnitude)
        exact absurd digit (by decide)
      next => rw [Nat.ofDigitChars_ten_toDigits]; rfl
  | negSucc less =>
      rw [readDecimal, jnum, List.map_cons, digits_restored]
      change -(Nat.ofDigitChars 10 (Nat.toDigits 10 (less + 1)) 0 : Rat) = _
      rw [Nat.ofDigitChars_ten_toDigits]
      rfl

/-- A field with a control byte in its key and one above ASCII in its value. -/
def noteTree : JsonTree :=
  .obj [(bytes "a\n", .arr [.int (-7), .bool true, .str [200, 34, 1]]), (bytes "b", .int 40)]

theorem noteTree_exact : noteTree.Exact := by
  refine .obj (by decide) ?_
  simp only [List.forall_mem_cons, List.not_mem_nil, IsEmpty.forall_iff, implies_true, and_true]
  refine ⟨.arr ?_, .int (by decide)⟩
  simp only [List.forall_mem_cons, List.not_mem_nil, IsEmpty.forall_iff, implies_true, and_true]
  exact ⟨.int (by decide), .bool, .str⟩

theorem note_round_trip : parseText readDecimal noteTree.write = some (noteTree.value, []) :=
  ((json_round_trip readDecimal_exact).1 noteTree noteTree_exact).1

end CardCode.Harness
