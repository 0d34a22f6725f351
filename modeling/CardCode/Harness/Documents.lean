import CardCode.Foundation.Utf8
import CardCode.Harness.JsonRoundTrip

/-! # JSON documents

The texts of the JSON grammar: every character of a string is spelled in one of the ways
JSON has for it, and white space stands wherever it may. `json_parse` reads each of them
as its value, but a character written as a pair of surrogates becomes bytes that are no
UTF-8.
-/

namespace CardCode.Harness

/-! ## Characters -/

/-- The four digits of a `\u` escape and the code unit they denote. -/
structure CodeUnit where
  first : UInt8
  second : UInt8
  third : UInt8
  fourth : UInt8
  code : UInt32
  denotes : hexValues [first, second, third, fourth] 0 = some code

/-- One character of a string as it is spelled. -/
inductive SpelledChar where
  | plain (c : Char) (unquoted : c ≠ '"') (unescaped : c ≠ '\\')
  | short (letter meant : UInt8) (known : unescape letter = some meant)
  | unit (digits : CodeUnit) (scalar : digits.code < 0xD800 ∨ 0xE000 ≤ digits.code)
  | pair (high low : CodeUnit) (isHigh : 0xD800 ≤ high.code ∧ high.code < 0xDC00)
      (isLow : 0xDC00 ≤ low.code ∧ low.code < 0xE000)

abbrev SpelledText :=
  List SpelledChar

def CodeUnit.write (digits : CodeUnit) : Bytes :=
  [byte '\\', byte 'u', digits.first, digits.second, digits.third, digits.fourth]

namespace SpelledChar

def write : SpelledChar → Bytes
  | plain c _ _ => String.utf8EncodeChar c
  | short letter _ _ => [byte '\\', letter]
  | unit digits _ => digits.write
  | pair high low _ _ => high.write ++ low.write

/-- What `parse_string` makes of the character. -/
def decoded : SpelledChar → Bytes
  | plain c _ _ => String.utf8EncodeChar c
  | short _ meant _ => [meant]
  | unit digits _ => encodeCodePoint digits.code
  | pair high low _ _ => encodeCodePoint high.code ++ encodeCodePoint low.code

def isPair : SpelledChar → Bool
  | pair .. => true
  | _ => false

end SpelledChar

def SpelledText.write (text : SpelledText) : Bytes :=
  text.flatMap SpelledChar.write

def SpelledText.decoded (text : SpelledText) : Bytes :=
  text.flatMap SpelledChar.decoded

/-- No character is written as a pair of surrogates. -/
def SpelledText.Unpaired (text : SpelledText) : Prop :=
  ∀ c ∈ text, c.isPair = false

/-! ### Reading -/

theorem stringLoop_unit (digits : CodeUnit) (rest out : Bytes) :
    stringLoop (digits.write ++ rest) out =
      stringLoop rest (out ++ encodeCodePoint digits.code) := by
  change stringLoop (byte '\\' :: byte 'u' :: digits.first :: digits.second :: digits.third ::
    digits.fourth :: rest) out = _
  rw [stringLoop.eq_def]
  dsimp only
  rw [if_neg (by decide), if_pos rfl, if_pos rfl, digits.denotes]

/-- Bytes that neither end a string nor escape anything are read as they are. -/
theorem stringLoop_plain {text : Bytes} (plain : ∀ c ∈ text, c ≠ byte '"' ∧ c ≠ byte '\\')
    (rest out : Bytes) : stringLoop (text ++ rest) out = stringLoop rest (out ++ text) := by
  induction text generalizing out with
  | nil => rw [List.nil_append, List.append_nil]
  | cons c text induction =>
      have first := plain c List.mem_cons_self
      rw [List.cons_append, stringLoop.eq_def]
      dsimp only
      rw [if_neg first.1, if_neg first.2,
        induction fun other member => plain other (List.mem_cons_of_mem c member),
        List.append_assoc]
      rfl

/-- The bytes of a character are not those of another one in ASCII. -/
theorem encoded_ne {c other : Char} (differs : c ≠ other) (ascii : other.toNat < 128) :
    ∀ b ∈ String.utf8EncodeChar c, b ≠ byte other := by
  intro b member equal
  have code : (byte other).toNat = other.toNat := by
    rw [byte, Char.toUInt8, UInt32.toNat_toUInt8]
    change other.toNat % 256 = other.toNat
    omega
  by_cases narrow : c.toNat < 128
  · rw [ascii_encoded narrow, List.mem_singleton] at member
    rw [member] at equal
    have same : c.toNat = other.toNat := by
      rw [← code, ← equal, UInt8.toNat_ofNat']
      omega
    exact differs (Char.toNat_inj.mp same)
  · have high := high_bytes (Nat.le_of_not_lt narrow) b member
    rw [equal, code] at high
    omega

theorem stringLoop_spelled (c : SpelledChar) (rest out : Bytes) :
    stringLoop (c.write ++ rest) out = stringLoop rest (out ++ c.decoded) := by
  cases c with
  | plain c unquoted unescaped =>
      apply stringLoop_plain
      exact fun b member => ⟨encoded_ne unquoted (by decide) b member,
        encoded_ne unescaped (by decide) b member⟩
  | short letter meant known =>
      refine stringLoop_short ?_ known rest out
      intro equal
      rw [equal] at known
      cases known
  | unit digits => exact stringLoop_unit digits rest out
  | pair high low =>
      rw [SpelledChar.write, List.append_assoc, stringLoop_unit, stringLoop_unit,
        List.append_assoc]
      rfl

theorem parseString_spelled (text : SpelledText) (rest : Bytes) :
    parseString (byte '"' :: (text.write ++ byte '"' :: rest)) = some (text.decoded, rest) := by
  have loop (out : Bytes) :
      stringLoop (text.write ++ byte '"' :: rest) out = some (out ++ text.decoded, rest) := by
    induction text generalizing out with
    | nil =>
        change stringLoop (byte '"' :: rest) out = some (out ++ [], rest)
        rw [stringLoop.eq_def, List.append_nil]
        exact if_pos rfl
    | cons c text induction =>
        rw [SpelledText.write, List.flatMap_cons, ← SpelledText.write, List.append_assoc,
          stringLoop_spelled, induction, List.append_assoc]
        rfl
  rw [parseString, if_pos rfl, loop, List.nil_append]

/-! ### Encoding -/

theorem lead_masked : ∀ lead : UInt8,
    (lead < 0x20 → lead &&& 0x1F = lead) ∧ (lead < 0x10 → lead &&& 0x0F = lead) := by
  apply forall_bytes
  decide +kernel

/-- `encode_code_point` writes UTF-8 where it is given a character of the basic plane. -/
theorem encodeCodePoint_scalar {c : Char} (basic : c.val < 0x10000) :
    encodeCodePoint c.val = String.utf8EncodeChar c := by
  have bound : c.val.toNat < 65536 := UInt32.lt_iff_toNat_lt.mp basic
  have last : ((0x80 : UInt32) ||| (c.val &&& 0x3F)).toUInt8 = c.val.toUInt8 &&& 0x3F ||| 0x80 := by
    rw [UInt32.toUInt8_or, UInt32.toUInt8_and]
    exact UInt8.or_comm _ _
  rw [String.utf8EncodeChar_eq_utf8EncodeCharFast, String.utf8EncodeCharFast, encodeCodePoint]
  simp only [UInt32.lt_iff_toNat_lt, UInt32.le_iff_toNat_le]
  split_ifs with one oneFast two twoFast three threeFast
  all_goals simp only [UInt32.reduceToNat] at *
  all_goals try omega
  · have lead : (c.val >>> 6).toUInt8 < 0x20 := by
      rw [UInt8.lt_iff_toNat_lt, UInt32.toNat_toUInt8, UInt32.toNat_shiftRight]
      change c.val.toNat >>> 6 % 256 < 32
      rw [Nat.shiftRight_eq_div_pow]
      omega
    rw [last, UInt32.toUInt8_or, (lead_masked _).1 lead, UInt8.or_comm]
    rfl
  · have lead : (c.val >>> 12).toUInt8 < 0x10 := by
      rw [UInt8.lt_iff_toNat_lt, UInt32.toNat_toUInt8, UInt32.toNat_shiftRight]
      change c.val.toNat >>> 12 % 256 < 16
      rw [Nat.shiftRight_eq_div_pow]
      omega
    rw [last, UInt32.toUInt8_or, UInt32.toUInt8_or, UInt32.toUInt8_and, (lead_masked _).2 lead,
      UInt8.or_comm, UInt8.or_comm (UInt32.toUInt8 0x80)]
    rfl

theorem hexValue_lt (c : UInt8) : ∀ digit ∈ hexValue c, digit < 16 := by
  have each : ∀ c : UInt8, (hexValue c).all (fun digit => digit < 16) = true := by
    apply forall_bytes
    decide +kernel
  intro digit found
  exact of_decide_eq_true ((Option.all_eq_true _ _).mp (each c) digit found)

/-- Every digit adds four bits. -/
theorem hexValues_lt {digits : List UInt8} {start code : UInt32} {bits : Nat}
    (small : start.toNat < 2 ^ bits) (found : hexValues digits start = some code) :
    code.toNat < 2 ^ (bits + 4 * digits.length) := by
  induction digits generalizing start bits with
  | nil =>
      cases found
      exact small
  | cons c digits induction =>
      rw [hexValues] at found
      split at found
      next digit value =>
        have next : (start <<< 4 ||| digit).toNat < 2 ^ (bits + 4) := by
          rw [UInt32.toNat_or, UInt32.toNat_shiftLeft]
          apply Nat.or_lt_two_pow
          · change start.toNat <<< 4 % 2 ^ 32 < _
            rw [Nat.shiftLeft_eq, Nat.pow_add]
            exact Nat.lt_of_le_of_lt (Nat.mod_le _ _) (by omega)
          · have range := UInt32.lt_iff_toNat_lt.mp (hexValue_lt c digit value)
            have sixteen : (16 : Nat) ≤ 2 ^ (bits + 4) :=
              Nat.pow_le_pow_right Nat.two_pos (Nat.le_add_left 4 bits)
            exact Nat.lt_of_lt_of_le range sixteen
        have bound := induction next found
        rw [List.length_cons]
        rw [Nat.add_assoc] at bound
        rw [Nat.mul_add, Nat.mul_one, Nat.add_comm _ 4]
        exact bound
      next => cases found

theorem CodeUnit.code_lt (digits : CodeUnit) : digits.code.toNat < 65536 := by
  have start : (0 : UInt32).toNat < 2 ^ 0 := by decide
  have bound := hexValues_lt start digits.denotes
  simp only [List.length_cons, List.length_nil] at bound
  exact Nat.lt_of_lt_of_eq bound (by decide)

theorem unescape_ascii (letter : UInt8) : ∀ meant ∈ unescape letter, meant < 0x80 := by
  have each : ∀ letter : UInt8, (unescape letter).all (fun meant => meant < 0x80) = true := by
    apply forall_bytes
    decide +kernel
  intro meant found
  exact of_decide_eq_true ((Option.all_eq_true _ _).mp (each letter) meant found)

/-- What is not a pair of surrogates is read as one character. -/
theorem decoded_char {c : SpelledChar} (single : c.isPair = false) :
    ∃ meant, c.decoded = String.utf8EncodeChar meant := by
  cases c with
  | plain c => exact ⟨c, rfl⟩
  | short letter meant known =>
      have ascii := UInt8.lt_iff_toNat_lt.mp (unescape_ascii letter meant known)
      refine ⟨Char.ofUInt8 meant, ?_⟩
      rw [@ascii_encoded (Char.ofUInt8 meant) ascii]
      change [meant] = [UInt8.ofNat meant.toNat]
      rw [UInt8.ofNat_toNat]
  | unit digits scalar =>
      have bound := digits.code_lt
      simp only [UInt32.lt_iff_toNat_lt, UInt32.le_iff_toNat_le] at scalar
      have valid : digits.code.isValidChar := by
        rw [UInt32.isValidChar, Nat.isValidChar]
        simp only [UInt32.reduceToNat] at scalar
        omega
      let meant : Char := ⟨digits.code, valid⟩
      exact ⟨meant, @encodeCodePoint_scalar meant (UInt32.lt_iff_toNat_lt.mpr bound)⟩
  | pair => cases single

/-- The first half of a pair begins as no character does. -/
theorem high_surrogate {code : UInt32} (isHigh : 0xD800 ≤ code ∧ code < 0xDC00) :
    ∃ second rest, encodeCodePoint code = 0xED :: second :: rest ∧ 0xA0 ≤ second := by
  have each : ∀ offset : Fin 1024,
      (encodeCodePoint (UInt32.ofNat (0xD800 + offset))).head? = some 0xED ∧
        (encodeCodePoint (UInt32.ofNat (0xD800 + offset)))[1]?.any (0xA0 ≤ ·) = true := by
    decide +kernel
  rcases isHigh with ⟨low, high⟩
  rw [UInt32.le_iff_toNat_le] at low
  rw [UInt32.lt_iff_toNat_lt] at high
  simp only [UInt32.reduceToNat] at low high
  have found := each ⟨code.toNat - 0xD800, by omega⟩
  have restored : 0xD800 + (code.toNat - 0xD800) = code.toNat := by omega
  dsimp only at found
  rw [restored, UInt32.ofNat_toNat] at found
  rcases found with ⟨lead, present⟩
  rcases (Option.any_eq_true _ _).mp present with ⟨second, member, large⟩
  cases bytes : encodeCodePoint code with
  | nil =>
      rw [bytes] at lead
      cases lead
  | cons first tail =>
      rw [bytes, List.head?_cons] at lead
      rw [bytes, List.getElem?_cons_succ] at member
      cases tail with
      | nil => cases member
      | cons other rest =>
          cases lead
          cases member
          exact ⟨second, rest, rfl, of_decide_eq_true large⟩

/-- A text is read as UTF-8 exactly where it is spelled without surrogates. -/
theorem decoded_valid_iff (text : SpelledText) : ValidUtf8 text.decoded ↔ text.Unpaired := by
  induction text with
  | nil => exact ⟨fun _ => nofun, fun _ => .nil⟩
  | cons c text induction =>
      rw [SpelledText.decoded, List.flatMap_cons, ← SpelledText.decoded, SpelledText.Unpaired,
        List.forall_mem_cons, ← SpelledText.Unpaired, ← induction]
      cases kind : c.isPair with
      | false =>
          rcases decoded_char kind with ⟨meant, decoded⟩
          rw [decoded, ValidUtf8.encoded_append_iff]
          exact ⟨fun valid => ⟨rfl, valid⟩, And.right⟩
      | true =>
          cases c with
          | pair high low isHigh =>
              rcases high_surrogate isHigh with ⟨second, rest, begins, large⟩
              rw [SpelledChar.decoded, begins]
              exact ⟨fun valid => absurd valid (ValidUtf8.not_surrogate large),
                fun both => nomatch both.1⟩
          | plain | short | unit => cases kind

/-! ## Documents -/

/-- White space. -/
abbrev Blank :=
  { text : Bytes // ∀ c ∈ text, isSpaceByte c = true }

/-- The name of a field and the white space around it. -/
structure Key where
  before : Blank
  text : SpelledText
  after : Blank

/-- A JSON text. -/
inductive Document where
  | null
  | bool (value : Bool)
  | num (spelling : Bytes) (nonempty : spelling ≠ [])
      (digits : ∀ c ∈ spelling, isNumberByte c = true)
  | str (text : SpelledText)
  | arr (blank : Blank) (items : List Document)
  | obj (blank : Blank) (fields : List (Key × Document))
  | padded (before : Blank) (inner : Document) (after : Blank)

def SpelledText.quoted (text : SpelledText) : Bytes :=
  byte '"' :: (text.write ++ [byte '"'])

def Key.write (key : Key) : Bytes :=
  key.before.val ++ key.text.quoted ++ key.after.val

namespace Document

mutual

def write : Document → Bytes
  | null => bytes "null"
  | bool value => jbool value
  | num spelling _ _ => spelling
  | str text => text.quoted
  | arr blank items => byte '[' :: (blank.val ++ commaSeparated (writeAll items) ++ [byte ']'])
  | obj blank fields =>
      byte '{' :: (blank.val ++ commaSeparated (writeFields fields) ++ [byte '}'])
  | padded before inner after => before.val ++ inner.write ++ after.val

def writeAll : List Document → List Bytes
  | [] => []
  | item :: rest => item.write :: writeAll rest

def writeFields : List (Key × Document) → List Bytes
  | [] => []
  | (key, document) :: rest => (key.write ++ byte ':' :: document.write) :: writeFields rest

end

mutual

/-- What a document is read as; of fields of one name the first counts. -/
def value (strtod : Bytes → Rat) : Document → JsonValue
  | null => .null
  | bool value => .bool value
  | num spelling _ _ => .num (strtod spelling)
  | str text => .str text.decoded
  | arr _ items => .arr (valueAll strtod items)
  | obj _ fields => .obj (collected (valueFields strtod fields) [])
  | padded _ inner _ => inner.value strtod

def valueAll (strtod : Bytes → Rat) : List Document → List JsonValue
  | [] => []
  | item :: rest => item.value strtod :: valueAll strtod rest

def valueFields (strtod : Bytes → Rat) : List (Key × Document) → List (Bytes × JsonValue)
  | [] => []
  | (key, document) :: rest =>
      (key.text.decoded, document.value strtod) :: valueFields strtod rest

end

/-- The documents directly inside a document. -/
def parts : Document → List Document
  | arr _ items => items
  | obj _ fields => fields.map Prod.snd
  | padded _ inner _ => [inner]
  | _ => []

/-- A property that every document inherits from its parts. -/
theorem induct {Property : Document → Prop}
    (step : ∀ document, (∀ part ∈ document.parts, Property part) → Property document) :
    ∀ document, Property document := by
  intro document
  refine @Document.rec Property (fun items => ∀ item ∈ items, Property item)
    (fun fields => ∀ field ∈ fields, Property field.2) (fun field => Property field.2)
    ?_ ?_ ?_ ?_ ?_ ?_ ?_ (by simp) ?_ (by simp) ?_ ?_ document
  · exact step null nofun
  · exact fun value => step (bool value) nofun
  · exact fun spelling nonempty digits => step (num spelling nonempty digits) nofun
  · exact fun text => step (str text) nofun
  · exact fun blank items each => step (arr blank items) each
  · intro blank fields each
    apply step
    intro part member
    rcases List.mem_map.mp member with ⟨field, inside, rfl⟩
    exact each field inside
  · intro before inner after holds
    apply step
    intro part member
    rw [List.mem_singleton.mp member]
    exact holds
  · exact fun item rest holds others => List.forall_mem_cons.mpr ⟨holds, others⟩
  · exact fun field rest holds others => List.forall_mem_cons.mpr ⟨holds, others⟩
  · exact fun key document holds => holds

theorem writeAll_eq (items : List Document) : writeAll items = items.map write := by
  induction items with
  | nil => rfl
  | cons item rest induction => rw [writeAll, induction, List.map_cons]

theorem valueAll_eq (strtod : Bytes → Rat) (items : List Document) :
    valueAll strtod items = items.map (value strtod) := by
  induction items with
  | nil => rfl
  | cons item rest induction => rw [valueAll, induction, List.map_cons]

theorem writeFields_eq (fields : List (Key × Document)) :
    writeFields fields = fields.map fun field => field.1.write ++ byte ':' :: field.2.write := by
  induction fields with
  | nil => rfl
  | cons field rest induction => rw [writeFields, induction, List.map_cons]

theorem valueFields_eq (strtod : Bytes → Rat) (fields : List (Key × Document)) :
    valueFields strtod fields =
      fields.map fun field => (field.1.text.decoded, field.2.value strtod) := by
  induction fields with
  | nil => rfl
  | cons field rest induction => rw [valueFields, induction, List.map_cons]

end Document

/-! ### Reading -/

theorem skipWs_quoted (text : SpelledText) (rest : Bytes) :
    skipWs (text.quoted ++ rest) = byte '"' :: (text.write ++ byte '"' :: rest) := by
  rw [SpelledText.quoted, List.cons_append, List.append_assoc, List.singleton_append,
    skipWs_cons (by decide)]

theorem skipWs_blank (blank : Blank) {c : UInt8} (solid : isSpaceByte c = false) (rest : Bytes) :
    skipWs (blank.val ++ c :: rest) = c :: rest := by
  rw [skipWs_append blank.property, skipWs_cons solid]

theorem Key.skipWs_write (key : Key) (rest : Bytes) :
    skipWs (key.write ++ rest) =
      byte '"' :: (key.text.write ++ byte '"' :: (key.after.val ++ rest)) := by
  rw [Key.write, List.append_assoc, List.append_assoc, skipWs_append key.before.property,
    skipWs_quoted]

namespace Document

section Reading

variable {strtod : Bytes → Rat}

theorem quoted_readAs (text : SpelledText) : ReadAs strtod text.quoted (.str text.decoded) := by
  intro fuel rest enough _
  cases fuel with
  | zero => omega
  | succ fuel =>
      rw [parseValue, skipWs_quoted]
      dsimp only
      rw [if_neg (by decide), if_neg (by decide), if_pos rfl, parseString_spelled]
      rfl

theorem opens (document : Document) : OpensValue document.write := by
  induction document using induct with
  | step document parts =>
      cases document with
      | null => exact StartsValue.opens ⟨byte 'n', bytes "ull", by decide, .inl (by decide)⟩
      | bool value =>
          cases value with
          | true => exact StartsValue.opens ⟨byte 't', bytes "rue", by decide, .inl (by decide)⟩
          | false => exact StartsValue.opens ⟨byte 'f', bytes "alse", by decide, .inl (by decide)⟩
      | num spelling nonempty digits =>
          rcases List.exists_cons_of_ne_nil nonempty with ⟨c, rest, rfl⟩
          exact StartsValue.opens ⟨c, rest, rfl, .inr (digits c List.mem_cons_self)⟩
      | str text => exact StartsValue.opens ⟨byte '"', _, rfl, .inl (by decide)⟩
      | arr blank items => exact StartsValue.opens ⟨byte '[', _, rfl, .inl (by decide)⟩
      | obj blank fields => exact StartsValue.opens ⟨byte '{', _, rfl, .inl (by decide)⟩
      | padded before inner after =>
          rcases parts inner List.mem_cons_self with ⟨c, tail, opened, first⟩
          refine ⟨c, tail ++ after.val, ?_, first⟩
          rw [write, List.append_assoc, skipWs_append before.property]
          exact skipWs_opened opened after.val

theorem field_read (field : Key × Document)
    (reads : Reads strtod field.2.write (field.2.value strtod)) :
    ReadsField strtod (field.1.write ++ byte ':' :: field.2.write) field.1.text.decoded
      (field.2.value strtod) := by
  apply field_reads _ reads
  intro rest
  refine ⟨field.1.after.val ++ byte ':' :: rest, ?_, skipWs_blank _ (by decide) rest⟩
  rw [Key.skipWs_write, parseString_spelled]

/-- White space around a value changes nothing. -/
theorem padded_reads {before after : Blank} {text : Bytes} {value : JsonValue}
    (reads : Reads strtod text value) :
    Reads strtod (before.val ++ text ++ after.val) value := by
  intro fuel rest enough ends
  rw [List.length_append, List.length_append] at enough
  have afterEnds : EndsNumber (after.val ++ rest) := by
    cases blank : after.val with
    | nil => exact ends
    | cons c blanks =>
        intro other found
        have white := after.property c (by rw [blank]; exact List.mem_cons_self)
        cases found
        cases digit : isNumberByte c with
        | false => rfl
        | true =>
            have solid := (number_byte c digit).1
            rw [white] at solid
            cases solid
  rcases reads fuel (after.val ++ rest) (by omega) afterEnds with ⟨left, read, blank⟩
  refine ⟨left, ?_, blank.trans (skipWs_append after.property rest)⟩
  rw [List.append_assoc, List.append_assoc, ← parseValue_skipWs, skipWs_append before.property,
    parseValue_skipWs, read]

theorem reads (document : Document) :
    Reads strtod document.write (document.value strtod) := by
  induction document using induct with
  | step document parts =>
      cases document with
      | null =>
          apply ReadAs.reads
          intro fuel rest enough _
          cases fuel with
          | zero => omega
          | succ fuel => rfl
      | bool value => exact (bool_readAs value).reads
      | num spelling nonempty digits => exact (num_readAs nonempty digits).reads
      | str text => exact (quoted_readAs text).reads
      | arr blank items =>
          have read := @array_readAs strtod blank.val
            (items.map fun item => (item.write, item.value strtod)) blank.property
            (by
              intro text member
              rcases List.mem_map.mp member with ⟨item, -, rfl⟩
              exact item.opens)
            (by
              intro text member
              rcases List.mem_map.mp member with ⟨item, inside, rfl⟩
              exact parts item inside)
          rw [List.map_map, List.map_map] at read
          rw [write, writeAll_eq, value, valueAll_eq]
          exact read.reads
      | obj blank fields =>
          have read := @object_readAs strtod blank.val
            (fields.map fun field => (field.1.write ++ byte ':' :: field.2.write,
              field.1.text.decoded, field.2.value strtod)) blank.property
            (by
              intro text member
              rcases List.mem_map.mp member with ⟨field, -, rfl⟩
              exact ⟨_, Key.skipWs_write field.1 _⟩)
            (by
              intro text member
              rcases List.mem_map.mp member with ⟨field, inside, rfl⟩
              exact field_read field (parts field.2 (List.mem_map_of_mem inside)))
          rw [List.map_map, List.map_map] at read
          rw [write, writeFields_eq, value, valueFields_eq]
          exact read.reads
      | padded before inner after => exact padded_reads (parts inner List.mem_cons_self)

/-- `json_parse` reads a document as its value. -/
theorem parsed (document : Document) :
    jsonParse strtod document.write = some (document.value strtod) := by
  rcases @reads strtod document (document.write.length + 1) [] (Nat.lt_succ_self _) nofun with
    ⟨left, read, -⟩
  rw [List.append_nil] at read
  rw [jsonParse, parseText, read]
  rfl

end Reading

end Document

/-! ### Encoding -/

theorem commaSeparated_valid {texts : List Bytes} :
    ValidUtf8 (commaSeparated texts) ↔ ∀ text ∈ texts, ValidUtf8 text := by
  induction texts with
  | nil => exact ⟨fun _ => nofun, fun _ => .nil⟩
  | cons text rest induction =>
      cases rest with
      | nil => exact List.forall_mem_singleton.symm
      | cons next rest =>
          rw [commaSeparated_cons, ValidUtf8.append_cons_iff (by decide), induction]
          exact List.forall_mem_cons.symm

theorem Blank.valid (blank : Blank) : ValidUtf8 blank.val := by
  have ascii : ∀ c : UInt8, isSpaceByte c = true → c < 0x80 := by
    apply forall_bytes
    decide +kernel
  exact .of_ascii fun c member => ascii c (blank.property c member)

theorem number_ascii : ∀ c : UInt8, isNumberByte c = true → c < 0x80 := by
  apply forall_bytes
  decide +kernel

theorem hexValues_ascii {digits : List UInt8} {start code : UInt32}
    (found : hexValues digits start = some code) : ∀ c ∈ digits, c < 0x80 := by
  have ascii : ∀ c : UInt8, (hexValue c).isSome = true → c < 0x80 := by
    apply forall_bytes
    decide +kernel
  induction digits generalizing start with
  | nil => exact nofun
  | cons c digits induction =>
      rw [hexValues] at found
      split at found
      next digit value =>
        exact List.forall_mem_cons.mpr ⟨ascii c (by rw [value]; rfl), induction found⟩
      next => cases found

theorem CodeUnit.write_valid (digits : CodeUnit) : ValidUtf8 digits.write := by
  rw [CodeUnit.write, ValidUtf8.cons_iff (by decide), ValidUtf8.cons_iff (by decide)]
  exact .of_ascii (hexValues_ascii digits.denotes)

theorem SpelledChar.write_valid (c : SpelledChar) : ValidUtf8 c.write := by
  cases c with
  | plain c => exact ⟨[c], by simp [SpelledChar.write]⟩
  | short letter meant known =>
      have ascii : ∀ letter : UInt8, (unescape letter).isSome = true → letter < 0x80 := by
        apply forall_bytes
        decide +kernel
      rw [SpelledChar.write, ValidUtf8.cons_iff (by decide)]
      exact .of_ascii (List.forall_mem_singleton.mpr (ascii letter (by rw [known]; rfl)))
  | unit digits => exact digits.write_valid
  | pair high low => exact high.write_valid.append low.write_valid

theorem SpelledText.quoted_valid (text : SpelledText) : ValidUtf8 text.quoted := by
  have inside : ValidUtf8 text.write := by
    induction text with
    | nil => exact .nil
    | cons c text induction => exact c.write_valid.append induction
  rw [SpelledText.quoted, ValidUtf8.cons_iff (by decide), ValidUtf8.append_cons_iff (by decide)]
  exact ⟨inside, .nil⟩

theorem Key.write_valid (key : Key) : ValidUtf8 key.write :=
  (key.before.valid.append key.text.quoted_valid).append key.after.valid

namespace Document

/-- Every document is UTF-8. -/
theorem write_valid (document : Document) : ValidUtf8 document.write := by
  induction document using induct with
  | step document parts =>
      cases document with
      | null => exact .of_ascii_all (by decide)
      | bool value => cases value <;> exact .of_ascii_all (by decide)
      | num spelling nonempty digits =>
          exact .of_ascii fun c member => number_ascii c (digits c member)
      | str text => exact text.quoted_valid
      | arr blank items =>
          rw [write, ValidUtf8.cons_iff (by decide), ValidUtf8.append_cons_iff (by decide),
            writeAll_eq]
          refine ⟨blank.valid.append (commaSeparated_valid.mpr ?_), .nil⟩
          intro text member
          rcases List.mem_map.mp member with ⟨item, inside, rfl⟩
          exact parts item inside
      | obj blank fields =>
          rw [write, ValidUtf8.cons_iff (by decide), ValidUtf8.append_cons_iff (by decide),
            writeFields_eq]
          refine ⟨blank.valid.append (commaSeparated_valid.mpr ?_), .nil⟩
          intro text member
          rcases List.mem_map.mp member with ⟨field, inside, rfl⟩
          rw [ValidUtf8.append_cons_iff (by decide)]
          exact ⟨field.1.write_valid, parts field.2 (List.mem_map_of_mem inside)⟩
      | padded before inner after =>
          exact (before.valid.append (parts inner List.mem_cons_self)).append after.valid

/-! ### Fields -/

/-- The first field of a name. -/
def find : Document → String → Option Document
  | obj _ fields, key =>
      (fields.find? fun field => field.1.text.decoded = bytes key).map Prod.snd
  | padded _ inner _, key => inner.find key
  | _, _ => none

/-- The characters of a string. -/
def text? : Document → Option SpelledText
  | str text => some text
  | padded _ inner _ => inner.text?
  | _ => none

/-- The string in a field. -/
def string (document : Document) (key : String) : Option SpelledText :=
  (document.find key).bind text?

end Document

theorem collected_lookup (fields seen : List (Bytes × JsonValue)) (key : Bytes) :
    (collected fields seen).lookup key = (seen.lookup key).or (fields.lookup key) := by
  induction fields generalizing seen with
  | nil => exact (Option.or_none).symm
  | cons field others induction =>
      rcases field with ⟨name, value⟩
      rw [collected, List.foldl_cons, ← collected, induction, List.lookup_cons]
      dsimp only
      rw [emplace]
      by_cases known : (seen.lookup name).isSome = true
      · rw [if_pos known]
        by_cases same : key = name
        · rw [same]
          rcases Option.isSome_iff_exists.mp known with ⟨first, found⟩
          rw [found]
          rfl
        · rw [beq_eq_false_iff_ne.mpr same]
      · rw [if_neg known, List.lookup_append, Option.or_assoc, List.lookup_cons]
        cases key == name with
        | true => rfl
        | false => rfl

namespace Document

variable {strtod : Bytes → Rat}

theorem find_value (document : Document) (key : String) :
    (document.value strtod).find key = (document.find key).map (value strtod) := by
  induction document using induct with
  | step document parts =>
      cases document with
      | obj blank fields =>
          rw [value, JsonValue.find, collected_lookup, valueFields_eq, find, List.lookup_nil,
            Option.none_or]
          clear parts
          induction fields with
          | nil => rfl
          | cons field others induction =>
              rw [List.map_cons, List.lookup_cons, List.find?_cons]
              by_cases same : field.1.text.decoded = bytes key
              · simp [same]
              · simp only [same, decide_false]
                rw [beq_eq_false_iff_ne.mpr (Ne.symm same)]
                exact induction
      | padded before inner after => exact parts inner List.mem_cons_self
      | null | bool | num | str | arr => rfl

theorem value_text (document : Document) :
    (∀ text, document.text? = some text → document.value strtod = .str text.decoded) ∧
      (document.text? = none → ∀ text, document.value strtod ≠ .str text) := by
  induction document using induct with
  | step document parts =>
      cases document with
      | str text =>
          refine ⟨?_, nofun⟩
          intro other found
          cases found
          rfl
      | padded before inner after => exact parts inner List.mem_cons_self
      | null | bool | num | arr | obj => exact ⟨nofun, fun _ _ => nofun⟩

end Document

end CardCode.Harness
