import CardCode.Foundation.Utf8
import Mathlib.Data.List.Forall2

/-! # Decoding with replacements

A decoder of UTF-8 that puts a replacement character in the place of every sequence that
encodes nothing: of the longest beginning of a character that breaks off, and of every byte
that begins none. What it makes of a text that is decoded in pieces is the text with the
characters replaced that are cut.
-/

namespace CardCode

def replacement : Char :=
  '\uFFFD'

/-- A character that is not read to its end: how many bytes are missing, the bits read so
far, and the bounds of the next byte. -/
structure Begun where
  missing : Nat
  code : Nat
  low : Nat
  high : Nat
  deriving Repr, DecidableEq

def firstByte (byte : UInt8) : List Char × Option Begun :=
  let value := byte.toNat
  if value ≤ 0x7F then ([Char.ofNat value], none)
  else if 0xC2 ≤ value ∧ value ≤ 0xDF then ([], some ⟨1, value % 32, 0x80, 0xBF⟩)
  else if 0xE0 ≤ value ∧ value ≤ 0xEF then
    ([], some ⟨2, value % 16, if value = 0xE0 then 0xA0 else 0x80,
      if value = 0xED then 0x9F else 0xBF⟩)
  else if 0xF0 ≤ value ∧ value ≤ 0xF4 then
    ([], some ⟨3, value % 8, if value = 0xF0 then 0x90 else 0x80,
      if value = 0xF4 then 0x8F else 0xBF⟩)
  else ([replacement], none)

/-- A byte that does not go on with the character breaks it off, and begins again. -/
def nextByte : Option Begun → UInt8 → List Char × Option Begun
  | none, byte => firstByte byte
  | some begun, byte =>
      if begun.low ≤ byte.toNat ∧ byte.toNat ≤ begun.high then
        let code := begun.code * 64 + byte.toNat % 64
        if begun.missing ≤ 1 then ([Char.ofNat code], none)
        else ([], some ⟨begun.missing - 1, code, 0x80, 0xBF⟩)
      else (replacement :: (firstByte byte).1, (firstByte byte).2)

def decodeFrom : Option Begun → List UInt8 → List Char
  | none, [] => []
  | some _, [] => [replacement]
  | state, byte :: rest => (nextByte state byte).1 ++ decodeFrom (nextByte state byte).2 rest

def decodeUtf8 (bytes : List UInt8) : List Char :=
  decodeFrom none bytes

/-! ## The bytes of one character -/

/-- The bytes complete a character that has begun. -/
inductive Completes : Begun → List UInt8 → Char → Prop
  | last {begun byte} :
      begun.low ≤ byte.toNat → byte.toNat ≤ begun.high → begun.missing = 1 →
      Completes begun [byte] (Char.ofNat (begun.code * 64 + byte.toNat % 64))
  | more {begun missing byte tail c} :
      begun.low ≤ byte.toNat → byte.toNat ≤ begun.high → begun.missing = missing + 2 →
      Completes ⟨missing + 1, begun.code * 64 + byte.toNat % 64, 0x80, 0xBF⟩ tail c →
      Completes begun (byte :: tail) c

theorem decoded_ascii {c : Char} (ascii : c.toNat < 128) :
    ∃ byte, String.utf8EncodeChar c = [byte] ∧ firstByte byte = ([c], none) := by
  refine ⟨_, ascii_encoded ascii, ?_⟩
  have value : (UInt8.ofNat c.toNat).toNat = c.toNat := by
    rw [UInt8.toNat_ofNat']
    omega
  rw [firstByte, value, if_pos (by omega), Char.ofNat_toNat]

theorem char_bounds (c : Char) :
    c.toNat < 0xD800 ∨ (0xDFFF < c.toNat ∧ c.toNat < 0x110000) :=
  c.valid

theorem firstByte_two {byte : UInt8} (low : 0xC2 ≤ byte.toNat) (high : byte.toNat ≤ 0xDF) :
    firstByte byte = ([], some ⟨1, byte.toNat % 32, 0x80, 0xBF⟩) := by
  rw [firstByte, if_neg (by omega), if_pos ⟨low, high⟩]

theorem firstByte_three {byte : UInt8} (low : 0xE0 ≤ byte.toNat) (high : byte.toNat ≤ 0xEF) :
    firstByte byte = ([], some ⟨2, byte.toNat % 16, if byte.toNat = 0xE0 then 0xA0 else 0x80,
      if byte.toNat = 0xED then 0x9F else 0xBF⟩) := by
  rw [firstByte, if_neg (by omega), if_neg (by omega), if_pos ⟨low, high⟩]

theorem firstByte_four {byte : UInt8} (low : 0xF0 ≤ byte.toNat) (high : byte.toNat ≤ 0xF4) :
    firstByte byte = ([], some ⟨3, byte.toNat % 8, if byte.toNat = 0xF0 then 0x90 else 0x80,
      if byte.toNat = 0xF4 then 0x8F else 0xBF⟩) := by
  rw [firstByte, if_neg (by omega), if_neg (by omega), if_neg (by omega), if_pos ⟨low, high⟩]

/-- The last byte of a character, where the bits add up. -/
theorem Completes.ends {begun : Begun} {byte : UInt8} {c : Char}
    (low : begun.low ≤ byte.toNat) (high : byte.toNat ≤ begun.high) (single : begun.missing = 1)
    (code : begun.code * 64 + byte.toNat % 64 = c.toNat) : Completes begun [byte] c := by
  have completes := Completes.last low high single
  rwa [code, Char.ofNat_toNat] at completes

/-- The first byte of a character beyond ASCII begins it, and the others complete it. -/
theorem decoded_wide {c : Char} (wide : 128 ≤ c.toNat) :
    ∃ lead tail begun, String.utf8EncodeChar c = lead :: tail ∧
      firstByte lead = ([], some begun) ∧ Completes begun tail c := by
  have bounds := char_bounds c
  have value : c.val.toNat = c.toNat := rfl
  have byteValue {code : Nat} (small : code < 256) : (UInt8.ofNat code).toNat = code := by
    rw [UInt8.toNat_ofNat']
    omega
  have tailValue := @byteValue (c.toNat % 0x40 + 0x80) (by omega)
  have middleValue := @byteValue (c.toNat / 64 % 0x40 + 0x80) (by omega)
  have upperValue := @byteValue (c.toNat / 4096 % 0x40 + 0x80) (by omega)
  rw [String.utf8EncodeChar, value, if_neg (by omega)]
  split
  next two =>
    have leadValue := @byteValue (c.toNat / 64 % 0x20 + 0xC0) (by omega)
    refine ⟨_, _, _, rfl, firstByte_two (by omega) (by omega), .ends ?_ ?_ rfl ?_⟩ <;>
      simp only [leadValue, tailValue] <;> omega
  split
  next three =>
    have leadValue := @byteValue (c.toNat / 4096 % 0x10 + 0xE0) (by omega)
    refine ⟨_, _, _, rfl, firstByte_three (by omega) (by omega), .more ?_ ?_ rfl
      (.ends ?_ ?_ rfl ?_)⟩ <;> simp only [leadValue, middleValue, tailValue]
    · split <;> omega
    · split <;> omega
    · omega
    · omega
    · omega
  next four =>
    have leadValue := @byteValue (c.toNat / 262144 % 0x08 + 0xF0) (by omega)
    refine ⟨_, _, _, rfl, firstByte_four (by omega) (by omega), .more ?_ ?_ rfl
      (.more ?_ ?_ rfl (.ends ?_ ?_ rfl ?_))⟩ <;>
      simp only [leadValue, upperValue, middleValue, tailValue]
    · split <;> omega
    · split <;> omega
    · omega
    · omega
    · omega
    · omega
    · omega

theorem Completes.decoded {begun : Begun} {tail : List UInt8} {c : Char}
    (completes : Completes begun tail c) (more : List UInt8) :
    decodeFrom (some begun) (tail ++ more) = c :: decodeFrom none more := by
  induction completes with
  | last low high single =>
      rw [List.singleton_append, decodeFrom, nextByte, if_pos ⟨low, high⟩,
        if_pos (Nat.le_of_eq single)]
      rfl
  | more low high count _ induction =>
      rw [List.cons_append, decodeFrom, nextByte, if_pos ⟨low, high⟩, if_neg (by omega), count]
      exact induction

/-- A text that is decoded at once is read as it was. -/
theorem decodeUtf8_encoded (text : List Char) :
    decodeUtf8 (text.flatMap String.utf8EncodeChar) = text := by
  rw [decodeUtf8]
  induction text with
  | nil => rfl
  | cons c rest induction =>
      rw [List.flatMap_cons]
      by_cases ascii : c.toNat < 128
      · rcases decoded_ascii ascii with ⟨byte, encoded, first⟩
        rw [encoded, List.singleton_append, decodeFrom, nextByte, first, induction]
        rfl
      · rcases decoded_wide (Nat.le_of_not_lt ascii) with
          ⟨lead, tail, begun, encoded, first, completes⟩
        rw [encoded, List.cons_append, decodeFrom, nextByte, first, completes.decoded, induction]
        rfl

/-! ## Bytes with cuts -/

/-- Bytes in order, with a cut wherever there is none. -/
abbrev CutBytes := List (Option UInt8)

def bytesOf (cuts : CutBytes) : List UInt8 :=
  cuts.filterMap id

@[simp] theorem bytesOf_nil : bytesOf [] = [] := rfl

@[simp] theorem bytesOf_cut (cuts : CutBytes) : bytesOf (none :: cuts) = bytesOf cuts := rfl

@[simp] theorem bytesOf_byte (byte : UInt8) (cuts : CutBytes) :
    bytesOf (some byte :: cuts) = byte :: bytesOf cuts := rfl

@[simp] theorem bytesOf_append (front back : CutBytes) :
    bytesOf (front ++ back) = bytesOf front ++ bytesOf back :=
  List.filterMap_append

@[simp] theorem bytesOf_uncut (bytes : List UInt8) : bytesOf (bytes.map some) = bytes := by
  induction bytes with
  | nil => rfl
  | cons byte rest induction => rw [List.map_cons, bytesOf_byte, induction]

/-- Chunks of bytes, with a cut behind each of them. -/
def cutChunks (chunks : List (List UInt8)) : CutBytes :=
  chunks.flatMap fun chunk => chunk.map some ++ [none]

theorem bytesOf_cutChunks (chunks : List (List UInt8)) :
    bytesOf (cutChunks chunks) = chunks.flatten := by
  induction chunks with
  | nil => rfl
  | cons chunk chunks induction =>
      rw [cutChunks] at induction
      simp [cutChunks, induction]

/-- What the decoder gives that ends at every cut and begins behind it. -/
def decodeCuts : Option Begun → CutBytes → List Char
  | _, [] => []
  | state, none :: rest => decodeFrom state [] ++ decodeCuts none rest
  | state, some byte :: rest =>
      (nextByte state byte).1 ++ decodeCuts (nextByte state byte).2 rest

theorem decodeCuts_chunk (state : Option Begun) (chunk : List UInt8) (rest : CutBytes) :
    decodeCuts state (chunk.map some ++ none :: rest) =
      decodeFrom state chunk ++ decodeCuts none rest := by
  induction chunk generalizing state with
  | nil => rw [List.map_nil, List.nil_append, decodeCuts]
  | cons byte chunk induction =>
      rw [List.map_cons, List.cons_append, decodeCuts, induction, decodeFrom, List.append_assoc]

/-- Chunks that are decoded one by one. -/
theorem decodeCuts_chunks (chunks : List (List UInt8)) :
    decodeCuts none (cutChunks chunks) = chunks.flatMap decodeUtf8 := by
  induction chunks with
  | nil => rw [cutChunks, List.flatMap_nil, decodeCuts, List.flatMap_nil]
  | cons chunk chunks induction =>
      rw [cutChunks, List.flatMap_cons, List.append_assoc, List.singleton_append,
        decodeCuts_chunk, List.flatMap_cons, ← induction]
      rfl

/-- Cuts between characters leave nothing behind. -/
theorem decodeCuts_skip {cuts : CutBytes} {byte : UInt8} {bytes : List UInt8}
    (begins : bytesOf cuts = byte :: bytes) :
    ∃ gap rest, cuts = gap ++ some byte :: rest ∧ bytesOf gap = [] ∧ bytesOf rest = bytes ∧
      decodeCuts none cuts = (firstByte byte).1 ++ decodeCuts (firstByte byte).2 rest := by
  induction cuts with
  | nil => cases begins
  | cons event cuts induction =>
      cases event with
      | none =>
          rcases induction begins with ⟨gap, rest, rfl, skipped, others, decoded⟩
          refine ⟨none :: gap, rest, rfl, skipped, others, ?_⟩
          rw [decodeCuts, decodeFrom, List.nil_append, decoded]
      | some first =>
          rw [bytesOf_byte, List.cons.injEq] at begins
          rcases begins with ⟨rfl, others⟩
          exact ⟨[], cuts, rfl, rfl, others, by rw [decodeCuts, nextByte]⟩

def IsInner (byte : UInt8) : Prop :=
  0x80 ≤ byte.toNat ∧ byte.toNat ≤ 0xBF

theorem firstByte_inner {byte : UInt8} (inner : IsInner byte) :
    firstByte byte = ([replacement], none) := by
  rcases inner with ⟨low, high⟩
  rw [firstByte, if_neg (by omega), if_neg (by omega), if_neg (by omega), if_neg (by omega)]

/-- Bytes that have lost their beginning are replaced one by one. -/
theorem decodeCuts_scattered {tail more : List UInt8} (inner : ∀ byte ∈ tail, IsInner byte)
    {cuts : CutBytes} (bytes : bytesOf cuts = tail ++ more) :
    ∃ front rest, cuts = front ++ rest ∧ bytesOf front = tail ∧ bytesOf rest = more ∧
      decodeCuts none cuts = List.replicate tail.length replacement ++ decodeCuts none rest := by
  induction tail generalizing cuts with
  | nil => exact ⟨[], cuts, rfl, rfl, bytes, rfl⟩
  | cons byte tail induction =>
      rcases decodeCuts_skip bytes with ⟨gap, behind, rfl, skipped, others, decoded⟩
      rcases induction (fun other member => inner other (List.mem_cons_of_mem byte member)) others
        with ⟨front, rest, rfl, found, left, scattered⟩
      refine ⟨gap ++ some byte :: front, rest, by simp, by simp [skipped, found], left, ?_⟩
      rw [decoded, firstByte_inner (inner byte List.mem_cons_self), scattered]
      rfl

/-! ## Characters that are cut -/

theorem firstByte_bounds {byte : UInt8} {text : List Char} {begun : Begun}
    (first : firstByte byte = (text, some begun)) : 0x80 ≤ begun.low ∧ begun.high ≤ 0xBF := by
  dsimp only [firstByte] at first
  split_ifs at first <;> cases first <;> dsimp only <;> omega

theorem Completes.inner {begun : Begun} {tail : List UInt8} {c : Char}
    (completes : Completes begun tail c) (low : 0x80 ≤ begun.low) (high : begun.high ≤ 0xBF) :
    ∀ byte ∈ tail, IsInner byte := by
  induction completes with
  | last above below _ => exact List.forall_mem_singleton.mpr ⟨low.trans above, below.trans high⟩
  | more above below _ _ induction =>
      exact List.forall_mem_cons.mpr ⟨⟨low.trans above, below.trans high⟩,
        induction (Nat.le_refl _) (Nat.le_refl _)⟩

theorem Completes.nonempty {begun : Begun} {tail : List UInt8} {c : Char}
    (completes : Completes begun tail c) : tail ≠ [] := by
  cases completes with
  | last _ _ _ => exact List.cons_ne_nil _ _
  | more _ _ _ _ => exact List.cons_ne_nil _ _

/-- The rest of a character that has begun is read without a cut, or is replaced. -/
def ReadsRest (begun : Begun) (tail more : List UInt8) (c : Char) (cuts : CutBytes) : Prop :=
  ∃ front rest, cuts = front ++ rest ∧ bytesOf front = tail ∧ bytesOf rest = more ∧
    ((front = tail.map some ∧ decodeCuts (some begun) cuts = c :: decodeCuts none rest) ∨
      ∃ left right count, front = left ++ none :: right ∧ bytesOf right ≠ [] ∧ 2 ≤ count ∧
        decodeCuts (some begun) cuts =
          List.replicate count replacement ++ decodeCuts none rest)

theorem readsRest_cut {begun : Begun} {tail more : List UInt8} {c : Char} {cuts : CutBytes}
    (completes : Completes begun tail c) (inner : ∀ byte ∈ tail, IsInner byte)
    (bytes : bytesOf cuts = tail ++ more) : ReadsRest begun tail more c (none :: cuts) := by
  have nonempty := completes.nonempty
  rcases decodeCuts_scattered inner bytes with ⟨front, rest, rfl, found, left, scattered⟩
  refine ⟨none :: front, rest, rfl, found, left,
    .inr ⟨[], front, tail.length + 1, rfl, by rwa [found], ?_, ?_⟩⟩
  · have size := List.length_pos_iff.mpr nonempty
    omega
  · rw [decodeCuts, decodeFrom, scattered, List.replicate_succ]
    rfl

theorem readsRest {begun : Begun} {tail more : List UInt8} {c : Char}
    (completes : Completes begun tail c) (inner : ∀ byte ∈ tail, IsInner byte) :
    ∀ {cuts : CutBytes}, bytesOf cuts = tail ++ more → ReadsRest begun tail more c cuts := by
  induction completes with
  | @last begun byte low high single =>
      intro cuts bytes
      cases cuts with
      | nil => cases bytes
      | cons event cuts =>
          cases event with
          | none => exact readsRest_cut (.last low high single) inner bytes
          | some first =>
              rw [bytesOf_byte, List.singleton_append, List.cons.injEq] at bytes
              rcases bytes with ⟨rfl, others⟩
              refine ⟨[some first], cuts, rfl, rfl, others, .inl ⟨rfl, ?_⟩⟩
              rw [decodeCuts, nextByte, if_pos ⟨low, high⟩, if_pos (Nat.le_of_eq single)]
              rfl
  | @more begun missing byte tail c low high count completes induction =>
      intro cuts bytes
      cases cuts with
      | nil => cases bytes
      | cons event cuts =>
          cases event with
          | none => exact readsRest_cut (.more low high count completes) inner bytes
          | some first =>
              rw [bytesOf_byte, List.cons_append, List.cons.injEq] at bytes
              rcases bytes with ⟨rfl, others⟩
              have next : nextByte (some begun) first =
                  ([], some ⟨missing + 1, begun.code * 64 + first.toNat % 64, 0x80, 0xBF⟩) := by
                rw [nextByte, if_pos ⟨low, high⟩, if_neg (by omega), count]
                rfl
              rcases induction (fun other member => inner other (List.mem_cons_of_mem _ member))
                others with ⟨front, rest, rfl, found, left, outcome⟩
              refine ⟨some first :: front, rest, rfl, by simp [found], left, ?_⟩
              rw [decodeCuts, next, List.nil_append]
              rcases outcome with ⟨rfl, decoded⟩ | ⟨before, after, size, rfl, some, many, decoded⟩
              · exact .inl ⟨rfl, decoded⟩
              · exact .inr ⟨_ :: before, after, size, rfl, some, many, decoded⟩

/-- What becomes of a text whose bytes are decoded in pieces: every character beyond ASCII
that is cut is replaced, and nothing else. -/
inductive Garbled : CutBytes → List Char → List Char → Prop
  | done {gap} : bytesOf gap = [] → Garbled gap [] []
  | whole {gap c rest text out} :
      bytesOf gap = [] → Garbled rest text out →
      Garbled (gap ++ ((String.utf8EncodeChar c).map some ++ rest)) (c :: text) (c :: out)
  | broken {front back c count rest text out} :
      128 ≤ c.toNat → bytesOf front ≠ [] → bytesOf back ≠ [] →
      bytesOf front ++ bytesOf back = String.utf8EncodeChar c → 2 ≤ count →
      Garbled rest text out →
      Garbled (front ++ none :: (back ++ rest)) (c :: text)
        (List.replicate count replacement ++ out)

theorem decodeCuts_done {cuts : CutBytes} (bare : bytesOf cuts = []) :
    decodeCuts none cuts = [] := by
  induction cuts with
  | nil => rw [decodeCuts]
  | cons event cuts induction =>
      cases event with
      | none => rw [decodeCuts, decodeFrom, induction bare, List.nil_append]
      | some byte => cases bare

theorem decodeCuts_garbled {text : List Char} :
    ∀ {cuts : CutBytes}, bytesOf cuts = text.flatMap String.utf8EncodeChar →
      Garbled cuts text (decodeCuts none cuts) := by
  induction text with
  | nil =>
      intro cuts bytes
      rw [decodeCuts_done bytes]
      exact .done bytes
  | cons c text induction =>
      intro cuts bytes
      rw [List.flatMap_cons] at bytes
      by_cases ascii : c.toNat < 128
      · rcases decoded_ascii ascii with ⟨byte, encoded, first⟩
        rw [encoded, List.singleton_append] at bytes
        rcases decodeCuts_skip bytes with ⟨gap, rest, rfl, skipped, others, decoded⟩
        rw [decoded, first]
        have found := @Garbled.whole gap c rest text _ skipped (induction others)
        rw [encoded] at found
        exact found
      · have wide : 128 ≤ c.toNat := Nat.le_of_not_lt ascii
        rcases decoded_wide wide with ⟨lead, tail, begun, encoded, first, completes⟩
        have bounds := firstByte_bounds first
        rw [encoded, List.cons_append] at bytes
        rcases decodeCuts_skip bytes with ⟨gap, behind, rfl, skipped, others, decoded⟩
        rcases readsRest completes (completes.inner bounds.1 bounds.2) others with
          ⟨front, rest, rfl, found, left, outcome⟩
        rw [decoded, first, List.nil_append]
        rcases outcome with ⟨rfl, decoded⟩ | ⟨before, after, count, rfl, some, many, decoded⟩
        · have whole := @Garbled.whole gap c rest text _ skipped (induction left)
          rw [encoded] at whole
          rw [decoded]
          exact whole
        · rw [decoded]
          have broken := @Garbled.broken (gap ++ .some lead :: before) after c count rest text _
            wide (by simp) some (by rw [encoded, ← found]; simp [skipped]) many (induction left)
          simpa using broken

/-! ## Cuts between characters -/

/-- The beginning of a character is no text. -/
theorem not_valid_of_broken {c : Char} {front back : List UInt8} (some : front ≠ [])
    (more : back ≠ []) (encoded : front ++ back = String.utf8EncodeChar c) :
    ¬ ValidUtf8 front := by
  intro valid
  rcases encoded_lead c with ⟨lead, tail, split, -, inner⟩
  rcases List.exists_cons_of_ne_nil some with ⟨first, rest, rfl⟩
  rw [split, List.cons_append, List.cons.injEq] at encoded
  rcases encoded with ⟨rfl, encoded⟩
  have notLead {text : List Char} {bytes : List UInt8} (inside : ∀ byte ∈ bytes, byte ∈ tail)
      (same : text.flatMap String.utf8EncodeChar = bytes) : text = [] := by
    cases text with
    | nil => rfl
    | cons d text =>
        rcases encoded_lead d with ⟨first, others, found, isLead, -⟩
        rw [List.flatMap_cons, found, List.cons_append] at same
        exact absurd isLead (inner first (inside first (by rw [← same]; exact List.mem_cons_self)))
  rcases valid with ⟨text, same⟩
  cases text with
  | nil => cases same
  | cons d text =>
      rcases encoded_lead d with ⟨first, others, found, -, -⟩
      rw [List.flatMap_cons, found, List.cons_append, List.cons.injEq] at same
      rcases same with ⟨rfl, same⟩
      have single : text = [] := notLead
        (fun byte member => by rw [← encoded, same]; simp [member]) rfl
      rw [single, List.flatMap_nil, List.append_nil] at same
      have whole : ValidUtf8 (String.utf8EncodeChar d ++ back) := by
        refine ⟨[c], ?_⟩
        rw [found, List.cons_append, ← same, encoded, List.flatMap_singleton, split]
      rcases ValidUtf8.encoded_append_iff.mp whole with ⟨others, left⟩
      have none := notLead (fun byte member => by rw [← encoded]; simp [member]) left.symm
      rw [left, none] at more
      exact more rfl

/-- Every cut before which a certain byte has yet to come is a cut between characters. -/
def CutsBetween (mark : UInt8) (cuts : CutBytes) : Prop :=
  ∀ front back, cuts = front ++ none :: back → mark ∈ bytesOf back → ValidUtf8 (bytesOf front)

theorem CutsBetween.of_absent {mark : UInt8} {cuts : CutBytes} (absent : mark ∉ bytesOf cuts) :
    CutsBetween mark cuts := by
  intro front back same member
  rw [same, bytesOf_append] at absent
  exact absurd (List.mem_append_right _ member) absent

/-- A row of bytes without a cut stands before the first cut. -/
theorem uncut_prefix {bytes : List UInt8} {rest front back : CutBytes}
    (same : bytes.map some ++ rest = front ++ none :: back) :
    ∃ middle, front = bytes.map some ++ middle ∧ rest = middle ++ none :: back := by
  induction bytes generalizing front with
  | nil => exact ⟨front, rfl, same⟩
  | cons byte bytes induction =>
      cases front with
      | nil => cases same
      | cons event front =>
          rw [List.map_cons, List.cons_append, List.cons_append, List.cons.injEq] at same
          rcases same with ⟨rfl, same⟩
          rcases induction same with ⟨middle, rfl, others⟩
          exact ⟨middle, rfl, others⟩

theorem cutsBetween_whole_iff {mark : UInt8} {gap rest : CutBytes} {c : Char}
    (skipped : bytesOf gap = []) :
    CutsBetween mark (gap ++ ((String.utf8EncodeChar c).map some ++ rest)) ↔
      CutsBetween mark rest := by
  have front_valid (front : CutBytes) :
      ValidUtf8 (bytesOf (gap ++ ((String.utf8EncodeChar c).map some ++ front))) ↔
        ValidUtf8 (bytesOf front) := by
    rw [bytesOf_append, bytesOf_append, bytesOf_uncut, skipped, List.nil_append,
      ValidUtf8.encoded_append_iff]
  constructor
  · intro between front back same member
    apply (front_valid front).mp
    apply between _ back _ member
    rw [same]
    simp
  · intro between front back same member
    rcases List.append_eq_append_iff.mp same with
      ⟨middle, rfl, behind⟩ | ⟨middle, inside, -⟩
    · rcases uncut_prefix behind with ⟨last, rfl, others⟩
      exact (front_valid last).mpr (between last back others member)
    · rw [inside, bytesOf_append, List.append_eq_nil_iff] at skipped
      rw [skipped.1]
      exact .nil

theorem cutChunks_append (front back : List (List UInt8)) :
    cutChunks (front ++ back) = cutChunks front ++ cutChunks back :=
  List.flatMap_append

theorem cutChunks_snoc (front : List (List UInt8)) (chunk : List UInt8) :
    cutChunks (front ++ [chunk]) = cutChunks front ++ chunk.map some ++ [none] := by
  rw [cutChunks_append, List.append_assoc]
  simp [cutChunks]

/-- At every cut some chunks end. -/
theorem cutChunks_cut {chunks : List (List UInt8)} :
    ∀ {first rest : CutBytes}, cutChunks chunks = first ++ none :: rest →
      ∃ front back, chunks = front ++ back ∧ bytesOf first = front.flatten ∧
        bytesOf rest = back.flatten := by
  induction chunks with
  | nil =>
      intro first rest same
      cases first <;> cases same
  | cons chunk chunks induction =>
      intro first rest same
      have split : cutChunks (chunk :: chunks) = chunk.map some ++ none :: cutChunks chunks := by
        simp [cutChunks]
      rw [split] at same
      rcases uncut_prefix same with ⟨middle, rfl, others⟩
      cases middle with
      | nil =>
          cases others
          exact ⟨[chunk], chunks, rfl, by simp, bytesOf_cutChunks chunks⟩
      | cons event middle =>
          rw [List.cons_append, List.cons.injEq] at others
          rcases others with ⟨rfl, others⟩
          rcases induction others with ⟨front, back, rfl, bytes, left⟩
          exact ⟨chunk :: front, back, rfl, by simp [bytes], left⟩

theorem cutsBetween_chunks_iff {mark : UInt8} {chunks : List (List UInt8)} :
    CutsBetween mark (cutChunks chunks) ↔
      ∀ front back, chunks = front ++ back → mark ∈ back.flatten → ValidUtf8 front.flatten := by
  constructor
  · intro between front back same member
    rcases List.eq_nil_or_concat front with rfl | ⟨before, chunk, split⟩
    · exact .nil
    · rw [List.concat_eq_append] at split
      have found := between (cutChunks before ++ chunk.map some) (cutChunks back)
        (by rw [same, split, cutChunks_append, cutChunks_snoc, List.append_assoc,
          List.singleton_append]) (by rwa [bytesOf_cutChunks])
      rw [bytesOf_append, bytesOf_cutChunks, bytesOf_uncut] at found
      rw [split]
      simpa using found
  · intro between first rest same member
    rcases cutChunks_cut same with ⟨front, back, split, bytes, left⟩
    rw [bytes]
    exact between front back split (left ▸ member)

end CardCode
