import Mathlib.Algebra.Order.Ring.Int
import Mathlib.Data.List.Basic

/-! # UTF-8

Which rows of bytes encode characters, and where such a row can be cut.
-/

namespace CardCode

/-- The bytes encode some row of characters. -/
def ValidUtf8 (bytes : List UInt8) : Prop :=
  ∃ text : List Char, bytes = text.flatMap String.utf8EncodeChar

/-! ## The bytes of one character -/

theorem utf8Size_of_ascii {c : Char} (ascii : c.toNat < 128) : c.utf8Size = 1 := by
  rw [Char.utf8Size_eq_one_iff, UInt32.le_iff_toNat_le]
  exact Nat.le_of_lt_succ ascii

/-- The bytes of a character beyond ASCII are all beyond ASCII. -/
theorem high_bytes {c : Char} (wide : 128 ≤ c.toNat) :
    ∀ byte ∈ String.utf8EncodeChar c, 128 ≤ byte.toNat := by
  intro byte member
  have value : c.val.toNat = c.toNat := rfl
  rw [String.utf8EncodeChar, if_neg (by omega)] at member
  split at member
  · simp only [List.mem_cons, List.not_mem_nil, or_false] at member
    rcases member with rfl | rfl <;> rw [UInt8.toNat_ofNat'] <;> omega
  split at member
  · simp only [List.mem_cons, List.not_mem_nil, or_false] at member
    rcases member with rfl | rfl | rfl <;> rw [UInt8.toNat_ofNat'] <;> omega
  · simp only [List.mem_cons, List.not_mem_nil, or_false] at member
    rcases member with rfl | rfl | rfl | rfl <;> rw [UInt8.toNat_ofNat'] <;> omega

theorem ascii_encoded {c : Char} (ascii : c.toNat < 128) :
    String.utf8EncodeChar c = [UInt8.ofNat c.toNat] := by
  rw [String.utf8EncodeChar_eq_singleton (utf8Size_of_ascii ascii)]
  rfl

/-- The first byte of a character is told apart from those that follow it. -/
theorem encoded_lead (c : Char) :
    ∃ lead tail, String.utf8EncodeChar c = lead :: tail ∧ lead.IsUTF8FirstByte ∧
      ∀ byte ∈ tail, ¬byte.IsUTF8FirstByte := by
  have isLead := @UInt8.isUTF8FirstByte_getElem_utf8EncodeChar c
  rcases List.exists_cons_of_ne_nil (@String.utf8EncodeChar_ne_nil c) with ⟨lead, tail, encoded⟩
  refine ⟨lead, tail, encoded, ?_, ?_⟩
  · have first := @isLead 0 (by rw [encoded]; exact Nat.succ_pos _)
    simp only [encoded, List.getElem_cons_zero, iff_true] at first
    exact first
  · intro byte member
    rcases List.getElem_of_mem member with ⟨i, bound, equal⟩
    have other := @isLead (i + 1) (by rw [encoded]; exact Nat.succ_lt_succ bound)
    simp only [encoded, List.getElem_cons_succ, equal] at other
    rw [other]
    exact Nat.succ_ne_zero i

theorem isLead_of_ascii {byte : UInt8} (ascii : byte < 0x80) : byte.IsUTF8FirstByte := by
  have each : ∀ code : Fin 256, UInt8.ofNat code < 0x80 → UInt8.ofNat code &&& 0x80 = 0 := by
    decide +kernel
  have found := each ⟨byte.toNat, byte.toNat_lt⟩
  rw [UInt8.ofNat_toNat] at found
  exact .inl (found ascii)

namespace ValidUtf8

variable {first rest : List UInt8} {byte : UInt8}

theorem nil : ValidUtf8 [] :=
  ⟨[], rfl⟩

theorem encoded (text : List Char) : ValidUtf8 (text.flatMap String.utf8EncodeChar) :=
  ⟨text, rfl⟩

theorem append (left : ValidUtf8 first) (right : ValidUtf8 rest) : ValidUtf8 (first ++ rest) := by
  rcases left with ⟨leftText, rfl⟩
  rcases right with ⟨rightText, rfl⟩
  exact ⟨leftText ++ rightText, List.flatMap_append.symm⟩

/-- In front of a text stands a character by itself. -/
theorem encoded_append_iff {c : Char} :
    ValidUtf8 (String.utf8EncodeChar c ++ rest) ↔ ValidUtf8 rest := by
  have bytewise (row : List UInt8) : ValidUtf8 row ↔ row.toByteArray.IsValidUTF8 := by
    constructor
    · intro valid
      rcases valid with ⟨text, rfl⟩
      exact ⟨text, rfl⟩
    · intro valid
      rcases valid with ⟨text, encodes⟩
      exact ⟨text, List.toByteArray_inj.mp encodes⟩
  rw [bytewise, bytewise, List.toByteArray_append, ← List.utf8Encode_singleton,
    ByteArray.isValidUTF8_utf8Encode_singleton_append_iff]

/-- Text can be cut in front of every first byte. -/
theorem cut (isLead : byte.IsUTF8FirstByte) (valid : ValidUtf8 (first ++ byte :: rest)) :
    ValidUtf8 first ∧ ValidUtf8 (byte :: rest) := by
  rcases valid with ⟨text, encodes⟩
  induction text generalizing first with
  | nil => simp at encodes
  | cons c text induction =>
      cases first with
      | nil => exact ⟨nil, c :: text, encodes⟩
      | cons head first =>
          rcases encoded_lead c with ⟨lead, tail, encoded, -, inner⟩
          rw [List.flatMap_cons, encoded, List.cons_append, List.cons_append,
            List.cons.injEq] at encodes
          rcases encodes with ⟨rfl, encodes⟩
          have single : ValidUtf8 (head :: tail) := ⟨[c], by simp [encoded]⟩
          rcases List.append_eq_append_iff.mp encodes with
            ⟨more, equal, others⟩ | ⟨more, equal, others⟩
          · cases more with
            | nil =>
                rw [List.append_nil] at equal
                rw [← equal]
                exact ⟨single, text, by simpa using others⟩
            | cons inside more =>
                rw [List.cons_append, List.cons.injEq] at others
                refine absurd (others.1 ▸ isLead) (inner inside ?_)
                rw [equal]
                exact List.mem_append_right _ List.mem_cons_self
          · rcases induction others.symm with ⟨front, back⟩
            rw [equal]
            exact ⟨single.append front, back⟩

/-- In front of a text stands an ASCII character by itself. -/
theorem cons_iff (ascii : byte < 0x80) : ValidUtf8 (byte :: rest) ↔ ValidUtf8 rest := by
  have small : byte.toNat < 128 := UInt8.lt_iff_toNat_lt.mp ascii
  constructor
  · intro valid
    rcases valid with ⟨text, encodes⟩
    cases text with
    | nil => cases encodes
    | cons c text =>
        by_cases narrow : c.toNat < 128
        · rw [List.flatMap_cons, ascii_encoded narrow, List.singleton_append,
            List.cons.injEq] at encodes
          exact ⟨text, encodes.2⟩
        · rcases encoded_lead c with ⟨lead, tail, encoded, -, -⟩
          have wide := high_bytes (Nat.le_of_not_lt narrow) lead
            (by rw [encoded]; exact List.mem_cons_self)
          rw [List.flatMap_cons, encoded, List.cons_append, List.cons.injEq] at encodes
          rw [encodes.1] at small
          omega
  · intro valid
    rcases valid with ⟨text, rfl⟩
    have code : (Char.ofUInt8 byte).toNat = byte.toNat := rfl
    refine ⟨Char.ofUInt8 byte :: text, ?_⟩
    rw [List.flatMap_cons, ascii_encoded (by rw [code]; exact small), code, UInt8.ofNat_toNat]
    rfl

/-- Around an ASCII character a text falls into two. -/
theorem append_cons_iff (ascii : byte < 0x80) :
    ValidUtf8 (first ++ byte :: rest) ↔ ValidUtf8 first ∧ ValidUtf8 rest := by
  constructor
  · intro valid
    rcases cut (isLead_of_ascii ascii) valid with ⟨front, back⟩
    exact ⟨front, (cons_iff ascii).mp back⟩
  · intro both
    exact both.1.append ((cons_iff ascii).mpr both.2)

theorem ascii_append_iff {plain : List UInt8} (ascii : ∀ byte ∈ plain, byte < 0x80) :
    ValidUtf8 (plain ++ rest) ↔ ValidUtf8 rest := by
  induction plain with
  | nil => exact Iff.rfl
  | cons byte plain induction =>
      rw [List.cons_append, cons_iff (ascii byte List.mem_cons_self)]
      exact induction fun other member => ascii other (List.mem_cons_of_mem byte member)

theorem of_ascii {bytes : List UInt8} (ascii : ∀ byte ∈ bytes, byte < 0x80) :
    ValidUtf8 bytes := by
  rw [← List.append_nil bytes, ascii_append_iff ascii]
  exact nil

theorem of_ascii_all {bytes : List UInt8} (ascii : bytes.all (· < 0x80) = true) :
    ValidUtf8 bytes :=
  of_ascii fun byte member => of_decide_eq_true (List.all_eq_true.mp ascii byte member)

/-- No byte beyond ASCII is a text by itself. -/
theorem not_singleton (high : 0x80 ≤ byte) : ¬ValidUtf8 [byte] := by
  intro valid
  have large : 128 ≤ byte.toNat := UInt8.le_iff_toNat_le.mp high
  rcases valid with ⟨text, encodes⟩
  cases text with
  | nil => cases encodes
  | cons c text =>
      rcases encoded_lead c with ⟨lead, tail, encoded, -, -⟩
      rw [List.flatMap_cons, encoded, List.cons_append, List.cons.injEq] at encodes
      have alone : tail = [] := (List.append_eq_nil_iff.mp encodes.2.symm).1
      have size : c.utf8Size = 1 := by
        rw [← String.length_utf8EncodeChar, encoded, alone]
        rfl
      have small : c.toNat ≤ 127 := UInt32.le_iff_toNat_le.mp (Char.utf8Size_eq_one_iff.mp size)
      rw [ascii_encoded (by omega), List.cons.injEq] at encoded
      rw [encodes.1, ← encoded.1, UInt8.toNat_ofNat'] at large
      omega

/-- The encoding leaves out the surrogates. -/
theorem not_surrogate (high : 0xA0 ≤ byte) : ¬ValidUtf8 (0xED :: byte :: rest) := by
  intro valid
  have large : 160 ≤ byte.toNat := UInt8.le_iff_toNat_le.mp high
  have lead : (0xED : UInt8).toNat = 237 := rfl
  rcases valid with ⟨text, encodes⟩
  cases text with
  | nil => cases encodes
  | cons c text =>
      have scalar := c.valid
      have value : c.val.toNat = c.toNat := rfl
      rw [List.flatMap_cons, String.utf8EncodeChar] at encodes
      simp only [UInt32.isValidChar, Nat.isValidChar] at scalar
      split_ifs at encodes with one two three
      · rw [List.singleton_append, List.cons.injEq] at encodes
        rw [encodes.1, UInt8.toNat_ofNat'] at lead
        omega
      · rw [List.cons_append, List.cons.injEq] at encodes
        rw [encodes.1, UInt8.toNat_ofNat'] at lead
        omega
      · rw [List.cons_append, List.cons.injEq, List.cons_append, List.cons.injEq] at encodes
        rw [encodes.1, UInt8.toNat_ofNat'] at lead
        rw [encodes.2.1, UInt8.toNat_ofNat'] at large
        omega
      · rw [List.cons_append, List.cons.injEq] at encodes
        rw [encodes.1, UInt8.toNat_ofNat'] at lead
        omega

end ValidUtf8

end CardCode
