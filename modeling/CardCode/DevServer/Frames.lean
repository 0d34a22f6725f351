import CardCode.Engine.Lexer
import CardCode.Foundation.Intake

/-! # WebSocket frames (`tools/dev-server.js`)

An offset in a buffer is what is left of it there.
-/

namespace CardCode.DevServer

/-! ## Numbers -/

/-- What `writeUInt16BE` and `writeBigUInt64BE` write in `width` bytes. -/
def writeBE : Nat → Nat → Bytes
  | 0, _ => []
  | width + 1, value => writeBE width (value / 256) ++ [UInt8.ofNat value]

/-- `readUInt16BE` and `readBigUInt64BE`. -/
def readBE (bytes : Bytes) : Nat :=
  bytes.foldl (fun value byte => value * 256 + byte.toNat) 0

@[simp] theorem length_writeBE (width value : Nat) : (writeBE width value).length = width := by
  induction width generalizing value with
  | zero => rfl
  | succ width induction => rw [writeBE, List.length_append, induction]; rfl

theorem readBE_writeBE {width value : Nat} (fits : value < 256 ^ width) :
    readBE (writeBE width value) = value := by
  induction width generalizing value with
  | zero =>
      rw [Nat.pow_zero, Nat.lt_one_iff] at fits
      rw [fits]
      rfl
  | succ width induction =>
      have high : value / 256 < 256 ^ width := by
        rw [Nat.pow_succ] at fits
        exact Nat.div_lt_of_lt_mul (by rwa [Nat.mul_comm] at fits)
      have read := induction high
      rw [readBE] at read
      rw [writeBE, readBE, List.foldl_append, read, List.foldl_cons, List.foldl_nil,
        UInt8.toNat_ofNat']
      omega

/-! ## The decoder -/

structure Frame where
  opcode : UInt8
  payload : Bytes
  deriving Repr, DecidableEq

/-- `Number.MAX_SAFE_INTEGER`. -/
def maxSafeInteger : Nat :=
  2 ^ 53 - 1

/-- The length of the payload, from the second byte's seven bits and what follows. -/
def decodeLength (code : UInt8) (buffer : Bytes) : Taken String UInt8 Nat :=
  if code = 126 then
    if buffer.length < 2 then .waits
    else .takes (readBE (buffer.take 2)) (buffer.drop 2)
  else if code = 127 then
    if buffer.length < 8 then .waits
    else if readBE (buffer.take 8) > maxSafeInteger then .fails "websocket frame too large"
    else .takes (readBE (buffer.take 8)) (buffer.drop 8)
  else .takes code.toNat buffer

/-- `payload[i] ^= mask[i % 4]` for every `i`. -/
def applyMask (mask payload : Bytes) : Bytes :=
  payload.mapIdx fun i c => c ^^^ mask.getD (i % 4) 0

/-- The mask, if there is one, and the payload. -/
def decodePayload (opcode : UInt8) (masked : Bool) (length : Nat) (buffer : Bytes) :
    Taken String UInt8 Frame :=
  let skipped := if masked then 4 else 0
  if buffer.length < skipped + length then .waits
  else
    let payload := (buffer.drop skipped).take length
    .takes ⟨opcode, if masked then applyMask (buffer.take 4) payload else payload⟩
      (buffer.drop (skipped + length))

/-- One round of the loop of `decodeClientFrames`. -/
def decodeFrame : Bytes → Taken String UInt8 Frame
  | first :: second :: buffer =>
      match decodeLength (second &&& 0x7f) buffer with
      | .waits => .waits
      | .fails error => .fails error
      | .takes length buffer =>
          decodePayload (first &&& 0x0f) (second &&& 0x80 ≠ 0) length buffer
  | _ => .waits

/-! ## Nothing is undone by what follows -/

section Stable

variable {code opcode : UInt8} {masked : Bool} {length : Nat} {frame : Frame} {error : String}
  {buffer rest : Bytes}

theorem decodeLength_takes (takes : decodeLength code buffer = .takes length rest) :
    rest.length ≤ buffer.length ∧
      ∀ more, decodeLength code (buffer ++ more) = .takes length (rest ++ more) := by
  rw [decodeLength] at takes
  split_ifs at takes with short enough long enough' large
  · cases takes
    constructor
    · rw [List.length_drop]
      exact Nat.sub_le _ _
    · intro more
      rw [decodeLength, if_pos short, if_neg (by rw [List.length_append]; omega),
        List.take_append_of_le_length (by omega), List.drop_append_of_le_length (by omega)]
  · cases takes
    constructor
    · rw [List.length_drop]
      exact Nat.sub_le _ _
    · intro more
      rw [decodeLength, if_neg short, if_pos long, if_neg (by rw [List.length_append]; omega),
        List.take_append_of_le_length (by omega), List.drop_append_of_le_length (by omega),
        if_neg large]
  · cases takes
    constructor
    · exact Nat.le_refl _
    · intro more
      rw [decodeLength, if_neg short, if_neg long]

theorem decodeLength_fails (fails : decodeLength code buffer = .fails error) :
    ∀ more, decodeLength code (buffer ++ more) = .fails error := by
  rw [decodeLength] at fails
  split_ifs at fails with short enough long enough' large
  cases fails
  intro more
  rw [decodeLength, if_neg short, if_pos long, if_neg (by rw [List.length_append]; omega),
    List.take_append_of_le_length (by omega), if_pos large]

theorem decodePayload_takes
    (takes : decodePayload opcode masked length buffer = .takes frame rest) :
    rest.length ≤ buffer.length ∧
      ∀ more,
        decodePayload opcode masked length (buffer ++ more) = .takes frame (rest ++ more) := by
  simp only [decodePayload] at takes
  generalize skip : (if masked = true then 4 else 0) = skipped at takes
  split at takes
  · cases takes
  · next enough =>
    cases takes
    constructor
    · rw [List.length_drop]
      exact Nat.sub_le _ _
    · intro more
      have inside : length ≤ (buffer.drop skipped).length := by
        rw [List.length_drop]
        omega
      have mask : masked = true → (buffer ++ more).take 4 = buffer.take 4 := by
        intro isMasked
        rw [if_pos isMasked] at skip
        exact List.take_append_of_le_length (by omega)
      simp only [decodePayload, skip]
      rw [if_neg (by rw [List.length_append]; omega), List.drop_append_of_le_length (by omega),
        List.drop_append_of_le_length (by omega), List.take_append_of_le_length inside]
      cases masked with
      | true => rw [mask rfl]
      | false => rfl

theorem decodePayload_fails : decodePayload opcode masked length buffer ≠ .fails error := by
  intro fails
  simp only [decodePayload] at fails
  generalize (if masked = true then 4 else 0) = skipped at fails
  split at fails
  · cases fails
  · cases fails

theorem decodeFrame_takes (takes : decodeFrame buffer = .takes frame rest) :
    rest.length < buffer.length ∧
      ∀ more, decodeFrame (buffer ++ more) = .takes frame (rest ++ more) := by
  cases buffer with
  | nil => cases takes
  | cons first buffer =>
      cases buffer with
      | nil => cases takes
      | cons second buffer =>
          rw [decodeFrame] at takes
          cases found : decodeLength (second &&& 0x7f) buffer with
          | waits =>
              rw [found] at takes
              cases takes
          | fails error =>
              rw [found] at takes
              cases takes
          | takes length left =>
              rw [found] at takes
              rcases decodeLength_takes found with ⟨header, more⟩
              rcases decodePayload_takes takes with ⟨payload, moreStill⟩
              constructor
              · rw [List.length_cons, List.length_cons]
                omega
              · intro following
                rw [List.cons_append, List.cons_append, decodeFrame, more]
                exact moreStill following

theorem decodeFrame_fails (fails : decodeFrame buffer = .fails error) :
    ∀ more, decodeFrame (buffer ++ more) = .fails error := by
  cases buffer with
  | nil => cases fails
  | cons first buffer =>
      cases buffer with
      | nil => cases fails
      | cons second buffer =>
          rw [decodeFrame] at fails
          cases found : decodeLength (second &&& 0x7f) buffer with
          | waits =>
              rw [found] at fails
              cases fails
          | fails error =>
              rw [found] at fails
              cases fails
              intro more
              rw [List.cons_append, List.cons_append, decodeFrame, decodeLength_fails found]
          | takes length left =>
              rw [found] at fails
              exact absurd fails decodePayload_fails

end Stable

def frameIntake : Intake String UInt8 Frame where
  take := decodeFrame
  shrinks takes := (decodeFrame_takes takes).1
  takes_more takes := (decodeFrame_takes takes).2
  fails_more := decodeFrame_fails

/-- Frame after frame, until one is not complete. -/
def decodeClientFrames (buffer : Bytes) : Except String (List Frame × Bytes) :=
  frameIntake.drain buffer

/-- The frames of the chunks a socket delivers; `socketBuffer` is what is left of those
before. -/
def receiveChunks (socketBuffer : Bytes) (chunks : List Bytes) :
    Except String (List Frame × Bytes) :=
  frameIntake.feed socketBuffer chunks

/-! ## The encoder -/

def encodeServerFrame (payload : Bytes) (opcode : UInt8) : Bytes :=
  let header :=
    if payload.length < 126 then [0x80 ||| opcode, UInt8.ofNat payload.length]
    else if payload.length ≤ 0xffff then [0x80 ||| opcode, 126] ++ writeBE 2 payload.length
    else [0x80 ||| opcode, 127] ++ writeBE 8 payload.length
  header ++ payload

/-! ## Frames as they are sent -/

/-- How many bits of its own a frame gives to its length. -/
inductive LengthForm where
  | seven
  | sixteen
  | sixtyFour
  deriving Repr, DecidableEq

namespace LengthForm

def Holds (form : LengthForm) (length : Nat) : Prop :=
  match form with
  | .seven => length < 126
  | .sixteen => length < 2 ^ 16
  | .sixtyFour => length < 2 ^ 64

/-- The low seven bits of the second byte. -/
def code (form : LengthForm) (length : Nat) : Nat :=
  match form with
  | .seven => length
  | .sixteen => 126
  | .sixtyFour => 127

def write (form : LengthForm) (length : Nat) : Bytes :=
  match form with
  | .seven => []
  | .sixteen => writeBE 2 length
  | .sixtyFour => writeBE 8 length

end LengthForm

/-- A frame and the ways in which it may be written. -/
structure SentFrame where
  flags : Fin 16
  opcode : Fin 16
  mask : Option { key : Bytes // key.length = 4 }
  payload : Bytes
  form : LengthForm
  small : payload.length < 2 ^ 53
  holds : form.Holds payload.length

namespace SentFrame

def first (sent : SentFrame) : UInt8 :=
  UInt8.ofNat (16 * sent.flags + sent.opcode)

def second (sent : SentFrame) : UInt8 :=
  UInt8.ofNat ((if sent.mask.isSome then 128 else 0) + sent.form.code sent.payload.length)

def body (sent : SentFrame) : Bytes :=
  match sent.mask with
  | none => sent.payload
  | some key => key.1 ++ applyMask key.1 sent.payload

def write (sent : SentFrame) : Bytes :=
  sent.first :: sent.second :: (sent.form.write sent.payload.length ++ sent.body)

/-- What the receiver is meant to see. -/
def frame (sent : SentFrame) : Frame :=
  ⟨UInt8.ofNat sent.opcode, sent.payload⟩

end SentFrame

/-! ## What is sent is received -/

theorem first_opcode : ∀ flags opcode : Fin 16,
    UInt8.ofNat (16 * flags + opcode) &&& 0x0f = UInt8.ofNat opcode := by
  decide +kernel

theorem second_code : ∀ code : Fin 128,
    UInt8.ofNat (0 + code) &&& 0x7f = UInt8.ofNat code ∧
      UInt8.ofNat (128 + code) &&& 0x7f = UInt8.ofNat code ∧
      UInt8.ofNat (0 + code) &&& 0x80 = 0 ∧ UInt8.ofNat (128 + code) &&& 0x80 ≠ 0 := by
  decide +kernel

@[simp] theorem length_applyMask (mask payload : Bytes) :
    (applyMask mask payload).length = payload.length := by
  rw [applyMask, List.length_mapIdx]

theorem applyMask_applyMask (mask payload : Bytes) :
    applyMask mask (applyMask mask payload) = payload := by
  apply List.ext_getElem
  · rw [length_applyMask, length_applyMask]
  · intro i _ _
    simp only [applyMask, List.getElem_mapIdx, UInt8.xor_assoc, UInt8.xor_self, UInt8.xor_zero]

/-- A number and what follows it, read apart. -/
theorem writeBE_append (width value : Nat) (rest : Bytes) :
    ¬(writeBE width value ++ rest).length < width ∧
      (writeBE width value ++ rest).take width = writeBE width value ∧
      (writeBE width value ++ rest).drop width = rest := by
  have length := length_writeBE width value
  refine ⟨?_, List.take_left' length, List.drop_left' length⟩
  rw [List.length_append, length]
  omega

theorem LengthForm.decoded {form : LengthForm} {length : Nat} (holds : form.Holds length)
    (small : length < 2 ^ 53) (rest : Bytes) :
    decodeLength (UInt8.ofNat (form.code length)) (form.write length ++ rest) =
      .takes length rest := by
  cases form with
  | seven =>
      have seven : length < 126 := holds
      have code : (UInt8.ofNat length).toNat = length :=
        UInt8.toNat_ofNat_of_lt (by change length < 256; omega)
      have short : UInt8.ofNat length ≠ 126 := by
        intro equal
        have value : (UInt8.ofNat length).toNat = 126 := by rw [equal]; rfl
        omega
      have long : UInt8.ofNat length ≠ 127 := by
        intro equal
        have value : (UInt8.ofNat length).toNat = 127 := by rw [equal]; rfl
        omega
      change decodeLength (UInt8.ofNat length) rest = _
      rw [decodeLength, if_neg short, if_neg long, code]
  | sixteen =>
      have read : readBE (writeBE 2 length) = length := readBE_writeBE holds
      rcases writeBE_append 2 length rest with ⟨enough, front, back⟩
      change decodeLength 126 (writeBE 2 length ++ rest) = _
      rw [decodeLength, if_pos rfl, if_neg enough, front, back, read]
  | sixtyFour =>
      have read : readBE (writeBE 8 length) = length := readBE_writeBE holds
      rcases writeBE_append 8 length rest with ⟨enough, front, back⟩
      have safe : ¬length > maxSafeInteger := by
        rw [maxSafeInteger]
        omega
      change decodeLength 127 (writeBE 8 length ++ rest) = _
      rw [decodeLength, if_neg (by decide), if_pos rfl, if_neg enough, front, back, read,
        if_neg safe]

theorem decodePayload_body (sent : SentFrame) (opcode : UInt8) (rest : Bytes) :
    decodePayload opcode sent.mask.isSome sent.payload.length (sent.body ++ rest) =
      .takes ⟨opcode, sent.payload⟩ rest := by
  rw [SentFrame.body]
  cases sent.mask with
  | none =>
      simp [decodePayload]
  | some key =>
      rcases key with ⟨key, four⟩
      have masked := length_applyMask key sent.payload
      have enough : ¬(key ++ (applyMask key sent.payload ++ rest)).length <
          4 + sent.payload.length := by
        rw [List.length_append, List.length_append, four, masked]
        omega
      simp only [decodePayload, Option.isSome_some, if_true, List.append_assoc]
      rw [if_neg enough, ← List.drop_drop, List.drop_left' four, List.take_left' four,
        List.take_left' masked, List.drop_left' masked, applyMask_applyMask]

theorem second_decoded (sent : SentFrame) :
    sent.second &&& 0x7f = UInt8.ofNat (sent.form.code sent.payload.length) ∧
      decide (sent.second &&& 0x80 ≠ 0) = sent.mask.isSome := by
  have small : sent.form.code sent.payload.length < 128 := by
    have holds := sent.holds
    revert holds
    cases sent.form with
    | seven =>
        intro (seven : sent.payload.length < 126)
        exact Nat.lt_trans seven (by decide)
    | sixteen => exact fun _ => (by decide : 126 < 128)
    | sixtyFour => exact fun _ => (by decide : 127 < 128)
  rcases second_code ⟨_, small⟩ with ⟨plain, masked, clear, set⟩
  rw [SentFrame.second]
  cases sent.mask with
  | none => exact ⟨plain, decide_eq_false (not_not_intro clear)⟩
  | some key => exact ⟨masked, decide_eq_true set⟩

/-- A frame is decoded whatever follows it. -/
theorem decodeFrame_write (sent : SentFrame) (rest : Bytes) :
    decodeFrame (sent.write ++ rest) = .takes sent.frame rest := by
  rcases second_decoded sent with ⟨code, masked⟩
  rw [SentFrame.write, List.cons_append, List.cons_append, List.append_assoc, decodeFrame, code,
    LengthForm.decoded sent.holds sent.small, masked, SentFrame.first, first_opcode]
  exact decodePayload_body sent _ rest

theorem decodeClientFrames_write (sent : List SentFrame) :
    decodeClientFrames (sent.flatMap SentFrame.write) = .ok (sent.map SentFrame.frame, []) := by
  have waits : frameIntake.take [] = .waits := rfl
  have written : ∀ frame ∈ sent, ∀ rest,
      frameIntake.take (frame.write ++ rest) = .takes frame.frame rest :=
    fun frame _ => decodeFrame_write frame
  have drained := Intake.drain_written written waits
  rw [List.append_nil] at drained
  exact drained

/-- The encoder writes its frames unmasked, in the shortest form that holds the length. -/
theorem encodeServerFrame_sent {opcode : UInt8} (small : opcode < 16) {payload : Bytes}
    (short : payload.length < 2 ^ 53) :
    ∃ sent : SentFrame, encodeServerFrame payload opcode = sent.write ∧
      sent.frame = ⟨opcode, payload⟩ := by
  have first : ∀ opcode : Fin 16,
      0x80 ||| UInt8.ofNat opcode = UInt8.ofNat (16 * (8 : Fin 16) + opcode) := by
    decide +kernel
  have bounded : opcode.toNat < 16 := UInt8.lt_iff_toNat_lt.mp small
  have written := first ⟨opcode.toNat, bounded⟩
  rw [UInt8.ofNat_toNat] at written
  have frame : (⟨UInt8.ofNat opcode.toNat, payload⟩ : Frame) = ⟨opcode, payload⟩ := by
    rw [UInt8.ofNat_toNat]
  rw [encodeServerFrame, written]
  split_ifs with seven sixteen
  · exact ⟨⟨8, ⟨opcode.toNat, bounded⟩, none, payload, .seven, short, seven⟩,
      by simp [SentFrame.write, SentFrame.first, SentFrame.second, SentFrame.body,
        LengthForm.write, LengthForm.code], frame⟩
  · exact ⟨⟨8, ⟨opcode.toNat, bounded⟩, none, payload, .sixteen, short, Nat.lt_succ_of_le sixteen⟩,
      by simp [SentFrame.write, SentFrame.first, SentFrame.second, SentFrame.body,
        LengthForm.write, LengthForm.code], frame⟩
  · exact ⟨⟨8, ⟨opcode.toNat, bounded⟩, none, payload, .sixtyFour, short,
        Nat.lt_trans short (by decide)⟩,
      by simp [SentFrame.write, SentFrame.first, SentFrame.second, SentFrame.body,
        LengthForm.write, LengthForm.code], frame⟩

/-- However the frames are written and their bytes cut, they all arrive, in order, and
nothing is left over. -/
theorem frames_received :
    (∀ (sent : List SentFrame) (chunks : List Bytes),
      chunks.flatten = sent.flatMap SentFrame.write →
      receiveChunks [] chunks = .ok (sent.map SentFrame.frame, [])) ∧
    ∀ (payload : Bytes) (opcode : UInt8), opcode < 16 → payload.length < 2 ^ 53 →
      decodeClientFrames (encodeServerFrame payload opcode) = .ok ([⟨opcode, payload⟩], []) := by
  constructor
  · intro sent chunks cut
    have settled : frameIntake.drain [] = .ok ([], []) := Intake.drain_waits rfl
    rw [receiveChunks, Intake.feed_eq chunks settled, List.nil_append, cut]
    exact decodeClientFrames_write sent
  · intro payload opcode small short
    rcases encodeServerFrame_sent small short with ⟨sent, written, frame⟩
    have decoded := decodeClientFrames_write [sent]
    rw [List.flatMap_singleton] at decoded
    rw [written, decoded, List.map_singleton, frame]

/-- A masked text and an empty ping with a length of eight bytes, cut in a mask and in a
length. -/
theorem frames_received_cut :
    receiveChunks []
        [[0x81, 0x82, 1, 2], [3, 4, 0x6e, 0x69, 0x89, 0x7f, 0, 0, 0], [0, 0, 0, 0, 0]] =
        .ok ([⟨1, bytes "ok"⟩, ⟨9, []⟩], []) ∧
      decodeClientFrames (encodeServerFrame (bytes "ok") 1) = .ok ([⟨1, bytes "ok"⟩], []) :=
  ⟨frames_received.1
    [⟨8, 1, some ⟨[1, 2, 3, 4], rfl⟩, bytes "ok", .seven, by decide,
        by unfold LengthForm.Holds; decide⟩,
      ⟨8, 9, none, [], .sixtyFour, by decide, by unfold LengthForm.Holds; decide⟩] _ (by decide),
    frames_received.2 _ _ (by decide) (by decide)⟩

end CardCode.DevServer
