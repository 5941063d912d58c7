import Attune.GdbPackets

namespace Attune.Gdb
open List

def escape : UInt8 := 125

def star : UInt8 := 42

def isSpecial (b : UInt8) : Bool := b == hash || b == dollar || b == escape || b == star

def hexDigit (n : Nat) : UInt8 := UInt8.ofNat (if n < 10 then 48 + n else 87 + n)

def writeHex (hex : UInt8) : Bytes := [hexDigit (hex.toNat / 16), hexDigit (hex.toNat % 16)]

def writePacketBytes (data : Bytes) : Bytes :=
  dollar :: (data ++ hash :: writeHex (data.foldl (· + ·) 0))

inductive Fault where
  | lengthError
  | indexOverflow
  | outOfBounds
  deriving DecidableEq

/-- The loop of `write_binary_packet` over a buffer of fixed size. -/
def encodeLoop (size : Nat) : Bytes → Bytes → Bytes
  | [], buf => buf
  | b :: data, buf =>
    if buf.length + 2 > size then buf
    else encodeLoop size data (buf ++ if isSpecial b then [escape, b ^^^ 32] else [b])

/-- No vector has the doubled size of a negative length, and an `int` counts the bytes. -/
def writeBinaryPacket (pfx data : Bytes) (numBytes : Int) : Except Fault Bytes :=
  if numBytes < 0 ∨ 2 ^ 62 ≤ numBytes then .error .lengthError
  else if data.length < numBytes then .error .outOfBounds
  else if 2 ^ 31 ≤ numBytes then .error .indexOverflow
  else
    .ok (writePacketBytes
      (encodeLoop (2 * numBytes.toNat + pfx.length) (data.take numBytes.toNat) pfx))

def readBinaryData : Bytes → Option Bytes
  | [] => some []
  | b :: payload =>
    if b == escape then
      match payload with
      | [] => none
      | c :: payload => (readBinaryData payload).map ((32 ^^^ c) :: ·)
    else (readBinaryData payload).map (b :: ·)

def encodeByte (b : UInt8) : Bytes := if isSpecial b then [escape, b ^^^ 32] else [b]

theorem length_encodeByte (b : UInt8) : (encodeByte b).length ≤ 2 := by
  rw [encodeByte]
  split <;> simp

/-- The buffer is never too small. -/
theorem encodeLoop_eq (h : buf.length + 2 * data.length ≤ size) :
    encodeLoop size data buf = buf ++ data.flatMap encodeByte := by
  induction data generalizing buf with
  | nil => simp [encodeLoop]
  | cons b data ih =>
    have hb := length_encodeByte b
    rw [length_cons] at h
    have hr := @ih (buf ++ encodeByte b) (by rw [length_append]; omega)
    rw [encodeLoop, if_neg (by omega), flatMap_cons, ← append_assoc, ← hr]
    rfl

theorem isSpecial_iff : isSpecial b = true ↔ b = hash ∨ b = dollar ∨ b = escape ∨ b = star := by
  simp [isSpecial, or_assoc]

theorem readBinaryData_encode (data : Bytes) :
    readBinaryData (data.flatMap encodeByte) = some data := by
  induction data with
  | nil => rfl
  | cons b data ih =>
    rw [flatMap_cons, encodeByte]
    split
    · next hb =>
      have hba : 32 ^^^ (b ^^^ 32) = b := by
        rcases isSpecial_iff.mp hb with rfl | rfl | rfl | rfl <;> rfl
      simp [readBinaryData, ih, hba]
    · next hb =>
      have hne : b ≠ escape := fun heq => hb (isSpecial_iff.mpr (.inr (.inr (.inl heq))))
      rw [singleton_append, readBinaryData.eq_def]
      simp [ih, hne]

def Framing (b : UInt8) : Prop := b = hash ∨ b = dollar ∨ b = star

theorem Framing.special (h : Framing b) : isSpecial b = true :=
  isSpecial_iff.mpr (h.imp_right (·.imp_right .inr))

theorem not_framing_encodeByte (hx : x ∈ encodeByte b) : ¬ Framing x := by
  rw [encodeByte] at hx
  split at hx
  · next hb =>
    rw [isSpecial_iff] at hb
    simp only [mem_cons, not_mem_nil, or_false] at hx
    rcases hx with rfl | rfl
    · rintro (h | h | h) <;> cases h
    · rcases hb with rfl | rfl | rfl | rfl <;> rintro (h | h | h) <;> cases h
  · next hb =>
    rw [mem_singleton.mp hx]
    exact fun h => hb h.special

theorem nextItem_writePacketBytes (h : hash ∉ data) : nextItem (writePacketBytes data) =
    some (.packet data, writeHex (data.foldl (· + ·) 0)) := by
  have hsk : skipTo (writePacketBytes data) = writePacketBytes data := rfl
  have hh : ¬ (writePacketBytes data).head? = some interruptChar :=
    fun heq => absurd (Option.some.inj heq) (by decide)
  have hidx : (writePacketBytes data).idxOf hash = data.length + 1 := by
    rw [writePacketBytes, idxOf_cons_ne _ (by decide), idxOf_append_of_notMem h]
    simp
  have hmem : hash ∈ writePacketBytes data := by simp [writePacketBytes]
  rw [nextItem, hsk, if_neg (ne_nil_of_mem hmem), if_neg hh, if_pos hmem, hidx]
  simp [writePacketBytes]

theorem foldl_toNat (data : Bytes) (a : UInt8) :
    data.foldl (· + ·) a = UInt8.ofNat (a.toNat + (data.map UInt8.toNat).sum) := by
  induction data generalizing a with
  | nil => simp
  | cons b data ih =>
    rw [foldl_cons, ih]
    apply UInt8.toNat_inj.mp
    simp [Nat.add_assoc]

theorem writeBinaryPacket_eq {n : Nat} (hlen : n ≤ data.length) (hn : n < 2 ^ 31) (pfx : Bytes) :
    writeBinaryPacket pfx data n =
      .ok (writePacketBytes (pfx ++ (data.take n).flatMap encodeByte)) := by
  have ht : (data.take n).length = n := length_take_of_le hlen
  rw [writeBinaryPacket, if_neg (by omega), if_neg (by omega), if_neg (by omega), Int.toNat_natCast,
    encodeLoop_eq (by omega)]

theorem binary_packet_roundtrip (pfx data : Bytes) (hpfx : ∀ b ∈ pfx, isSpecial b = false)
    (hlen : data.length < 2 ^ 31) :
    ∃ body checksum, writeBinaryPacket pfx data data.length =
        .ok (dollar :: (pfx ++ body ++ hash :: writeHex checksum)) ∧
      (∀ b ∈ pfx ++ body, b ≠ hash ∧ b ≠ dollar ∧ b ≠ star) ∧
      checksum.toNat = ((pfx ++ body).map UInt8.toNat).sum % 256 ∧
      nextItem (dollar :: (pfx ++ body ++ hash :: writeHex checksum)) =
        some (.packet (pfx ++ body), writeHex checksum) ∧
      readBinaryData body = some data := by
  have hc : ∀ b ∈ pfx ++ data.flatMap encodeByte, ¬ Framing b := by
    rw [forall_mem_append]
    refine ⟨fun b hb h => ?_, fun b hb => ?_⟩
    · exact Bool.false_ne_true ((hpfx b hb).symm.trans h.special)
    · obtain ⟨_, _, hb⟩ := mem_flatMap.mp hb
      exact not_framing_encodeByte hb
  refine ⟨data.flatMap encodeByte, (pfx ++ data.flatMap encodeByte).foldl (· + ·) 0, ?_, ?_, ?_, ?_,
    readBinaryData_encode data⟩
  · rw [writeBinaryPacket_eq (Nat.le_refl _) hlen, take_length]
    rfl
  · intro b hb
    simpa [Framing] using hc b hb
  · rw [foldl_toNat]
    simp
  · exact nextItem_writePacketBytes fun h => hc _ h (.inl rfl)

theorem binary_packet_roundtrip_escaped : ∃ body checksum,
    writeBinaryPacket (bytes "m") (bytes "a#*") 3 =
      .ok (dollar :: (bytes "m" ++ body ++ hash :: writeHex checksum)) ∧
    readBinaryData body = some (bytes "a#*") := by
  obtain ⟨body, checksum, hp, _, _, _, hr⟩ :=
    binary_packet_roundtrip (bytes "m") (bytes "a#*") (by decide +kernel) (by decide)
  exact ⟨body, checksum, hp, hr⟩

/-- The conversion of a `size_t` to a `ssize_t`. -/
def toSigned (n : Nat) : Int := if n < 2 ^ 63 then n else n - 2 ^ 64

def writeXferResponse (data : Bytes) (offset len : Nat) : Except Fault Bytes :=
  if offset > data.length then .ok (writePacketBytes (bytes "E01"))
  else if offset = data.length then .ok (writePacketBytes (bytes "l"))
  else if (offset + len) % 2 ^ 64 < data.length then
    writeBinaryPacket (bytes "m") (data.drop offset) (toSigned len)
  else writeBinaryPacket (bytes "l") (data.drop offset) (toSigned (data.length - offset))

/-- What a client reads in a response: its first letter and the bytes behind it. -/
def readResponse (packet : Bytes) : Option (UInt8 × Bytes) :=
  match nextItem packet with
  | some (.packet (mark :: body), _) => (readBinaryData body).map (mark, ·)
  | _ => none

/-- The bytes of the object from the offset on, with `l` when they reach its end and `m` else. -/
def Transfers (data : Bytes) (offset len : Nat) (packet : Bytes) : Prop :=
  readResponse packet =
    some (if data.length ≤ offset + len then 108 else 109, (data.drop offset).take len)

/-- A client that goes on behind what it has received, up to an `l`. -/
def fetch (data : Bytes) : List Nat → Bytes → Option (Bytes × Bool)
  | [], got => some (got, false)
  | len :: lens, got =>
    match writeXferResponse data got.length len with
    | .error _ => none
    | .ok packet =>
      match readResponse packet with
      | some (mark, chunk) =>
        if mark = 108 then some (got ++ chunk, true) else fetch data lens (got ++ chunk)
      | none => none

theorem readResponse_writePacketBytes (hm : mark ≠ hash) (chunk : Bytes) :
    readResponse (writePacketBytes (mark :: chunk.flatMap encodeByte)) = some (mark, chunk) := by
  have hc : hash ∉ mark :: chunk.flatMap encodeByte := by
    rw [mem_cons, mem_flatMap]
    rintro (heq | ⟨_, _, hb⟩)
    · exact hm heq.symm
    · exact not_framing_encodeByte hb (.inl rfl)
  simp [readResponse, nextItem_writePacketBytes hc, readBinaryData_encode]

def Servable (data : Bytes) (offset len : Nat) : Prop :=
  offset + len < 2 ^ 64 ∧ min len (data.length - offset) < 2 ^ 31

theorem writeXferResponse_eq (ho : offset ≤ data.length)
    (h : offset < data.length → Servable data offset len) :
    ∃ packet, writeXferResponse data offset len = .ok packet ∧ Transfers data offset len packet := by
  have hd : (data.drop offset).length = data.length - offset := length_drop
  simp only [writeXferResponse, Transfers]
  rw [if_neg (Nat.not_lt.mpr ho)]
  split
  · next heq =>
    rw [if_pos (by omega), heq, drop_length, take_nil]
    exact ⟨_, rfl, readResponse_writePacketBytes (by decide) []⟩
  next hne =>
  obtain ⟨hsum, hmin⟩ := h (by omega)
  rw [Nat.mod_eq_of_lt hsum]
  split
  · next hlt =>
    have hsi : toSigned len = len := if_pos (by omega)
    rw [hsi, writeBinaryPacket_eq (by omega) (by omega), if_neg (by omega)]
    exact ⟨_, rfl, readResponse_writePacketBytes (by decide) _⟩
  · next hle =>
    have hsi : toSigned (data.length - offset) = (data.length - offset : Nat) :=
      if_pos (by omega)
    rw [hsi, writeBinaryPacket_eq (by omega) (by omega), if_pos (by omega),
      take_of_length_le (Nat.le_of_eq hd), take_of_length_le (by omega)]
    exact ⟨_, rfl, readResponse_writePacketBytes (by decide) _⟩

theorem writeXferResponse_error (hsi : data.length < 2 ^ 63) (hlen : len < 2 ^ 64)
    (ho : offset < data.length) (h : ¬ Servable data offset len) :
    ∃ e, writeXferResponse data offset len = .error e ∧ e ≠ .outOfBounds := by
  have hd : (data.drop offset).length = data.length - offset := length_drop
  have hf {n : Nat} (hn : 2 ^ 31 ≤ n ∧ n < 2 ^ 64) (hb : 2 ^ 63 ≤ n ∨ n ≤ data.length - offset) (pfx : Bytes) :
      ∃ e, writeBinaryPacket pfx (data.drop offset) (toSigned n) = .error e ∧ e ≠ .outOfBounds := by
    rw [writeBinaryPacket, toSigned, hd]
    split
    · next hlt =>
      split
      · exact ⟨_, rfl, nofun⟩
      · rw [if_neg (by omega), if_pos (by omega)]
        exact ⟨_, rfl, nofun⟩
    · next hge =>
      rw [if_pos (by omega)]
      exact ⟨_, rfl, nofun⟩
  rw [writeXferResponse, if_neg (by omega), if_neg (by omega)]
  rw [Servable, not_and_or] at h
  split
  · next hlt => exact hf (by omega) (by omega) _
  · next hle => exact hf (by omega) (by omega) _

theorem fetch_eq (h : ∀ len ∈ lens, ∀ offset < data.length, Servable data offset len)
    (hn : n ≤ data.length) : ∃ done, fetch data lens (data.take n) =
      some (data.take (n + lens.sum), done) ∧
        (done = true ↔ lens ≠ [] ∧ data.length ≤ n + lens.sum) := by
  induction lens generalizing n with
  | nil => exact ⟨false, rfl, by simp⟩
  | cons len lens ih =>
    rw [forall_mem_cons] at h
    obtain ⟨packet, hp, hr⟩ := writeXferResponse_eq hn (h.1 n)
    rw [Transfers] at hr
    rw [fetch, length_take_of_le hn, hp]
    simp only [hr, ← take_add, sum_cons, ← Nat.add_assoc]
    by_cases hend : data.length ≤ n + len
    · rw [if_pos hend, if_pos rfl]
      refine ⟨true, ?_, by simp; omega⟩
      rw [take_of_length_le hend, take_of_length_le (by omega)]
    rw [if_neg hend, if_neg (by decide)]
    obtain ⟨done, hre, hd⟩ := ih h.2 (Nat.le_of_not_le hend)
    refine ⟨done, hre, hd.trans ?_⟩
    cases lens with
    | nil => simpa using hend
    | cons => simp

theorem xfer_responses_iff (data : Bytes) (hsize : data.length < 2 ^ 63) :
    (∀ offset len, len < 2 ^ 64 →
      ((∃ packet, writeXferResponse data offset len = .ok packet ∧
          if data.length < offset then packet = writePacketBytes (bytes "E01")
          else Transfers data offset len packet) ↔
        data.length ≤ offset ∨ Servable data offset len) ∧
      writeXferResponse data offset len ≠ .error .outOfBounds) ∧
    ∀ lens, (∀ len ∈ lens, ∀ offset < data.length, Servable data offset len) →
      ∃ done, fetch data lens [] = some (data.take lens.sum, done) ∧
        (done = true ↔ lens ≠ [] ∧ data.length ≤ lens.sum) := by
  refine ⟨fun offset len hlen => ?_, fun lens h => ?_⟩
  · by_cases hb : data.length < offset
    · have heq : writeXferResponse data offset len = .ok (writePacketBytes (bytes "E01")) :=
        if_pos hb
      simp only [heq, if_pos hb]
      exact ⟨iff_of_true ⟨_, rfl, rfl⟩ (.inl (Nat.le_of_lt hb)), nofun⟩
    · simp only [if_neg hb]
      by_cases h : offset < data.length → Servable data offset len
      · obtain ⟨packet, heq, ht⟩ := writeXferResponse_eq (Nat.le_of_not_lt hb) h
        rw [heq]
        exact ⟨iff_of_true ⟨packet, rfl, ht⟩ ((Nat.lt_or_ge offset data.length).symm.imp_right h), nofun⟩
      · obtain ⟨hlt, hno⟩ := Classical.not_imp.mp h
        obtain ⟨e, heq, he⟩ := writeXferResponse_error hsize hlen hlt hno
        rw [heq]
        refine ⟨iff_of_false nofun ?_, fun h => he (Except.error.inj h)⟩
        exact fun h => h.elim (Nat.not_le.mpr hlt) hno
  · obtain ⟨done, hf, hd⟩ := fetch_eq h (Nat.zero_le _)
    rw [Nat.zero_add] at hf hd
    exact ⟨done, hf, hd⟩

theorem xfer_responses_iff_two_requests :
    ∃ done, fetch (bytes "a#") [1, 5] [] = some (bytes "a#", done) ∧ (done = true ↔ True) := by
  obtain ⟨done, hf, hd⟩ := (xfer_responses_iff (bytes "a#") (by decide)).2 [1, 5] (by
    intro len hlen offset ho
    have hsi : (bytes "a#").length = 2 := rfl
    simp only [mem_cons, not_mem_nil, or_false] at hlen
    constructor <;> omega)
  exact ⟨done, hf, hd.trans (by decide)⟩

/-- The end of the request wraps around, and the length is taken for a negative one. -/
theorem xfer_request_wraps :
    writeXferResponse (bytes "ab") 1 (2 ^ 64 - 1) = .error .lengthError := rfl

end Attune.Gdb
