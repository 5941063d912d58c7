import Attune.DwarfReader

namespace Attune.DebugInfo
open Memory List

section Spec

/-- An encoding in ULEB128: the last byte alone has its high bit clear. -/
def IsUleb : Bytes → Prop
  | [] => False
  | [b] => b.toNat < 128
  | b :: bytes => 128 ≤ b.toNat ∧ IsUleb bytes

def ulebValue : Bytes → Nat
  | [] => 0
  | b :: bytes => b.toNat % 128 + 128 * ulebValue bytes

/-- The amounts by which the loops shift the bytes that they read. -/
def shiftAmounts (width : Nat) (bytes : Bytes) : List Nat := (range bytes.length).map (width * ·)

end Spec

theorem load_cons (h : m.drop start = b :: rest) : load m start 1 = .ok b.toNat := by
  have hlen := congrArg length h
  rw [length_drop, length_cons] at hlen
  rw [load_eq (by omega), peek, slice, h]
  simp [littleEndian]

/-- A byte is added to the bits below it as long as the sum fits in an `int`. -/
theorem or_shiftInt (hs : shift ≤ 28) (hx : x < 256) (hr : ret < 2 ^ shift) :
    ret ||| shiftInt x shift = ret + x * 2 ^ shift ↔ ret + x * 2 ^ shift < 2 ^ 31 := by
  have hpow : 2 ^ (31 - shift) * 2 ^ shift = 2 ^ 31 := by
    rw [← Nat.pow_add, Nat.sub_add_cancel (by omega)]
  have hle : 2 ^ shift ≤ 2 ^ 28 := Nat.pow_le_pow_right Nat.two_pos hs
  have hbig := Nat.mul_lt_mul_of_pos_right hx (Nat.two_pow_pos shift)
  have hf : ret + x * 2 ^ shift < 2 ^ 31 ↔ x * 2 ^ shift < 2 ^ 31 := by
    refine ⟨by omega, fun h => ?_⟩
    rw [← hpow] at h
    have hn := Nat.mul_le_mul_right (2 ^ shift) (Nat.lt_of_mul_lt_mul_right h)
    rw [Nat.succ_mul] at hn
    omega
  rw [hf, shiftInt, Nat.mod_eq_of_lt (by omega : shift < 32), Nat.shiftLeft_eq]
  by_cases h : x * 2 ^ shift < 2 ^ 31
  · rw [Nat.mod_eq_of_lt (by omega), if_pos h, Nat.or_comm, Nat.add_comm, Nat.mul_comm,
      ← Nat.two_pow_add_eq_or_of_lt hr]
    exact iff_of_true rfl (Nat.mul_comm x _ ▸ h)
  · apply iff_of_false _ h
    intro heq
    split at heq
    · next hlow =>
      have hlt := Nat.or_lt_two_pow (show ret < 2 ^ 31 by omega) hlow
      omega
    · have hge := Nat.right_le_or (n := ret) (m := x * 2 ^ shift % 2 ^ 32 + (2 ^ 64 - 2 ^ 32))
      omega

/-- One digit of `width` bits is put above the bits read before. -/
theorem digit_above (hx : x < 2 ^ width) (hr : ret < 2 ^ shift) :
    ret + x * 2 ^ shift < 2 ^ (shift + width) ∧ ∀ v, ret + x * 2 ^ shift + v * 2 ^ (shift + width) =
      ret + (x + 2 ^ width * v) * 2 ^ shift := by
  have hmul := Nat.mul_le_mul_right (2 ^ shift) (Nat.succ_le_of_lt hx)
  rw [Nat.succ_mul, Nat.mul_comm (2 ^ width), ← Nat.pow_add] at hmul
  refine ⟨by omega, fun v => ?_⟩
  rw [Nat.add_mul, Nat.pow_add, Nat.mul_comm (2 ^ width), Nat.mul_assoc v,
    Nat.mul_comm (2 ^ width), Nat.add_assoc]

theorem readUlebLoop_value (hu : IsUleb enc) (hm : m.drop start = enc ++ rest)
    (hn : enc.length ≤ n) (hs : shift + 7 * enc.length ≤ 35) (hr : ret < 2 ^ shift) :
    ∃ r, readUlebLoop m n start ret shift =
        .ok (some r, ⟨start + enc.length, n - enc.length⟩) ∧
      (r = ret + ulebValue enc * 2 ^ shift ↔ ret + ulebValue enc * 2 ^ shift < 2 ^ 31) := by
  induction enc generalizing start n ret shift with
  | nil => exact hu.elim
  | cons b enc ih =>
    obtain ⟨n, rfl⟩ : ∃ k, n = k + 1 := ⟨n - 1, by rw [length_cons] at hn; omega⟩
    have hb := b.toNat_lt
    rw [cons_append] at hm
    rw [length_cons] at hn hs ⊢
    rw [readUlebLoop, load_cons hm, ok_bind]
    cases enc with
    | nil =>
      have hu : b.toNat < 128 := hu
      rw [if_pos hu, Nat.mod_eq_of_lt hu]
      rw [length_nil] at hs
      refine ⟨_, rfl, ?_⟩
      rw [ulebValue, ulebValue, Nat.mul_zero, Nat.add_zero, Nat.mod_eq_of_lt hu]
      exact or_shiftInt (by omega) (by omega) hr
    | cons c enc =>
      obtain ⟨hh, hu⟩ := hu
      rw [length_cons] at hs
      have hd : b.toNat % 128 < 2 ^ 7 := by omega
      obtain ⟨hlow, hsum⟩ := digit_above hd hr
      have hpow : 2 ^ (shift + 7) ≤ 2 ^ 28 := Nat.pow_le_pow_right Nat.two_pos (by omega)
      have hdr : m.drop (start + 1) = c :: enc ++ rest := by
        rw [← drop_drop, hm]
        rfl
      have hor := (or_shiftInt (by omega) (show b.toNat % 128 < 256 by omega) hr).mpr (by omega)
      rw [if_neg (by omega), if_neg (by omega), hor]
      obtain ⟨r, hl, hv⟩ := ih hu hdr (Nat.le_of_succ_le_succ hn)
        (by rw [length_cons]; omega) hlow
      refine ⟨r, ?_, ?_⟩
      · rw [hl, Nat.succ_sub_succ, Nat.add_assoc, Nat.add_comm 1]
      · rw [hsum] at hv
        exact hv

theorem decodeUnsignedLoop_value (hne : lit ≠ []) (hm : m.drop start = lit ++ rest)
    (hs : shift + 8 * lit.length ≤ 32) (hr : ret < 2 ^ shift) :
    ∃ r, decodeUnsignedLoop m lit.length start shift ret = .ok (some r) ∧
      (r = ret + littleEndian lit * 2 ^ shift ↔ ret + littleEndian lit * 2 ^ shift < 2 ^ 31) := by
  induction lit generalizing start ret shift with
  | nil => exact absurd rfl hne
  | cons b lit ih =>
    have hb := b.toNat_lt
    rw [cons_append] at hm
    rw [length_cons] at hs ⊢
    rw [decodeUnsignedLoop, if_neg (by omega), load_cons hm, ok_bind]
    have hor := or_shiftInt (x := b.toNat) (by omega) hb hr
    cases lit with
    | nil =>
      refine ⟨_, rfl, ?_⟩
      rw [littleEndian, littleEndian, Nat.mul_zero, Nat.add_zero]
      exact hor
    | cons c lit =>
      rw [length_cons] at hs
      obtain ⟨hlow, hsum⟩ := digit_above hb hr
      have hpow : 2 ^ (shift + 8) ≤ 2 ^ 24 := Nat.pow_le_pow_right Nat.two_pos (by omega)
      have hd : m.drop (start + 1) = c :: lit ++ rest := by
        rw [← drop_drop, hm]
        rfl
      rw [hor.mpr (by omega)]
      obtain ⟨r, hl, hv⟩ := ih (cons_ne_nil c lit) hd (by rw [length_cons]; omega) hlow
      rw [hsum] at hv
      exact ⟨r, hl, hv⟩

theorem shiftAmounts_lt {bytes : Bytes} (hne : bytes ≠ []) :
    (∀ k ∈ shiftAmounts width bytes, k < 32) ↔ width * (bytes.length - 1) < 32 := by
  have hpos := length_pos_of_ne_nil hne
  simp only [shiftAmounts, mem_map, mem_range, forall_exists_index, and_imp,
    forall_apply_eq_imp_iff₂]
  refine ⟨fun h => h _ (by omega), fun h k hk => ?_⟩
  exact Nat.lt_of_le_of_lt (Nat.mul_le_mul_left width (by omega)) h

/-- Bytes are shifted as an `int`, so numbers are read right up to 31 bits. -/
theorem read_numbers_iff (m : Bytes) :
    (∀ s enc rest, m.drop s.start = enc ++ rest → enc.length ≤ s.size → IsUleb enc →
      enc.length ≤ 10 → ulebValue enc < 2 ^ 64 →
      (readUleb m s = .ok (some (ulebValue enc), ⟨s.start + enc.length, s.size - enc.length⟩) ∧
          (∀ k ∈ shiftAmounts 7 enc, k < 32) ↔
        enc.length ≤ 5 ∧ ulebValue enc < 2 ^ 31)) ∧
    ∀ s lit rest, m.drop s.start = lit ++ rest → lit.length = s.size → lit.length ≤ 8 →
      (decodeUnsignedLiteral m s = .ok (some (littleEndian lit)) ∧
          (∀ k ∈ shiftAmounts 8 lit, k < 32) ↔
        lit.length ≤ 4 ∧ littleEndian lit < 2 ^ 31) := by
  constructor
  · intro s enc rest hm hn hu _ _
    have hne : enc ≠ [] := by
      rintro rfl
      exact hu
    have hlen : 7 * (enc.length - 1) < 32 ↔ enc.length ≤ 5 := by omega
    rw [shiftAmounts_lt hne, hlen, and_comm]
    apply and_congr_right
    intro hle
    obtain ⟨r, hl, hv⟩ := readUlebLoop_value hu hm hn (by omega)
      (show 0 < 2 ^ 0 from Nat.one_pos)
    rw [Nat.pow_zero, Nat.mul_one, Nat.zero_add] at hv
    rw [readUleb, hl, ← hv]
    simp
  · intro s lit rest hm hn _
    rw [decodeUnsignedLiteral, ← hn]
    cases lit with
    | nil => simp [decodeUnsignedLoop, shiftAmounts, littleEndian]
    | cons b lit =>
      have hlen : 8 * ((b :: lit).length - 1) < 32 ↔ (b :: lit).length ≤ 4 := by omega
      rw [shiftAmounts_lt (cons_ne_nil b lit), hlen, and_comm]
      apply and_congr_right
      intro hle
      obtain ⟨r, hl, hv⟩ := decodeUnsignedLoop_value (cons_ne_nil b lit) hm
        (by omega) (show 0 < 2 ^ 0 from Nat.one_pos)
      rw [Nat.pow_zero, Nat.mul_one, Nat.zero_add] at hv
      rw [hl, ← hv]
      simp

theorem read_numbers_iff_small :
    readUleb [0xe5, 0x8e, 0x26, 7] ⟨0, 4⟩ = .ok (some 624485, ⟨3, 1⟩) := by
  have h := (read_numbers_iff [0xe5, 0x8e, 0x26, 7]).1 ⟨0, 4⟩ [0xe5, 0x8e, 0x26] [7] rfl
    (by decide) (by simp [IsUleb]) (by decide) (by decide)
  exact (h.mpr (by decide)).1

/-- The byte for bit 28 on is shifted over the sign, and the next one by more than the width. -/
theorem read_numbers_wide :
    readUleb [0x80, 0x80, 0x80, 0x80, 8] ⟨0, 5⟩ = .ok (some (2 ^ 64 - 2 ^ 31), ⟨5, 0⟩) ∧
    decodeUnsignedLiteral [0, 0, 0, 128] ⟨0, 4⟩ = .ok (some (2 ^ 64 - 2 ^ 31)) ∧
    35 ∈ shiftAmounts 7 [0x80, 0x80, 0x80, 0x80, 0x80, 1] := by decide

end Attune.DebugInfo
