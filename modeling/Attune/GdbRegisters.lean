import Attune.GdbBinary

namespace Attune.Gdb

/-- `strtoul` to the base 16 on a C string: the number and the text from `*endptr` on. -/
def strtoul (s : Bytes) : Nat × Bytes :=
  let t := s.dropWhile isSpace
  let u := if t.head? = some 43 ∨ t.head? = some 45 then t.tail else t
  let d := match u with
    | z :: x :: y :: rest =>
      if z = 48 ∧ (x = 120 ∨ x = 88) ∧ isHexDigit y then y :: rest else z :: x :: y :: rest
    | u => u
  let n := (d.takeWhile isHexDigit).foldl (fun n b => 16 * n + digitValue b) 0
  if d.takeWhile isHexDigit = [] then (0, s)
  else (if 2 ^ 64 ≤ n then 2 ^ 64 - 1 else if t.head? = some 45 then (2 ^ 64 - n) % 2 ^ 64 else n,
    d.dropWhile isHexDigit)
where
  digitValue (b : UInt8) : Nat :=
    if b ≤ 57 then b.toNat - 48 else if b ≤ 70 then b.toNat - 55 else b.toNat - 87

def maxSize : Nat := 16

structure GdbRegisterValue where
  name : Nat
  value : Vector UInt8 maxSize
  size : Nat
  defined : Bool
  deriving DecidableEq

inductive RegFault where
  | outOfBounds
  | parserAssert
  deriving DecidableEq

def printRegValue (reg : GdbRegisterValue) : Except RegFault Bytes :=
  if maxSize < reg.size then .error .parserAssert
  else if reg.defined then .ok ((reg.value.toList.take reg.size).flatMap writeHex)
  else .ok ((List.replicate reg.size [120, 120]).flatten)

/-- The loop of `read_reg_value`: a NUL stands for the third character while the first two are
read. -/
def readRegLoop : Nat → Nat → Bytes → Vector UInt8 maxSize →
    Except RegFault (Bytes × Vector UInt8 maxSize)
  | 0, _, str, value => .ok (str, value)
  | n + 1, i, str, value =>
    let (v, rest) := strtoul (str.take 2)
    if h : i < maxSize then
      if rest = [] then readRegLoop n (i + 1) (str.drop 2) (value.set i (UInt8.ofNat v))
      else .error .parserAssert
    else .error .outOfBounds

open List

/-- What is left of the text, and the register. -/
def readRegValue (str : Bytes) (reg : GdbRegisterValue) :
    Except RegFault (Bytes × GdbRegisterValue) :=
  if str.head? = some 120 then .ok (str, { reg with defined := false, size := 0 })
  else (readRegLoop (str.length / 2) 0 str reg.value).map fun p =>
    (p.1, { reg with defined := true, size := str.length / 2, value := p.2 })

/-- The packet `P`, with the request's register before. -/
def processSetReg (payload : Bytes) (reg : GdbRegisterValue) :
    Except RegFault GdbRegisterValue := do
  let (number, rest) := strtoul payload
  if rest.head? ≠ some 61 then throw .parserAssert
  let (rest, reg) ← readRegValue rest.tail { reg with name := number }
  if rest ≠ [] then throw .parserAssert
  return reg

section Text

def RegText (text : Bytes) : Prop := ∀ b ∈ text, isHexDigit b = true ∨ b = 120

theorem isHexDigit_x : isHexDigit 120 = false := by decide

theorem isSpace_of_regText (h : isHexDigit b = true ∨ b = 120) :
    isSpace b = false ∧ b ≠ 43 ∧ b ≠ 45 := by
  have hall : ∀ n < 256, isHexDigit (UInt8.ofNat n) = true ∨ UInt8.ofNat n = 120 →
      isSpace (UInt8.ofNat n) = false ∧ UInt8.ofNat n ≠ 43 ∧ UInt8.ofNat n ≠ 45 := by decide +kernel
  have hb := hall b.toNat b.toNat_lt
  rw [UInt8.ofNat_toNat] at hb
  exact hb h

theorem strtoul_pair (ha : isHexDigit a = true ∨ a = 120) (hb : isHexDigit b = true ∨ b = 120) :
    (strtoul [a, b]).2 = [] ↔ isHexDigit a = true ∧ isHexDigit b = true := by
  obtain ⟨hsp, hp, hm⟩ := isSpace_of_regText ha
  have hd : [a, b].dropWhile isSpace = [a, b] := by rw [dropWhile_cons, hsp]; rfl
  have hsi : ¬([a, b].head? = some 43 ∨ [a, b].head? = some 45) := by simp [hp, hm]
  rw [strtoul, hd, if_neg hsi]
  cases hda : isHexDigit a with
  | false => simp [hda]
  | true =>
    rcases hb with hdb | rfl
    · simp [hda, hdb]
    · simp [hda, isHexDigit_x]

theorem strtoul_writeHex (b : UInt8) : strtoul (writeHex b) = (b.toNat, []) := by
  have hall : ∀ n < 256, strtoul (writeHex (UInt8.ofNat n)) = (n, []) := by decide +kernel
  have hb := hall b.toNat b.toNat_lt
  rwa [UInt8.ofNat_toNat] at hb

end Text

section Loop

/-- The loop uses up a text of pairs of digits that fit, and no other one. -/
theorem readRegLoop_iff (ht : RegText str) (hlen : n = str.length / 2) (value) :
    (∃ value', readRegLoop n i str value = .ok ([], value')) ↔
      (∀ b ∈ str, isHexDigit b = true) ∧ str.length = 2 * n ∧ (n = 0 ∨ i + n ≤ maxSize) := by
  induction n generalizing i str value with
  | zero =>
    cases str with
    | nil | cons a str => simp [readRegLoop]
  | succ n ih =>
    match str with
    | [] => cases hlen
    | [a] => exact absurd hlen (by rw [length_singleton]; omega)
    | a :: b :: str =>
      have hta : RegText str := fun c hc => ht c (mem_cons_of_mem _ (mem_cons_of_mem _ hc))
      have hp := strtoul_pair (ht a mem_cons_self) (ht b (mem_cons_of_mem _ mem_cons_self))
      simp only [length_cons] at hlen ⊢
      rw [readRegLoop]
      simp only [take_succ_cons, take_zero, drop_succ_cons, drop_zero, forall_mem_cons]
      split
      · next hi =>
        split
        · next hr =>
          rw [ih hta (by omega)]
          have hd := hp.mp hr
          simp only [hd.1, hd.2, true_and]
          apply and_congr_right
          intro _
          omega
        · next hr =>
          apply iff_of_false (fun ⟨_, h⟩ => by cases h)
          exact fun ⟨⟨ha, hb, _⟩, _⟩ => hr (hp.mpr ⟨ha, hb⟩)
      · next hi =>
        apply iff_of_false (fun ⟨_, h⟩ => by cases h)
        exact fun ⟨_, _, hfit⟩ => by omega

theorem length_writeHex (bytes : Bytes) : (bytes.flatMap writeHex).length = 2 * bytes.length := by
  induction bytes with
  | nil => rfl
  | cons b bytes ih =>
    rw [flatMap_cons, length_append, ih, length_cons]
    simp only [writeHex, length_cons, length_nil]
    omega

theorem readRegLoop_writeHex (bytes : Bytes) (value) (hi : i + bytes.length ≤ maxSize) :
    ∃ value', readRegLoop bytes.length i (bytes.flatMap writeHex) value = .ok ([], value') ∧
      value'.toList.take (i + bytes.length) = value.toList.take i ++ bytes := by
  induction bytes generalizing i value with
  | nil => exact ⟨value, rfl, by rw [length_nil, append_nil]; rfl⟩
  | cons b bytes ih =>
    rw [length_cons] at hi ⊢
    have hlt : i < maxSize := by omega
    obtain ⟨value', hl, ht⟩ := ih (i := i + 1) (value.set i b) (by omega)
    refine ⟨value', ?_, ?_⟩
    · have htwo : ((b :: bytes).flatMap writeHex).take 2 = writeHex b := rfl
      have hr : ((b :: bytes).flatMap writeHex).drop 2 = bytes.flatMap writeHex := rfl
      rw [readRegLoop, htwo, hr, strtoul_writeHex]
      simp only [hlt, dite_true, if_true, UInt8.ofNat_toNat]
      exact hl
    · have hset : (value.set i b).toList.take (i + 1) = value.toList.take i ++ [b] := by
        rw [Vector.toList_set, take_set, take_add_one, set_append_right _ _ (length_take_le i _)]
        simp [hlt, Nat.le_of_lt hlt]
      rw [show i + (bytes.length + 1) = i + 1 + bytes.length by omega, ht, hset,
        append_assoc, singleton_append]

end Loop

section Results

theorem readRegValue_iff (ht : RegText text) (reg : GdbRegisterValue) :
    (∃ r, readRegValue text reg = .ok ([], r)) ↔ (∀ b ∈ text, isHexDigit b = true) ∧
      text.length % 2 = 0 ∧ text.length ≤ 2 * maxSize := by
  rw [readRegValue]
  split
  · next hx =>
    obtain ⟨rest, rfl⟩ := head?_eq_some_iff.mp hx
    simp [isHexDigit_x]
  have hl := readRegLoop_iff (i := 0) ht rfl reg.value
  have hf : text.length % 2 = 0 ∧ text.length ≤ 2 * maxSize ↔
      text.length = 2 * (text.length / 2) ∧ (text.length / 2 = 0 ∨ 0 + text.length / 2 ≤ maxSize) := by
    omega
  rw [hf, ← hl]
  cases readRegLoop (text.length / 2) 0 text reg.value with
  | error e => simp [Except.map]
  | ok p => simp [Except.map, Prod.ext_iff]

theorem processSetReg_iff (h : strtoul payload = (number, 61 :: text)) (reg : GdbRegisterValue) :
    (∃ r, processSetReg payload reg = .ok r) ↔
      ∃ r, readRegValue text { reg with name := number } = .ok ([], r) := by
  rw [processSetReg, h]
  cases hr : readRegValue text { reg with name := number } with
  | error e => simp [hr, Bind.bind, Except.bind]
  | ok p =>
    obtain ⟨rest, r⟩ := p
    cases rest with
    | nil => simp [hr, Bind.bind, Except.bind, Pure.pure, Except.pure]
    | cons b rest => simp [hr, Bind.bind, Except.bind, throw, throwThe, MonadExceptOf.throw]

/-- The text printed for `reg` is read into `before`, with what was printed as the result. -/
def Recovers (reg before : GdbRegisterValue) : Prop :=
  ∃ text rest r, printRegValue reg = .ok text ∧ readRegValue text before = .ok (rest, r) ∧
    r.defined = reg.defined ∧ (reg.defined = true →
      r.size = reg.size ∧ r.value.toList.take r.size = reg.value.toList.take reg.size)

theorem readRegValue_writeHex (bytes : Bytes) (hlen : bytes.length ≤ maxSize)
    (before : GdbRegisterValue) :
    ∃ r, readRegValue (bytes.flatMap writeHex) before = .ok ([], r) ∧ r.defined = true ∧
      r.size = bytes.length ∧ r.value.toList.take r.size = bytes := by
  have hh : (bytes.flatMap writeHex).length / 2 = bytes.length := by
    rw [length_writeHex]
    omega
  have hhe : ¬(bytes.flatMap writeHex).head? = some 120 := by
    cases bytes with
    | nil => exact fun h => by cases h
    | cons b bytes =>
      have hd : ∀ n < 16, hexDigit n ≠ 120 := by decide
      have hb := b.toNat_lt
      exact fun h => hd (b.toNat / 16) (by omega) (Option.some.inj h)
  obtain ⟨value, hl, ht⟩ := readRegLoop_writeHex (i := 0) bytes before.value
    (by omega)
  rw [readRegValue, if_neg hhe, hh, hl]
  refine ⟨_, rfl, rfl, rfl, ?_⟩
  rw [Nat.zero_add] at ht
  exact ht

theorem recovers_iff (reg before : GdbRegisterValue) :
    Recovers reg before ↔ reg.size ≤ maxSize ∧ (reg.defined = true ∨ reg.size ≠ 0) := by
  rw [Recovers, printRegValue]
  split
  · next hsi =>
    apply iff_of_false (fun ⟨_, _, _, h, _⟩ => by cases h)
    exact fun ⟨hle, _⟩ => Nat.not_lt_of_le hle hsi
  next hsi =>
  have hle : reg.size ≤ maxSize := Nat.le_of_not_lt hsi
  split
  · next hdef =>
    have hlen : (reg.value.toList.take reg.size).length = reg.size := by simp [hle]
    obtain ⟨r, hre, hr, hsa, hb⟩ := readRegValue_writeHex
      (reg.value.toList.take reg.size) (by rw [hlen]; exact hle) before
    rw [hlen] at hsa
    apply iff_of_true _ ⟨hle, .inl hdef⟩
    exact ⟨_, _, r, rfl, hre, hr.trans hdef.symm, fun _ => ⟨hsa, hb⟩⟩
  · next hdef =>
    rw [Bool.not_eq_true] at hdef
    rw [hdef]
    cases hn : reg.size with
    | zero =>
      apply iff_of_false _ (by simp)
      rintro ⟨_, _, r, ht, hre, hr, _⟩
      cases ht
      cases hre
      cases hr
    | succ n =>
      apply iff_of_true _ ⟨hn ▸ hle, .inr (Nat.succ_ne_zero n)⟩
      exact ⟨_, _, _, rfl, rfl, rfl, fun h => by cases h⟩

/-- Which texts of a packet `P` are read, and which printed registers are read back. -/
theorem set_reg_iff (payload text : Bytes) (number : Nat) (reg before : GdbRegisterValue) :
    (strtoul payload = (number, 61 :: text) → RegText text →
      ((∃ r, processSetReg payload reg = .ok r) ↔ (∀ b ∈ text, isHexDigit b = true) ∧
        text.length % 2 = 0 ∧ text.length ≤ 2 * maxSize)) ∧
    (Recovers reg before ↔ reg.size ≤ maxSize ∧ (reg.defined = true ∨ reg.size ≠ 0)) := by
  refine ⟨fun h ht => ?_, recovers_iff reg before⟩
  rw [processSetReg_iff h reg]
  exact readRegValue_iff ht _

def zeroed : GdbRegisterValue := ⟨0, .replicate maxSize 0, 0, false⟩

theorem set_reg_iff_digits : (∃ r, processSetReg [48, 61, 49, 50] zeroed = .ok r) ∧
    Recovers ⟨0, .replicate maxSize 7, 4, true⟩ zeroed := by
  constructor
  · have ht : RegText [49, 50] := by
      unfold RegText
      decide +kernel
    exact ((set_reg_iff _ [49, 50] 0 _ zeroed).1 (by decide) ht).mpr (by decide +kernel)
  · exact (set_reg_iff [] [] 0 _ _).2.mpr (by decide)

/-- The packet `P0=` with thirty-four digits, the packet `P0=xx`, and an unknown register. -/
theorem set_reg_past_value :
    processSetReg (48 :: 61 :: replicate 34 48) zeroed = .error .outOfBounds ∧
    processSetReg [48, 61, 120, 120] zeroed = .error .parserAssert ∧ ¬Recovers zeroed zeroed := by
  refine ⟨by decide, by decide, ?_⟩
  rw [recovers_iff]
  decide

end Results

end Attune.Gdb
