import Mathlib

namespace Attune.Memory
open List

variable {m : Bytes} {f : α → Except Fault β} {x : Except Fault α}

abbrev Bytes := List UInt8

inductive Fault
  | outOfBounds
  | null
  | uninitialised
  | endless
  deriving DecidableEq

def Runs (x : Except Fault α) : Prop := ∃ a, x = .ok a

@[simp] theorem runs_ok (a : α) : Runs (.ok a) := ⟨a, rfl⟩

@[simp] theorem runs_pure (a : α) : Runs (pure a) := ⟨a, rfl⟩

@[simp] theorem not_runs_error (e : Fault) : ¬ Runs (.error e : Except Fault α) := by
  intro ⟨a, ha⟩
  cases ha

theorem bind_eq_ok : (x >>= f) = .ok b ↔ ∃ a, x = .ok a ∧ f a = .ok b := by
  cases x with
  | error e =>
    constructor
    · intro h
      cases h
    · intro ⟨a, ha, _⟩
      cases ha
  | ok a =>
    constructor
    · intro h
      exact ⟨a, rfl, h⟩
    · intro ⟨b, hb, h⟩
      cases hb
      exact h

theorem runs_bind : Runs (x >>= f) ↔ ∃ a, x = .ok a ∧ Runs (f a) := by
  constructor
  · intro ⟨b, hb⟩
    obtain ⟨a, ha, hb⟩ := bind_eq_ok.mp hb
    exact ⟨a, ha, b, hb⟩
  · intro ⟨a, ha, b, hb⟩
    exact ⟨b, bind_eq_ok.mpr ⟨a, ha, hb⟩⟩

@[simp] theorem ok_bind (a : α) (f : α → Except Fault β) : (Except.ok a >>= f) = f a := rfl

theorem runs_bind_of_forall (h : ∀ a, Runs (f a)) : Runs (x >>= f) ↔ Runs x := by
  rw [runs_bind]
  constructor
  · intro ⟨a, ha, _⟩
    exact ⟨a, ha⟩
  · intro ⟨a, ha⟩
    exact ⟨a, ha, h a⟩

theorem runs_mapM {g : α → Except Fault β} {l : List α} :
    Runs (l.mapM g) ↔ ∀ a ∈ l, Runs (g a) := by
  induction l with
  | nil => simp
  | cons a l ih =>
    rw [mapM_cons, runs_bind]
    constructor
    · intro ⟨b, hb, h⟩ c hc
      rw [runs_bind_of_forall fun _ => runs_pure _] at h
      cases hc with
      | head => exact ⟨b, hb⟩
      | tail _ hc => exact ih.mp h c hc
    · intro h
      obtain ⟨b, hb⟩ := h a (.head _)
      refine ⟨b, hb, ?_⟩
      rw [runs_bind_of_forall fun _ => runs_pure _]
      exact ih.mpr fun c hc => h c (.tail _ hc)

def littleEndian : Bytes → Nat
  | [] => 0
  | b :: bytes => b.toNat + 256 * littleEndian bytes

theorem littleEndian_lt (bytes : Bytes) : littleEndian bytes < 256 ^ bytes.length := by
  induction bytes with
  | nil => simp [littleEndian]
  | cons b bytes ih =>
    have hb := b.toNat_lt
    rw [littleEndian, length_cons, Nat.pow_succ]
    omega

def slice (m : Bytes) (offset size : Nat) : Bytes := (m.drop offset).take size

theorem length_slice (m : Bytes) (offset size : Nat) : (slice m offset size).length ≤ size := by
  simp only [slice, length_take]
  omega

theorem length_slice_eq (h : offset + size ≤ m.length) : (slice m offset size).length = size := by
  simp only [slice, length_take, length_drop]
  omega

def peek (m : Bytes) (offset width : Nat) : Nat := littleEndian (slice m offset width)

theorem peek_lt (m : Bytes) (offset width : Nat) : peek m offset width < 256 ^ width :=
  Nat.lt_of_lt_of_le (littleEndian_lt _) (Nat.pow_le_pow_right (by decide) (length_slice _ _ _))

theorem peek_one (h : i < m.length) : peek m i 1 = m[i].toNat := by
  rw [peek, slice, drop_eq_getElem_cons h, take_succ_cons, take_zero, littleEndian,
    littleEndian, Nat.mul_zero, Nat.add_zero]

def copy (m : Bytes) (offset size : Nat) : Except Fault Bytes :=
  if size = 0 then .ok []
  else if offset + size ≤ m.length then .ok (slice m offset size)
  else .error .outOfBounds

theorem runs_copy : Runs (copy m offset size) ↔ size = 0 ∨ offset + size ≤ m.length := by
  simp only [copy]
  split
  · simp [*]
  · split <;> simp [*]

theorem copy_eq (h : size = 0 ∨ offset + size ≤ m.length) :
    copy m offset size = .ok (slice m offset size) := by
  simp only [copy]
  split
  · simp [slice, *]
  · rename_i hs
    exact if_pos (h.resolve_left hs)

def load (m : Bytes) (offset width : Nat) : Except Fault Nat :=
  if offset + width ≤ m.length then .ok (peek m offset width) else .error .outOfBounds

theorem load_eq (h : offset + width ≤ m.length) :
    load m offset width = .ok (peek m offset width) := if_pos h

theorem runs_load : Runs (load m offset width) ↔ offset + width ≤ m.length := by
  simp only [load]
  split <;> simp [*]

/-- Whether the text that begins the memory is the given one; the text ends at a zero byte. -/
def textEq : Bytes → Bytes → Except Fault Bool
  | [], _ => .error .outOfBounds
  | c :: _, [] => .ok (c == 0)
  | c :: m, d :: text =>
    if c != d then .ok false else if c == 0 then .ok true else textEq m text

def textAt : Bytes → Except Fault Bytes
  | [] => .error .outOfBounds
  | c :: m => if c == 0 then .ok [] else do return c :: (← textAt m)

theorem runs_textEq (h : 0 ∈ m) (text : Bytes) : Runs (textEq m text) := by
  induction m generalizing text with
  | nil => cases h
  | cons c m ih =>
    cases text with
    | nil => exact runs_ok _
    | cons d text =>
      simp only [textEq]
      split
      · exact runs_ok _
      split
      · exact runs_ok _
      · rename_i hc
        cases h with
        | head => exact absurd rfl hc
        | tail _ h => exact ih h text

theorem runs_textAt (h : 0 ∈ m) : Runs (textAt m) := by
  induction m with
  | nil => cases h
  | cons c m ih =>
    simp only [textAt]
    split
    · exact runs_ok _
    rename_i hc
    cases h with
    | head => exact absurd rfl hc
    | tail _ h =>
      rw [runs_bind_of_forall fun _ => runs_pure _]
      exact ih h

theorem textEq_true_iff {m text : Bytes} (h : 0 ∉ text) :
    textEq m text = .ok true ↔ text ++ [0] <+: m := by
  induction m generalizing text with
  | nil => simp [textEq]
  | cons c m ih =>
    cases text with
    | nil =>
      rw [textEq, Except.ok.injEq, beq_iff_eq, nil_append, cons_prefix_cons]
      exact ⟨fun hc => ⟨hc.symm, nil_prefix⟩, fun hc => hc.1.symm⟩
    | cons d text =>
      have hd : d ≠ 0 := fun hd => h (hd ▸ mem_cons_self)
      rw [cons_append, cons_prefix_cons]
      by_cases hc : c = d
      · subst hc
        simp only [textEq, bne_self_eq_false, Bool.false_eq_true, if_false, beq_iff_eq, hd, true_and]
        exact ih fun hmem => h (mem_cons_of_mem _ hmem)
      · have hdc : d ≠ c := Ne.symm hc
        simp only [textEq, if_pos (bne_iff_ne.mpr hc), Except.ok.injEq, Bool.false_eq_true, hdc,
          false_and]

theorem textAt_eq_ok_iff {m text : Bytes} : textAt m = .ok text ↔ 0 ∉ text ∧ text ++ [0] <+: m := by
  induction m generalizing text with
  | nil => simp [textAt]
  | cons c m ih =>
    by_cases hc : c = 0
    · subst hc
      cases text with
      | nil => simp [textAt]
      | cons d text =>
        simp only [textAt, beq_self_eq_true, if_true, Except.ok.injEq, reduceCtorEq, false_iff,
          cons_append, cons_prefix_cons, not_and]
        intro hd heq
        exact absurd (heq ▸ mem_cons_self) hd
    · simp only [textAt, beq_iff_eq, hc, if_false]
      rw [bind_eq_ok]
      cases text with
      | nil =>
        simp only [nil_append, cons_prefix_cons, Ne.symm hc, false_and, and_false,
          iff_false]
        rintro ⟨t, _, ht⟩
        cases ht
      | cons d text =>
        rw [cons_append, cons_prefix_cons, mem_cons, not_or]
        constructor
        · rintro ⟨t, ht, heq⟩
          cases heq
          exact ⟨⟨Ne.symm hc, (ih.mp ht).1⟩, rfl, (ih.mp ht).2⟩
        · rintro ⟨⟨_, hno⟩, rfl, hpre⟩
          exact ⟨text, ih.mpr ⟨hno, hpre⟩, rfl⟩

theorem slice_congr {m m' : Bytes} (h : ∀ j, offset ≤ j → j < offset + size → m[j]? = m'[j]?) :
    slice m offset size = slice m' offset size := by
  apply ext_getElem?
  intro j
  rw [slice, slice, getElem?_take, getElem?_take, getElem?_drop, getElem?_drop]
  split
  · exact h _ (Nat.le_add_right _ _) (by omega)
  · rfl

def overwrite (m : Bytes) (offset : Nat) (bytes : Bytes) : Bytes :=
  m.take offset ++ (bytes ++ m.drop (offset + bytes.length))

section
variable {m bytes : Bytes} {offset : Nat} (h : offset + bytes.length ≤ m.length)
include h

theorem length_overwrite : (overwrite m offset bytes).length = m.length := by
  simp only [overwrite, length_append, length_take, length_drop]
  omega

theorem getElem?_overwrite (j : Nat) : (overwrite m offset bytes)[j]? =
    if offset ≤ j ∧ j < offset + bytes.length then bytes[j - offset]? else m[j]? := by
  have ht : (m.take offset).length = offset := by
    rw [length_take]
    omega
  rw [overwrite, getElem?_append, ht]
  split
  next hj =>
    rw [getElem?_take, if_pos hj, if_neg (by omega)]
  next hj =>
    rw [getElem?_append]
    split
    next hb => rw [if_pos (by omega)]
    next hb =>
      rw [getElem?_drop, if_neg (by omega)]
      congr 1
      omega

theorem slice_overwrite : slice (overwrite m offset bytes) offset bytes.length = bytes := by
  apply ext_getElem?
  intro j
  rw [slice, getElem?_take, getElem?_drop]
  split
  next hj =>
    rw [getElem?_overwrite h, if_pos (by omega)]
    congr 1
    omega
  next hj => exact (getElem?_eq_none (Nat.le_of_not_lt hj)).symm

end

def store (m : Bytes) (offset : Nat) (bytes : Bytes) : Except Fault Bytes :=
  if bytes = [] then .ok m
  else if offset + bytes.length ≤ m.length then .ok (overwrite m offset bytes)
  else .error .outOfBounds

theorem store_eq {m bytes : Bytes} (h : offset + bytes.length ≤ m.length) :
    store m offset bytes = .ok (overwrite m offset bytes) := by
  by_cases hnil : bytes = []
  · rw [store, if_pos hnil, hnil, overwrite, nil_append, length_nil, Nat.add_zero,
      take_append_drop]
  · rw [store, if_neg hnil, if_pos h]

def encode : Nat → Nat → Bytes
  | 0, _ => []
  | width + 1, n => UInt8.ofNat n :: encode width (n / 256)

theorem length_encode (width n : Nat) : (encode width n).length = width := by
  induction width generalizing n with
  | zero => rfl
  | succ width ih => rw [encode, length_cons, ih]

theorem littleEndian_encode (width n : Nat) : littleEndian (encode width n) = n % 256 ^ width := by
  induction width generalizing n with
  | zero => simp [encode, littleEndian, Nat.mod_one]
  | succ width ih =>
    have hb : (UInt8.ofNat n).toNat = n % 256 := UInt8.toNat_ofNat'
    rw [encode, littleEndian, ih, hb, Nat.pow_succ, Nat.mul_comm (256 ^ width), Nat.mod_mul]

end Attune.Memory
