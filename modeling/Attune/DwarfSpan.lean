import Attune.CheckedMemory

namespace Attune.DebugInfo
open Attune.Memory List

variable {m : Bytes} {s : DwarfSpan} {n start : Nat}

structure DwarfSpan where
  start : Nat
  size : Nat
  deriving DecidableEq

namespace DwarfSpan

def null : DwarfSpan := ⟨0, 0⟩

variable (s : DwarfSpan)

def empty : Bool := s.size == 0

/-- `read<T>`; the pointer is null and the flag cleared if the span is too short. -/
def read (width : Nat) : Option Nat × DwarfSpan :=
  if s.size < width then (none, s) else (some s.start, ⟨s.start + width, s.size - width⟩)

def subspan (offset : Nat) : DwarfSpan :=
  if s.size ≤ offset then ⟨s.start + s.size, 0⟩ else ⟨s.start + offset, s.size - offset⟩

/-- The bytes that are taken off the span, as many of them as there are, and the rest. -/
def consume (sz : Nat) : DwarfSpan × DwarfSpan :=
  if s.size ≤ sz then (s, ⟨s.start + s.size, 0⟩)
  else (⟨s.start, sz⟩, ⟨s.start + sz, s.size - sz⟩)

end DwarfSpan

/-- A byte shifted in an `int` and widened; a shift by 32 or more is masked by the machine. -/
def shiftInt (x shift : Nat) : Nat :=
  let v := (x <<< (shift % 32)) % 2 ^ 32
  if v < 2 ^ 31 then v else v + (2 ^ 64 - 2 ^ 32)

section

variable (m : Bytes)

def deref (p : Option Nat) (offset width : Nat) : Except Fault Nat :=
  match p with
  | none => .error .null
  | some p => load m (p + offset) width

variable (s : DwarfSpan)

/-- `read_value<T>` gives zero when it clears the flag. -/
def readValue (width : Nat) : Except Fault (Option Nat × DwarfSpan) :=
  match s.read width with
  | (none, s) => .ok (none, s)
  | (some p, s) => do return (some (← load m p width), s)

/-- The loop of `read_uleb`; the first argument is what is left of the span. -/
def readUlebLoop (m : Bytes) : Nat → Nat → Nat → Nat → Except Fault (Option Nat × DwarfSpan)
  | 0, start, _, _ => .ok (none, ⟨start, 0⟩)
  | n + 1, start, ret, shift => do
    let b ← load m start 1
    let ret := ret ||| shiftInt (b % 128) shift
    if b < 128 then return (some ret, ⟨start + 1, n⟩)
    else if 64 ≤ shift + 7 then return (none, ⟨start + 1, n⟩)
    else readUlebLoop m n (start + 1) ret (shift + 7)

/-- The number is `none` where the source returns zero and clears the flag. -/
def readUleb : Except Fault (Option Nat × DwarfSpan) :=
  readUlebLoop m s.size s.start 0 0

/-- The loop of `read_leb_ref`: the end of the number, and the rest of the span. -/
def readLebRefLoop (m : Bytes) : Nat → Nat → Except Fault (Option Nat × DwarfSpan)
  | 0, start => .ok (none, ⟨start, 0⟩)
  | n + 1, start => do
    let b ← load m start 1
    if b < 128 then return (some (start + 1), ⟨start + 1, n⟩)
    else readLebRefLoop m n (start + 1)

def readLebRef : Except Fault (Option DwarfSpan × DwarfSpan) := do
  let (stop, rest) ← readLebRefLoop m s.size s.start
  return (stop.map fun stop => ⟨s.start, stop - s.start⟩, rest)

def memchrZero (m : Bytes) : Nat → Nat → Except Fault (Option Nat)
  | 0, _ => .ok none
  | n + 1, start => do
    let b ← load m start 1
    if b = 0 then return some start else memchrZero m n (start + 1)

/-- The pointer is null where the flag is cleared. -/
def readNullTerminatedString : Except Fault (Option Nat × DwarfSpan) := do
  match ← memchrZero m s.size s.start with
  | none => return (none, s)
  | some p => return (some s.start, ⟨p + 1, s.start + s.size - (p + 1)⟩)

def DwarfSpan.Inside : Prop := s.start + s.size ≤ m.length

end

structure DwarfSpan.Rest (s' s : DwarfSpan) : Prop where
  stop : s'.start + s'.size = s.start + s.size
  size_le : s'.size ≤ s.size

section

variable (s : DwarfSpan)

theorem DwarfSpan.Rest.refl : s.Rest s := ⟨rfl, Nat.le_refl _⟩

theorem DwarfSpan.Rest.trans {s₁ s₂ s₃ : DwarfSpan} (h : s₁.Rest s₂) (h' : s₂.Rest s₃) :
    s₁.Rest s₃ := ⟨h.stop.trans h'.stop, Nat.le_trans h.size_le h'.size_le⟩

theorem DwarfSpan.Rest.inside {s s' : DwarfSpan} (h : s'.Rest s) (hi : s.Inside m) : s'.Inside m := by
  rw [DwarfSpan.Inside, h.stop]
  exact hi

theorem DwarfSpan.read_rest (width : Nat) : (s.read width).2.Rest s := by
  simp only [DwarfSpan.read]
  split
  · exact .refl s
  · constructor <;> simp only <;> omega

theorem DwarfSpan.subspan_rest (offset : Nat) : (s.subspan offset).Rest s := by
  simp only [DwarfSpan.subspan]
  split <;> constructor <;> simp only <;> omega

theorem DwarfSpan.consume_rest (sz : Nat) : (s.consume sz).2.Rest s := by
  simp only [DwarfSpan.consume]
  split <;> constructor <;> simp only <;> omega

end

theorem DwarfSpan.consume_inside (h : s.Inside m) (sz : Nat) : (s.consume sz).1.Inside m := by
  simp only [DwarfSpan.Inside] at h ⊢
  simp only [DwarfSpan.consume]
  split <;> simp only <;> omega

theorem DwarfSpan.null_inside (m : Bytes) : DwarfSpan.null.Inside m := Nat.zero_le _

theorem readValue_spec (h : s.Inside m) (width : Nat) :
    ∃ v s', readValue m s width = .ok (v, s') ∧ s'.Rest s := by
  have hr := s.read_rest width
  simp only [DwarfSpan.Inside] at h
  simp only [readValue, DwarfSpan.read] at hr ⊢
  split at hr
  · rename_i hs
    simp only [if_pos hs]
    exact ⟨_, _, rfl, hr⟩
  · rename_i hs
    simp only [if_neg hs]
    rw [load_eq (by omega)]
    exact ⟨_, _, rfl, hr⟩

theorem readUlebLoop_spec (h : start + n ≤ m.length) (ret shift : Nat) :
    ∃ v s', readUlebLoop m n start ret shift = .ok (v, s') ∧ s'.Rest ⟨start, n⟩ ∧
      (s'.size = n → n = 0 ∧ v = none) := by
  induction n generalizing start ret shift with
  | zero => exact ⟨_, _, rfl, .refl _, fun _ => ⟨rfl, rfl⟩⟩
  | succ n ih =>
    have hn : start + 1 + n ≤ m.length := by omega
    have hre : DwarfSpan.Rest ⟨start + 1, n⟩ ⟨start, n + 1⟩ := by
      constructor <;> simp only <;> omega
    simp only [readUlebLoop]
    rw [load_eq (by omega), ok_bind]
    split
    · exact ⟨_, _, rfl, hre, fun h => absurd h (Nat.ne_of_lt (Nat.lt_succ_self n))⟩
    split
    · exact ⟨_, _, rfl, hre, fun h => absurd h (Nat.ne_of_lt (Nat.lt_succ_self n))⟩
    obtain ⟨v, s', he, hr, -⟩ := ih hn _ (shift + 7)
    refine ⟨v, s', he, hr.trans hre, ?_⟩
    intro hs
    have hle := hr.size_le
    simp only at hle
    omega

theorem readUleb_spec (h : s.Inside m) :
    ∃ v s', readUleb m s = .ok (v, s') ∧ s'.Rest s ∧ (s'.size = s.size → s.size = 0 ∧ v = none) :=
  readUlebLoop_spec h 0 0

theorem readLebRefLoop_spec (h : start + n ≤ m.length) :
    ∃ v s', readLebRefLoop m n start = .ok (v, s') ∧ s'.Rest ⟨start, n⟩ := by
  induction n generalizing start with
  | zero => exact ⟨_, _, rfl, .refl _⟩
  | succ n ih =>
    have hn : start + 1 + n ≤ m.length := by omega
    have hre : DwarfSpan.Rest ⟨start + 1, n⟩ ⟨start, n + 1⟩ := by
      constructor <;> simp only <;> omega
    simp only [readLebRefLoop]
    rw [load_eq (by omega), ok_bind]
    split
    · exact ⟨_, _, rfl, hre⟩
    · obtain ⟨v, s', he, hr⟩ := ih hn
      exact ⟨v, s', he, hr.trans hre⟩

theorem readLebRef_spec (h : s.Inside m) : ∃ v s', readLebRef m s = .ok (v, s') ∧ s'.Rest s := by
  obtain ⟨v, s', he, hr⟩ := readLebRefLoop_spec h
  rw [readLebRef, he]
  exact ⟨_, _, rfl, hr⟩

theorem memchrZero_spec (h : start + n ≤ m.length) : ∃ r, memchrZero m n start = .ok r ∧
      ∀ p, r = some p → start ≤ p ∧ p < start + n ∧ 0 ∈ m.drop start := by
  induction n generalizing start with
  | zero => exact ⟨_, rfl, fun p hp => by cases hp⟩
  | succ n ih =>
    have hn : start + 1 + n ≤ m.length := by omega
    have hlt : start < m.length := by omega
    rw [drop_eq_getElem_cons hlt]
    simp only [memchrZero]
    rw [load_eq (by omega), ok_bind, peek_one hlt]
    split
    · rename_i hz
      refine ⟨_, rfl, ?_⟩
      intro p hp
      cases hp
      have hz : m[start] = 0 := UInt8.toNat_inj.mp hz
      exact ⟨Nat.le_refl _, by omega, hz ▸ mem_cons_self⟩
    · obtain ⟨r, he, hr⟩ := ih hn
      refine ⟨r, he, ?_⟩
      intro p hp
      obtain ⟨h₁, h₂, h₃⟩ := hr p hp
      exact ⟨by omega, by omega, mem_cons_of_mem _ h₃⟩

/-- A read of a text stays in its span; a pointer it gives is to a text that ends in the section. -/
theorem readNullTerminatedString_spec (h : s.Inside m) :
    ∃ v s', readNullTerminatedString m s = .ok (v, s') ∧ s'.Rest s ∧
      ∀ p, v = some p → s'.size < s.size ∧ p < m.length ∧ 0 ∈ m.drop p := by
  obtain ⟨r, he, hr⟩ := memchrZero_spec h
  simp only [DwarfSpan.Inside] at h
  rw [readNullTerminatedString, he, ok_bind]
  cases r with
  | none => exact ⟨_, _, rfl, .refl s, fun p hp => by cases hp⟩
  | some q =>
    obtain ⟨h₁, h₂, h₃⟩ := hr q rfl
    refine ⟨_, _, rfl, ?_, ?_⟩
    · constructor <;> simp only <;> omega
    · intro p hp
      cases hp
      exact ⟨by simp only; omega, by omega, h₃⟩

end Attune.DebugInfo
