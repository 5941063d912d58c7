import Attune.CheckedMemory
import Attune.Syscallbuf

namespace Attune.Dump
open Memory Syscallbuf Trace

/-- What is printed of a record. -/
structure Printed where
  syscallno : Nat
  ret : Nat
  size : Nat
  deriving DecidableEq

inductive Ending
  | finished
  | badRecordedBytesCount
  | badRecordSize
  deriving DecidableEq

def loadRecord (m : Bytes) (p : Nat) : Except Fault Printed := do
  let syscallno ← load m (p + 8) 2
  let ret ← load m p 8
  let size ← load m (p + 12) 4
  return ⟨syscallno, ret, size⟩

def dumpLoop (m : Bytes) (end_ : Nat) : Nat → Nat → Except Fault (List Printed × Ending)
  | 0, _ => .error .endless
  | fuel + 1, p =>
    if p < end_ then do
      let r ← loadRecord m p
      if r.size < recordSize then return ([r], .badRecordSize)
      let (rs, ending) ← dumpLoop m end_ fuel (p + storedRecordSize r.size)
      return (r :: rs, ending)
    else .ok ([], .finished)

def dumpSyscallbufData (m : Bytes) : Except Fault (List Printed × Ending) := do
  -- the size is unsigned, so less than a header leaves a huge remainder
  let bytesRemaining := ptrSub m.length syscallbufHdrSize
  let numRecBytes ← load m 0 4
  if bytesRemaining < numRecBytes then return ([], .badRecordedBytesCount)
  dumpLoop m (syscallbufHdrSize + numRecBytes) (numRecBytes + 1) syscallbufHdrSize

def recordAt (m : Bytes) (p : Nat) : Printed := ⟨peek m (p + 8) 2, peek m p 8, peek m (p + 12) 4⟩

section

variable (m : Bytes) (end_ : Nat)

/-- The records from a position to the end of the buffer. -/
inductive Records : Nat → List Printed → Prop
  | done : end_ ≤ p → Records p []
  | record : p < end_ → recordSize ≤ (recordAt m p).size →
    Records (p + storedRecordSize (recordAt m p).size) rs → Records p (recordAt m p :: rs)

inductive Reaches : Nat → Nat → Prop
  | here : Reaches p p
  | next : p < end_ → recordSize ≤ (recordAt m p).size →
    Reaches (p + storedRecordSize (recordAt m p).size) q → Reaches p q

/-- The dump stays inside the data and shows all records unless it complains. -/
def Dumps : Prop := ∃ rs ending, dumpSyscallbufData m = .ok (rs, ending) ∧
  (ending = .finished → Records m (syscallbufHdrSize + peek m 0 4) syscallbufHdrSize rs)

/-- The count is there, and no record that is reached begins less than its fixed part before the
end of the data. -/
def Whole : Prop := 4 ≤ m.length ∧ (peek m 0 4 ≤ ptrSub m.length syscallbufHdrSize →
  ∀ p, Reaches m (syscallbufHdrSize + peek m 0 4) syscallbufHdrSize p →
    p < syscallbufHdrSize + peek m 0 4 → p + recordSize ≤ m.length)

end

theorem loadRecord_eq (h : p + recordSize ≤ m.length) : loadRecord m p = .ok (recordAt m p) := by
  rw [recordSize] at h
  rw [loadRecord, load_eq (by omega), load_eq (by omega), load_eq (by omega)]
  rfl

theorem inside_of_loadRecord (h : loadRecord m p = .ok r) : p + recordSize ≤ m.length := by
  obtain ⟨_, _, h⟩ := bind_eq_ok.mp h
  obtain ⟨_, _, h⟩ := bind_eq_ok.mp h
  obtain ⟨_, hsi, _⟩ := bind_eq_ok.mp h
  have hin : p + 12 + 4 ≤ m.length := runs_load.mp ⟨_, hsi⟩
  exact hin

theorem dumpLoop_spec (hf : end_ ≤ p + fuel)
    (h : ∀ q, Reaches m end_ p q → q < end_ → q + recordSize ≤ m.length) :
    ∃ rs ending, dumpLoop m end_ (fuel + 1) p = .ok (rs, ending) ∧
      (ending = .finished → Records m end_ p rs) := by
  induction fuel generalizing p with
  | zero => exact ⟨[], .finished, if_neg (Nat.not_lt.mpr hf), fun _ => .done hf⟩
  | succ fuel ih =>
    rw [dumpLoop]
    by_cases hp : p < end_
    · rw [if_pos hp, loadRecord_eq (h p .here hp), ok_bind]
      by_cases hsi : (recordAt m p).size < recordSize
      · rw [if_pos hsi]
        exact ⟨_, _, rfl, nofun⟩
      · have hlow := Nat.not_lt.mp hsi
        have hst : 1 ≤ storedRecordSize (recordAt m p).size := by
          have hlt : (recordAt m p).size < 256 ^ 4 := peek_lt m (p + 12) 4
          rw [recordSize] at hlow
          rw [storedRecordSize]
          omega
        obtain ⟨rs, ending, hl, hr⟩ := ih (by omega) fun q hq => h q (.next hp hlow hq)
        rw [if_neg hsi, hl]
        exact ⟨_, _, rfl, fun he => .record hp hlow (hr he)⟩
    · exact ⟨[], .finished, if_neg hp, fun _ => .done (Nat.not_lt.mp hp)⟩

theorem inside_of_dumpLoop (hr : Reaches m end_ p q) (hq : q < end_)
    (h : Runs (dumpLoop m end_ fuel p)) : q + recordSize ≤ m.length := by
  induction hr generalizing fuel with
  | here =>
    cases fuel with
    | zero => exact absurd h (not_runs_error _)
    | succ fuel =>
      rw [dumpLoop, if_pos hq, runs_bind] at h
      obtain ⟨r, hr, _⟩ := h
      exact inside_of_loadRecord hr
  | next hp hlow _ ih =>
    cases fuel with
    | zero => exact absurd h (not_runs_error _)
    | succ fuel =>
      rw [dumpLoop, if_pos hp, runs_bind] at h
      obtain ⟨r, hr, h⟩ := h
      cases (loadRecord_eq (inside_of_loadRecord hr)).symm.trans hr
      rw [if_neg (Nat.not_lt.mpr hlow), runs_bind] at h
      obtain ⟨x, hx, _⟩ := h
      exact ih hq ⟨x, hx⟩

/-- The dump of a flushed buffer is right exactly when no fixed part of a record is cut off. -/
theorem dumps_iff (m : Bytes) : Dumps m ↔ Whole m := by
  constructor
  · rintro ⟨rs, ending, hd, _⟩
    obtain ⟨num, hl, hd⟩ := bind_eq_ok.mp hd
    have hin : 0 + 4 ≤ m.length := runs_load.mp ⟨num, hl⟩
    cases (load_eq hin).symm.trans hl
    refine ⟨hin, fun hle p hp hlt => ?_⟩
    rw [if_neg (Nat.not_lt.mpr hle)] at hd
    exact inside_of_dumpLoop hp hlt ⟨_, hd⟩
  · rintro ⟨hin, h⟩
    rw [Dumps, dumpSyscallbufData, load_eq hin, ok_bind]
    split
    · exact ⟨_, _, rfl, nofun⟩
    · next hle => exact dumpLoop_spec (by omega) (h (Nat.not_lt.mp hle))

/-- Eight bytes are counted behind the header, half of a record. -/
theorem dumps_half_record : dumpSyscallbufData (8 :: List.replicate 37 0) = .error .outOfBounds := by
  decide +kernel

end Attune.Dump
