import Attune.TraceEvent

namespace Attune.Mprotect
open Trace List

/-- Where the tracee is in `sys_mprotect`: the record is written before the syscall and counted as
completed behind it. -/
inductive Phase where
  | idle
  | written
  | called (succeeded : Bool)
  deriving DecidableEq

/-- The records counted in the buffer, those completed, and the kernel's protection at each address.
-/
structure Tracee where
  records : List MprotectRecord
  completed : Nat
  phase : Phase
  prot : Nat → Int

def noRecords (prot : Nat → Int) : Tracee := ⟨[], 0, .idle, prot⟩

inductive Step : Tracee → Tracee → Prop where
  | write (r : MprotectRecord) (h : t.phase = .idle) :
      Step t { t with records := t.records ++ [r], phase := .written }
  | call (succeeded : Bool) (prot : Nat → Int) (h : t.phase = .written) :
      Step t { t with prot := prot, phase := .called succeeded }
  | complete (h : t.phase = .called succeeded) :
      Step t { t with
        records := if succeeded then t.records
          else t.records.modify t.completed fun r => { r with size := 0 }
        completed := t.completed + 1
        phase := .idle }

/-- The indices of the records that the loop of `apply_mprotect_records` applies. -/
def applyLoop (t : Tracee) (skip : Nat) : Nat → List MprotectRecord → List Nat
  | _, [] => []
  | i, r :: records =>
    if i ≥ t.completed ∧ t.prot r.start ≠ r.prot then applyLoop t skip (i + 1) records
    else (skip + i) :: applyLoop t skip (i + 1) records

def applyMprotectRecords (t : Tracee) (skip : Nat) : List Nat :=
  if skip < t.records.length then applyLoop t skip 0 (t.records.drop skip) else []

/-- The segments of `flush_syscallbuf`, by the states they end in. -/
def flushSegments (t : Tracee) : List Tracee → List Nat
  | [] => []
  | t' :: ends => applyMprotectRecords t' t.completed ++ flushSegments t' ends

def Segments (t : Tracee) (ends : List Tracee) : Prop :=
  (t :: ends).IsChain (Relation.ReflTransGen Step)

/-- The number of calls that have taken effect, or have failed and left an empty record. -/
def Tracee.effective (t : Tracee) : Nat := t.completed + if t.phase = .called true then 1 else 0

/-- The call in progress has taken effect exactly when its record will be applied: after earlier
completed records, or by the mapping's protection. -/
def Tracee.Agrees (t : Tracee) (skip : Nat) : Prop :=
  t.phase = .idle ∨ (t.phase = .called true ↔
    skip ≠ 0 ∨ ∀ r ∈ t.records[t.completed]?, t.prot r.start = r.prot)

/-- Every segment ends where the test is right, and all but the last one outside of calls that have
taken effect. -/
def EndsWell (t : Tracee) : List Tracee → Prop
  | [] => True
  | t' :: ends => t'.Agrees t.completed ∧ (ends ≠ [] → t'.phase ≠ .called true) ∧ EndsWell t' ends

structure Tracee.Counted (t : Tracee) : Prop where
  idle : t.phase = .idle → t.records.length = t.completed
  busy : t.phase ≠ .idle → t.records.length = t.completed + 1

variable {t t' : Tracee}

theorem Step.counted (h : Step t t') (hc : t.Counted) : t'.Counted := by
  cases h with
  | write r hp => exact ⟨nofun, fun _ => by rw [length_append, hc.idle hp]; rfl⟩
  | call succeeded prot hp => exact ⟨nofun, fun _ => hc.busy (by rw [hp]; nofun)⟩
  | complete hp =>
    refine ⟨fun _ => ?_, fun hne => absurd rfl hne⟩
    rw [← hc.busy (by rw [hp]; nofun)]
    split
    · rfl
    · exact length_modify ..

theorem Step.completed_le (h : Step t t') : t.completed ≤ t'.completed := by
  cases h with
  | write | call => exact Nat.le_refl _
  | complete => exact Nat.le_succ _

theorem steps_counted (h : Relation.ReflTransGen Step t t') (hc : t.Counted) :
    t'.Counted ∧ t.completed ≤ t'.completed := by
  induction h with
  | refl => exact ⟨hc, Nat.le_refl _⟩
  | tail _ hst ih => exact ⟨hst.counted ih.1, Nat.le_trans ih.2 hst.completed_le⟩

theorem applyLoop_completed (h : i + l.length ≤ t.completed) : applyLoop t skip i (l ++ rest) =
      range' (skip + i) l.length ++ applyLoop t skip (i + l.length) rest := by
  induction l generalizing i with
  | nil => rfl
  | cons r l ih =>
    rw [length_cons] at h ⊢
    rw [cons_append, applyLoop, if_neg (by omega), ih (by omega), range'_succ,
      cons_append, Nat.add_right_comm i 1, Nat.add_assoc i]
    rfl

theorem apply_completed (hlen : t.completed ≤ t.records.length) (hle : skip ≤ t.completed) :
    applyMprotectRecords t skip = range' skip (t.completed - skip) ++
      applyLoop t skip (t.completed - skip) (t.records.drop t.completed) := by
  have hd : t.records.drop skip =
      (t.records.take t.completed).drop skip ++ t.records.drop t.completed := by
    rw [← drop_append_of_le_length (by rw [length_take]; omega), take_append_drop]
  have hl : ((t.records.take t.completed).drop skip).length = t.completed - skip := by
    rw [length_drop, length_take, Nat.min_eq_left hlen]
  rw [applyMprotectRecords, hd, applyLoop_completed (by omega), hl, Nat.zero_add,
    Nat.add_zero, ite_eq_left_iff]
  intro hnot
  have hsk : t.completed - skip = 0 := by omega
  rw [hsk, drop_of_length_le (by omega)]
  rfl

/-- At the end of a segment the records completed in it are applied, and the one in progress by the
test. -/
theorem apply_eq (hc : t.Counted) (hle : skip ≤ t.completed) (ha : t.Agrees skip) :
    applyMprotectRecords t skip = range' skip (t.effective - skip) := by
  by_cases hid : t.phase = .idle
  · have hlen := hc.idle hid
    have heff : t.effective = t.completed := by
      rw [Tracee.effective, hid]
      rfl
    rw [apply_completed (Nat.le_of_eq hlen.symm) hle, drop_of_length_le (Nat.le_of_eq hlen),
      applyLoop, append_nil, heff]
  · have hlen := hc.busy hid
    obtain ⟨r, hr⟩ : ∃ r, t.records.drop t.completed = [r] :=
      length_eq_one_iff.mp (by rw [length_drop]; omega)
    have hat : t.records[t.completed]? = some r := by
      rw [← head?_drop, hr]
      rfl
    have ha := ha.resolve_left hid
    rw [hat] at ha
    simp only [Option.mem_some_iff, forall_eq'] at ha
    -- the index is relative to the records skipped, the count it is compared with is not
    have ht : t.completed - skip ≥ t.completed ∧ t.prot r.start ≠ r.prot ↔
        t.phase ≠ .called true := by
      simp only [ne_eq, ha, not_or, not_not]
      exact and_congr_left' (by omega)
    rw [apply_completed (by omega) hle, hr, applyLoop, applyLoop, Tracee.effective]
    by_cases hp : t.phase = .called true
    · rw [if_neg (fun h => ht.mp h hp), if_pos hp, Nat.sub_add_comm hle, range'_concat,
        Nat.one_mul]
    · rw [if_pos (ht.mpr hp), if_neg hp, append_nil]
      rfl

theorem flushSegments_eq (hc : t.Counted) (hp : t.phase ≠ .called true) (hs : Segments t ends)
    (he : EndsWell t ends) : ∃ n, (ends.getLastD t).effective = t.completed + n ∧
      flushSegments t ends = range' t.completed n := by
  induction ends generalizing t with
  | nil => exact ⟨0, congrArg (t.completed + ·) (if_neg hp), rfl⟩
  | cons t' ends ih =>
    obtain ⟨hr, hre⟩ := isChain_cons_cons.mp hs
    obtain ⟨ha, hq, hen⟩ := he
    obtain ⟨hc', hle⟩ := steps_counted hr hc
    rw [getLastD_cons, flushSegments, apply_eq hc' hle ha]
    cases ends with
    | nil =>
      refine ⟨t'.effective - t.completed, ?_, append_nil _⟩
      exact (Nat.add_sub_of_le (Nat.le_trans hle (Nat.le_add_right _ _))).symm
    | cons t'' ends =>
      have hp' := hq (cons_ne_nil _ _)
      obtain ⟨n, heff, hf⟩ := ih hc' hp' hre hen
      have hd : t'.effective = t'.completed := congrArg (t'.completed + ·) (if_neg hp')
      refine ⟨t'.completed - t.completed + n, by omega, ?_⟩
      rw [hf, hd, ← range'_append_1, Nat.add_sub_of_le hle]

/-- At the end of each segment the records applied are those of the calls that have taken effect,
each once and in order. -/
theorem protect_each_once (prot : Nat → Int) (ends : List Tracee)
    (hs : Segments (noRecords prot) ends) (he : EndsWell (noRecords prot) ends) :
    flushSegments (noRecords prot) ends =
      range (ends.getLastD (noRecords prot)).effective := by
  have hc : (noRecords prot).Counted := ⟨fun _ => rfl, fun h => absurd rfl h⟩
  obtain ⟨n, heff, hf⟩ := flushSegments_eq hc nofun hs he
  rw [hf, heff, range_eq_range']
  exact congrArg (range' 0) (Nat.zero_add n).symm

def readOnly : MprotectRecord := ⟨0x10000, 0x1000, 1, 0⟩

def written : Tracee := ⟨[readOnly], 0, .written, fun _ => 0⟩
def called : Tracee := ⟨[readOnly], 0, .called true, fun _ => 1⟩
def completed : Tracee := ⟨[readOnly], 1, .idle, fun _ => 1⟩
def again : Tracee := ⟨[readOnly, { readOnly with prot := 3 }], 1, .written, fun _ => 1⟩

theorem steps_readOnly : Step (noRecords fun _ => 0) written ∧ Step written called ∧
    Step called completed ∧ Step completed again :=
  ⟨.write readOnly rfl, .call true _ rfl, .complete (show called.phase = .called true from rfl),
    .write _ rfl⟩

theorem protect_each_once_page :
    flushSegments (noRecords fun _ => 0) [written, completed] = [0] := by
  obtain ⟨hw, hca, hc, _⟩ := steps_readOnly
  refine protect_each_once _ _ (.cons_cons (.single hw) (.cons_cons (.head hca
    (.single hc)) (.singleton _))) ⟨.inr ⟨nofun, fun h => ?_⟩, nofun, .inl rfl, nofun, trivial⟩
  rcases h with h | h
  · exact absurd rfl h
  · exact absurd (h readOnly rfl) (by decide)

/-- A call in effect when a segment ends is applied again in the next; after the first record one
not in effect is too. -/
theorem protect_twice_or_early : (Segments (noRecords fun _ => 0) [called, completed] ∧
      flushSegments (noRecords fun _ => 0) [called, completed] = [0, 0]) ∧
    Segments (noRecords fun _ => 0) [completed, again] ∧
      flushSegments (noRecords fun _ => 0) [completed, again] = [0, 1] ∧ again.effective = 1 := by
  obtain ⟨hw, hca, hc, ha⟩ := steps_readOnly
  refine ⟨⟨.cons_cons (.head hw (.single hca)) (.cons_cons (.single hc)
    (.singleton _)), by decide⟩, .cons_cons (.head hw (.head hca (.single hc)))
    (.cons_cons (.single ha) (.singleton _)), by decide, by decide⟩

end Attune.Mprotect
