import Attune.MuplayTaskHelper

namespace Attune.Muplay
open List OrderedMappings Option BitVec

variable {m : OrderedMappings}

structure ProgramHeader where
  vaddr : BitVec 64
  memsz : BitVec 64
  deriving DecidableEq

/-- The range made of an address and a number of bytes that is held in an `int`. -/
def rangeAt (start : Nat) (bytes : BitVec 32) : MemoryRange :=
  ⟨start, ptrAdd start (bytes.signExtend 64).toNat⟩

def emptyPagesFrom : KernelMapping → List KernelMapping → List MemoryRange
  | _, [] => []
  | prev, km :: rest =>
    if (0#32).slt (space prev km) then rangeAt prev.end_ (space prev km) :: emptyPagesFrom km rest
    else emptyPagesFrom km rest

def findEmptyPages : List KernelMapping → List MemoryRange
  | [] => []
  | km :: rest => emptyPagesFrom km rest

/-- The test of the other loop; a negative space counts as a large one. -/
def accommodates (phdr : ProgramHeader) (prev km : KernelMapping) : Bool :=
  decide (phdr.memsz.toNat < (space prev km).toNat) && decide (phdr.vaddr.toNat < prev.end_)

def closestFrom (phdr : ProgramHeader) : KernelMapping → List KernelMapping → MemoryRange
  | prev, [] => ⟨prev.end_, ptrAdd prev.end_ phdr.memsz.toNat⟩
  | prev, km :: rest =>
    if accommodates phdr prev km then rangeAt prev.end_ (space prev km)
    else closestFrom phdr km rest

def findClosestPageRange (phdr : ProgramHeader) : List KernelMapping → MemoryRange
  | [] => ⟨0, ptrAdd 0 phdr.memsz.toNat⟩
  | km :: rest => closestFrom phdr km rest

def gaps (l : List KernelMapping) : List MemoryRange :=
  (neighbours l).filterMap fun p => if 0 < gap p then some ⟨p.1.end_, p.2.start⟩ else none

/-- A place for the segment: in a gap behind its own address, or behind all mappings. -/
structure ClosestRange (m : OrderedMappings) (phdr : ProgramHeader) (r : MemoryRange) : Prop where
  nonWrapping : r.start ≤ r.end_
  placed : (∃ p ∈ neighbours m.mappings, p.1.end_ ≤ r.start ∧ r.end_ ≤ p.2.start ∧
      phdr.vaddr.toNat < r.start) ∨ ∃ last, m.mappings.getLast? = some last ∧ r.start = last.end_
  holds : phdr.memsz.toNat ≤ r.end_ - r.start

section Spaces

variable {m : OrderedMappings}

theorem space_positive_iff (hp : p ∈ neighbours m.mappings) :
    (0#32).slt (space p.1 p.2) = true ↔ 0 < gap p % 2 ^ 32 ∧ gap p % 2 ^ 32 < 2 ^ 31 := by
  have hsp := space_toNat hp
  rw [slt_eq_decide, decide_eq_true_eq, toInt_zero, toInt_eq_toNat_cond,
    hsp]
  split <;> omega

theorem rangeAt_small (hp : p ∈ neighbours m.mappings) (hsm : gap p % 2 ^ 32 < 2 ^ 31) :
    rangeAt p.1.end_ (space p.1 p.2) = ⟨p.1.end_, p.1.end_ + gap p % 2 ^ 32⟩ := by
  have hsp := space_toNat hp
  have hmsb : (space p.1 p.2).msb = false := by
    rw [msb_eq_decide, hsp, decide_eq_false_iff_not]
    omega
  have hsi : ((space p.1 p.2).signExtend 64).toNat = gap p % 2 ^ 32 := by
    rw [signExtend_eq_setWidth_of_msb_false hmsb, toNat_setWidth, hsp]
    omega
  have hmem := (mem_of_mem_neighbours hp).2
  have hf := m.fits p.2 hmem
  have hin := m.inhabited p.2 hmem
  have hord := neighbours_ordered hp
  have hgap : gap p = p.2.start - p.1.end_ := rfl
  rw [rangeAt, hsi, ptrAdd_eq (by omega)]

end Spaces

section EmptyPages

def emptyPage (p : KernelMapping × KernelMapping) : Option MemoryRange :=
  if (0#32).slt (space p.1 p.2) then some (rangeAt p.1.end_ (space p.1 p.2)) else none

theorem emptyPagesFrom_eq (prev : KernelMapping) (rest : List KernelMapping) :
    emptyPagesFrom prev rest = (neighbours (prev :: rest)).filterMap emptyPage := by
  induction rest generalizing prev with
  | nil => rfl
  | cons km rest ih =>
    rw [neighbours_cons, filterMap_cons, emptyPagesFrom, emptyPage]
    split
    · rw [ih]
    · rw [ih]

theorem findEmptyPages_eq (l : List KernelMapping) :
    findEmptyPages l = (neighbours l).filterMap emptyPage := by
  cases l with
  | nil => rfl
  | cons km rest => exact emptyPagesFrom_eq km rest

/-- Two loops that add ranges with the starts of the pairs agree only when they do for each pair. -/
theorem filterMap_eq_iff {l : List (KernelMapping × KernelMapping)}
    {f g : KernelMapping × KernelMapping → Option MemoryRange}
    (hl : l.Pairwise fun p q => p.1.end_ < q.1.end_)
    (hf : ∀ p r, f p = some r → r.start = p.1.end_) (hg : ∀ p r, g p = some r → r.start = p.1.end_) :
    l.filterMap f = l.filterMap g ↔ ∀ p ∈ l, f p = g p := by
  constructor
  · intro h
    induction l with
    | nil => exact fun p hp => absurd hp not_mem_nil
    | cons p l ih =>
      obtain ⟨hlt, hl⟩ := pairwise_cons.mp hl
      -- a range that starts where the first pair does cannot come from a later one
      have hla {f : KernelMapping × KernelMapping → Option MemoryRange} {r : MemoryRange}
          (hf : ∀ p r, f p = some r → r.start = p.1.end_) (hr : r.start = p.1.end_) :
          r ∉ l.filterMap f := by
        intro hmem
        obtain ⟨q, hq, hfq⟩ := mem_filterMap.mp hmem
        have hst := hf q r hfq
        have hle := hlt q hq
        omega
      rw [forall_mem_cons]
      cases hfp : f p with
      | none =>
        cases hgp : g p with
        | none =>
          rw [filterMap_cons_none hfp, filterMap_cons_none hgp] at h
          exact ⟨rfl, ih hl h⟩
        | some r =>
          rw [filterMap_cons_none hfp, filterMap_cons_some hgp] at h
          have hmem : r ∈ l.filterMap f := h ▸ mem_cons_self
          exact absurd hmem (hla hf (hg p r hgp))
      | some r =>
        cases hgp : g p with
        | none =>
          rw [filterMap_cons_some hfp, filterMap_cons_none hgp] at h
          have hmem : r ∈ l.filterMap g := h ▸ mem_cons_self
          exact absurd hmem (hla hg (hf p r hfp))
        | some r' =>
          rw [filterMap_cons_some hfp, filterMap_cons_some hgp] at h
          obtain ⟨rfl, ht⟩ := cons.inj h
          exact ⟨rfl, ih hl ht⟩
  · exact filterMap_congr

theorem emptyPage_eq_iff (hp : p ∈ neighbours m.mappings) :
    emptyPage p = (if 0 < gap p then some ⟨p.1.end_, p.2.start⟩ else none) ↔ gap p < 2 ^ 31 := by
  have hord := neighbours_ordered hp
  have hgap : gap p = p.2.start - p.1.end_ := rfl
  have hpos := space_positive_iff hp
  by_cases hsp : (0#32).slt (space p.1 p.2) = true
  · obtain ⟨hlow, hh⟩ := hpos.mp hsp
    have hmod := Nat.mod_le (gap p) (2 ^ 32)
    rw [emptyPage, if_pos hsp, rangeAt_small hp hh, if_pos (by omega), some.injEq,
      MemoryRange.mk.injEq]
    omega
  · have hnot := mt hpos.mpr hsp
    rw [emptyPage, if_neg hsp]
    split
    · next hz =>
      simp only [reduceCtorEq, false_iff]
      omega
    · next hz =>
      simp only [true_iff]
      omega

theorem findEmptyPages_eq_gaps_iff (m : OrderedMappings) :
    findEmptyPages m.mappings = gaps m.mappings ↔
      ∀ p ∈ neighbours m.mappings, gap p < 2 ^ 31 := by
  rw [findEmptyPages_eq, gaps, filterMap_eq_iff m.neighbours_increase]
  · constructor
    · exact fun h p hp => (emptyPage_eq_iff hp).mp (h p hp)
    · exact fun h p hp => (emptyPage_eq_iff hp).mpr (h p hp)
  · intro p r h
    rw [emptyPage] at h
    split at h
    · cases h
      rfl
    · cases h
  · intro p r h
    split at h
    · cases h
      rfl
    · cases h

end EmptyPages

section Closest

variable {phdr : ProgramHeader}

theorem closestFrom_eq (prev : KernelMapping) (rest : List KernelMapping) :
    closestFrom phdr prev rest =
      match (neighbours (prev :: rest)).find? (fun p => accommodates phdr p.1 p.2) with
      | some p => rangeAt p.1.end_ (space p.1 p.2)
      | none => ⟨(rest.getLastD prev).end_, ptrAdd (rest.getLastD prev).end_ phdr.memsz.toNat⟩ := by
  induction rest generalizing prev with
  | nil => rfl
  | cons km rest ih =>
    rw [neighbours_cons, find?_cons, closestFrom]
    cases hr : accommodates phdr prev km with
    | true => rfl
    | false => rw [if_neg Bool.false_ne_true, ih, getLastD_cons]

theorem findClosestPageRange_eq (hl : l.getLast? = some last) : findClosestPageRange phdr l =
      match (neighbours l).find? (fun p => accommodates phdr p.1 p.2) with
      | some p => rangeAt p.1.end_ (space p.1 p.2)
      | none => ⟨last.end_, ptrAdd last.end_ phdr.memsz.toNat⟩ := by
  cases l with
  | nil => cases hl
  | cons km rest =>
    have hl' : rest.getLastD km = last := by
      rw [getLast?_cons, some.injEq] at hl
      rw [getLastD_eq_getLast?, hl]
    rw [findClosestPageRange, closestFrom_eq, hl']

/-- A gap behind the address of the segment with more bytes than it needs. -/
def HasGap (m : OrderedMappings) (phdr : ProgramHeader) : Prop :=
  ∃ p ∈ neighbours m.mappings, phdr.memsz.toNat < gap p ∧ phdr.vaddr.toNat < p.1.end_

theorem accommodates_iff (hp : p ∈ neighbours m.mappings)
    (hsm : gap p < 2 ^ 31) : accommodates phdr p.1 p.2 = true ↔
      phdr.memsz.toNat < gap p ∧ phdr.vaddr.toNat < p.1.end_ := by
  rw [accommodates, Bool.and_eq_true, decide_eq_true_eq, decide_eq_true_eq,
    space_toNat hp, Nat.mod_eq_of_lt (by omega)]

theorem closestRange_last_iff (hl : m.mappings.getLast? = some last) :
    ClosestRange m phdr ⟨last.end_, ptrAdd last.end_ phdr.memsz.toNat⟩ ↔
      last.end_ + phdr.memsz.toNat < 2 ^ 64 := by
  have hf := m.fits last (mem_of_getLast? hl)
  have hm := phdr.memsz.isLt
  constructor
  · intro h
    have hw := h.nonWrapping
    simp only [ptrAdd] at hw
    omega
  · intro h
    rw [ptrAdd_eq h]
    exact ⟨Nat.le_add_right _ _, .inr ⟨last, hl, rfl⟩, by simp⟩

theorem closestRange_gap (hp : p ∈ neighbours m.mappings)
    (hsm : gap p < 2 ^ 31) (hr : accommodates phdr p.1 p.2 = true) :
    ClosestRange m phdr (rangeAt p.1.end_ (space p.1 p.2)) := by
  obtain ⟨hsi, hv⟩ := (accommodates_iff hp hsm).mp hr
  have hord := neighbours_ordered hp
  have hgap : gap p = p.2.start - p.1.end_ := rfl
  have hmod : gap p % 2 ^ 32 = gap p := Nat.mod_eq_of_lt (by omega)
  rw [rangeAt_small hp (by omega), hmod]
  refine ⟨by simp, .inl ⟨p, hp, le_rfl, by simp only; omega, hv⟩, ?_⟩
  simp only
  omega

theorem closestRange_iff (hl : m.mappings.getLast? = some last)
    (hsm : ∀ p ∈ neighbours m.mappings, gap p < 2 ^ 31) :
    ClosestRange m phdr (findClosestPageRange phdr m.mappings) ↔
      HasGap m phdr ∨ last.end_ + phdr.memsz.toNat < 2 ^ 64 := by
  rw [findClosestPageRange_eq hl]
  cases hf : (neighbours m.mappings).find? (fun p => accommodates phdr p.1 p.2) with
  | some p =>
    have hp := mem_of_find?_eq_some hf
    have hr := find?_some hf
    have hgap : HasGap m phdr := ⟨p, hp, (accommodates_iff hp (hsm p hp)).mp hr⟩
    exact ⟨fun _ => .inl hgap, fun _ => closestRange_gap hp (hsm p hp) hr⟩
  | none =>
    have hn : ¬ HasGap m phdr := by
      rintro ⟨p, hp, hr⟩
      have hno := find?_eq_none.mp hf p hp
      exact hno ((accommodates_iff hp (hsm p hp)).mpr hr)
    rw [closestRange_last_iff hl]
    exact ⟨.inr, fun h => h.resolve_left hn⟩

theorem not_closestRange_nil (hm : m.mappings = []) : ¬ ClosestRange m phdr r := by
  rintro ⟨_, ⟨p, hp, _⟩ | ⟨last, hl, _⟩, _⟩
  · rw [hm] at hp
    cases hp
  · rw [hm] at hl
    cases hl

theorem pages_found_iff (m : OrderedMappings) (phdr : ProgramHeader) :
    (findEmptyPages m.mappings = gaps m.mappings ∧
      ClosestRange m phdr (findClosestPageRange phdr m.mappings)) ↔
    (∀ p ∈ neighbours m.mappings, gap p < 2 ^ 31) ∧ ∃ last, m.mappings.getLast? = some last ∧
      (HasGap m phdr ∨ last.end_ + phdr.memsz.toNat < 2 ^ 64) := by
  rw [findEmptyPages_eq_gaps_iff]
  constructor
  · rintro ⟨hsm, hc⟩
    cases hl : m.mappings.getLast? with
    | none => exact absurd hc (not_closestRange_nil (getLast?_eq_none_iff.mp hl))
    | some last => exact ⟨hsm, last, rfl, (closestRange_iff hl hsm).mp hc⟩
  · rintro ⟨hsm, last, hl, h⟩
    exact ⟨hsm, (closestRange_iff hl hsm).mpr h⟩

/-- A gap of three gigabytes is not listed, and the range that is said to lie in it goes on over the
mapping behind it. -/
theorem large_gap_misplaced : findEmptyPages (twoPages (3 * 2 ^ 30) (by decide)).mappings = [] ∧
    gaps (twoPages (3 * 2 ^ 30) (by decide)).mappings = [⟨8192, 8192 + 3 * 2 ^ 30⟩] ∧
    findClosestPageRange ⟨4096, 4096⟩ (twoPages (3 * 2 ^ 30) (by decide)).mappings =
      ⟨8192, 2 ^ 64 - 2 ^ 30 + 8192⟩ ∧
    ¬ ClosestRange (twoPages (3 * 2 ^ 30) (by decide)) ⟨4096, 4096⟩
      ⟨8192, 2 ^ 64 - 2 ^ 30 + 8192⟩ := by
  refine ⟨by decide, by decide, by decide, ?_⟩
  rintro ⟨_, ⟨p, hp, _, hend, _⟩ | ⟨last, hl, hst⟩, _⟩
  · obtain rfl := mem_singleton.mp hp
    exact absurd hend (by decide)
  · obtain rfl := some.inj hl
    exact absurd hst (by decide)

end Closest

end Attune.Muplay
