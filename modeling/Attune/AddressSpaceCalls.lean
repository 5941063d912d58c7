import Attune.Coalesce

namespace Attune

variable {st : AddressSpace × MemoryRange}
open Segments List Option OrderedMap

theorem WalkOk.walkStop_aligned (h : WalkOk last B) :
    walkStop how regionStart regionEnd last B % pageSize = 0 := by
  induction B generalizing last with
  | nil => exact h.aligned
  | cons e B ih =>
    rw [walkStop]
    split
    · exact ih h.tail
    · exact h.aligned

/-- The region that gets new permissions: with `PROT_GROWSDOWN` from the start of the entry on. -/
def growsRegion (prot : BitVec 32) (e : MemoryRange × Mapping) (rem : MemoryRange) : MemoryRange :=
  if e.1.start < rem.start ∧ prot &&& protGrowsdown ≠ 0 then ⟨e.1.start, rem.end_⟩ else rem

def grownPieces (prot : BitVec 32) (e : MemoryRange × Mapping) (rem : MemoryRange) : MemoryMap :=
  protectPieces prot e (growsRegion prot e rem)

theorem growsRegion_end : (growsRegion prot e rem).end_ = rem.end_ := by
  rw [growsRegion]
  split
  · rfl
  · rfl

theorem growsRegion_grown :
    ¬(e.1.start < (growsRegion prot e rem).start ∧ prot &&& protGrowsdown ≠ 0) := by
  rw [growsRegion]
  split
  · exact fun h => Nat.lt_irrefl _ h.1
  · next h => exact h

theorem Hit.grown (h : Hit .iterateContiguous e rem) :
    Hit .iterateContiguous e (growsRegion prot e rem) := by
  rw [growsRegion]
  split
  · exact ⟨h.entry, ⟨h.below, h.entry.startAligned, h.region.endAligned, h.region.bound⟩,
      h.entry.nonempty, h.below, fun _ => Nat.le_refl _⟩
  · exact h

theorem grownPieces_splits : Splits .iterateContiguous (grownPieces prot) where
  wellFormed h := protectPieces_splits.wellFormed h.grown
  within h := protectPieces_splits.within h.grown

theorem grownPieces_eq (hg : prot &&& protGrowsdown = 0) :
    grownPieces prot = protectPieces prot := by
  funext e rem
  rw [grownPieces, growsRegion, if_neg fun h => h.2 hg]

namespace AddressSpace

variable {s s' : AddressSpace} {A B : MemoryMap} {e : MemoryRange × Mapping} {rem : MemoryRange}

theorem protector_mem
    (hg : ¬(e.1.start < rem.start ∧ prot &&& protGrowsdown ≠ 0)) (hs : st.1.mem = A ++ e :: B)
    (hwf : WellFormed st.1.mem) (h : Hit .iterateContiguous e rem) :
    (protector prot st e.2 rem).1.mem = A ++ (protectPieces prot e rem ++ B) ∧
    (protector prot st e.2 rem).2 = (overlapPiece prot e rem).1 := by
  obtain ⟨hA, hB⟩ := neighbours (hs ▸ hwf)
  have hne := h.region.nonempty
  have hf := h.contiguous rfl
  have hst : (if e.2.map.start < rem.start ∧ prot &&& protGrowsdown ≠ 0 then e.2.map.start
      else rem.start) = rem.start := by
    rw [h.start_eq]
    exact if_neg hg
  have hlow := lowerPiece_added (r := e.2.recordedMap.start) h (removeFromMap_mem hs hwf) hA hB
  have hok : EntryOk (overlapPiece prot e rem) := overlapPiece_ok h
  have ho := addToMap_mem (m := (overlapPiece prot e rem).2) hlow (fun a ha => by
    cases mem_append.mp ha with
    | inl hin => exact ⟨(hA a hin).1, Nat.le_trans (hA a hin).2 hf⟩
    | inr hin =>
      refine ⟨(lowerPiece_wellFormed h).entries a hin, ?_⟩
      obtain ⟨_, rfl⟩ := mem_lowerPiece hin
      exact Nat.le_refl _)
    (fun b hb => ⟨(hB b hb).1, Nat.le_trans (Nat.min_le_right _ _) (hB b hb).2⟩) hok.nonempty
  rw [← singleton_append, ← append_assoc] at ho
  have hup := upperPiece_added h ho (fun a ha => by
    cases mem_append.mp ha with
    | inl hin =>
      cases mem_append.mp hin with
      | inl hin => exact ⟨(hA a hin).1, Nat.le_trans (hA a hin).2 (Nat.le_of_lt h.below)⟩
      | inr hin =>
        refine ⟨(lowerPiece_wellFormed h).entries a hin, ?_⟩
        obtain ⟨_, rfl⟩ := mem_lowerPiece hin
        exact Nat.le_of_lt hne
    | inr hin =>
      rw [mem_singleton.mp hin]
      exact ⟨hok, Nat.min_le_left _ _⟩) hB
  have hend := h.end_eq
  simp only [protector, hst]
  refine ⟨?_, by rw [hend]; rfl⟩
  rw [overlapPiece, ← hend] at hup
  rw [hup, protectPieces, overlapPiece, hend]
  simp only [append_assoc]
  rfl

theorem protector_brkEnd : (protector prot st m rem).1.brkEnd = st.1.brkEnd := by
  simp only [protector, removeFromMap, addToMap]
  split_ifs
  all_goals rfl

def LastOverlap (st : AddressSpace × MemoryRange) : Prop :=
  st.2 = ⟨0, 0⟩ ∨ ∃ x ∈ st.1.mem, x.1 = st.2

theorem LastOverlap.split (h : LastOverlap (s, last)) (hsi : last.size ≠ 0) :
    ∃ L x R, s.mem = L ++ x :: R ∧ x.1 = last := by
  cases h with
  | inl hz =>
    change last = ⟨0, 0⟩ at hz
    rw [hz] at hsi
    exact absurd rfl hsi
  | inr hkey =>
    obtain ⟨x, hx, hkey⟩ := hkey
    obtain ⟨L, R, hsp⟩ := append_of_mem hx
    exact ⟨L, x, R, hsp, hkey⟩

theorem protector_grown (h : Hit .iterateContiguous e rem) :
    protector prot st e.2 rem = protector prot st e.2 (growsRegion prot e rem) := by
  rw [growsRegion]
  split
  · next hg =>
    simp only [protector, Mapping.overflow, h.start_eq, if_pos hg, Nat.lt_irrefl, false_and,
      ↓reduceIte]
  · rfl

theorem protector_grown_mem (prot : BitVec 32)
    (hs : st.1.mem = A ++ e :: B) (hwf : WellFormed st.1.mem) (h : Hit .iterateContiguous e rem) :
    (protector prot st e.2 rem).1.mem = A ++ (grownPieces prot e rem ++ B) ∧
    (protector prot st e.2 rem).2 = (overlapPiece prot e (growsRegion prot e rem)).1 := by
  rw [protector_grown h]
  exact protector_mem growsRegion_grown hs hwf h.grown

def nextOverlap (prot : BitVec 32) (_ : MemoryRange) (e : MemoryRange × Mapping)
    (rem : MemoryRange) : MemoryRange :=
  (overlapPiece prot e (growsRegion prot e rem)).1

structure ProtectWalk (s : AddressSpace) (addr regionEnd : Nat) (prot : BitVec 32)
    (A B : MemoryMap) (s' : AddressSpace) (last : MemoryRange) : Prop where
  mem : s.mem = A ++ B
  below : ∀ a ∈ A, a.1.end_ ≤ addr
  walkOk : WalkOk addr B
  result : s'.mem = A ++ walk (grownPieces prot) .iterateContiguous addr regionEnd addr B
  overlap : last = walkFold (nextOverlap prot) .iterateContiguous addr regionEnd addr ⟨0, 0⟩ B
  isKey : LastOverlap (s', last)
  wellFormed : WellFormed s'.mem
  brkEnd : s'.brkEnd = s.brkEnd
  released : s'.released = s.released

theorem protector_released : (protector prot st m rem).1.released = st.1.released := by
  simp only [protector, removeFromMap, addToMap]
  split_ifs
  all_goals rfl

theorem protect_walk (prot : BitVec 32) (hwf : WellFormed s.mem) (haddr : addr % pageSize = 0)
    (hbound : addr + n + pageSize ≤ 2 ^ 64) :
    ∃ A B s' last, ProtectWalk s addr (ceilPageSize (addr + n)) prot A B s' last ∧
      s.protect addr n prot =
        if last.size ≠ 0 then s'.coalesceAround last else some s' := by
  have hsum : addr + n < 2 ^ 64 := by simp only [pageSize] at hbound; omega
  obtain ⟨hRaligned, hRle, hRlt⟩ := ceilPageSize_spec hbound
  obtain ⟨A, B, hmem, hA, hB⟩ := hwf.splitAt haddr
  have ha : Acts .iterateContiguous (fun st : AddressSpace × MemoryRange => st.1.mem)
      (protector prot) (grownPieces prot)
      fun st => LastOverlap st ∧ st.1.brkEnd = s.brkEnd ∧ st.1.released = s.released := by
    intro st A e B rem hs hwf h hI
    obtain ⟨hmem, hl⟩ := protector_grown_mem prot hs hwf h
    refine ⟨hmem, .inr ⟨overlapPiece prot e (growsRegion prot e rem), ?_, hl.symm⟩,
      protector_brkEnd.trans hI.2.1, protector_released.trans hI.2.2⟩
    rw [hmem, grownPieces, protectPieces]
    simp only [mem_append, mem_singleton, true_or, or_true]
  obtain ⟨⟨s', last⟩, hlo, hm', hl, hwf', hkey, hbrk, hlog⟩ := forEachLoop_walkFold
    (s := (s, (⟨0, 0⟩ : MemoryRange))) Prod.snd (nextOverlap prot) grownPieces_splits ha
    (fun _ _ _ _ _ hs hwf h => (protector_grown_mem prot hs hwf h).2) ⟨hRaligned, by omega⟩
    (Nat.le_refl addr) hmem hwf ⟨.inl rfl, rfl, rfl⟩ haddr hA hB.after
    (show B.length < s.mem.length + 1 by rw [hmem, length_append]; omega)
  refine ⟨A, B, s', last, ⟨hmem, hA, hB, hm', hl, hkey, hwf', hbrk, hlog⟩, ?_⟩
  simp only [protect, forEachInRange, floorPageSize_aligned haddr, ptrAdd_eq hsum]
  rw [hlo]
  rfl

end AddressSpace

/-- A well-formed address space whose pages read as given. -/
structure Good (noResources : Prop) (b : Nat) (v : Nat → Option PageAttr) (s : AddressSpace) :
    Prop where
  wellFormed : WellFormed s.mem
  keeps : Keeps noResources b s
  view : ∀ p, pages.view s.mem p = v p

/-- A call that leaves a good address space when it returns, and returns unless resources make an
assertion fail. -/
structure Outcome (noResources : Prop) (b : Nat) (v : Nat → Option PageAttr)
    (r : Option AddressSpace) : Prop where
  result : ∀ s', r = some s' → Good noResources b v s'
  returns : noResources → r.isSome = true

theorem Good.outcome (h : Good noResources b v s) : Outcome noResources b v (some s) :=
  ⟨fun _ hs => some.inj hs ▸ h, fun _ => rfl⟩

theorem Outcome.bind (h : Outcome noResources b v r)
    (hf : ∀ s, Good noResources b v s → Outcome noResources b' v' (f s)) :
    Outcome noResources b' v' (r.bind f) where
  result s' hs' := by
    obtain ⟨s, hr, hfs⟩ := bind_eq_some_iff.mp hs'
    exact (hf s (h.result s hr)).result s' hfs
  returns hno := by
    obtain ⟨s, rfl⟩ := isSome_iff_exists.mp (h.returns hno)
    exact (hf s (h.result s rfl)).returns hno

theorem Outcome.view_congr (h : Outcome noResources b v r) (hv : ∀ p, v p = v' p) :
    Outcome noResources b v' r where
  result s' hs' := by
    obtain ⟨hwf, hk, hvi⟩ := h.result s' hs'
    exact ⟨hwf, hk, fun p => (hvi p).trans (hv p)⟩
  returns := h.returns

theorem Good.congr (h : Good noResources b v s) (hmem : s'.mem = s.mem)
    (hbrk : s'.brkEnd = s.brkEnd) : Good noResources b v s' :=
  ⟨hmem ▸ h.wellFormed, ⟨hbrk ▸ h.keeps.brkEnd, hmem ▸ h.keeps.plain⟩, hmem ▸ h.view⟩

namespace AddressSpace

variable {s : AddressSpace} {v : Nat → Option PageAttr}

theorem unmapInternal_good (h : Good noResources b v s) (haddr : addr % pageSize = 0)
    (hn : n % pageSize = 0) (hbound : addr + n < 2 ^ 64) :
    Outcome noResources b (fun p => if addr ≤ p ∧ p < addr + n then none else v p)
      (s.unmapInternal addr n) := by
  obtain ⟨s', hs', hwf, hI, hv⟩ := unmapInternal_spec h.wellFormed h.keeps haddr hn hbound
  rw [hs']
  apply Good.outcome
  refine ⟨hwf, hI, ?_⟩
  intro p
  rw [hv p, h.view p]

theorem mapAndCoalesce_good {m : KernelMapping} (h : Good noResources b v s)
    (hm : EntryOk (m.toMemoryRange, ⟨m, recordedMap, emuFile, localAddr, monitored, 0⟩))
    (hf : ∀ p, m.start ≤ p ∧ p < m.end_ → v p = none)
    (hno : noResources → emuFile = none ∧ localAddr = 0 ∧ monitored = none) :
    Outcome noResources b
      (fun p => if m.start ≤ p ∧ p < m.end_ then some (m.attrAt p) else v p)
      (s.mapAndCoalesce m recordedMap emuFile localAddr monitored) := by
  obtain ⟨hr, hre⟩ := mapAndCoalesce_spec h.wellFormed h.keeps hm
    (fun p hlo hhi => (h.view p).trans (hf p ⟨hlo, hhi⟩)) hno
  refine ⟨?_, hre⟩
  intro s' hs'
  obtain ⟨hwf, hI, hv⟩ := hr s' hs'
  refine ⟨hwf, hI, ?_⟩
  intro p
  rw [hv p, h.view p]

structure RunEnd (v : Nat → Option PageAttr) (addr regionEnd stop : Nat) : Prop where
  le : addr ≤ stop
  aligned : stop % pageSize = 0
  mapped : ∀ p, addr ≤ p → p < stop → (v p).isSome = true
  gap : stop < regionEnd → v stop = none

theorem protect_good (h : Good noResources b v s) (hgr : prot &&& protGrowsdown = 0)
    (haddr : addr % pageSize = 0) (hbound : addr + n + pageSize ≤ 2 ^ 64) :
    ∃ stop, RunEnd v addr (ceilPageSize (addr + n)) stop ∧
      Outcome noResources b (fun p =>
        if addr ≤ p ∧ p < ceilPageSize (addr + n) ∧ p < stop then
          (v p).map fun a => { a with prot := prot &&& protReadWriteExec }
        else v p) (s.protect addr n prot) := by
  obtain ⟨hRaligned, hRle, hRlt⟩ := ceilPageSize_spec hbound
  have hR : ceilPageSize (addr + n) % pageSize = 0 ∧ ceilPageSize (addr + n) < 2 ^ 64 :=
    ⟨hRaligned, by omega⟩
  obtain ⟨A, B, s1, last, hw, hc⟩ := protect_walk prot h.wellFormed haddr hbound
  have hmem := hw.mem
  have hA := hw.below
  have hB := hw.walkOk
  have hwf1 := hw.wellFormed
  have hm1 := hw.result
  rw [grownPieces_eq hgr] at hm1
  have hv : ∀ p, addr ≤ p → v p = pages.view B p := by
    intro p hp
    rw [← h.view p, hmem, view_upper hA hp]
  have hI1 : Keeps noResources b s1 := by
    refine ⟨hw.brkEnd.trans h.keeps.brkEnd, fun hno x hx => ?_⟩
    have hpl : ∀ y ∈ A ++ B, Plain y.2 := hmem ▸ h.keeps.plain hno
    rw [hm1] at hx
    cases mem_append.mp hx with
    | inl hin => exact hpl x (mem_append_left B hin)
    | inr hin =>
      refine walk_forall (fun e he rem _ _ _ y hy => ?_) hR (Nat.le_refl addr) hB
        (fun e he => hpl e (mem_append_right A he)) x hin
      have hpe := hpl e (mem_append_right A he)
      rw [protectPieces] at hy
      simp only [mem_append, mem_singleton] at hy
      obtain hl | (rfl | hu) := hy
      · exact hpe.lowerPiece y hl
      · exact hpe.overlap
      · exact hpe.upperPiece y hu
  refine ⟨walkStop .iterateContiguous addr (ceilPageSize (addr + n)) addr B,
    ⟨hB.le_walkStop, hB.walkStop_aligned, ?_, ?_⟩, ?_⟩
  · intro p hp hst
    rw [hv p hp]
    exact isSome_view_of_lt_walkStop hB (Nat.le_refl addr) hp hst
  · intro hst
    rw [hv _ hB.le_walkStop]
    exact view_walkStop_eq_none hB (.inl rfl) hst
  have hg : Good noResources b (fun p =>
      if addr ≤ p ∧ p < ceilPageSize (addr + n) ∧
          p < walkStop .iterateContiguous addr (ceilPageSize (addr + n)) addr B then
        (v p).map fun a => { a with prot := prot &&& protReadWriteExec }
      else v p) s1 := by
    refine ⟨hwf1, hI1, ?_⟩
    intro p
    rw [hm1, Layout.view_append, view_walk protectPieces_edits hR (Nat.le_refl addr) hB]
    split
    · next hin =>
      rw [hv p hin.1, Layout.view_eq_none_of_hi_le fun a ha => Nat.le_trans (hA a ha) hin.1,
        none_or]
      cases pages.view B p with
      | none | some a => rfl
    · rw [← Layout.view_append, ← hmem, h.view p]
  rw [hc]
  split
  · next hsi =>
    obtain ⟨L, x, R, hsp, rfl⟩ := hw.isKey.split hsi
    refine ⟨?_, fun hno => coalesceAround_isSome hsp hwf1 (.of_plain (hI1.plain hno))⟩
    intro s' hs'
    obtain ⟨hwf', hI', hv'⟩ := coalesceAround_spec hsp hwf1 hI1 hs'
    exact ⟨hwf', hI', fun p => (hv' p).trans (hg.view p)⟩
  · exact hg.outcome

/-- The attributes `map` gives to the byte at a distance from the start of the new mapping. -/
def MapArgs.attr (a : MapArgs) (distance : Nat) : PageAttr :=
  ⟨a.prot, a.flags &&& mapFlagsMask, a.device, a.inode,
    if 0 < a.device then some ((a.offsetBytes + distance) % 2 ^ 64) else none⟩

/-- No emulated file, local image or monitored memory comes with the mapping. -/
def MapArgs.NoResources (a : MapArgs) : Prop :=
  a.emuFile = none ∧ a.localAddr = 0 ∧ a.monitored = none

theorem MapArgs.attrAt_new (a : MapArgs) :
    (KernelMapping.new addr end_ a.fsname a.device a.inode a.prot a.flags a.offsetBytes).attrAt p =
      a.attr (p - addr) := by
  have hoff : (a.offsetBytes % 2 ^ 64 + (p - addr)) % 2 ^ 64 =
      (a.offsetBytes + (p - addr)) % 2 ^ 64 := by omega
  simp only [KernelMapping.attrAt, KernelMapping.new, KernelMapping.isRealDevice, MapArgs.attr,
    hoff]
  by_cases hr : 0 < a.device
  · simp only [hr, decide_true, ↓reduceIte]
  · simp only [hr, decide_false, Bool.false_eq_true, ↓reduceIte]

section

variable (h : Good noResources b v s) (haddr : addr % pageSize = 0) (hn : n + pageSize ≤ 2 ^ 64) (hbound : addr + ceilPageSize n < 2 ^ 64)
include h haddr hn hbound

theorem unmap_good :
    Outcome noResources b (fun p => if addr ≤ p ∧ p < addr + ceilPageSize n then none else v p)
      (s.unmap addr n) := by
  simp only [unmap]
  split
  · next hz =>
    apply Good.outcome
    refine ⟨h.wellFormed, h.keeps, ?_⟩
    intro p
    rw [hz, if_neg (by omega), h.view p]
  · exact unmapInternal_good (h.congr rfl rfl) haddr (ceilPageSize_spec hn).1 hbound

theorem map_good (ha : noResources → a.NoResources) : Outcome noResources b (fun p =>
      if addr ≤ p ∧ p < addr + ceilPageSize n then some (a.attr (p - addr)) else v p)
      (s.map addr n a) := by
  have hal := (ceilPageSize_spec hn).1
  simp only [map]
  split
  · next hz =>
    apply Good.outcome
    refine ⟨h.wellFormed, h.keeps, ?_⟩
    intro p
    rw [hz, if_neg (by omega), h.view p]
  next hz =>
  rw [ptrAdd_eq hbound]
  have h0 : Good noResources b v
      { s with dontFork := removeRange s.dontFork ⟨addr, addr + ceilPageSize n⟩ } :=
    h.congr rfl rfl
  have hend : (addr + ceilPageSize n) % pageSize = 0 := by
    simp only [pageSize] at *
    omega
  apply (unmapInternal_good h0 haddr hal hbound).bind
  intro s1 h1
  refine Outcome.bind (v := fun p =>
      if addr ≤ p ∧ p < addr + ceilPageSize n then some (a.attr (p - addr)) else v p)
    ((mapAndCoalesce_good h1 ⟨rfl, ?_, haddr, hend, hbound, KernelMapping.mask_idem _⟩
      (fun p hp => if_pos hp) ha).view_congr ?_) ?_
  · show addr < addr + ceilPageSize n
    omega
  · intro p
    show (if addr ≤ p ∧ p < addr + ceilPageSize n then _ else _) =
      if addr ≤ p ∧ p < addr + ceilPageSize n then some (a.attr (p - addr)) else v p
    split
    · exact congrArg some a.attrAt_new
    · rfl
  · intro s2 h2
    apply Good.outcome
    split
    · exact h2.congr rfl rfl
    · exact h2

end

variable (hwf : WellFormed s.mem) (haddr : addr % pageSize = 0)
include hwf haddr

theorem mappingOf_view (hbound : addr < 2 ^ 64) :
    (s.mappingOf addr).map (fun m => m.map.attrAt addr) = pages.view s.mem addr := by
  have hne : addr + 1 < 2 ^ 64 := by
    simp only [pageSize] at haddr
    omega
  have hkey : addr < addr + 1 := Nat.lt_succ_self addr
  obtain ⟨A, B, hmem, hA, hB⟩ := hwf.splitAt haddr
  simp only [mappingOf, find, floorPageSize_aligned haddr, ptrAdd_eq hne, hmem,
    lowerBound_region (hmem ▸ hwf) hkey hA hB.after, view_upper hA (Nat.le_refl addr)]
  cases B with
  | nil => rfl
  | cons e B =>
    have hok := hB.wellFormed.entries e mem_cons_self
    have ha := hB.after e mem_cons_self
    simp only [comparator_eq (a := ⟨addr, addr + 1⟩) hkey hok.nonempty, decide_eq_true_eq,
      Layout.view_cons]
    by_cases hlt : addr + 1 ≤ e.1.start
    · have hout : ¬ pages.Covers e addr := fun hc => Nat.not_le_of_lt hlt hc.1
      rw [if_pos hlt, if_neg hout, hB.view_tail_eq_none ha]
      rfl
    · have hin : pages.Covers e addr := ⟨Nat.le_of_lt_succ (Nat.lt_of_not_le hlt), ha⟩
      rw [if_neg hlt, if_pos hin]
      rfl

theorem mappingOf_eq (he : e ∈ s.mem)
    (hlo : e.1.start ≤ addr) (hhi : addr < e.1.end_) : s.mappingOf addr = some e.2 := by
  have hok := hwf.entries e he
  have hne : addr + 1 < 2 ^ 64 := Nat.lt_of_le_of_lt hhi hok.bound
  have hkey : addr < addr + 1 := Nat.lt_succ_self addr
  obtain ⟨A, B, hmem⟩ := append_of_mem he
  have hwf' : WellFormed (A ++ e :: B) := hmem ▸ hwf
  have hA : ∀ a ∈ A, MemoryRange.comparator a.1 ⟨addr, addr + 1⟩ = true := by
    intro a ha
    rw [comparator_eq (hwf'.left.entries a ha).nonempty hkey]
    exact decide_eq_true (Nat.le_trans (hwf'.between ha mem_cons_self) hlo)
  have h1 : MemoryRange.comparator e.1 ⟨addr, addr + 1⟩ = false := by
    rw [comparator_eq hok.nonempty hkey]
    exact decide_eq_false (Nat.not_le_of_lt hhi)
  have h2 : MemoryRange.comparator ⟨addr, addr + 1⟩ e.1 = false := by
    rw [comparator_eq hkey hok.nonempty]
    exact decide_eq_false (Nat.not_le_of_lt (Nat.lt_succ_of_le hlo))
  simp only [mappingOf, floorPageSize_aligned haddr, ptrAdd_eq hne, hmem,
    find_split hA h1 h2, map_some]

end AddressSpace

end Attune
