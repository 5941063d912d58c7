import Attune.AddressSpaceWalks
import Attune.PageTableRefinement

namespace Attune
open Segments List Option

/-- A property of entries that goes over to their pieces and to merged entries. -/
structure Inherited (Q : MemoryRange × Mapping → Prop) : Prop where
  lower : Hit how e rem → Q e → ∀ r, r = e.2.map.start ∨ r = e.2.recordedMap.start →
    ∀ x ∈ lowerPiece r e rem, Q x
  upper : Hit how e rem → Q e → ∀ x ∈ upperPiece e rem, Q x
  overlap : Hit .iterateContiguous e rem → Q e → ∀ prot, Q (overlapPiece prot e rem)
  merged : WellFormed (first :: T) → (first :: T).IsChain Mergeable →
    (∀ x ∈ first :: T, Q x) → Q (mergedEntry first T)

/-- Entries with the property can be merged without a failing assertion. -/
def Asserting (Q : MemoryRange × Mapping → Prop) : Prop :=
  ∀ mem, WellFormed mem → (∀ e ∈ mem, Q e) → Asserts mem

namespace AddressSpace

structure Holds (Q : MemoryRange × Mapping → Prop) (s : AddressSpace) : Prop where
  wellFormed : WellFormed s.mem
  entries : ∀ e ∈ s.mem, Q e

def MapArgs.entry (a : MapArgs) (addr size : Nat) : MemoryRange × Mapping :=
  let m := KernelMapping.new addr (addr + size) a.fsname a.device a.inode a.prot a.flags
    a.offsetBytes
  (m.toMemoryRange, ⟨m, a.recordedMap.getD m, a.emuFile, a.localAddr, a.monitored, 0⟩)

/-- A call that keeps the property when it returns, and returns when no assertion can fail. -/
structure Leads (Q : MemoryRange × Mapping → Prop) (r : Option AddressSpace) : Prop where
  result : ∀ s', r = some s' → Holds Q s'
  returns : Asserting Q → r.isSome = true

variable {Q : MemoryRange × Mapping → Prop} {s : AddressSpace}

theorem Holds.leads (h : Holds Q s) : Leads Q (some s) :=
  ⟨fun _ hs => some.inj hs ▸ h, fun _ => rfl⟩

theorem Leads.bind (h : Leads Q r) (hf : ∀ s, r = some s → Holds Q s → Leads Q (f s)) :
    Leads Q (r.bind f) where
  result s' hs' := by
    obtain ⟨s, hr, hfs⟩ := bind_eq_some_iff.mp hs'
    exact (hf s hr (h.result s hr)).result s' hfs
  returns hQ := by
    obtain ⟨s, rfl⟩ := isSome_iff_exists.mp (h.returns hQ)
    exact (hf s rfl (h.result s rfl)).returns hQ

end AddressSpace

section Calls

open AddressSpace

variable {Q : MemoryRange × Mapping → Prop} {s s' : AddressSpace} {A B : MemoryMap}
  (hQ : Inherited Q)
include hQ

theorem Inherited.unmapPieces (hhit : Hit how e rem) (he : Q e) : ∀ x ∈ unmapPieces e rem, Q x :=
  forall_mem_append.mpr ⟨hQ.lower hhit he _ (.inl rfl), hQ.upper hhit he⟩

theorem Inherited.grownPieces (hhit : Hit .iterateContiguous e rem) (he : Q e) :
    ∀ x ∈ grownPieces prot e rem, Q x := by
  intro x hx
  rcases mem_grownPieces hx with hl | rfl | hu
  · exact hQ.lower hhit.grown he _ (.inr rfl) x hl
  · exact hQ.overlap hhit.grown he prot
  · exact hQ.upper hhit.grown he x hu

variable (h : Holds Q s)
include h

theorem Inherited.unmapInternal (ha : addr % pageSize = 0)
    (hn : n % pageSize = 0) (hb : addr + n < 2 ^ 64) : Leads Q (s.unmapInternal addr n) := by
  obtain ⟨A, B, s', hs', hw⟩ := unmapInternal_walk h.wellFormed ha hn hb
  have hend : (addr + n) % pageSize = 0 := by
    simp only [pageSize] at *
    omega
  obtain ⟨hA, hB⟩ := forall_mem_append.mp (hw.mem ▸ h.entries)
  rw [hs']
  apply Holds.leads
  refine ⟨hw.wellFormed, ?_⟩
  rw [hw.result, forall_mem_append]
  exact ⟨hA, walk_forall (fun e he _ _ _ hhit => hQ.unmapPieces hhit (hB e he)) ⟨hend, hb⟩
    (Nat.le_refl addr) hw.walkOk hB⟩

theorem Inherited.coalesceAround (hs : s.mem = A ++ e :: B) : Leads Q (s.coalesceAround e.1) where
  returns ha := coalesceAround_isSome hs h.wellFormed (ha s.mem h.wellFormed h.entries)
  result s' hs' := by
    have hsp := coalesceAround_spec (b := s.brkEnd) hs h.wellFormed
      (⟨rfl, False.elim⟩ : Keeps False s.brkEnd s) hs'
    refine ⟨hsp.1, ?_⟩
    rcases coalesceAround_cases hs h.wellFormed hs' with rfl | ⟨L, first, T, R, hrun, rfl⟩
    · exact h.entries
    have hmem := hs.trans hrun.split
    have hwf : WellFormed (L ++ ((first :: T) ++ R)) := hmem ▸ h.wellFormed
    have hall : ∀ x ∈ L ++ ((first :: T) ++ R), Q x := hmem ▸ h.entries
    rw [forall_mem_append, forall_mem_append] at hall
    rw [forall_mem_append, forall_mem_cons]
    exact ⟨hall.1, hQ.merged hwf.right.left hrun.chain hall.2.1, hall.2.2⟩

theorem Inherited.mapAndCoalesce {m : KernelMapping}
    (hm : EntryOk (m.toMemoryRange, ⟨m, recordedMap, emuFile, localAddr, monitored, 0⟩))
    (hf : ∀ p, m.start ≤ p → p < m.end_ → pages.view s.mem p = none)
    (hnew : Q (m.toMemoryRange, ⟨m, recordedMap, emuFile, localAddr, monitored, 0⟩)) :
    Leads Q (s.mapAndCoalesce m recordedMap emuFile localAddr monitored) := by
  obtain ⟨A, B, hmem, _, hwf, hc⟩ := mapAndCoalesce_eq h.wellFormed hm hf
  obtain ⟨hA, hB⟩ := forall_mem_append.mp (hmem ▸ h.entries)
  rw [hc]
  exact hQ.coalesceAround
    (e := (m.toMemoryRange, ⟨m, recordedMap, emuFile, localAddr, monitored, 0⟩))
    ⟨hwf, forall_mem_append.mpr ⟨hA, forall_mem_cons.mpr ⟨hnew, hB⟩⟩⟩ rfl

theorem Inherited.protectWalk (hw : ProtectWalk s addr regionEnd prot A B s' last)
    (hR : regionEnd % pageSize = 0 ∧ regionEnd < 2 ^ 64) : Holds Q s' := by
  obtain ⟨hA, hB⟩ := forall_mem_append.mp (hw.mem ▸ h.entries)
  refine ⟨hw.wellFormed, ?_⟩
  rw [hw.result, forall_mem_append]
  exact ⟨hA, walk_forall (fun e he _ _ _ hhit => hQ.grownPieces hhit (hB e he)) hR
    (Nat.le_refl addr) hw.walkOk hB⟩

variable (hfit : FitsRange addr n)
include hfit

theorem Inherited.protect : Leads Q (s.protect addr n prot) := by
  obtain ⟨hb, _⟩ := PageTable.FitsRange.region hfit
  obtain ⟨hRaligned, _, hRlt⟩ := ceilPageSize_spec hb
  obtain ⟨A, B, s₁, last, hw, hc⟩ := protect_walk prot h.wellFormed hfit.1 hb
  have h₁ : Holds Q s₁ := hQ.protectWalk h hw ⟨hRaligned, by omega⟩
  rw [hc]
  split
  · next hsi =>
    obtain ⟨L, x, R, hsp, hkey⟩ := hw.isKey.split hsi
    rw [← hkey]
    exact hQ.coalesceAround h₁ hsp
  · exact h₁.leads

theorem Inherited.unmap : Leads Q (s.unmap addr n) := by
  obtain ⟨ha, hn, _, hb⟩ := PageTable.FitsRange.ceil hfit
  rw [AddressSpace.unmap]
  split
  · exact h.leads
  · have h₀ : Holds Q { s with
        dontFork := removeRange s.dontFork ⟨addr, ptrAdd addr (ceilPageSize n)⟩ } :=
      ⟨h.wellFormed, h.entries⟩
    exact hQ.unmapInternal h₀ ha (ceilPageSize_spec hn).1 hb

theorem Inherited.map (hnew : ceilPageSize n ≠ 0 → Q (a.entry addr (ceilPageSize n))) :
    Leads Q (s.map addr n a) := by
  obtain ⟨had, hn, _, hb⟩ := PageTable.FitsRange.ceil hfit
  have ha := (ceilPageSize_spec hn).1
  have hend : (addr + ceilPageSize n) % pageSize = 0 := by
    simp only [pageSize] at *
    omega
  simp only [AddressSpace.map]
  split
  · exact h.leads
  next hz =>
  rw [ptrAdd_eq hb]
  let s₀ : AddressSpace := { s with
    dontFork := removeRange s.dontFork ⟨addr, addr + ceilPageSize n⟩ }
  have h₀ : Holds Q s₀ := ⟨h.wellFormed, h.entries⟩
  obtain ⟨s₁, hu, _, _, hv⟩ := unmapInternal_spec (s := s₀) h.wellFormed
    (⟨rfl, False.elim⟩ : Keeps False s.brkEnd s₀) had ha hb
  apply (hQ.unmapInternal h₀ had ha hb).bind
  intro s₁' hs₁' h₁
  cases hu.symm.trans hs₁'
  refine Leads.bind (hQ.mapAndCoalesce h₁ ⟨rfl, ?_, had, hend, hb, KernelMapping.mask_idem _⟩
    ?_ (hnew hz)) ?_
  · show addr < addr + ceilPageSize n
    omega
  · intro p hlo hhi
    rw [hv p]
    exact if_pos ⟨hlo, hhi⟩
  · intro s₂ _ h₂
    apply Holds.leads
    split
    · exact ⟨h₂.wellFormed, h₂.entries⟩
    · exact h₂

end Calls

end Attune
