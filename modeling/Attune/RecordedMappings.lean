import Attune.AddressSpaceWalks
import Attune.PageTableRefinement

namespace Attune
open Segments Option OrderedMap

/-- Two descriptions of a mapping that differ in the file name at most. -/
structure KernelMapping.Agrees (a b : KernelMapping) : Prop where
  range : a.toMemoryRange = b.toMemoryRange
  prot : a.prot = b.prot
  flags : a.flags = b.flags
  device : a.device = b.device
  inode : a.inode = b.inode
  offset : a.offset = b.offset

namespace OrderedMap

variable {lt : K → K → Bool} {m : List (K × V)} {P : V → Prop} (h : ∀ e ∈ m, P e.2)
include h

theorem forall_erase : ∀ e ∈ erase lt k m, P e.2 :=
  fun e he => h e (List.mem_filter.mp he).1

theorem forall_assign (hv : P v) : ∀ e ∈ assign lt k v m, P e.2 := by
  have hb : ∀ e ∈ below lt k m, P e.2 :=
    fun e he => h e ((List.takeWhile_sublist _).subset he)
  have hl : ∀ e ∈ lowerBound lt k m, P e.2 := fun e he => h e (mem_of_mem_lowerBound he)
  intro e he
  rw [assign] at he
  split at he
  · rcases List.mem_append.mp he with hin | hin
    · exact hb e hin
    · rcases List.mem_cons.mp hin with rfl | hin
      · exact hv
      · exact hl e (List.mem_of_mem_tail hin)
  · rcases List.mem_append.mp he with hin | hin
    · exact hb e hin
    · rcases List.mem_cons.mp hin with rfl | hin
      · exact hv
      · exact hl e hin

theorem forall_insert (hv : P v) : ∀ e ∈ insert lt k v m, P e.2 := by
  cases hf : find lt k m with
  | some e =>
    rw [insert, hf]
    exact h
  | none =>
    obtain ⟨A, B, rfl, heq⟩ := find_none_split hf v
    intro e he
    rw [heq] at he
    rcases List.mem_append.mp he with hin | hin
    · exact h e (List.mem_append_left B hin)
    · rcases List.mem_cons.mp hin with rfl | hin
      · exact hv
      · exact h e (List.mem_append_right A hin)

end OrderedMap

def Mapping.Recorded (m : Mapping) : Prop := m.recordedMap = m.map

namespace AddressSpace

def Recorded (s : AddressSpace) : Prop := ∀ e ∈ s.mem, e.2.Recorded

variable {s s' : AddressSpace} {m : Mapping}

section Steps

theorem Recorded.removeFromMap (h : s.Recorded) : (s.removeFromMap range).Recorded :=
  forall_erase (P := Mapping.Recorded) h

theorem Recorded.addToMap (h : s.Recorded) (hm : m.Recorded) : (s.addToMap m).Recorded :=
  forall_assign (P := Mapping.Recorded) h hm

theorem Recorded.addIf (c : Prop) [Decidable c] (h : s.Recorded) (hm : m.Recorded) :
    (if c then s.addToMap m else s).Recorded := by
  split
  · exact h.addToMap hm
  · exact h

theorem Recorded.unmapper (h : s.Recorded) (hm : m.Recorded) : (s.unmapper m rem).Recorded := by
  rw [Mapping.Recorded] at hm
  have hlow : (m.underflow m.map.start rem).Recorded := by
    simp only [Mapping.Recorded, Mapping.underflow, hm]
  have hup : (m.overflow rem).Recorded := by
    simp only [Mapping.Recorded, Mapping.overflow, hm]
  have h0 : (s.removeFromMap m.map.toMemoryRange).Recorded := h.removeFromMap
  have hp := (h0.addIf (m.map.start < rem.start) hlow).addIf (rem.end_ < m.map.end_) hup
  rw [AddressSpace.unmapper]
  split
  · exact hp
  · exact hp

theorem Recorded.protector {st : AddressSpace × MemoryRange} (h : st.1.Recorded)
    (hm : m.Recorded) : (protector prot st m rem).1.Recorded := by
  rw [Mapping.Recorded] at hm
  have hlow : (m.underflow m.recordedMap.start rem).Recorded := by
    simp only [Mapping.Recorded, Mapping.underflow, hm]
  have hup : (m.overflow rem).Recorded := by
    simp only [Mapping.Recorded, Mapping.overflow, hm]
  have ho : ∀ a b p, (m.overlap a b p).Recorded := by
    intro a b p
    simp only [Mapping.Recorded, Mapping.overlap, hm]
  have h0 : (st.1.removeFromMap m.map.toMemoryRange).Recorded := h.removeFromMap
  exact ((h0.addIf _ hlow).addToMap (ho _ _ _)).addIf _ hup

variable (h : s.Recorded)
include h

theorem Recorded.unmapInternal (hs : s.unmapInternal addr n = some s') : s'.Recorded :=
  forEachInRange_induct (fun _ e _ hx he => hx.unmapper (hx e he)) hs h

theorem Recorded.coalesceAround (hs : s.coalesceAround key = some s') : s'.Recorded := by
  rw [AddressSpace.coalesceAround] at hs
  split at hs
  · cases hs
  next it hig hl =>
  split at hs
  · cases hs
  obtain ⟨⟨first, below⟩, hle, hs₁⟩ := bind_eq_some_iff.mp hs
  obtain ⟨⟨last, above⟩, hr, hres⟩ := bind_eq_some_iff.mp hs₁
  obtain ⟨C, T, hC, hli, _, _⟩ := coalesceLeft_spec hle
  obtain ⟨D, rfl, _, _, _⟩ := coalesceRight_spec hr
  have hlow : ∀ e ∈ it :: (D ++ above), e.2.Recorded := by
    intro e he
    rw [← hl] at he
    exact h e (mem_of_mem_lowerBound he)
  have hb : ∀ e ∈ C ++ below, e.2.Recorded := by
    intro e he
    rw [← hC, List.mem_reverse] at he
    exact h e ((List.takeWhile_sublist _).subset he)
  have hf : first.2.Recorded := by
    have hmem : first ∈ C.reverse ++ [it] := by
      rw [hli]
      exact List.mem_cons_self
    rcases List.mem_append.mp hmem with hin | hin
    · exact hb first (List.mem_append_left below (List.mem_reverse.mp hin))
    · rw [List.mem_singleton.mp hin]
      exact hlow it List.mem_cons_self
  dsimp only at hres
  split at hres
  · cases hres
    exact h
  cases hres
  apply forall_insert (P := Mapping.Recorded)
  · intro e he
    rcases List.mem_append.mp he with hin | hin
    · exact hb e (List.mem_append_right C (List.mem_reverse.mp hin))
    · exact hlow e (List.mem_cons_of_mem it (List.mem_append_right D hin))
  · rw [Mapping.Recorded] at hf ⊢
    simp only [hf]

theorem Recorded.mapAndCoalesce {km : KernelMapping}
    (hs : s.mapAndCoalesce km km emuFile localAddr monitored = some s') : s'.Recorded := by
  refine Recorded.coalesceAround ?_ hs
  exact forall_insert (P := Mapping.Recorded) h rfl

theorem Recorded.map (ha : a.recordedMap = none) (hs : s.map addr n a = some s') : s'.Recorded := by
  rw [AddressSpace.map] at hs
  dsimp only at hs
  split at hs
  · cases hs
    exact h
  obtain ⟨s₁, hu, hs⟩ := bind_eq_some_iff.mp hs
  obtain ⟨s₂, hmap, hs⟩ := bind_eq_some_iff.mp hs
  have h₀ : Recorded { s with
      dontFork := removeRange s.dontFork ⟨addr, ptrAdd addr (ceilPageSize n)⟩ } := h
  have h₁ : s₁.Recorded := h₀.unmapInternal hu
  rw [ha, getD_none] at hmap
  have h₂ : s₂.Recorded := h₁.mapAndCoalesce hmap
  cases hs
  split
  · exact h₂
  · exact h₂

theorem Recorded.unmap (hs : s.unmap addr n = some s') : s'.Recorded := by
  rw [AddressSpace.unmap] at hs
  split at hs
  · cases hs
    exact h
  · have h₀ : Recorded { s with
        dontFork := removeRange s.dontFork ⟨addr, ptrAdd addr (ceilPageSize n)⟩ } := h
    exact h₀.unmapInternal hs

theorem Recorded.protect (hs : s.protect addr n prot = some s') : s'.Recorded := by
  obtain ⟨⟨s₁, last⟩, hl, hs⟩ := bind_eq_some_iff.mp hs
  have h₁ : s₁.Recorded := forEachInRange_induct
    (P := fun st : AddressSpace × MemoryRange => st.1.Recorded)
    (fun _ e _ hx he => hx.protector (hx e he)) hl h
  dsimp only at hs
  split at hs
  · exact h₁.coalesceAround hs
  · cases hs
    exact h₁

theorem Recorded.brk (hs : s.brk addr prot = some s') : s'.Recorded := by
  rw [AddressSpace.brk] at hs
  dsimp only at hs
  split at hs
  · obtain ⟨s₁, hc, hs⟩ := bind_eq_some_iff.mp hs
    have h₁ : s₁.Recorded := h.map rfl hc
    cases hs
    exact h₁
  · obtain ⟨s₁, hc, hs⟩ := bind_eq_some_iff.mp hs
    have h₁ : s₁.Recorded := h.unmap hc
    cases hs
    exact h₁

theorem Recorded.mappingOf (hm : s.mappingOf addr = some m) : m.Recorded := by
  rw [AddressSpace.mappingOf] at hm
  obtain ⟨e, hf, rfl⟩ := map_eq_some_iff.mp hm
  obtain ⟨A, B, hmem, _⟩ := find_some_split hf
  apply h e
  rw [hmem]
  exact List.mem_append_right A List.mem_cons_self

end Steps

section Remap

theorem remap_cases (h : s.remap oldAddr oldN newAddr newN = some s') :
    ∃ m s₁, s.mappingOf oldAddr = some m ∧
      s.unmapInternal oldAddr (ceilPageSize oldN) = some s₁ ∧
      (newN = 0 ∧ s' = s₁ ∨ newN ≠ 0 ∧ ∃ ranges s₂,
        unmapInternal { s₁ with dontFork := ranges } newAddr (ceilPageSize newN) = some s₂ ∧
        s₂.mapAndCoalesce
          ((m.map.subrange oldAddr (min m.map.end_ (ptrAdd oldAddr (ceilPageSize oldN)))).setRange
            newAddr (ptrAdd newAddr (ceilPageSize newN)))
          (m.recordedMap.setRange newAddr (ptrAdd newAddr (ceilPageSize newN)))
          m.emuFile 0 none = some s') := by
  obtain ⟨m, hm, h⟩ := bind_eq_some_iff.mp h
  obtain ⟨s₁, hu, h⟩ := bind_eq_some_iff.mp h
  refine ⟨m, s₁, hm, hu, ?_⟩
  dsimp only at h
  split at h
  · next hz =>
    cases h
    exact Or.inl ⟨hz, rfl⟩
  · next hne =>
    obtain ⟨s₂, hu₂, h⟩ := bind_eq_some_iff.mp h
    exact Or.inr ⟨hne, _, s₂, hu₂, h⟩

/-- The offset of the moved kernel mapping is the recorded one's when moved from its start, or
without offset. -/
theorem moved_eq_iff {m : KernelMapping} (oldEnd newAddr newEnd : Nat) :
    ((m.subrange oldAddr oldEnd).setRange newAddr newEnd).offset =
      (m.setRange newAddr newEnd).offset ↔
    (m.isRealDevice = true → ptrSub oldAddr m.start = 0) := by
  have hlt : ptrSub oldAddr m.start < 2 ^ 64 := Nat.mod_lt _ (by decide)
  simp only [KernelMapping.setRange, KernelMapping.subrange, KernelMapping.new]
  by_cases hr : m.isRealDevice = true
  · simp only [hr, ↓reduceIte, true_implies]
    omega
  · simp only [hr, Bool.false_eq_true, ↓reduceIte, false_implies, iff_true]
    omega

theorem moved_eq {m : KernelMapping} (h : m.isRealDevice = true → ptrSub oldAddr m.start = 0) :
    (m.subrange oldAddr oldEnd).setRange newAddr newEnd = m.setRange newAddr newEnd := by
  have ho := (moved_eq_iff oldEnd newAddr newEnd).mpr h
  simp only [KernelMapping.setRange, KernelMapping.subrange, KernelMapping.new,
    KernelMapping.mask_idem] at ho ⊢
  rw [ho]

theorem Recorded.remap (h : s.Recorded)
    (hw : newN ≠ 0 → ∀ m, s.mappingOf oldAddr = some m → m.map.isRealDevice = true →
      ptrSub oldAddr m.map.start = 0)
    (hs : s.remap oldAddr oldN newAddr newN = some s') : s'.Recorded := by
  obtain ⟨m, s₁, hm, hu, hr⟩ := remap_cases hs
  have h₁ : s₁.Recorded := h.unmapInternal hu
  rcases hr with ⟨_, rfl⟩ | ⟨hne, ranges, s₂, hu₂, hmap⟩
  · exact h₁
  · have h₁' : Recorded { s₁ with dontFork := ranges } := h₁
    have h₂ : s₂.Recorded := h₁'.unmapInternal hu₂
    have hrec : m.recordedMap = m.map := h.mappingOf hm
    rw [hrec, moved_eq (hw hne m hm)] at hmap
    exact h₂.mapAndCoalesce hmap

theorem remap_inserts (hwf : WellFormed s.mem) (hold : FitsRange oldAddr oldN)
    (hnew : FitsRange newAddr newN) (hne : newN ≠ 0)
    (hs : s.remap oldAddr oldN newAddr newN = some s') :
    ∃ (m : Mapping) (s₂ : AddressSpace) (km recordedMap : KernelMapping),
      s.mappingOf oldAddr = some m ∧
      km = (m.map.subrange oldAddr (min m.map.end_ (ptrAdd oldAddr (ceilPageSize oldN)))).setRange
        newAddr (newAddr + ceilPageSize newN) ∧
      recordedMap = m.recordedMap.setRange newAddr (newAddr + ceilPageSize newN) ∧
      WellFormed s₂.mem ∧ s₂.brkEnd = s.brkEnd ∧ (s.Recorded → s₂.Recorded) ∧
      EntryOk (km.toMemoryRange, ⟨km, recordedMap, m.emuFile, 0, none, 0⟩) ∧
      (∀ p, km.start ≤ p → p < km.end_ → pages.view s₂.mem p = none) ∧
      s₂.mapAndCoalesce km recordedMap m.emuFile 0 none = some s' := by
  obtain ⟨had, hn, _, hb⟩ := PageTable.FitsRange.ceil hold
  obtain ⟨ha', hn', _, hb'⟩ := PageTable.FitsRange.ceil hnew
  obtain ⟨ha, hle, _⟩ := ceilPageSize_spec hn'
  have hend : (newAddr + ceilPageSize newN) % pageSize = 0 := by
    simp only [pageSize] at *
    omega
  obtain ⟨m, s₁, hm, hu, hr⟩ := remap_cases hs
  obtain ⟨s₁', hu', hwf₁, hk₁, _⟩ := unmapInternal_spec (b := s.brkEnd) hwf
    (⟨rfl, False.elim⟩ : Keeps False s.brkEnd s) had (ceilPageSize_spec hn).1 hb
  cases hu.symm.trans hu'
  rcases hr with ⟨hz, _⟩ | ⟨_, ranges, s₂, hu₂, hmap⟩
  · exact absurd hz hne
  let s₁₀ : AddressSpace := { s₁ with dontFork := ranges }
  have hk₁₀ : Keeps False s.brkEnd s₁₀ := ⟨hk₁.brkEnd, False.elim⟩
  obtain ⟨s₂', hu₂', hwf₂, hk₂, hv⟩ := unmapInternal_spec (s := s₁₀) hwf₁ hk₁₀
    ha' ha hb'
  cases hu₂.symm.trans hu₂'
  rw [ptrAdd_eq hb'] at hmap
  refine ⟨m, s₂, _, _, hm, rfl, rfl, hwf₂, hk₂.brkEnd, ?_, ?_, ?_, hmap⟩
  · intro hrec
    have hr₁ : s₁.Recorded := hrec.unmapInternal hu
    exact Recorded.unmapInternal (s := s₁₀) hr₁ hu₂
  · refine ⟨rfl, ?_, ha', hend, hb', KernelMapping.mask_idem _⟩
    show newAddr < newAddr + ceilPageSize newN
    omega
  · intro p hlo hhi
    rw [hv p]
    exact if_pos ⟨hlo, hhi⟩

end Remap

end AddressSpace

end Attune
