import Attune.AddressSpaceOps

namespace Attune
open Option OrderedMap

variable {f : σ → Mapping → MemoryRange → σ} {mem : σ → MemoryMap} {P : σ → Prop}

theorem OrderedMap.mem_of_mem_lowerBound {lt : K → K → Bool} {m : List (K × V)}
    (h : e ∈ lowerBound lt k m) : e ∈ m :=
  (List.dropWhile_sublist _).subset h

section

variable (hf : ∀ s e rem, P s → e ∈ mem s → P (f s e.2 rem))
include hf

theorem forEachLoop_induct
    (h : forEachLoop mem f how regionStart regionEnd fuel s last = some s') (hs : P s) : P s' := by
  induction fuel generalizing s last with
  | zero => cases h
  | succ fuel ih =>
    rw [forEachLoop] at h
    dsimp only at h
    split at h
    · cases hl : lowerBound MemoryRange.comparator ⟨last, regionEnd⟩ (mem s) with
      | nil =>
        rw [hl] at h
        cases h
        exact hs
      | cons e rest =>
        obtain ⟨range, m⟩ := e
        rw [hl] at h
        dsimp only at h
        split at h
        · cases h
          exact hs
        split at h
        · cases h
          exact hs
        · refine ih h (hf s (range, m) _ hs ?_)
          apply mem_of_mem_lowerBound
          rw [hl]
          exact List.mem_cons_self
    · cases h
      exact hs

theorem forEachInRange_induct (h : forEachInRange mem f how s addr n = some s') (hs : P s) : P s' :=
  forEachLoop_induct hf h hs

end

namespace AddressSpace

variable {s s' : AddressSpace}

theorem unmapper_dontFork : (s.unmapper m rem).dontFork = s.dontFork := by
  simp only [unmapper, removeFromMap, addToMap]
  split_ifs
  all_goals rfl

theorem unmapInternal_dontFork (h : s.unmapInternal addr n = some s') : s'.dontFork = s.dontFork :=
  forEachInRange_induct (P := fun x => x.dontFork = s.dontFork)
    (fun _ _ _ hx _ => unmapper_dontFork.trans hx) h rfl

theorem coalesceAround_frame (h : s.coalesceAround key = some s') : ∃ mem, s' = { s with mem } := by
  rw [coalesceAround] at h
  split at h
  · cases h
  split at h
  · cases h
  obtain ⟨⟨first, below⟩, _, h⟩ := bind_eq_some_iff.mp h
  obtain ⟨⟨last, above⟩, _, h⟩ := bind_eq_some_iff.mp h
  dsimp only at h
  split at h
  · cases h
    exact ⟨s.mem, rfl⟩
  · cases h
    exact ⟨_, rfl⟩

theorem mapAndCoalesce_dontFork
    (h : s.mapAndCoalesce m recordedMap emuFile localAddr monitored = some s') :
    s'.dontFork = s.dontFork := by
  obtain ⟨mem, rfl⟩ := coalesceAround_frame h
  rfl

theorem unmap_dontFork (h : s.unmap addr n = some s') :
    s'.dontFork = if ceilPageSize n = 0 then s.dontFork
      else removeRange s.dontFork ⟨addr, ptrAdd addr (ceilPageSize n)⟩ := by
  rw [unmap] at h
  split at h
  · next hn =>
    cases h
    rw [if_pos hn]
  · next hn =>
    rw [if_neg hn, unmapInternal_dontFork h]

theorem map_dontFork (h : s.map addr n args = some s') :
    s'.dontFork = if ceilPageSize n = 0 then s.dontFork
      else removeRange s.dontFork ⟨addr, ptrAdd addr (ceilPageSize n)⟩ := by
  rw [map] at h
  dsimp only at h
  split at h
  · next hn =>
    cases h
    rw [if_pos hn]
  next hn =>
  obtain ⟨s₁, hu, h⟩ := bind_eq_some_iff.mp h
  obtain ⟨s₂, hmap, h⟩ := bind_eq_some_iff.mp h
  have hs₂ : s₂.dontFork = removeRange s.dontFork ⟨addr, ptrAdd addr (ceilPageSize n)⟩ := by
    rw [mapAndCoalesce_dontFork hmap, unmapInternal_dontFork hu]
  rw [if_neg hn, ← hs₂]
  cases h
  split
  · rfl
  · rfl

end AddressSpace

end Attune
