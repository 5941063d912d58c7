import Attune.AddressSpaceClone

namespace Attune
open List Option OrderedMap MemoryRange

variable {s : AddressSpace} {f' : τ → Mapping → MemoryRange → τ} {f : σ → Mapping → MemoryRange → σ}
  {mem' : τ → MemoryMap} {mem : σ → MemoryMap}

def Mapping.noLocal (m : Mapping) : Mapping := { m with localAddr := 0 }

abbrev MemoryMap.noLocal (m : MemoryMap) : MemoryMap := mapValues Mapping.noLocal m

namespace Mapping

theorem noLocal_underflow (m : Mapping) (a : Nat) (rem : MemoryRange) :
    (m.underflow a rem).noLocal = m.noLocal.underflow a rem := rfl

theorem noLocal_overflow (m : Mapping) (rem : MemoryRange) :
    (m.overflow rem).noLocal = m.noLocal.overflow rem := by
  simp only [noLocal, overflow, localAt, ↓reduceIte]

theorem noLocal_overlap (m : Mapping) (a b : Nat) (prot : BitVec 32) :
    (m.overlap a b prot).noLocal = m.noLocal.overlap a b prot := by
  simp only [noLocal, overlap, localAt, ↓reduceIte]

end Mapping

theorem assertCoalesceable_noLocal (h : assertCoalesceable l r = true) :
    assertCoalesceable l.noLocal r.noLocal = true := by
  simp only [assertCoalesceable, Bool.and_eq_true, decide_eq_true_eq] at h
  obtain ⟨⟨⟨⟨he, hf⟩, -⟩, hl⟩, hr⟩ := h
  simp only [assertCoalesceable, Mapping.noLocal, he, hf, hl, hr, and_self, decide_true,
    Bool.true_or, Bool.and_self]

section

variable (g : σ → τ) (hm : ∀ s, mem' (g s) = (mem s).noLocal) (hf : ∀ s m rem, g (f s m rem) = f' (g s) m.noLocal rem)
include hm hf

theorem forEachLoop_map (n : Nat) (s : σ) (last : Nat) :
    forEachLoop mem' f' how lo hi n (g s) last = (forEachLoop mem f how lo hi n s last).map g := by
  induction n generalizing s last with
  | zero => rfl
  | succ n ih =>
    simp only [forEachLoop, hm, lowerBound_mapValues]
    split
    · cases lowerBound comparator ⟨last, hi⟩ (mem s) with
      | nil => rfl
      | cons e l =>
        simp only [mapValues, map_cons]
        split
        · rfl
        · split
          · rfl
          · rw [← hf]
            exact ih (f s e.2 ⟨last, hi⟩) e.1.end_
    · rfl

theorem forEachInRange_map (s : σ) (addr numBytes : Nat) :
    forEachInRange mem' f' how (g s) addr numBytes =
      (forEachInRange mem f how s addr numBytes).map g := by
  simp only [forEachInRange, hm, mapValues, length_map]
  exact forEachLoop_map g hm hf _ s _

end

def stripEntry (e : MemoryRange × Mapping) : MemoryRange × Mapping := (e.1, e.2.noLocal)

theorem coalesceLeft_noLocal {next : MemoryRange × Mapping} {l : MemoryMap}
    (h : coalesceLeft next l = some (first, lower)) :
    coalesceLeft (stripEntry next) l.noLocal = some (stripEntry first, MemoryMap.noLocal lower) := by
  induction l generalizing next with
  | nil =>
    cases h
    rfl
  | cons e l ih =>
    simp only [coalesceLeft] at h
    split at h
    · next hc =>
      cases h
      exact if_pos hc
    next hc =>
    split at h
    · next ha =>
      apply (if_neg hc).trans
      apply (if_pos (assertCoalesceable_noLocal ha)).trans
      exact ih h
    · cases h

theorem coalesceRight_noLocal {prev : MemoryRange × Mapping} {l : MemoryMap}
    (h : coalesceRight prev l = some (last, hig)) :
    coalesceRight (stripEntry prev) l.noLocal = some (stripEntry last, MemoryMap.noLocal hig) := by
  induction l generalizing prev with
  | nil =>
    cases h
    rfl
  | cons e l ih =>
    simp only [coalesceRight] at h
    split at h
    · next hc =>
      cases h
      exact if_pos hc
    next hc =>
    split at h
    · next ha =>
      apply (if_neg hc).trans
      apply (if_pos (assertCoalesceable_noLocal ha)).trans
      exact ih h
    · cases h

namespace AddressSpace

def noLocal (s : AddressSpace) : AddressSpace := { s with mem := s.mem.noLocal, released := [] }

section

variable (s : AddressSpace)

theorem noLocal_removeFromMap (r : MemoryRange) :
    (s.removeFromMap r).noLocal = s.noLocal.removeFromMap r := by
  simp only [noLocal, removeFromMap, erase_mapValues]

theorem noLocal_addToMap (m : Mapping) : (s.addToMap m).noLocal = s.noLocal.addToMap m.noLocal := by
  simp only [noLocal, addToMap, ← assign_mapValues]
  rfl

theorem noLocal_mem : s.noLocal.mem = s.mem.noLocal := rfl

theorem noLocal_unmapper (m : Mapping) (rem : MemoryRange) :
    (s.unmapper m rem).noLocal = s.noLocal.unmapper m.noLocal rem := by
  have hl : m.noLocal.localAddr = 0 := rfl
  have hm : m.noLocal.map = m.map := rfl
  simp only [unmapper, hl, hm, ne_eq, not_true_eq_false, ↓reduceIte, ← Mapping.noLocal_underflow,
    ← Mapping.noLocal_overflow, ← noLocal_removeFromMap, ← noLocal_addToMap,
    ← apply_ite AddressSpace.noLocal]
  split <;> rfl

theorem noLocal_unmapInternal (addr numBytes : Nat) :
    s.noLocal.unmapInternal addr numBytes = (s.unmapInternal addr numBytes).map noLocal :=
  forEachInRange_map noLocal noLocal_mem noLocal_unmapper s addr numBytes

theorem noLocal_protector (st : AddressSpace × MemoryRange) (m : Mapping) (rem : MemoryRange) :
    Prod.map noLocal id (protector prot st m rem) =
      protector prot (Prod.map noLocal id st) m.noLocal rem := by
  have hm : m.noLocal.map = m.map := rfl
  have hr : m.noLocal.recordedMap = m.recordedMap := rfl
  simp only [protector, Prod.map, id_eq, hm, hr, ← Mapping.noLocal_underflow,
    ← Mapping.noLocal_overflow, ← Mapping.noLocal_overlap, ← noLocal_removeFromMap,
    ← noLocal_addToMap, ← apply_ite AddressSpace.noLocal]
  rfl

def merged (first last : MemoryRange × Mapping) (lower upper : MemoryMap) : AddressSpace :=
  if first.1 = last.1 then s
  else
    let newM : Mapping :=
      { map := first.2.map.extend last.1.end_
        recordedMap := first.2.recordedMap.extend last.1.end_
        emuFile := first.2.emuFile
        localAddr := first.2.localAddr
        flags := first.2.flags }
    { s with
      mem := insert comparator newM.map.toMemoryRange newM
        (lower.reverse ++ upper) }

end

theorem coalesceAround_inv (h : s.coalesceAround key = some t) : ∃ it hig first lower last upper,
      lowerBound comparator key s.mem = it :: hig ∧
      comparator key it.1 = false ∧
      coalesceLeft it (below comparator key s.mem).reverse =
        some (first, lower) ∧
      coalesceRight it hig = some (last, upper) ∧ s.merged first last lower upper = t := by
  simp only [coalesceAround] at h
  split at h
  · cases h
  next it hig hl =>
  split at h
  · cases h
  next hk =>
  simp only [bind_eq_bind, bind_eq_some_iff] at h
  obtain ⟨⟨first, lower⟩, hf, ⟨last, upper⟩, hh, h⟩ := h
  refine ⟨it, hig, first, lower, last, upper, hl, Bool.eq_false_iff.mpr hk, hf, hh, ?_⟩
  simp only [merged]
  split at h
  · next he =>
    rw [if_pos he]
    exact some.inj h
  · next he =>
    rw [if_neg he]
    exact some.inj h

theorem coalesceAround_eq
    (hl : lowerBound comparator key s.mem = it :: hig)
    (hk : comparator key it.1 = false)
    (hf : coalesceLeft it (below comparator key s.mem).reverse =
      some (first, lower))
    (hh : coalesceRight it hig = some (last, upper)) :
    s.coalesceAround key = some (s.merged first last lower upper) := by
  simp only [coalesceAround, hl, hk, Bool.false_eq_true, ↓reduceIte, hf, hh, bind_eq_bind,
    bind_some, merged]
  split
  · rfl
  · rfl

theorem noLocal_merged (s : AddressSpace) (first last : MemoryRange × Mapping)
    (lower upper : MemoryMap) :
    (s.merged first last lower upper).noLocal =
      s.noLocal.merged (stripEntry first) (stripEntry last) (MemoryMap.noLocal lower)
        (MemoryMap.noLocal upper) := by
  by_cases he : first.1 = last.1
  · have he' : (stripEntry first).1 = (stripEntry last).1 := he
    simp only [merged, he, he', ↓reduceIte]
  have he' : ¬(stripEntry first).1 = (stripEntry last).1 := he
  have hrev : (MemoryMap.noLocal lower).reverse ++ MemoryMap.noLocal upper =
      MemoryMap.noLocal (lower.reverse ++ upper) := by
    simp only [MemoryMap.noLocal, mapValues, map_append, map_reverse]
  simp only [merged, he, he', ↓reduceIte, hrev]
  simp only [noLocal, ← insert_mapValues]
  rfl

theorem noLocal_coalesceAround (h : s.coalesceAround key = some t) :
    s.noLocal.coalesceAround key = some t.noLocal := by
  obtain ⟨it, hig, first, lower, last, upper, hl, hk, hf, hh, rfl⟩ := coalesceAround_inv h
  have hrev : (below comparator key s.noLocal.mem).reverse =
      MemoryMap.noLocal (below comparator key s.mem).reverse := by
    rw [noLocal_mem, below_mapValues]
    exact map_reverse.symm
  have hl' : lowerBound comparator key s.noLocal.mem =
      stripEntry it :: MemoryMap.noLocal hig := by
    rw [noLocal_mem, lowerBound_mapValues, hl]
    rfl
  have hf' := coalesceLeft_noLocal hf
  rw [← hrev] at hf'
  rw [noLocal_merged]
  exact coalesceAround_eq hl' hk hf' (coalesceRight_noLocal hh)

theorem noLocal_mapAndCoalesce
    (h : s.mapAndCoalesce m recordedMap emuFile localAddr monitored = some t) :
    s.noLocal.mapAndCoalesce m recordedMap emuFile 0 monitored = some t.noLocal := by
  have h' := noLocal_coalesceAround h
  simp only [noLocal, ← insert_mapValues] at h'
  exact h'

def MapArgs.noLocal (a : MapArgs) : MapArgs := { a with localAddr := 0 }

theorem noLocal_unmapInternal_some (h : s.unmapInternal addr n = some t) :
    s.noLocal.unmapInternal addr n = some t.noLocal := by
  rw [noLocal_unmapInternal, h]
  rfl

theorem noLocal_map (h : s.map addr n a = some t) :
    s.noLocal.map addr n a.noLocal = some t.noLocal := by
  simp only [map] at h ⊢
  split at h
  · next hz =>
    cases h
    rw [if_pos hz]
  next hz =>
  simp only [bind_eq_bind, bind_eq_some_iff] at h
  obtain ⟨s₁, hu, s₂, hm, h⟩ := h
  have hu' := noLocal_unmapInternal_some hu
  have hm' := noLocal_mapAndCoalesce hm
  rw [if_neg hz]
  simp only [bind_eq_bind, bind_eq_some_iff]
  refine ⟨_, hu', _, hm', ?_⟩
  cases h
  rw [apply_ite noLocal]
  rfl

theorem noLocal_unmap (h : s.unmap addr n = some t) : s.noLocal.unmap addr n = some t.noLocal := by
  simp only [unmap] at h ⊢
  split at h
  · next hz =>
    cases h
    rw [if_pos hz]
  · next hz =>
    rw [if_neg hz]
    exact noLocal_unmapInternal_some h

theorem noLocal_protect (h : s.protect addr n prot = some t) :
    s.noLocal.protect addr n prot = some t.noLocal := by
  simp only [protect, bind_eq_bind, bind_eq_some_iff] at h ⊢
  obtain ⟨r, hr, h⟩ := h
  have hr' : forEachInRange (fun st => st.1.mem) (protector prot) .iterateContiguous
      (s.noLocal, ⟨0, 0⟩) addr n =
        (forEachInRange (fun st => st.1.mem) (protector prot) .iterateContiguous
          (s, ⟨0, 0⟩) addr n).map (Prod.map noLocal id) :=
    forEachInRange_map (Prod.map noLocal id) (fun _ => rfl) noLocal_protector (s, ⟨0, 0⟩) addr n
  rw [hr] at hr'
  refine ⟨Prod.map noLocal id r, hr', ?_⟩
  split at h
  · next hz => exact (if_pos hz).trans (noLocal_coalesceAround h)
  · next hz =>
    cases h
    exact if_neg hz

theorem noLocal_brk (h : s.brk addr prot = some t) : s.noLocal.brk addr prot = some t.noLocal := by
  simp only [brk] at h ⊢
  split at h
  · next hlt =>
    obtain ⟨s₁, hs, h⟩ := bind_eq_some_iff.mp h
    cases h
    apply (if_pos hlt).trans
    exact bind_eq_some_iff.mpr ⟨s₁.noLocal, noLocal_map hs, rfl⟩
  · next hlt =>
    obtain ⟨s₁, hs, h⟩ := bind_eq_some_iff.mp h
    cases h
    apply (if_neg hlt).trans
    exact bind_eq_some_iff.mpr ⟨s₁.noLocal, noLocal_unmap hs, rfl⟩

variable (s : AddressSpace)

theorem noLocal_advise (addr n advice : Nat) :
    (s.advise addr n advice).noLocal = s.noLocal.advise addr n advice := by
  simp only [advise]
  split
  · rfl
  · split
    · rfl
    · rfl

theorem noLocal_noLocal : s.noLocal.noLocal = s.noLocal := by
  simp only [noLocal, MemoryMap.noLocal, mapValues, List.map_map]
  rfl

theorem clone_eq_noLocal (hd : s.dontFork = []) : s.clone = s.noLocal := by
  simp only [clone, noLocal, hd]
  rfl

theorem noLocal_unmapRanges {ranges : RangeSet} {child : AddressSpace}
    (h : ranges.foldlM (fun child r => child.unmap r.1.start r.1.size) child = some t) :
    ranges.foldlM (fun child r => child.unmap r.1.start r.1.size) child.noLocal =
      some t.noLocal := by
  induction ranges generalizing child with
  | nil =>
    cases h
    rfl
  | cons r ranges ih =>
    simp only [foldlM_cons, bind_eq_bind, bind_eq_some_iff] at h ⊢
    obtain ⟨c, hc, h⟩ := h
    exact ⟨c.noLocal, noLocal_unmap hc, ih h⟩

end AddressSpace

def MapCall.noLocal : MapCall → MapCall
  | .map addr numBytes args => .map addr numBytes args.noLocal
  | call => call

def SpaceOp.noLocal : SpaceOp → SpaceOp
  | .mapping call => .mapping call.noLocal
  | op => op

def Observation.noLocal (o : Observation) : Observation :=
  { o with mem := o.mem.noLocal, child := o.child.map MemoryMap.noLocal }

theorem AddressSpace.noLocal_call (h : s.call c = some t) :
    s.noLocal.call c.noLocal = some t.noLocal := by
  cases c with
  | map addr n args => exact noLocal_map h
  | unmap addr n => exact noLocal_unmap h
  | protect addr n prot => exact noLocal_protect h
  | brk addr prot => exact noLocal_brk h
  | madvise addr n advice =>
    cases h
    exact congrArg some (noLocal_advise s addr n advice).symm

namespace Space

def noLocal (s : Space) : Space := { s with vm := s.vm.noLocal }

theorem noLocal_watchCall {s : Space} (h : s.watchCall t c = some s') :
    s.noLocal.watchCall t c = some s'.noLocal := by
  cases c with
  | restoreWatchpoints =>
    cases hs : s.savedWatchpoints with
    | nil =>
      simp only [watchCall, hs] at h
      cases h
    | cons ws saved =>
      simp only [watchCall, hs] at h
      cases h
      simp only [watchCall, noLocal, hs]
  | _ =>
    cases h
    rfl

theorem noLocal_step {s : Space} (h : s.step t op = some (s', child)) :
    s.noLocal.step t op.noLocal = some (s'.noLocal, child.map AddressSpace.noLocal) := by
  cases op with
  | mapping call =>
    obtain ⟨vm, hv, h⟩ := bind_eq_some_iff.mp h
    cases h
    apply bind_eq_some_iff.mpr
    refine ⟨vm.noLocal, AddressSpace.noLocal_call hv, ?_⟩
    cases call <;> rfl
  | breakpoint call =>
    obtain ⟨b, hb, h⟩ := bind_eq_some_iff.mp h
    cases h
    exact bind_eq_some_iff.mpr ⟨b, hb, rfl⟩
  | watchpoint call =>
    obtain ⟨s₁, hs, h⟩ := bind_eq_some_iff.mp h
    cases h
    exact bind_eq_some_iff.mpr ⟨s'.noLocal, noLocal_watchCall hs, rfl⟩
  | fork =>
    obtain ⟨c, hc, h⟩ := bind_eq_some_iff.mp h
    cases h
    exact bind_eq_some_iff.mpr ⟨c.noLocal, AddressSpace.noLocal_unmapRanges hc, rfl⟩

def noLocalOps (ops : List (SpaceOp × Tracee)) : List (SpaceOp × Tracee) :=
  ops.map fun o => (o.1.noLocal, o.2)

theorem noLocal_run {s : Space} (h : s.run ops = some obs) :
    s.noLocal.run (noLocalOps ops) = some (obs.map Observation.noLocal) := by
  induction ops generalizing s obs with
  | nil =>
    cases h
    rfl
  | cons o ops ih =>
    obtain ⟨op, t⟩ := o
    obtain ⟨⟨s₁, child⟩, hs, h⟩ := bind_eq_some_iff.mp h
    obtain ⟨rest, hr, h⟩ := bind_eq_some_iff.mp h
    cases h
    apply bind_eq_some_iff.mpr
    refine ⟨_, noLocal_step hs, bind_eq_some_iff.mpr ⟨_, ih hr, ?_⟩⟩
    cases child <;> rfl

theorem clone_eq_noLocal (s : Space) (hd : s.vm.dontFork = []) (hw : s.savedWatchpoints = []) :
    s.clone = s.noLocal := by
  simp only [clone, noLocal, hw, AddressSpace.clone_eq_noLocal s.vm hd]

/-- The copy performs what the original performs, and shows the same apart from local images. -/
structure PerformsAlike (s copy : Space) (ops : List (SpaceOp × Tracee)) : Prop where
  performs : ∀ obs, s.run ops = some obs →
    copy.run (noLocalOps ops) = some (obs.map Observation.noLocal)
  alike : ∀ ops' obs obs', noLocalOps ops' = noLocalOps ops → s.run ops = some obs →
    copy.run ops' = some obs' → obs'.map Observation.noLocal = obs.map Observation.noLocal

/-- A copy performs alike when no range was kept from forks and no watchpoints were saved when it
was made. -/
theorem clone_performs_alike (s : Space) (hd : s.vm.dontFork = []) (hw : s.savedWatchpoints = [])
    (ops : List (SpaceOp × Tracee)) : s.PerformsAlike s.clone ops where
  performs := by
    intro obs h
    rw [s.clone_eq_noLocal hd hw]
    exact noLocal_run h
  alike := by
    intro ops' obs obs' ho h h'
    have hs := noLocal_run h
    have hc := noLocal_run h'
    have hcl : s.clone.noLocal = s.noLocal := by
      rw [s.clone_eq_noLocal hd hw]
      simp only [noLocal, AddressSpace.noLocal_noLocal]
    rw [hcl, ho, hs] at hc
    exact (some.inj hc).symm

def plainTracee : Tracee := ⟨fun _ => true, fun _ => 0⟩

def onePage (advice : Nat) : Space :=
  let vm := (({} : AddressSpace).map 4096 4096
    { prot := 1, flags := mapPrivate, offsetBytes := 0, fsname := [], localAddr := 65536 }).getD {}
  { vm := vm.advise 4096 4096 advice
    breakpoints := ⟨[1], fun _ => 0, []⟩
    watchpoints := []
    savedWatchpoints := [] }

theorem clone_performs_alike_one_page :
    (onePage madvDofork).PerformsAlike (onePage madvDofork).clone
      [(.mapping (.madvise 4096 4096 madvDontfork), plainTracee), (.fork, plainTracee)] :=
  clone_performs_alike (onePage madvDofork) (by decide) rfl _

/-- The child of the original loses the page, the child of the copy has it. -/
theorem clone_forks_differently :
    ¬(onePage madvDontfork).PerformsAlike (onePage madvDontfork).clone [(.fork, plainTracee)] := by
  intro h
  have hc := h.performs _ rfl
  revert hc
  decide

end Space

end Attune
