import Attune.CoalesceComplete

namespace Attune
open Segments Runs List Option KernelMapping

section Pieces

variable {stack recordedStack : BitVec 32 → Nat → Nat → Bool} {e x : MemoryRange × Mapping}
  {rem : MemoryRange} {how : IterateHow}

section

variable (h : Tidy stack recordedStack e)
include h

theorem Tidy.piece (hok : EntryOk e) {m : Mapping}
    (hmap : m.map = e.2.map.subrange a b) (hr : m.recordedMap = e.2.recordedMap.subrange a b) :
    Tidy stack recordedStack (⟨a, b⟩, m) := by
  have hoff : ∀ k : KernelMapping, (k.subrange a b).offset < 2 ^ 64 :=
    fun k => Nat.mod_lt _ (by decide)
  refine ⟨⟨?_, ?_, ?_, ?_⟩, ⟨?_, ?_⟩⟩
  all_goals dsimp only
  · rw [hmap, hr]
    rfl
  · rw [hr]
    exact mask_idem _
  · rw [hmap]
    exact hoff _
  · rw [hr]
    exact hoff _
  · rw [hmap]
    have hf : (e.2.map.subrange a b).flags = e.2.map.flags := hok.tracked
    rw [hf]
    exact h.named.map
  · rw [hr]
    have hf : (e.2.recordedMap.subrange a b).flags = e.2.recordedMap.flags := h.normal.tracked
    rw [hf]
    exact h.named.recorded

theorem Tidy.lowerPiece (hhit : Hit how e rem)
    (hr : r = e.2.map.start ∨ r = e.2.recordedMap.start) :
    ∀ x ∈ lowerPiece r e rem, Tidy stack recordedStack x := by
  intro x hx
  obtain ⟨_, rfl⟩ := mem_lowerPiece hx
  have hr' : r = e.2.map.start := by
    rcases hr with rfl | rfl
    · rfl
    · exact h.normal.recordedStart
  rw [← hhit.start_eq]
  exact h.piece hhit.entry rfl (by rw [hr']; rfl)

theorem Tidy.upperPiece (hhit : Hit how e rem) :
    ∀ x ∈ upperPiece e rem, Tidy stack recordedStack x := by
  intro x hx
  obtain ⟨_, rfl⟩ := mem_upperPiece hx
  rw [← hhit.end_eq]
  exact h.piece hhit.entry rfl rfl

end

theorem Tidy.setProt (h : Tidy stack recordedStack (r, m))
    (ht : m.map.flags &&& mapFlagsMask = m.map.flags) (newProt : BitVec 32)
    (hm' : m'.map = m.map.setProt newProt)
    (hr' : m'.recordedMap = m.recordedMap.setProt newProt) : Tidy stack recordedStack (r, m') := by
  have hoff : ∀ k : KernelMapping, (k.setProt newProt).offset < 2 ^ 64 :=
    fun k => Nat.mod_lt _ (by decide)
  refine ⟨⟨?_, ?_, ?_, ?_⟩, ⟨?_, ?_⟩⟩
  all_goals dsimp only
  · rw [hm', hr']
    exact h.normal.range
  · rw [hr']
    exact mask_idem _
  · rw [hm']
    exact hoff _
  · rw [hr']
    exact hoff _
  · rw [hm']
    have hf : (m.map.setProt newProt).flags = m.map.flags := ht
    rw [hf]
    exact h.named.map
  · rw [hr']
    have hf : (m.recordedMap.setProt newProt).flags = m.recordedMap.flags := h.normal.tracked
    rw [hf]
    exact h.named.recorded

theorem Tidy.overlapPiece (h : Tidy stack recordedStack e) (hhit : Hit .iterateContiguous e rem)
    (prot : BitVec 32) : Tidy stack recordedStack (overlapPiece prot e rem) := by
  have hcut : Tidy stack recordedStack (⟨rem.start, min rem.end_ e.1.end_⟩,
      { e.2 with
        map := e.2.map.subrange rem.start (min rem.end_ e.1.end_)
        recordedMap := e.2.recordedMap.subrange rem.start (min rem.end_ e.1.end_) }) :=
    h.piece hhit.entry rfl rfl
  exact hcut.setProt (mask_idem _) (prot &&& protReadWriteExec) rfl rfl

theorem Tidy.mergedEntry (h : Tidy stack recordedStack e) (hok : EntryOk e) (T : MemoryMap) :
    Tidy stack recordedStack (mergedEntry e T) := by
  have hst := h.normal.recordedStart
  refine ⟨⟨?_, mask_idem _, Nat.mod_lt _ (by decide), Nat.mod_lt _ (by decide)⟩,
    ⟨?_, ?_⟩⟩
  · show MemoryRange.mk e.2.recordedMap.start _ = MemoryRange.mk e.2.map.start _
    rw [hst]
  · show isStackName e.2.map.fsname = stack (e.2.map.flags &&& mapFlagsMask) _ _
    rw [hok.tracked]
    exact h.named.map
  · show isStackName e.2.recordedMap.fsname =
      recordedStack (e.2.recordedMap.flags &&& mapFlagsMask) _ _
    rw [h.normal.tracked]
    exact h.named.recorded

theorem tidy_inherited : Inherited (Tidy stack recordedStack) where
  lower hhit he _ hr := he.lowerPiece hhit hr
  upper hhit he := he.upperPiece hhit
  overlap hhit he prot := he.overlapPiece hhit prot
  merged hwf _ hall := (hall _ mem_cons_self).mergedEntry
    (hwf.entries _ mem_cons_self) _

end Pieces

theorem unrelated_iff_pairs (hwf : WellFormed mem) :
    Unrelated Coalescable mem ↔ ∀ x ∈ mem, ∀ y ∈ mem, ¬Coalescable x y := by
  induction mem with
  | nil => exact ⟨fun _ => nofun, fun _ => .nil⟩
  | cons e mem ih =>
    have hc : WellFormed ([e] ++ mem) := hwf
    have hok := hc.entries e mem_cons_self
    constructor
    · intro hun x hx y hy hxy
      obtain ⟨hh, ht⟩ := isChain_cons.mp hun
      have hadj := adjoins_of_isCoalescable (hwf.entries x hx) (hwf.entries y hy) hxy
      have hyne := (hwf.entries y hy).nonempty
      have hxne := (hwf.entries x hx).nonempty
      cases mem_cons.mp hy with
      | inl hye =>
        -- nothing ends where the first entry starts
        cases mem_cons.mp hx with
        | inl hxe =>
          subst hxe hye
          omega
        | inr hxin =>
          have := hc.between mem_cons_self hxin
          subst hye
          omega
      | inr hyin =>
        cases mem_cons.mp hx with
        | inr hxin => exact (ih hc.right).mp ht x hxin y hyin hxy
        | inl hxe =>
          subst hxe
          cases mem with
          | nil => cases hyin
          | cons z mem =>
            have hz : WellFormed ([z] ++ mem) := hc.right
            have hb := hc.between mem_cons_self (mem_cons_self : z ∈ z :: mem)
            have hzne := (hz.entries z mem_cons_self).nonempty
            cases mem_cons.mp hyin with
            | inl hyz =>
              subst hyz
              exact hh y rfl hxy
            | inr hyr =>
              have := hz.between mem_cons_self hyr
              omega
    · intro hall
      apply isChain_cons.mpr
      refine ⟨fun y hy => ?_, (ih hc.right).mpr fun x hx y hy =>
        hall x (mem_cons_of_mem e hx) y (mem_cons_of_mem e hy)⟩
      exact hall e mem_cons_self y (mem_cons_of_mem e (mem_of_mem_head? hy))

/-- What is left of an entry after an `unmap` shows the old faces or faces the gap. -/
structure ShowsOld (mem : MemoryMap) (a b : Nat) (x : MemoryRange × Mapping) : Prop where
  left : (∃ e ∈ mem, x.2.left = e.2.left) ∨ x.1.start = b
  right : (∃ e ∈ mem, x.2.right = e.2.right) ∨ (a ≤ x.1.end_ ∧ x.1.end_ < b)

theorem ShowsOld.of_mem (he : e ∈ mem) : ShowsOld mem a b e :=
  ⟨.inl ⟨e, he, rfl⟩, .inl ⟨e, he, rfl⟩⟩

theorem showsOld_unmapPieces (he : e ∈ mem) (hhit : Hit how e rem) (hn : NormalEntry e)
    (hst : a ≤ rem.start) (hend : rem.end_ = b) : ∀ x ∈ unmapPieces e rem, ShowsOld mem a b x := by
  intro x hx
  have hne := hhit.region.nonempty
  cases mem_append.mp hx with
  | inl hl =>
    refine ⟨.inl ⟨e, he, left_lowerPiece hhit hn (.inl rfl) hl⟩, .inr ?_⟩
    obtain ⟨_, rfl⟩ := mem_lowerPiece hl
    exact ⟨hst, hend ▸ hne⟩
  | inr hu =>
    refine ⟨.inr ?_, .inl ⟨e, he, right_upperPiece hhit hn hu⟩⟩
    obtain ⟨_, rfl⟩ := mem_upperPiece hu
    exact hend

namespace AddressSpace

variable {stack recordedStack : BitVec 32 → Nat → Nat → Bool} {s s' : AddressSpace}

theorem UnmapWalk.showsOld (h : UnmapWalk s addr n A B s') (hn : (addr + n) % pageSize = 0)
    (hb : addr + n < 2 ^ 64) (ht : ∀ e ∈ s.mem, NormalEntry e) :
    ∀ x ∈ s'.mem, ShowsOld s.mem addr (addr + n) x := by
  intro x hx
  rw [h.result] at hx
  have hB : ∀ e ∈ B, e ∈ s.mem := by
    intro e he
    rw [h.mem]
    exact mem_append_right A he
  cases mem_append.mp hx with
  | inl hin =>
    apply ShowsOld.of_mem
    rw [h.mem]
    exact mem_append_left B hin
  | inr hin =>
    refine walk_forall (fun e he rem hst hend hhit => ?_) ⟨hn, hb⟩ (Nat.le_refl addr)
      h.walkOk (fun e he => .of_mem (hB e he)) x hin
    exact showsOld_unmapPieces (hB e he) hhit (ht e (hB e he)) hst hend

variable (h : Holds (Tidy stack recordedStack) s) (hapart : Unrelated Coalescable s.mem)
include h hapart

theorem unmapInternal_unrelated (ha : addr % pageSize = 0)
    (hn : n % pageSize = 0) (hpos : 0 < n) (hb : addr + n < 2 ^ 64)
    (hs : s.unmapInternal addr n = some s') : Unrelated Coalescable s'.mem := by
  have hend : (addr + n) % pageSize = 0 := by
    simp only [pageSize] at *
    omega
  obtain ⟨A, B, s₁, hs₁, hw⟩ := unmapInternal_walk h.wellFormed ha hn hb
  obtain ⟨s₂, hs₂, _, _, hv⟩ := unmapInternal_spec h.wellFormed
    (⟨rfl, False.elim⟩ : Keeps False s.brkEnd s) ha hn hb
  cases hs.symm.trans hs₁
  cases hs.symm.trans hs₂
  have hsh := hw.showsOld hend hb fun e he => (h.entries e he).normal
  have hgap : ∀ x ∈ s'.mem, ∀ p, x.1.start ≤ p → p < x.1.end_ → ¬(addr ≤ p ∧ p < addr + n) := by
    intro x hx p hlo hhi hp
    have hso := hw.wellFormed.ordered.view_of_mem (p := p) hx ⟨hlo, hhi⟩
    rw [hv p, if_pos hp] at hso
    cases hso
  apply (unrelated_iff_pairs hw.wellFormed).mpr
  intro x hx y hy hxy
  have hxok := hw.wellFormed.entries x hx
  have hyok := hw.wellFormed.entries y hy
  have hadj := adjoins_of_isCoalescable hxok hyok hxy
  have hxne := hxok.nonempty
  have hyne := hyok.nonempty
  rcases (hsh x hx).right with ⟨e, he, hr⟩ | ⟨hlo, hhi⟩
  · rcases (hsh y hy).left with ⟨e', he', hl⟩ | hst
    · have hold := (coalescable_congr_left hr).mp ((coalescable_congr_right hl).mp hxy)
      exact (unrelated_iff_pairs h.wellFormed).mp hapart e he e' he' hold
    · exact hgap x hx (x.1.end_ - 1) (by omega) (by omega) (by omega)
  · exact hgap y hy y.1.start (Nat.le_refl _) hyne (by omega)

theorem mapAndCoalesce_unrelated {m : KernelMapping}
    (hm : EntryOk (m.toMemoryRange, ⟨m, recordedMap, emuFile, localAddr, monitored, 0⟩))
    (hf : ∀ p, m.start ≤ p → p < m.end_ → pages.view s.mem p = none)
    (hnew : Tidy stack recordedStack
      (m.toMemoryRange, ⟨m, recordedMap, emuFile, localAddr, monitored, 0⟩))
    (hs : s.mapAndCoalesce m recordedMap emuFile localAddr monitored = some s') :
    Unrelated Coalescable s'.mem := by
  obtain ⟨A, B, hmem, _, hwf, hc⟩ := mapAndCoalesce_eq h.wellFormed hm hf
  obtain ⟨hoA, hoB⟩ := forall_mem_append.mp (hmem ▸ h.entries)
  have ht := forall_mem_append.mpr ⟨hoA, forall_mem_cons.mpr ⟨hnew, hoB⟩⟩
  rw [hmem] at hapart
  obtain ⟨hA, hB, _⟩ := isChain_append.mp hapart
  rw [hc] at hs
  apply (coalesceAround_unrelated_iff
    (e := (m.toMemoryRange, ⟨m, recordedMap, emuFile, localAddr, monitored, 0⟩)) rfl hwf ht hB
    hs).mpr
  exact (upClosed_above_iff hA).mpr ⟨fun _ _ _ => .singleton _, trivial⟩

theorem map_unrelated (hfit : FitsRange addr n)
    (hnew : ceilPageSize n ≠ 0 → Tidy stack recordedStack (a.entry addr (ceilPageSize n)))
    (hs : s.map addr n a = some s') : Unrelated Coalescable s'.mem := by
  obtain ⟨had, hn, _, hb⟩ := PageTable.FitsRange.ceil hfit
  have ha := (ceilPageSize_spec hn).1
  have hend : (addr + ceilPageSize n) % pageSize = 0 := by
    simp only [pageSize] at *
    omega
  simp only [AddressSpace.map, ptrAdd_eq hb] at hs
  split at hs
  · cases hs
    exact hapart
  next hz =>
  let s₀ : AddressSpace := { s with
    dontFork := removeRange s.dontFork ⟨addr, addr + ceilPageSize n⟩ }
  have h₀ : Holds (Tidy stack recordedStack) s₀ := ⟨h.wellFormed, h.entries⟩
  obtain ⟨s₁, hu, hs₁⟩ := bind_eq_some_iff.mp hs
  obtain ⟨s₂, hmap, hs₂⟩ := bind_eq_some_iff.mp hs₁
  have h₁ := (tidy_inherited.unmapInternal h₀ had ha hb).result s₁ hu
  have ha₁ := unmapInternal_unrelated h₀ hapart had ha (Nat.pos_of_ne_zero hz)
    hb hu
  obtain ⟨s₁', hu', _, _, hv⟩ := unmapInternal_spec (s := s₀) h.wellFormed
    (⟨rfl, False.elim⟩ : Keeps False s.brkEnd s₀) had ha hb
  cases hu.symm.trans hu'
  have hf : ∀ p, addr ≤ p → p < addr + ceilPageSize n → pages.view s₁.mem p = none := by
    intro p hlo hhi
    rw [hv p]
    exact if_pos ⟨hlo, hhi⟩
  have hpos : addr < addr + ceilPageSize n := by omega
  have ha₂ := mapAndCoalesce_unrelated h₁ ha₁
    ⟨rfl, hpos, had, hend, hb, mask_idem _⟩ hf (hnew hz) hmap
  cases hs₂
  split
  · exact ha₂
  · exact ha₂

end AddressSpace

end Attune
