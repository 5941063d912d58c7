import Attune.MappingSplits

namespace Attune
open Segments List Option

namespace Plain

variable {m : Mapping}

theorem localAt (h : Plain m) (addr : Nat) : m.localAt addr = 0 := by
  rw [Mapping.localAt, if_pos h.localAddr]

theorem underflow (h : Plain m) : Plain (m.underflow r rem) :=
  ⟨h.emuFile, h.localAddr, h.monitored⟩

theorem overflow (h : Plain m) : Plain (m.overflow rem) := by
  refine ⟨h.emuFile, h.localAt rem.end_, ?_⟩
  simp only [Mapping.overflow, h.monitored, bind_none]

theorem overlap (h : Plain m) : Plain (m.overlap a b prot) := by
  refine ⟨h.emuFile, h.localAt a, ?_⟩
  simp only [Mapping.overlap, h.monitored, bind_none]

theorem lowerPiece (h : Plain e.2) : ∀ x ∈ lowerPiece r e rem, Plain x.2 := by
  intro x hx
  obtain ⟨_, rfl⟩ := mem_lowerPiece hx
  exact h.underflow

theorem upperPiece (h : Plain e.2) : ∀ x ∈ upperPiece e rem, Plain x.2 := by
  intro x hx
  obtain ⟨_, rfl⟩ := mem_upperPiece hx
  exact h.overflow

end Plain

/-- What the operations on the map leave alone: the break, and the absence of resources. -/
structure Keeps (noResources : Prop) (brkEnd : Nat) (s : AddressSpace) : Prop where
  brkEnd : s.brkEnd = brkEnd
  plain : noResources → ∀ x ∈ s.mem, Plain x.2

namespace AddressSpace

variable {s : AddressSpace} {A B : MemoryMap} {e : MemoryRange × Mapping} {rem : MemoryRange}

theorem unmapper_mem (hs : s.mem = A ++ e :: B) (hwf : WellFormed s.mem)
    (h : Hit how e rem) : (s.unmapper e.2 rem).mem = A ++ (unmapPieces e rem ++ B) := by
  obtain ⟨hA, hB⟩ := neighbours (hs ▸ hwf)
  have hb := h.below
  have hne := h.region.nonempty
  have hlow := lowerPiece_added (r := e.2.map.start) h (removeFromMap_mem hs hwf) hA hB
  have hup := upperPiece_added h hlow (fun a ha => by
    cases mem_append.mp ha with
    | inl hin => exact ⟨(hA a hin).1, Nat.le_trans (hA a hin).2 (Nat.le_of_lt hb)⟩
    | inr hin =>
      refine ⟨(lowerPiece_wellFormed h).entries a hin, ?_⟩
      obtain ⟨_, rfl⟩ := mem_lowerPiece hin
      exact Nat.le_of_lt hne) hB
  rw [append_assoc, append_assoc, ← append_assoc (lowerPiece _ _ _)] at hup
  rw [unmapper]
  split
  · exact hup
  · exact hup

theorem unmapper_brkEnd : (s.unmapper m rem).brkEnd = s.brkEnd := by
  simp only [unmapper, removeFromMap, addToMap]
  split_ifs
  all_goals rfl

end AddressSpace

theorem WellFormed.splitAt (h : WellFormed mem) (hl : last % pageSize = 0) :
    ∃ A B, mem = A ++ B ∧ (∀ a ∈ A, a.1.end_ ≤ last) ∧ WalkOk last B := by
  induction mem with
  | nil => exact ⟨[], [], rfl, fun a ha => absurd ha not_mem_nil,
      WellFormed.nil, hl, fun b hb => absurd hb not_mem_nil⟩
  | cons e mem ih =>
    have hc : WellFormed ([e] ++ mem) := h
    by_cases he : e.1.end_ ≤ last
    · obtain ⟨A, B, rfl, hA, hB⟩ := ih hc.right
      refine ⟨e :: A, B, rfl, ?_, hB⟩
      intro a ha
      cases mem_cons.mp ha with
      | inl heq => rw [heq]; exact he
      | inr hin => exact hA a hin
    · refine ⟨[], e :: mem, rfl, fun a ha => absurd ha not_mem_nil, h, hl, ?_⟩
      intro b hb
      cases mem_cons.mp hb with
      | inl heq => rw [heq]; exact Nat.lt_of_not_le he
      | inr hin =>
        have hlt := (hc.right.entries b hin).nonempty
        have hle := hc.between mem_cons_self hin
        omega

namespace AddressSpace

variable {s s' : AddressSpace} {e : MemoryRange × Mapping} {rem : MemoryRange}

theorem view_upper (hA : ∀ a ∈ A, a.1.end_ ≤ last) (hp : last ≤ p) :
    pages.view (A ++ B) p = pages.view B p := by
  rw [Layout.view_append, Layout.view_eq_none_of_hi_le fun a ha => Nat.le_trans (hA a ha) hp,
    none_or]

def logRelease (log : List (Nat × Nat)) (e : MemoryRange × Mapping) (rem : MemoryRange) :
    List (Nat × Nat) :=
  if e.2.localAddr ≠ 0 then
    log ++ [(ptrAdd e.2.localAddr (ptrSub rem.start e.2.map.start), rem.size)]
  else log

theorem unmapper_released : (s.unmapper e.2 rem).released = logRelease s.released e rem := by
  simp only [unmapper, logRelease, removeFromMap, addToMap]
  split_ifs
  all_goals rfl

structure UnmapWalk (s : AddressSpace) (addr n : Nat) (A B : MemoryMap) (s' : AddressSpace) :
    Prop where
  mem : s.mem = A ++ B
  below : ∀ a ∈ A, a.1.end_ ≤ addr
  walkOk : WalkOk addr B
  result : s'.mem = A ++ walk unmapPieces .iterateDefault addr (addr + n) addr B
  released : s'.released =
    walkFold logRelease .iterateDefault addr (addr + n) addr s.released B
  wellFormed : WellFormed s'.mem
  brkEnd : s'.brkEnd = s.brkEnd

theorem unmapInternal_walk (hwf : WellFormed s.mem) (ha : addr % pageSize = 0)
    (hn : n % pageSize = 0) (hb : addr + n < 2 ^ 64) :
    ∃ A B s', s.unmapInternal addr n = some s' ∧ UnmapWalk s addr n A B s' := by
  have hend : (addr + n) % pageSize = 0 := by
    simp only [pageSize] at *
    omega
  obtain ⟨A, B, hmem, hA, hB⟩ := hwf.splitAt ha
  have hac : Acts .iterateDefault AddressSpace.mem unmapper unmapPieces
      fun x => x.brkEnd = s.brkEnd :=
    fun x A e B rem hx hwf h hI => ⟨unmapper_mem hx hwf h, unmapper_brkEnd.trans hI⟩
  obtain ⟨s', hl, hm', hlog, hwf', hbrk⟩ := forEachLoop_walkFold AddressSpace.released
    logRelease unmapPieces_splits hac (fun _ _ _ _ _ _ _ _ => unmapper_released)
    ⟨hend, hb⟩ (Nat.le_refl addr) hmem hwf rfl ha hA hB.after
    (show B.length < s.mem.length + 1 by rw [hmem, length_append]; omega)
  refine ⟨A, B, s', ?_, hmem, hA, hB, hm', hlog, hwf', hbrk⟩
  simp only [unmapInternal, forEachInRange, floorPageSize_aligned ha, ptrAdd_eq hb,
    ceilPageSize_aligned hend hb]
  exact hl

theorem unmapInternal_spec (hwf : WellFormed s.mem) (hI : Keeps noResources b s)
    (had : addr % pageSize = 0) (hn : n % pageSize = 0) (hb : addr + n < 2 ^ 64) :
    ∃ s', s.unmapInternal addr n = some s' ∧ WellFormed s'.mem ∧ Keeps noResources b s' ∧
      ∀ p, pages.view s'.mem p =
        if addr ≤ p ∧ p < addr + n then none else pages.view s.mem p := by
  have hend : (addr + n) % pageSize = 0 := by
    simp only [pageSize] at *
    omega
  obtain ⟨A, B, s', hs', hw⟩ := unmapInternal_walk hwf had hn hb
  have hB := hw.walkOk
  refine ⟨s', hs', hw.wellFormed, ⟨hw.brkEnd.trans hI.brkEnd, fun hno x hx => ?_⟩, ?_⟩
  · have hp : ∀ y ∈ A ++ B, Plain y.2 := hw.mem ▸ hI.plain hno
    rw [hw.result] at hx
    cases mem_append.mp hx with
    | inl hin => exact hp x (mem_append_left B hin)
    | inr hin =>
      refine walk_forall (fun e he rem _ _ _ y hy => ?_) ⟨hend, hb⟩ (Nat.le_refl addr) hB
        (fun e he => hp e (mem_append_right A he)) x hin
      have hpe := hp e (mem_append_right A he)
      cases mem_append.mp hy with
      | inl hl => exact hpe.lowerPiece y hl
      | inr hu => exact hpe.upperPiece y hu
  · intro p
    rw [hw.result, hw.mem, Layout.view_append, view_walk unmapPieces_edits ⟨hend, hb⟩
      (Nat.le_refl addr) hB]
    by_cases hin : addr ≤ p ∧ p < addr + n
    · have hlow : pages.view A p = none :=
        Layout.view_eq_none_of_hi_le fun a ha => Nat.le_trans (hw.below a ha) hin.1
      rw [if_pos hin, hlow, none_or]
      split
      · exact bind_fun_none _
      · next hst =>
        exact view_eq_none_of_walkStop_le hB hin.2
          (Nat.le_of_not_lt fun hlt => hst ⟨hin.1, hin.2, hlt⟩)
    · rw [if_neg hin, if_neg fun hh => hin ⟨hh.1, hh.2.1⟩, ← Layout.view_append]

end AddressSpace

end Attune
