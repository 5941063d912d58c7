import Attune.MemoryMapWalk

namespace Attune
open Segments List Option OrderedMap

structure Plain (m : Mapping) : Prop where
  emuFile : m.emuFile = none
  localAddr : m.localAddr = 0
  monitored : m.monitored = none

namespace KernelMapping

variable {m : KernelMapping}

theorem mask_idem (f : BitVec 32) : f &&& mapFlagsMask &&& mapFlagsMask = f &&& mapFlagsMask := by
  rw [BitVec.and_assoc, BitVec.and_self]

theorem attrAt_subrange (hf : m.flags &&& mapFlagsMask = m.flags) (ha : m.start ≤ a)
    (hp : a ≤ p) (hb : a < 2 ^ 64) : (m.subrange a b).attrAt p = m.attrAt p := by
  have hsub : ptrSub a m.start = a - m.start := ptrSub_eq ha hb
  simp only [attrAt, subrange, new, isRealDevice, hf, hsub]
  by_cases hd : 0 < m.device
  · have hoff : ((m.offset + (a - m.start)) % 2 ^ 64 + (p - a)) % 2 ^ 64 =
        (m.offset + (p - m.start)) % 2 ^ 64 := by omega
    simp only [hd, decide_true, ↓reduceIte, hoff]
  · simp only [hd, decide_false, Bool.false_eq_true, ↓reduceIte]

theorem attrAt_setProt (newProt : BitVec 32) (hf : m.flags &&& mapFlagsMask = m.flags) :
    (m.setProt newProt).attrAt p = { m.attrAt p with prot := newProt } := by
  have hoff : (m.offset % 2 ^ 64 + (p - m.start)) % 2 ^ 64 =
      (m.offset + (p - m.start)) % 2 ^ 64 := by omega
  simp only [attrAt, setProt, new, isRealDevice, hf, hoff]
  rfl

end KernelMapping

theorem EntryOk.piece (h : EntryOk e) (hm : m.map.toMemoryRange = ⟨a, b⟩)
    (hf : m.map.flags &&& mapFlagsMask = m.map.flags) (ha : a % pageSize = 0)
    (hb : b % pageSize = 0) (hab : a < b) (hend : b ≤ e.1.end_) :
    EntryOk (⟨a, b⟩, m) where
  key := hm.symm
  nonempty := hab
  startAligned := ha
  endAligned := hb
  bound := Nat.lt_of_le_of_lt hend h.bound
  tracked := hf

namespace AddressSpace

variable {s : AddressSpace} {A B : MemoryMap} {m : Mapping}

theorem removeFromMap_mem (hs : s.mem = A ++ e :: B) (hwf : WellFormed s.mem) :
    (s.removeFromMap e.2.map.toMemoryRange).mem = A ++ B := by
  have hwf' : WellFormed (A ++ e :: B) := hs ▸ hwf
  have hok := hwf'.right.entries e mem_cons_self
  have hc : WellFormed ([e] ++ B) := hwf'.right
  simp only [removeFromMap, hs, ← hok.key]
  apply erase_split
  · intro a ha
    rw [comparator_eq (hwf'.left.entries a ha).nonempty hok.nonempty]
    exact decide_eq_true (hwf'.between ha mem_cons_self)
  · rw [comparator_eq hok.nonempty hok.nonempty]
    exact decide_eq_false (Nat.not_le_of_lt hok.nonempty)
  · rw [comparator_eq hok.nonempty hok.nonempty]
    exact decide_eq_false (Nat.not_le_of_lt hok.nonempty)
  · intro b hb
    rw [comparator_eq hok.nonempty (hc.right.entries b hb).nonempty]
    exact decide_eq_true (hc.between mem_cons_self hb)

theorem addToMap_mem (hs : s.mem = A ++ B) (hA : ∀ a ∈ A, EntryOk a ∧ a.1.end_ ≤ m.map.start)
    (hB : ∀ b ∈ B, EntryOk b ∧ m.map.end_ ≤ b.1.start) (hk : m.map.start < m.map.end_) :
    (s.addToMap m).mem = A ++ (m.map.toMemoryRange, m) :: B := by
  obtain ⟨h1, h2, h3⟩ := gap_comparator (k := m.map.toMemoryRange)
    (fun a ha => ⟨(hA a ha).1.nonempty, (hA a ha).2⟩)
    (fun b hb => ⟨(hB b hb).1.nonempty, (hB b hb).2⟩) hk
  simp only [addToMap, hs]
  exact assign_gap m h1 h2 h3

end AddressSpace

def lowerPiece (recordedStart : Nat) (e : MemoryRange × Mapping) (rem : MemoryRange) : MemoryMap :=
  if e.1.start < rem.start then [(⟨e.1.start, rem.start⟩, e.2.underflow recordedStart rem)] else []

def upperPiece (e : MemoryRange × Mapping) (rem : MemoryRange) : MemoryMap :=
  if rem.end_ < e.1.end_ then [(⟨rem.end_, e.1.end_⟩, e.2.overflow rem)] else []

def overlapPiece (prot : BitVec 32) (e : MemoryRange × Mapping) (rem : MemoryRange) :
    MemoryRange × Mapping :=
  (⟨rem.start, min rem.end_ e.1.end_⟩,
    e.2.overlap rem.start (min rem.end_ e.1.end_) (prot &&& protReadWriteExec))

def unmapPieces (e : MemoryRange × Mapping) (rem : MemoryRange) : MemoryMap :=
  lowerPiece e.2.map.start e rem ++ upperPiece e rem

/-- What `protector` makes of an entry when `PROT_GROWSDOWN` is not set. -/
def protectPieces (prot : BitVec 32) (e : MemoryRange × Mapping) (rem : MemoryRange) : MemoryMap :=
  lowerPiece e.2.recordedMap.start e rem ++ ([overlapPiece prot e rem] ++ upperPiece e rem)

section Pieces

variable {e x : MemoryRange × Mapping} {rem : MemoryRange} {how : IterateHow}

theorem Hit.start_eq (h : Hit how e rem) : e.2.map.start = e.1.start := by
  rw [h.entry.key]

theorem Hit.end_eq (h : Hit how e rem) : e.2.map.end_ = e.1.end_ := by
  rw [h.entry.key]

theorem mem_lowerPiece (hx : x ∈ lowerPiece r e rem) :
    e.1.start < rem.start ∧ x = (⟨e.1.start, rem.start⟩, e.2.underflow r rem) := by
  rw [lowerPiece] at hx
  split at hx
  · next hlt => exact ⟨hlt, mem_singleton.mp hx⟩
  · cases hx

theorem mem_upperPiece (hx : x ∈ upperPiece e rem) :
    rem.end_ < e.1.end_ ∧ x = (⟨rem.end_, e.1.end_⟩, e.2.overflow rem) := by
  rw [upperPiece] at hx
  split at hx
  · next hlt => exact ⟨hlt, mem_singleton.mp hx⟩
  · cases hx

theorem lowerPiece_wellFormed (h : Hit how e rem) : WellFormed (lowerPiece r e rem) := by
  rw [lowerPiece]
  split
  · next hlt =>
    apply WellFormed.singleton
    refine h.entry.piece ?_ (KernelMapping.mask_idem _) h.entry.startAligned h.region.startAligned
      hlt (Nat.le_of_lt h.above)
    rw [← h.start_eq]
    rfl
  · exact WellFormed.nil

theorem upperPiece_wellFormed (h : Hit how e rem) : WellFormed (upperPiece e rem) := by
  rw [upperPiece]
  split
  · next hlt =>
    apply WellFormed.singleton
    refine h.entry.piece ?_ (KernelMapping.mask_idem _) h.region.endAligned h.entry.endAligned
      hlt (Nat.le_refl _)
    rw [← h.end_eq]
    rfl
  · exact WellFormed.nil

theorem overlapPiece_ok (h : Hit how e rem) : EntryOk (overlapPiece prot e rem) := by
  have hr := h.region.nonempty
  have ha := h.above
  refine h.entry.piece rfl (KernelMapping.mask_idem _) h.region.startAligned ?_ (by omega)
    (Nat.min_le_right _ _)
  cases Nat.le_total rem.end_ e.1.end_ with
  | inl hle => rw [Nat.min_eq_left hle]; exact h.region.endAligned
  | inr hle => rw [Nat.min_eq_right hle]; exact h.entry.endAligned

theorem view_singleton : pages.view [x] p =
    if x.1.start ≤ p ∧ p < x.1.end_ then some (x.2.map.attrAt p) else none := rfl

theorem view_lowerPiece (h : Hit how e rem) : pages.view (lowerPiece r e rem) p =
    if e.1.start ≤ p ∧ p < rem.start then some (e.2.map.attrAt p) else none := by
  rw [lowerPiece]
  split
  · next hlt =>
    rw [view_singleton]
    split
    · next hp =>
      have hb := h.entry.bound
      have hne := h.entry.nonempty
      have hst := h.start_eq
      have hlo : e.1.start ≤ p := hp.1
      exact congrArg some (KernelMapping.attrAt_subrange h.entry.tracked (Nat.le_refl _)
        (by omega) (by omega))
    · rfl
  · rw [if_neg (by omega)]
    rfl

theorem view_upperPiece (h : Hit how e rem) : pages.view (upperPiece e rem) p =
    if rem.end_ ≤ p ∧ p < e.1.end_ then some (e.2.map.attrAt p) else none := by
  rw [upperPiece]
  split
  · next hlt =>
    rw [view_singleton]
    split
    · next hp =>
      have hb := h.below
      have hst := h.start_eq
      exact congrArg some (KernelMapping.attrAt_subrange h.entry.tracked (by omega) hp.1
        h.region.bound)
    · rfl
  · rw [if_neg (by omega)]
    rfl

theorem view_overlapPiece (h : Hit .iterateContiguous e rem) :
    pages.view [overlapPiece prot e rem] p =
      if rem.start ≤ p ∧ p < min rem.end_ e.1.end_ then
        some { e.2.map.attrAt p with prot := prot &&& protReadWriteExec }
      else none := by
  have hf := h.contiguous rfl
  have hb := h.region.bound
  have hne := h.region.nonempty
  have hst := h.start_eq
  have ha : rem.start ≤ p → (overlapPiece prot e rem).2.map.attrAt p =
      { e.2.map.attrAt p with prot := prot &&& protReadWriteExec } := by
    intro hp
    rw [overlapPiece, Mapping.overlap]
    simp only
    rw [KernelMapping.attrAt_setProt _ (KernelMapping.mask_idem _),
      KernelMapping.attrAt_subrange h.entry.tracked (by omega) hp (by omega)]
  rw [view_singleton]
  by_cases hp : rem.start ≤ p ∧ p < min rem.end_ e.1.end_
  · rw [if_pos hp, ← ha hp.1]
    exact if_pos hp
  · rw [if_neg hp]
    exact if_neg hp

theorem unmapPieces_splits : Splits how unmapPieces where
  wellFormed h := by
    apply (lowerPiece_wellFormed h).append (upperPiece_wellFormed h)
    intro a ha b hb
    obtain ⟨_, rfl⟩ := mem_lowerPiece ha
    obtain ⟨_, rfl⟩ := mem_upperPiece hb
    exact Nat.le_of_lt h.region.nonempty
  within h x hx := by
    have hab := h.above
    have hbe := h.below
    cases mem_append.mp hx with
    | inl hl =>
      obtain ⟨_, rfl⟩ := mem_lowerPiece hl
      exact ⟨Nat.le_refl _, Nat.le_of_lt hab⟩
    | inr hu =>
      obtain ⟨_, rfl⟩ := mem_upperPiece hu
      exact ⟨Nat.le_of_lt hbe, Nat.le_refl _⟩

theorem unmapPieces_edits : Edits how unmapPieces fun _ => none := by
  intro e rem p h
  have ha := h.above
  have hb := h.below
  have hco : pages.Covers e p ↔ e.1.start ≤ p ∧ p < e.1.end_ := Iff.rfl
  rw [unmapPieces, Layout.view_append, view_lowerPiece h, view_upperPiece h]
  by_cases hc : pages.Covers e p
  · rw [if_pos hc]
    rw [hco] at hc
    by_cases hlow : p < rem.start
    · rw [if_pos ⟨hc.1, hlow⟩, if_neg (by omega : ¬ (rem.start ≤ p ∧ p < rem.end_))]
      rfl
    · rw [if_neg (by omega), none_or]
      by_cases hup : rem.end_ ≤ p
      · rw [if_pos ⟨hup, hc.2⟩, if_neg (by omega)]
      · rw [if_neg (by omega), if_pos (by omega)]
  · rw [if_neg hc]
    rw [hco] at hc
    rw [if_neg (by omega), if_neg (by omega)]
    rfl

theorem protectPieces_splits : Splits .iterateContiguous (protectPieces prot) where
  wellFormed h := by
    have hne := h.region.nonempty
    apply (lowerPiece_wellFormed h).append
    · apply (WellFormed.singleton (overlapPiece_ok h)).append (upperPiece_wellFormed h)
      intro a ha b hb
      obtain rfl := mem_singleton.mp ha
      obtain ⟨_, rfl⟩ := mem_upperPiece hb
      exact Nat.min_le_left _ _
    · intro a ha b hb
      obtain ⟨_, rfl⟩ := mem_lowerPiece ha
      cases mem_append.mp hb with
      | inl ho =>
        obtain rfl := mem_singleton.mp ho
        exact Nat.le_refl _
      | inr hu =>
        obtain ⟨_, rfl⟩ := mem_upperPiece hu
        exact Nat.le_of_lt hne
  within h x hx := by
    have hab := h.above
    have hbe := h.below
    have hf := h.contiguous rfl
    cases mem_append.mp hx with
    | inl hl =>
      obtain ⟨_, rfl⟩ := mem_lowerPiece hl
      exact ⟨Nat.le_refl _, Nat.le_of_lt hab⟩
    | inr hr =>
      cases mem_append.mp hr with
      | inl ho =>
        obtain rfl := mem_singleton.mp ho
        exact ⟨hf, Nat.min_le_right _ _⟩
      | inr hu =>
        obtain ⟨_, rfl⟩ := mem_upperPiece hu
        exact ⟨Nat.le_of_lt hbe, Nat.le_refl _⟩

theorem protectPieces_edits : Edits .iterateContiguous (protectPieces prot) fun a =>
    some { a with prot := prot &&& protReadWriteExec } := by
  intro e rem p h
  have hne := h.region.nonempty
  have ha := h.above
  have hf := h.contiguous rfl
  have hco : pages.Covers e p ↔ e.1.start ≤ p ∧ p < e.1.end_ := Iff.rfl
  rw [protectPieces, Layout.view_append, Layout.view_append, view_lowerPiece h,
    view_overlapPiece h, view_upperPiece h]
  by_cases hc : pages.Covers e p
  · rw [if_pos hc]
    rw [hco] at hc
    by_cases hlow : p < rem.start
    · rw [if_pos ⟨hc.1, hlow⟩, if_neg (by omega : ¬ (rem.start ≤ p ∧ p < rem.end_))]
      rfl
    rw [if_neg (by omega), none_or]
    by_cases hup : rem.end_ ≤ p
    · rw [if_neg (by omega), if_pos ⟨hup, hc.2⟩, if_neg (by omega)]
      rfl
    · rw [if_pos (by omega), if_pos (by omega : rem.start ≤ p ∧ p < rem.end_)]
      rfl
  · rw [if_neg hc]
    rw [hco] at hc
    rw [if_neg (by omega), if_neg (by omega), if_neg (by omega)]
    rfl

namespace AddressSpace

/-- The pieces put back around the erased entry, in the order in which the callbacks add them. -/
theorem lowerPiece_added {s : AddressSpace} (h : Hit how e rem) (hs : s.mem = A ++ B)
    (hA : ∀ a ∈ A, EntryOk a ∧ a.1.end_ ≤ e.1.start)
    (hB : ∀ b ∈ B, EntryOk b ∧ e.1.end_ ≤ b.1.start) :
    (if e.2.map.start < rem.start then s.addToMap (e.2.underflow r rem) else s).mem =
      (A ++ lowerPiece r e rem) ++ B := by
  have hab := h.above
  rw [lowerPiece, h.start_eq]
  split
  · next hlt =>
    have hkey : (e.2.underflow r rem).map.toMemoryRange = ⟨e.1.start, rem.start⟩ := by
      rw [← h.start_eq]
      rfl
    have hst : (e.2.underflow r rem).map.start = e.1.start := h.start_eq
    rw [addToMap_mem hs (fun a ha => hst ▸ hA a ha)
      (fun b hb => ⟨(hB b hb).1, Nat.le_trans (Nat.le_of_lt hab) (hB b hb).2⟩)
      (hst ▸ hlt), hkey]
    simp only [append_assoc, cons_append, nil_append]
  · rw [append_nil]
    exact hs

theorem upperPiece_added {s : AddressSpace} (h : Hit how e rem) (hs : s.mem = A ++ B)
    (hA : ∀ a ∈ A, EntryOk a ∧ a.1.end_ ≤ rem.end_)
    (hB : ∀ b ∈ B, EntryOk b ∧ e.1.end_ ≤ b.1.start) :
    (if rem.end_ < e.2.map.end_ then s.addToMap (e.2.overflow rem) else s).mem =
      (A ++ upperPiece e rem) ++ B := by
  rw [upperPiece, h.end_eq]
  split
  · next hlt =>
    have hkey : (e.2.overflow rem).map.toMemoryRange = ⟨rem.end_, e.1.end_⟩ := by
      rw [← h.end_eq]
      rfl
    have hend : (e.2.overflow rem).map.end_ = e.1.end_ := h.end_eq
    rw [addToMap_mem hs hA (fun b hb => hend ▸ hB b hb) (hend ▸ hlt), hkey]
    simp only [append_assoc, cons_append, nil_append]
  · rw [append_nil]
    exact hs

theorem neighbours (hwf : WellFormed (A ++ e :: B)) :
    (∀ a ∈ A, EntryOk a ∧ a.1.end_ ≤ e.1.start) ∧ ∀ b ∈ B, EntryOk b ∧ e.1.end_ ≤ b.1.start := by
  have hc : WellFormed ([e] ++ B) := hwf.right
  exact ⟨fun a ha => ⟨hwf.left.entries a ha, hwf.between ha mem_cons_self⟩,
    fun b hb => ⟨hc.right.entries b hb, hc.between mem_cons_self hb⟩⟩

end AddressSpace

end Pieces

end Attune
