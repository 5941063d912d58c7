import Attune.LocalImages

namespace Attune
open MemoryRange

/-- What a neighbour sees of a kernel mapping: the edge, the attributes and, if real, the offset at
the edge. -/
structure Face where
  edge : Nat
  flags : BitVec 32
  prot : BitVec 32
  fsname : List Char
  device : Nat
  inode : Nat
  offset : Option Nat

namespace KernelMapping

def leftFace (m : KernelMapping) : Face :=
  ⟨m.start, m.flags, m.prot, m.fsname, m.device, m.inode,
    if m.isRealDevice then some m.offset else none⟩

def rightFace (m : KernelMapping) : Face :=
  ⟨m.end_, m.flags, m.prot, m.fsname, m.device, m.inode,
    if m.isRealDevice then some ((m.offset + m.size) % 2 ^ 64) else none⟩

end KernelMapping

def isStackName (fsname : List Char) : Bool := "[stack".toList.isPrefixOf fsname

def SameName (a b : List Char) : Prop :=
  isStackName a = true ∨ isStackName b = true ∨ stripDeleted a = stripDeleted b

theorem SameName.refl (a : List Char) : SameName a a := Or.inr (Or.inr rfl)

structure Face.Meets (l r : Face) : Prop where
  edge : l.edge = r.edge
  flags : l.flags = r.flags
  prot : l.prot = r.prot
  name : SameName l.fsname r.fsname
  device : l.device = r.device
  inode : l.inode = r.inode
  offset : l.offset = r.offset

structure Faces where
  map : Face
  recorded : Face
  flags : BitVec 32

structure Faces.Meet (l r : Faces) : Prop where
  map : l.map.Meets r.map
  recorded : l.recorded.Meets r.recorded
  flags : l.flags = r.flags

namespace Mapping

def left (m : Mapping) : Faces := ⟨m.map.leftFace, m.recordedMap.leftFace, m.flags⟩

def right (m : Mapping) : Faces := ⟨m.map.rightFace, m.recordedMap.rightFace, m.flags⟩

end Mapping

section Meet

variable {l r : KernelMapping}

theorem normalizedFileNamesEqual_iff :
    normalizedFileNamesEqual l r .respectHeap = true ↔ SameName l.fsname r.fsname := by
  have hl : l.isStack = isStackName l.fsname := rfl
  have hr : r.isStack = isStackName r.fsname := rfl
  rw [normalizedFileNamesEqual, hl, hr, SameName]
  cases isStackName l.fsname with
  | true => simp only [Bool.true_or, ↓reduceIte, true_or]
  | false =>
    cases isStackName r.fsname with
    | true => simp only [Bool.or_true, ↓reduceIte, true_or, or_true]
    | false => simp only [Bool.or_self, Bool.false_eq_true, ↓reduceIte, false_or, reduceCtorEq,
        false_and, beq_iff_eq]

theorem isAdjacentMapping_iff :
    isAdjacentMapping l r .respectHeap = true ↔ l.rightFace.Meets r.leftFace := by
  constructor
  · intro h
    obtain ⟨hend, hf, hp, hdev, hin, hoff⟩ := isAdjacentMapping_true h
    have hna : normalizedFileNamesEqual l r .respectHeap = true := by
      by_contra hne
      simp only [isAdjacentMapping, Bool.eq_false_iff.mpr hne, Bool.not_false, ↓reduceIte] at h
      split at h
      · cases h
      · split at h
        · cases h
        · cases h
    refine ⟨hend, hf, hp, normalizedFileNamesEqual_iff.mp hna, hdev, hin, ?_⟩
    show (if l.isRealDevice then some ((l.offset + l.size) % 2 ^ 64) else none) =
      if r.isRealDevice then some r.offset else none
    have hre : r.isRealDevice = l.isRealDevice := by
      simp only [KernelMapping.isRealDevice, hdev]
    rw [hre]
    split
    · next hr => rw [hoff (of_decide_eq_true hr)]
    · rfl
  · rintro ⟨hend, hf, hp, hna, hdev, hin, hoff⟩
    change l.end_ = r.start at hend
    change l.flags = r.flags at hf
    change l.prot = r.prot at hp
    change l.device = r.device at hdev
    change l.inode = r.inode at hin
    change (if l.isRealDevice then some ((l.offset + l.size) % 2 ^ 64) else none) =
      (if r.isRealDevice then some r.offset else none) at hoff
    have hre : r.isRealDevice = l.isRealDevice := by
      simp only [KernelMapping.isRealDevice, hdev]
    rw [hre] at hoff
    have hm : ¬(l.isRealDevice = true ∧ (l.offset + l.size) % 2 ^ 64 ≠ r.offset) := by
      rintro ⟨hr, hne⟩
      rw [if_pos hr, if_pos hr] at hoff
      exact hne (Option.some.inj hoff)
    simp only [isAdjacentMapping, hend, hf, hp, hdev, hin, BitVec.xor_self,
      BitVec.zero_and, ne_eq, not_true_eq_false, or_self, ↓reduceIte,
      normalizedFileNamesEqual_iff.mpr hna, Bool.not_true, Bool.false_eq_true]
    exact if_neg hm

theorem coalescable_iff : Coalescable x y ↔ x.2.right.Meet y.2.left := by
  constructor
  · intro h
    obtain ⟨hmap, hf⟩ := isCoalescable_true h
    exact ⟨isAdjacentMapping_iff.mp hmap, isAdjacentMapping_iff.mp (isCoalescable_recorded h),
      hf⟩
  · rintro ⟨hmap, hr, hf⟩
    change x.2.flags = y.2.flags at hf
    have hm' : isAdjacentMapping x.2.map y.2.map .respectHeap = true :=
      isAdjacentMapping_iff.mpr hmap
    have hr' : isAdjacentMapping x.2.recordedMap y.2.recordedMap .respectHeap = true :=
      isAdjacentMapping_iff.mpr hr
    simp only [Coalescable, isCoalescable, hm', hr', hf, Bool.not_true, Bool.or_self,
      Bool.false_eq_true, ↓reduceIte, beq_self_eq_true]

theorem coalescable_congr_right (h : y.2.left = y'.2.left) : Coalescable x y ↔ Coalescable x y' := by
  rw [coalescable_iff, coalescable_iff, h]

theorem coalescable_congr_left (h : x.2.right = x'.2.right) :
    Coalescable x y ↔ Coalescable x' y := by
  rw [coalescable_iff, coalescable_iff, h]

end Meet

structure NormalEntry (e : MemoryRange × Mapping) : Prop where
  range : e.2.recordedMap.toMemoryRange = e.2.map.toMemoryRange
  tracked : e.2.recordedMap.flags &&& mapFlagsMask = e.2.recordedMap.flags
  offset : e.2.map.offset < 2 ^ 64
  recordedOffset : e.2.recordedMap.offset < 2 ^ 64

def recast (prot : BitVec 32) (e : MemoryRange × Mapping) : MemoryRange × Mapping :=
  (e.1, { e.2 with
    map := e.2.map.setProt (prot &&& protReadWriteExec)
    recordedMap := e.2.recordedMap.setProt (prot &&& protReadWriteExec) })

namespace KernelMapping

variable {m : KernelMapping}

theorem leftFace_subrange (hf : m.flags &&& mapFlagsMask = m.flags)
    (hoff : m.offset < 2 ^ 64) (hst : m.start < 2 ^ 64) :
    (m.subrange m.start b).leftFace = m.leftFace := by
  have hsub : ptrSub m.start m.start = 0 := by
    rw [ptrSub_eq (Nat.le_refl _) hst, Nat.sub_self]
  simp only [leftFace, subrange, new, isRealDevice, hf, hsub, ite_self, Nat.add_zero,
    Nat.mod_eq_of_lt hoff]
  rfl

theorem offset_at_end (hr : m.isRealDevice = true) (ha : m.start ≤ a) (hb : a ≤ m.end_)
    (hend : m.end_ < 2 ^ 64) :
    ((m.subrange a m.end_).offset + ptrSub m.end_ a) % 2 ^ 64 = (m.offset + m.size) % 2 ^ 64 := by
  have hsi : m.size = m.end_ - m.start := ptrSub_eq (Nat.le_trans ha hb) hend
  rw [offset_subrange hr ha (Nat.lt_of_le_of_lt hb hend), ptrSub_eq hb hend, hsi]
  omega

theorem rightFace_subrange (hf : m.flags &&& mapFlagsMask = m.flags) (ha : m.start ≤ a)
    (hb : a ≤ m.end_) (hend : m.end_ < 2 ^ 64) :
    (m.subrange a m.end_).rightFace = m.rightFace := by
  have ho : (if m.isRealDevice then
        some (((m.subrange a m.end_).offset + ptrSub m.end_ a) % 2 ^ 64) else none) =
      if m.isRealDevice then some ((m.offset + m.size) % 2 ^ 64) else none := by
    split
    · next hr => rw [offset_at_end hr ha hb hend]
    · rfl
  have hf' : (m.subrange a m.end_).flags = m.flags := hf
  show Face.mk m.end_ (m.subrange a m.end_).flags _ _ _ _ _ = _
  rw [hf']
  exact congrArg (Face.mk m.end_ m.flags m.prot m.fsname m.device m.inode) ho

variable (newProt : BitVec 32)

theorem leftFace_recast (hst : m.start < 2 ^ 64) :
    ((m.subrange m.start b).setProt newProt).leftFace = (m.setProt newProt).leftFace := by
  have hsub : ptrSub m.start m.start = 0 := by
    rw [ptrSub_eq (Nat.le_refl _) hst, Nat.sub_self]
  simp only [leftFace, subrange, setProt, new, isRealDevice, mask_idem, hsub, ite_self,
    Nat.add_zero, Nat.mod_mod]
  rfl

theorem rightFace_recast (ha : m.start ≤ a) (hb : a ≤ m.end_) (hend : m.end_ < 2 ^ 64) :
    ((m.subrange a m.end_).setProt newProt).rightFace = (m.setProt newProt).rightFace := by
  have ho : (if m.isRealDevice then
        some (((m.subrange a m.end_).offset % 2 ^ 64 + ptrSub m.end_ a) % 2 ^ 64) else none) =
      if m.isRealDevice then some ((m.offset % 2 ^ 64 + m.size) % 2 ^ 64) else none := by
    split
    · next hr =>
      have h := offset_at_end hr ha hb hend
      rw [Nat.mod_add_mod, Nat.mod_add_mod, h]
    · rfl
  have hf : ((m.subrange a m.end_).setProt newProt).flags = (m.setProt newProt).flags :=
    mask_idem m.flags
  show Face.mk m.end_ ((m.subrange a m.end_).setProt newProt).flags _ _ _ _ _ = _
  rw [hf]
  exact congrArg (Face.mk m.end_ (m.setProt newProt).flags newProt m.fsname m.device m.inode)
    ho

theorem meets_cut_iff (ha : m.start ≤ c) (hc : c < 2 ^ 64) :
    (m.subrange m.start c).rightFace.Meets ((m.subrange c b).setProt newProt).leftFace ↔
      m.prot = newProt := by
  refine ⟨fun h => h.prot, fun h => ⟨rfl, (mask_idem m.flags).symm, h, .refl _, rfl, rfl, ?_⟩⟩
  show (if m.isRealDevice then
      some (((m.subrange m.start c).offset + ptrSub c m.start) % 2 ^ 64) else none) =
    if m.isRealDevice then some ((m.subrange c b).offset % 2 ^ 64) else none
  split
  · next hr =>
    rw [offset_subrange hr ha hc, offset_subrange hr (Nat.le_refl _) (by omega),
      ptrSub_eq ha hc]
    rw [Option.some.injEq]
    omega
  · rfl

end KernelMapping

section Pieces

variable {e x : MemoryRange × Mapping} {rem : MemoryRange} {how : IterateHow}

theorem NormalEntry.recordedStart (h : NormalEntry e) : e.2.recordedMap.start = e.2.map.start :=
  congrArg start h.range

theorem NormalEntry.recordedEnd (h : NormalEntry e) : e.2.recordedMap.end_ = e.2.map.end_ :=
  congrArg end_ h.range

section

variable (h : Hit how e rem) (hn : NormalEntry e)
include h hn

theorem left_lowerPiece
    (hr : r = e.2.map.start ∨ r = e.2.recordedMap.start) (hx : x ∈ lowerPiece r e rem) :
    x.2.left = e.2.left := by
  obtain ⟨_, rfl⟩ := mem_lowerPiece hx
  have hr' : r = e.2.recordedMap.start := by
    rcases hr with rfl | rfl
    · exact hn.recordedStart.symm
    · rfl
  have hb : e.2.map.start < 2 ^ 64 := by
    have := h.entry.bound
    have := h.entry.nonempty
    rw [h.start_eq]
    omega
  have hb' : e.2.recordedMap.start < 2 ^ 64 := hn.recordedStart ▸ hb
  simp only [Mapping.left, Mapping.underflow, hr',
    KernelMapping.leftFace_subrange h.entry.tracked hn.offset hb,
    KernelMapping.leftFace_subrange hn.tracked hn.recordedOffset hb']

theorem right_upperPiece (hx : x ∈ upperPiece e rem) : x.2.right = e.2.right := by
  obtain ⟨hlt, rfl⟩ := mem_upperPiece hx
  have hb := h.below
  have hbo := h.entry.bound
  have hst := h.start_eq
  have hend := h.end_eq
  have hmap := KernelMapping.rightFace_subrange (a := rem.end_) h.entry.tracked (by omega)
    (by omega) (by omega)
  have hr := KernelMapping.rightFace_subrange (a := rem.end_) hn.tracked
    (by rw [hn.recordedStart]; omega) (by rw [hn.recordedEnd]; omega)
    (by rw [hn.recordedEnd]; omega)
  rw [hn.recordedEnd] at hr
  simp only [Mapping.right, Mapping.overflow, hmap, hr]

theorem left_overlapPiece
    (hst : rem.start = e.1.start) : (overlapPiece prot e rem).2.left = (recast prot e).2.left := by
  have hb : e.2.map.start < 2 ^ 64 := by
    have := h.entry.bound
    have := h.entry.nonempty
    rw [h.start_eq]
    omega
  have hb' : e.2.recordedMap.start < 2 ^ 64 := hn.recordedStart ▸ hb
  have heq : rem.start = e.2.map.start := hst.trans h.start_eq.symm
  simp only [overlapPiece, recast, Mapping.left, Mapping.overlap]
  rw [heq, KernelMapping.leftFace_recast _ hb, ← hn.recordedStart,
    KernelMapping.leftFace_recast _ hb']

end

variable (h : Hit .iterateContiguous e rem) (hn : NormalEntry e)
include h hn

theorem right_overlapPiece
    (hend : e.1.end_ ≤ rem.end_) : (overlapPiece prot e rem).2.right = (recast prot e).2.right := by
  have ha := h.above
  have hf := h.contiguous rfl
  have hb := h.entry.bound
  have hst := h.start_eq
  have he' := h.end_eq
  have hmin : min rem.end_ e.1.end_ = e.2.map.end_ := by omega
  have hm' : min rem.end_ e.1.end_ = e.2.recordedMap.end_ := by
    rw [hn.recordedEnd]
    exact hmin
  simp only [overlapPiece, recast, Mapping.right, Mapping.overlap]
  nth_rewrite 1 [hmin]
  rw [hm', KernelMapping.rightFace_recast _ (by omega) (by omega) (by omega),
    KernelMapping.rightFace_recast _ (by rw [hn.recordedStart]; omega)
      (by rw [hn.recordedEnd]; omega) (by rw [hn.recordedEnd]; omega)]

theorem coalescable_cut_iff (hx : x ∈ lowerPiece e.2.recordedMap.start e rem) :
    Coalescable x (overlapPiece prot e rem) ↔
      e.2.map.prot = prot &&& protReadWriteExec ∧
        e.2.recordedMap.prot = prot &&& protReadWriteExec := by
  obtain ⟨hlt, rfl⟩ := mem_lowerPiece hx
  have hne := h.region.nonempty
  have hb := h.region.bound
  have hst := h.start_eq
  rw [coalescable_iff]
  have hmap := KernelMapping.meets_cut_iff (m := e.2.map) (b := min rem.end_ e.1.end_)
    (c := rem.start) (prot &&& protReadWriteExec) (by omega) (by omega)
  have hr := KernelMapping.meets_cut_iff (m := e.2.recordedMap)
    (b := min rem.end_ e.1.end_) (c := rem.start) (prot &&& protReadWriteExec)
    (by rw [hn.recordedStart]; omega) (by omega)
  exact ⟨fun hm => ⟨hmap.mp hm.map, hr.mp hm.recorded⟩,
    fun hp => ⟨hmap.mpr hp.1, hr.mpr hp.2, rfl⟩⟩

end Pieces

section Merged

structure NamesLike (a b : List Char) : Prop where
  stack : isStackName a = isStackName b
  stripped : isStackName a = false → stripDeleted a = stripDeleted b

theorem NamesLike.refl (a : List Char) : NamesLike a a := ⟨rfl, fun _ => rfl⟩

theorem NamesLike.trans (h : NamesLike a b) (h' : NamesLike b c) : NamesLike a c :=
  ⟨h.stack.trans h'.stack, fun hs => (h.stripped hs).trans (h'.stripped (h.stack ▸ hs))⟩

theorem SameName.namesLike (h : SameName a b) (hst : isStackName a = isStackName b) :
    NamesLike a b := by
  refine ⟨hst, fun hs => ?_⟩
  rcases h with ha | hb | heq
  · rw [ha] at hs
    cases hs
  · rw [hst, hb] at hs
    cases hs
  · exact heq

theorem NamesLike.sameName_iff (h : NamesLike a b) : SameName a c ↔ SameName b c := by
  rw [SameName, SameName, h.stack]
  cases hs : isStackName b with
  | true => exact ⟨fun _ => Or.inl rfl, fun _ => Or.inl rfl⟩
  | false => rw [h.stripped (h.stack.trans hs)]

theorem Face.meets_congr {l l' r : Face} (he : l.edge = l'.edge) (hf : l.flags = l'.flags)
    (hp : l.prot = l'.prot) (hna : NamesLike l.fsname l'.fsname)
    (hd : l.device = l'.device) (hin : l.inode = l'.inode)
    (ho : l.offset = l'.offset) : l.Meets r ↔ l'.Meets r := by
  constructor
  · intro h
    exact ⟨he ▸ h.edge, hf ▸ h.flags, hp ▸ h.prot, hna.sameName_iff.mp h.name,
      hd ▸ h.device, hin ▸ h.inode, ho ▸ h.offset⟩
  · intro h
    exact ⟨he ▸ h.edge, hf ▸ h.flags, hp ▸ h.prot, hna.sameName_iff.mpr h.name,
      hd ▸ h.device, hin ▸ h.inode, ho ▸ h.offset⟩

/-- The second mapping goes on in the first one's file and attributes. -/
structure KernelMapping.GoesOn (k m : KernelMapping) : Prop where
  flags : k.flags = m.flags
  prot : k.prot = m.prot
  name : NamesLike k.fsname m.fsname
  device : k.device = m.device
  inode : k.inode = m.inode
  offset : k.isRealDevice = true →
    (k.offset + (m.end_ - k.start)) % 2 ^ 64 = (m.offset + m.size) % 2 ^ 64

variable {k m n : KernelMapping}

theorem KernelMapping.GoesOn.refl (hlt : m.start ≤ m.end_) (hend : m.end_ < 2 ^ 64) :
    m.GoesOn m := by
  refine ⟨rfl, rfl, .refl _, rfl, rfl, fun _ => ?_⟩
  have hsi : m.size = m.end_ - m.start := ptrSub_eq hlt hend
  rw [hsi]

theorem KernelMapping.GoesOn.cons (h : k.rightFace.Meets m.leftFace)
    (hst : isStackName k.fsname = isStackName m.fsname) (hr : m.GoesOn n)
    (hk : k.start ≤ k.end_) (hke : k.end_ < 2 ^ 64) (hm : m.start ≤ n.end_) : k.GoesOn n := by
  have hna : NamesLike k.fsname m.fsname := SameName.namesLike h.name hst
  have he : k.end_ = m.start := h.edge
  have hd : k.device = m.device := h.device
  refine ⟨h.flags.trans hr.flags, h.prot.trans hr.prot, hna.trans hr.name,
    hd.trans hr.device, h.inode.trans hr.inode, fun hre => ?_⟩
  have hr' : m.isRealDevice = true := by
    rw [isRealDevice, ← hd]
    exact hre
  have hoff : (if k.isRealDevice then some ((k.offset + k.size) % 2 ^ 64) else none) =
      if m.isRealDevice then some m.offset else none := h.offset
  rw [if_pos hre, if_pos hr', Option.some.injEq] at hoff
  have hsi : k.size = k.end_ - k.start := ptrSub_eq hk hke
  have hne := hr.offset hr'
  rw [hsi] at hoff
  rw [← hne]
  omega

theorem KernelMapping.GoesOn.extend_meets_iff (h : k.GoesOn m) {r : Face}
    (hf : k.flags &&& mapFlagsMask = k.flags) (hk : k.start ≤ m.end_)
    (hend : m.end_ < 2 ^ 64) :
    (k.extend m.end_).rightFace.Meets r ↔ m.rightFace.Meets r := by
  apply Face.meets_congr
  · rfl
  · exact hf.trans h.flags
  · exact h.prot
  · exact h.name
  · exact h.device
  · exact h.inode
  · show (if k.isRealDevice then some ((k.offset % 2 ^ 64 + ptrSub m.end_ k.start) % 2 ^ 64)
      else none) = if m.isRealDevice then some ((m.offset + m.size) % 2 ^ 64) else none
    have hre : m.isRealDevice = k.isRealDevice := by
      rw [isRealDevice, isRealDevice, h.device]
    rw [hre]
    split
    · next hr =>
      rw [ptrSub_eq hk hend, Nat.mod_add_mod, h.offset hr]
    · rfl

theorem KernelMapping.leftFace_extend (hf : m.flags &&& mapFlagsMask = m.flags)
    (hoff : m.offset < 2 ^ 64) : (m.extend b).leftFace = m.leftFace := by
  simp only [leftFace, extend, new, isRealDevice, hf, Nat.mod_eq_of_lt hoff]
  rfl

end Merged

end Attune
