import Attune.EntryInvariants

namespace Attune
open List Option

theorem EntryOk.map_size (h : EntryOk e) : e.2.map.size = e.1.end_ - e.1.start := by
  have hb := h.bound
  have hne := h.nonempty
  rw [h.key] at hb hne ⊢
  exact ptrSub_eq (Nat.le_of_lt hne) hb

theorem adjoins_of_isCoalescable (hx : EntryOk x) (hy : EntryOk y)
    (h : isCoalescable x.2 y.2 = true) : x.1.end_ = y.1.start := by
  rw [hx.key, hy.key]
  exact (isAdjacentMapping_true (isCoalescable_true h).1).1

def ImageFits (e : MemoryRange × Mapping) : Prop :=
  e.2.localAddr ≠ 0 → e.2.localAddr + (e.1.end_ - e.1.start) < 2 ^ 64

structure PieceOf (e x : MemoryRange × Mapping) : Prop where
  start : e.1.start ≤ x.1.start
  nonempty : x.1.start < x.1.end_
  end_ : x.1.end_ ≤ e.1.end_
  device : x.2.map.device = e.2.map.device
  inode : x.2.map.inode = e.2.map.inode
  offset : e.2.map.isRealDevice = true →
    x.2.map.offset = (e.2.map.offset + (x.1.start - e.1.start)) % 2 ^ 64
  emuFile : x.2.emuFile = e.2.emuFile
  monitored : e.2.monitored = none → x.2.monitored = none
  noImage : e.2.localAddr = 0 → x.2.localAddr = 0
  image : e.2.localAddr ≠ 0 → ImageFits e →
    x.2.localAddr = e.2.localAddr + (x.1.start - e.1.start)

section Pieces

variable {e x : MemoryRange × Mapping} {rem : MemoryRange} {how : IterateHow}

theorem localAt_eq (hok : EntryOk e) (hl : e.2.localAddr ≠ 0) (hfits : ImageFits e)
    (ha : e.1.start ≤ a) (hb : a ≤ e.1.end_) :
    e.2.localAt a = e.2.localAddr + (a - e.1.start) := by
  have hbo := hok.bound
  have him := hfits hl
  have hsub : ptrSub a e.2.map.start = a - e.1.start := by
    rw [hok.key] at ha ⊢
    exact ptrSub_eq ha (by omega)
  rw [Mapping.localAt, if_neg hl, hsub, ptrAdd_eq (by omega)]

theorem offset_subrange {m : KernelMapping} (hr : m.isRealDevice = true) (ha : m.start ≤ a)
    (hb : a < 2 ^ 64) : (m.subrange a b).offset = (m.offset + (a - m.start)) % 2 ^ 64 := by
  simp only [KernelMapping.subrange, KernelMapping.new, hr, ↓reduceIte, ptrSub_eq ha hb]

theorem pieceOf_lowerPiece (h : Hit how e rem) (hx : x ∈ lowerPiece r e rem) : PieceOf e x := by
  obtain ⟨hlt, rfl⟩ := mem_lowerPiece hx
  have hb := h.entry.bound
  have ha := h.above
  refine ⟨Nat.le_refl _, hlt, Nat.le_of_lt ha, rfl, rfl, ?_, rfl, id, id, ?_⟩
  · intro hr
    have hoff := offset_subrange (b := rem.start) hr (Nat.le_refl e.2.map.start)
      (by rw [h.start_eq]; omega)
    rw [Nat.sub_self] at hoff ⊢
    exact hoff
  · intro _ _
    rw [Nat.sub_self]
    rfl

theorem pieceOf_upperPiece (h : Hit how e rem) (hx : x ∈ upperPiece e rem) : PieceOf e x := by
  obtain ⟨hlt, rfl⟩ := mem_upperPiece hx
  have hb := h.below
  refine ⟨Nat.le_of_lt hb, hlt, Nat.le_refl _, rfl, rfl, ?_, rfl, ?_, ?_, ?_⟩
  · intro hr
    have hoff := offset_subrange (a := rem.end_) (b := e.2.map.end_) hr
      (by rw [h.start_eq]; omega) h.region.bound
    rw [h.start_eq] at hoff
    exact hoff
  · intro hn
    simp only [Mapping.overflow, hn, bind_none]
  · intro hz
    simp only [Mapping.overflow, Mapping.localAt, hz, ↓reduceIte]
  · intro hl hfits
    exact localAt_eq h.entry hl hfits (Nat.le_of_lt hb) (Nat.le_of_lt hlt)

theorem pieceOf_overlapPiece (h : Hit .iterateContiguous e rem) :
    PieceOf e (overlapPiece prot e rem) := by
  have hne := h.region.nonempty
  have ha := h.above
  have hf := h.contiguous rfl
  have hb := h.region.bound
  refine ⟨hf, ?_, Nat.min_le_right _ _, rfl, rfl, ?_, rfl, ?_, ?_, ?_⟩
  · show rem.start < min rem.end_ e.1.end_
    omega
  · intro hr
    have hoff := offset_subrange (a := rem.start) (b := min rem.end_ e.1.end_) hr
      (by rw [h.start_eq]; exact hf) (by omega)
    rw [h.start_eq] at hoff
    show (e.2.map.subrange rem.start (min rem.end_ e.1.end_)).offset % 2 ^ 64 = _
    rw [hoff, Nat.mod_mod]
    rfl
  · intro hn
    simp only [overlapPiece, Mapping.overlap, hn, bind_none]
  · intro hz
    simp only [overlapPiece, Mapping.overlap, Mapping.localAt, hz, ↓reduceIte]
  · intro hl hfits
    exact localAt_eq h.entry hl hfits hf (Nat.le_of_lt ha)

theorem Inherited.of_pieces {Q : MemoryRange × Mapping → Prop}
    (hp : ∀ e x, EntryOk e → PieceOf e x → Q e → Q x)
    (hm : ∀ first T, WellFormed (first :: T) → (first :: T).IsChain Mergeable →
      (∀ x ∈ first :: T, Q x) → Q (mergedEntry first T)) : Inherited Q where
  lower h he _ _ x hx := hp _ x h.entry (pieceOf_lowerPiece h hx) he
  upper h he x hx := hp _ x h.entry (pieceOf_upperPiece h hx) he
  overlap h he _ := hp _ _ h.entry (pieceOf_overlapPiece h) he
  merged := hm _ _

end Pieces

section Images

variable {e x y first : MemoryRange × Mapping} {T : MemoryMap}

theorem ImageFits.piece (hfits : ImageFits e) (h : PieceOf e x) : ImageFits x := by
  intro hx
  have hl : e.2.localAddr ≠ 0 := fun hz => hx (h.noImage hz)
  have him := hfits hl
  have hst := h.start
  have hend := h.end_
  have hne := h.nonempty
  rw [h.image hl hfits]
  omega

theorem Mergeable.image (h : Mergeable x y) (hx : EntryOk x) (hfits : ImageFits x)
    (hl : x.2.localAddr ≠ 0) :
    y.2.localAddr = x.2.localAddr + (x.1.end_ - x.1.start) := by
  have him := hfits hl
  have ha := h.2
  simp only [assertCoalesceable, Bool.and_eq_true, Bool.or_eq_true, decide_eq_true_eq, hl,
    false_and, false_or, hx.map_size] at ha
  rw [← ha.1.1.2, ptrAdd_eq him]

variable (hwf : WellFormed (first :: T)) (hchain : (first :: T).IsChain Mergeable) (hfits : ∀ x ∈ first :: T, ImageFits x)
include hwf hchain hfits

theorem image_of_run (hl : first.2.localAddr ≠ 0) :
    ∀ x ∈ first :: T, first.1.start ≤ x.1.start ∧
      x.2.localAddr = first.2.localAddr + (x.1.start - first.1.start) := by
  induction T generalizing first with
  | nil =>
    intro x hx
    rw [mem_singleton.mp hx, Nat.sub_self]
    exact ⟨Nat.le_refl _, rfl⟩
  | cons y T ih =>
    have hc : WellFormed ([first] ++ (y :: T)) := hwf
    have hf := hwf.entries first mem_cons_self
    have hy := hc.right.entries y mem_cons_self
    have hlt := hf.nonempty
    obtain ⟨hm, hr⟩ := isChain_cons_cons.mp hchain
    have ha := adjoins_of_isCoalescable hf hy hm.1
    have him := hm.image hf (hfits first mem_cons_self) hl
    intro x hx
    cases mem_cons.mp hx with
    | inl heq =>
      rw [heq, Nat.sub_self]
      exact ⟨Nat.le_refl _, rfl⟩
    | inr hin =>
      obtain ⟨hle, heq⟩ := ih hc.right hr
        (fun z hz => hfits z (mem_cons_of_mem first hz)) (by omega) x hin
      omega

theorem ImageFits.merged : ImageFits (mergedEntry first T) := by
  intro hl
  have hla := getLast_mem (cons_ne_nil first T)
  have hne := (hwf.entries _ hla).nonempty
  obtain ⟨hle, him⟩ := image_of_run hwf hchain hfits hl _ hla
  have hl' : first.2.localAddr ≠ 0 := hl
  have hfit := hfits _ hla (by omega)
  show first.2.localAddr +
    (((first :: T).getLast (cons_ne_nil first T)).1.end_ - first.1.start) < 2 ^ 64
  omega

end Images

end Attune
