import Attune.CoalesceCalls

namespace Attune
open Segments Runs AddressSpace List Option

def covered (regionStart regionEnd : Nat) : Nat → MemoryMap → MemoryMap
  | _, [] => []
  | last, e :: B =>
    if Visits .iterateContiguous regionStart regionEnd last e then
      e :: covered regionStart regionEnd e.1.end_ B
    else []

/-- The first entry with new permissions can be merged with its own lower part when cut, otherwise
with the entry before. -/
def JoinsBelow (prot : BitVec 32) (addr : Nat) (A : MemoryMap) (e : MemoryRange × Mapping) : Prop :=
  if e.1.start < addr ∧ prot &&& protGrowsdown = 0 then
    e.2.map.prot = prot &&& protReadWriteExec ∧ e.2.recordedMap.prot = prot &&& protReadWriteExec
  else ∃ z ∈ A.getLast?, Coalescable z (recast prot e)

instance : DecidableRel Coalescable := fun x y =>
  inferInstanceAs (Decidable (isCoalescable x.2 y.2 = true))

instance : Decidable (JoinsBelow prot addr A e) :=
  inferInstanceAs (Decidable (if e.1.start < addr ∧ prot &&& protGrowsdown = 0 then _ ∧ _
    else ∃ z ∈ A.getLast?, Coalescable z (recast prot e)))

/-- With the new permissions, once two neighbours can be merged all later ones can. -/
def JoinsUp (prot : BitVec 32) (addr : Nat) (A : MemoryMap) : MemoryMap → Prop
  | [] => True
  | e :: V =>
    (JoinsBelow prot addr A e → ((e :: V).map (recast prot)).IsChain Coalescable) ∧
      UpClosed Coalescable ((e :: V).map (recast prot))

instance : Decidable (JoinsUp prot addr A V) :=
  match V with
  | [] => .isTrue trivial
  | e :: V => inferInstanceAs (Decidable ((JoinsBelow prot addr A e →
      ((e :: V).map (recast prot)).IsChain Coalescable) ∧
        UpClosed Coalescable ((e :: V).map (recast prot))))

section Walk

variable {e x : MemoryRange × Mapping} {rem : MemoryRange} {B : MemoryMap}

theorem unrelated_upperPiece (hhit : Hit how e rem) (hn : NormalEntry e)
    (hun : Unrelated Coalescable (e :: B)) : Unrelated Coalescable (upperPiece e rem ++ B) := by
  obtain ⟨hh, ht⟩ := isChain_cons.mp hun
  cases hup : upperPiece e rem with
  | nil => exact ht
  | cons u U =>
    have hmem : u ∈ upperPiece e rem := by
      rw [hup]
      exact mem_cons_self
    have hone : U = [] := by
      rw [upperPiece] at hup
      split at hup
      · exact (cons.inj hup).2.symm
      · cases hup
    subst hone
    refine isChain_cons.mpr ⟨fun y hy => ?_, ht⟩
    rw [coalescable_congr_left (right_upperPiece hhit hn hmem)]
    exact hh y hy

theorem grownPieces_from_start (prot : BitVec 32) (hst : rem.start = e.1.start) :
    growsRegion prot e rem = rem ∧
      grownPieces prot e rem = overlapPiece prot e rem :: upperPiece e rem := by
  have hg : growsRegion prot e rem = rem := by
    rw [growsRegion, if_neg]
    rintro ⟨hlt, _⟩
    omega
  refine ⟨hg, ?_⟩
  rw [grownPieces, hg, protectPieces, lowerPiece, if_neg (by omega)]
  rfl

/-- The overlaps of visited entries see one another as the entries with the new permissions do;
above the last nothing has changed. -/
theorem walk_overlaps (prot : BitVec 32) (hhit : Hit .iterateContiguous e rem) (hend : rem.end_ = regionEnd)
    (hR : regionEnd % pageSize = 0 ∧ regionEnd < 2 ^ 64) (hst : regionStart ≤ e.1.end_)
    (hok : WalkOk e.1.end_ B) (ha : ∀ b ∈ B, e.1.end_ ≤ b.1.start)
    (hno : ∀ b ∈ e :: B, NormalEntry b) (hun : Unrelated Coalescable (e :: B)) :
    ∃ Y Q, upperPiece e rem ++
          walk (grownPieces prot) .iterateContiguous regionStart regionEnd e.1.end_ B = Y ++ Q ∧
      walkFold (nextOverlap prot) .iterateContiguous regionStart
        regionEnd e.1.end_ (overlapPiece prot e rem).1 B =
          ((overlapPiece prot e rem :: Y).getLast (cons_ne_nil _ _)).1 ∧
      Unrelated Coalescable Q ∧
      Alike Coalescable (overlapPiece prot e rem :: Y)
        ((e :: covered regionStart regionEnd e.1.end_ B).map (recast prot)) := by
  have hn := hno e mem_cons_self
  induction B generalizing e rem with
  | nil => exact ⟨[], upperPiece e rem ++ [], rfl, rfl, unrelated_upperPiece hhit hn hun, trivial⟩
  | cons b B ih =>
    rw [walk, walkFold, covered]
    by_cases hv : Visits .iterateContiguous regionStart regionEnd e.1.end_ b
    · have hc : WellFormed ([b] ++ B) := hok.wellFormed
      have haf := hok.after b mem_cons_self
      have hle := ha b mem_cons_self
      -- the walk goes on only where the next entry begins
      have hj : e.1.end_ = b.1.start := by
        rcases hv.2.2 rfl with hlt | heq
        · omega
        · exact heq
      have hb := hv.hit hR (hok.wellFormed.entries b mem_cons_self) hok.aligned hst haf
      have hbn := hno b (mem_cons_of_mem e mem_cons_self)
      have hsta : (⟨e.1.end_, regionEnd⟩ : MemoryRange).start = b.1.start := hj
      obtain ⟨hg, hp⟩ := grownPieces_from_start prot hsta
      have hlt := hv.1
      have hup : upperPiece e rem = [] := by
        rw [upperPiece, if_neg (by omega)]
      obtain ⟨Y, Q, hsp, hl, hQ, hal⟩ := ih hb rfl
        (by omega) hok.tail (fun x hx => hc.between mem_cons_self hx)
        (fun x hx => hno x (mem_cons_of_mem e hx)) (isChain_cons_cons.mp hun).2 hbn
      rw [if_pos hv, if_pos hv, if_pos hv, hup, hp, nil_append, cons_append, hsp,
        nextOverlap, hg, hl]
      refine ⟨overlapPiece prot b ⟨e.1.end_, regionEnd⟩ :: Y, Q, rfl, rfl, hQ, ?_, hal⟩
      rw [coalescable_congr_left (right_overlapPiece hhit hn (by omega)),
        coalescable_congr_right (left_overlapPiece hb hbn hj)]
    · rw [if_neg hv, if_neg hv, if_neg hv]
      exact ⟨[], upperPiece e rem ++ b :: B, rfl, rfl, unrelated_upperPiece hhit hn hun, trivial⟩

theorem lowerPiece_cases (r : Nat) (e : MemoryRange × Mapping) (rem : MemoryRange) :
    (e.1.start < rem.start ∧ ∃ x, lowerPiece r e rem = [x]) ∨
      (rem.start ≤ e.1.start ∧ lowerPiece r e rem = []) := by
  rw [lowerPiece]
  split
  · next hlt => exact .inl ⟨hlt, _, rfl⟩
  · next hge => exact .inr ⟨Nat.le_of_not_lt hge, rfl⟩

theorem unrelated_lowerPiece (hhit : Hit how e rem) (hn : NormalEntry e)
    (hun : Unrelated Coalescable (A ++ e :: B)) :
    Unrelated Coalescable (A ++ lowerPiece e.2.recordedMap.start e rem) := by
  rcases lowerPiece_cases e.2.recordedMap.start e rem with ⟨_, x, hx⟩ | ⟨_, hx⟩
  · have hl := left_lowerPiece (x := x) hhit hn (.inr rfl) (by rw [hx]; exact mem_cons_self)
    rw [hx, unrelated_congr_last fun z => coalescable_congr_right hl]
    exact (isChain_split.mp hun).1
  · rw [hx, append_nil]
    exact (isChain_append.mp hun).1

theorem joinsBelow_iff (hhit : Hit .iterateContiguous e ⟨addr, regionEnd⟩) (hn : NormalEntry e) :
    JoinsBelow prot addr A e ↔
      ∃ z ∈ (A ++ lowerPiece e.2.recordedMap.start e
        (growsRegion prot e ⟨addr, regionEnd⟩)).getLast?,
        Coalescable z (overlapPiece prot e (growsRegion prot e ⟨addr, regionEnd⟩)) := by
  have hg : Hit .iterateContiguous e (growsRegion prot e ⟨addr, regionEnd⟩) := hhit.grown
  have hst := hg.contiguous rfl
  rcases lowerPiece_cases e.2.recordedMap.start e (growsRegion prot e ⟨addr, regionEnd⟩) with
    ⟨hlt, x, hx⟩ | ⟨hle, hx⟩
  · have hcut : e.1.start < addr ∧ prot &&& protGrowsdown = 0 := by
      rw [growsRegion] at hlt
      split at hlt
      · exact absurd hlt (Nat.lt_irrefl _)
      · next hnot => exact ⟨hlt, not_not.mp fun hne => hnot ⟨hlt, hne⟩⟩
    rw [JoinsBelow, if_pos hcut, hx, getLast?_concat]
    simp only [mem_some_iff, exists_eq_left']
    exact (coalescable_cut_iff hg hn (by rw [hx]; exact mem_cons_self)).symm
  · have hw : ¬(e.1.start < addr ∧ prot &&& protGrowsdown = 0) := by
      rintro ⟨hlt, hz⟩
      rw [growsRegion, if_neg fun hh => hh.2 hz] at hle
      exact absurd hlt (Nat.not_lt_of_le hle)
    rw [JoinsBelow, if_neg hw, hx, append_nil]
    simp only [coalescable_congr_right (left_overlapPiece hg hn (Nat.le_antisymm hle hst))]

end Walk

namespace AddressSpace

variable {s s' : AddressSpace} {A B : MemoryMap}

theorem ProtectWalk.around (h : ProtectWalk s addr regionEnd prot A B s' last)
    (hR : regionEnd % pageSize = 0 ∧ regionEnd < 2 ^ 64) (hno : ∀ e ∈ s.mem, NormalEntry e)
    (hun : Unrelated Coalescable s.mem) :
    (covered addr regionEnd addr B = [] ∧ s'.mem = s.mem ∧ last = ⟨0, 0⟩) ∨
      ∃ P k Q, s'.mem = P ++ k :: Q ∧ last = k.1 ∧ Unrelated Coalescable Q ∧
        (UpClosed Coalescable (P ++ [k]) ↔
          JoinsUp prot addr A (covered addr regionEnd addr B)) := by
  have hr := h.result
  have hov := h.overlap
  have hmem := h.mem
  have hok := h.walkOk
  cases B with
  | nil => exact .inl ⟨rfl, hr.trans hmem.symm, hov⟩
  | cons e B =>
    rw [walk] at hr
    rw [walkFold] at hov
    rw [covered]
    by_cases hv : Visits .iterateContiguous addr regionEnd addr e
    · rw [if_pos hv] at hr hov ⊢
      rw [hmem] at hno hun
      have hc : WellFormed ([e] ++ B) := hok.wellFormed
      have hhit := hv.hit hR (hok.wellFormed.entries e mem_cons_self) hok.aligned
        (Nat.le_refl addr) (hok.after e mem_cons_self)
      have hn := hno e (mem_append_right A mem_cons_self)
      obtain ⟨Y, Q, hsp, hl, hQ, ha⟩ := walk_overlaps prot hhit.grown growsRegion_end
        hR (Nat.le_of_lt (hok.after e mem_cons_self)) hok.tail
        (fun b hb => hc.between mem_cons_self hb)
        (fun b hb => hno b (mem_append_right A hb)) (isChain_append.mp hun).2.1
      obtain ⟨o, ho⟩ : ∃ o, o = overlapPiece prot e (growsRegion prot e ⟨addr, regionEnd⟩) :=
        ⟨_, rfl⟩
      obtain ⟨X, hX⟩ : ∃ X, X = A ++ lowerPiece e.2.recordedMap.start e
        (growsRegion prot e ⟨addr, regionEnd⟩) := ⟨_, rfl⟩
      have hXun : Unrelated Coalescable X := hX ▸ unrelated_lowerPiece hhit.grown hn hun
      rw [← ho] at hl ha
      obtain ⟨Z, k, hZ, hk⟩ : ∃ Z k, Z ++ [k] = o :: Y ∧
          (o :: Y).getLast (cons_ne_nil o Y) = k :=
        ⟨_, _, dropLast_append_getLast (cons_ne_nil o Y), rfl⟩
      refine .inr ⟨X ++ Z, k, Q, ?_, ?_, hQ, ?_⟩
      · have hli : X ++ Z ++ k :: Q = X ++ (o :: (Y ++ Q)) := by
          rw [← cons_append, ← hZ]
          simp only [append_assoc, cons_append, nil_append]
        rw [hr, hli, ← hsp, hX, ho, grownPieces, protectPieces]
        simp only [append_assoc, cons_append, nil_append]
      · rw [hov, nextOverlap, ← ho, hl, hk]
      · rw [append_assoc, hZ, upClosed_above_iff hXun, ha.upClosed_iff,
          ha.isChain_iff, JoinsUp, joinsBelow_iff hhit hn, ← hX, ← ho]
        simp only [forall_exists_index, and_imp]
    · rw [if_neg hv] at hr hov ⊢
      exact .inl ⟨rfl, hr.trans hmem.symm, hov⟩

/-- With the new permissions, once two neighbours in the range can be merged all later ones can. -/
def MergesReached (s : AddressSpace) (addr numBytes : Nat) (prot : BitVec 32) : Prop :=
  JoinsUp prot addr (s.mem.takeWhile fun e => e.1.end_ ≤ addr)
    (covered addr (ceilPageSize (addr + numBytes)) addr
      (s.mem.dropWhile fun e => e.1.end_ ≤ addr))

instance : Decidable (s.MergesReached addr n prot) :=
  inferInstanceAs (Decidable (JoinsUp prot addr _ _))

theorem ProtectWalk.takeWhile_eq (h : ProtectWalk s addr regionEnd prot A B s' last) :
    s.mem.takeWhile (fun e => e.1.end_ ≤ addr) = A ∧
      s.mem.dropWhile (fun e => e.1.end_ ≤ addr) = B := by
  have hA : ∀ a ∈ A, decide (a.1.end_ ≤ addr) = true := fun a ha => decide_eq_true (h.below a ha)
  have hok := h.walkOk
  rw [h.mem, takeWhile_append_of_pos hA, dropWhile_append_of_pos hA]
  cases B with
  | nil => exact ⟨append_nil A, rfl⟩
  | cons e B =>
    have he : decide (e.1.end_ ≤ addr) = false :=
      decide_eq_false (Nat.not_le_of_lt (hok.after e mem_cons_self))
    rw [takeWhile_cons, dropWhile_cons]
    simp only [he, Bool.false_eq_true, ↓reduceIte, append_nil, and_self]

theorem protect_unrelated_iff (h : Holds (Tidy stack recordedStack) s)
    (ha : Unrelated Coalescable s.mem) (hfit : FitsRange addr n)
    (hs : s.protect addr n prot = some s') :
    Unrelated Coalescable s'.mem ↔ s.MergesReached addr n prot := by
  obtain ⟨hb, _⟩ := PageTable.FitsRange.region hfit
  obtain ⟨hRaligned, _, hRlt⟩ := ceilPageSize_spec hb
  obtain ⟨A, B, s₁, last, hw, hc⟩ := protect_walk prot h.wellFormed hfit.1 hb
  have hR : ceilPageSize (addr + n) % pageSize = 0 ∧ ceilPageSize (addr + n) < 2 ^ 64 :=
    ⟨hRaligned, by omega⟩
  have h₁ := tidy_inherited.protectWalk h hw hR
  rw [MergesReached, hw.takeWhile_eq.1, hw.takeWhile_eq.2]
  rcases hw.around hR (fun e he => (h.entries e he).normal) ha with
    ⟨hn, hmem, rfl⟩ | ⟨P, k, Q, hsp, rfl, hQ, hup⟩
  · have hz : ¬(⟨0, 0⟩ : MemoryRange).size ≠ 0 := not_not.mpr rfl
    rw [hc, if_neg hz] at hs
    cases hs
    rw [hmem, hn]
    exact ⟨fun _ => trivial, fun _ => ha⟩
  · have hok := h₁.wellFormed.entries k (by rw [hsp]; exact mem_append_right P mem_cons_self)
    have hsi : k.1.size ≠ 0 := by
      have hne := hok.nonempty
      rw [MemoryRange.size, ptrSub_eq (Nat.le_of_lt hne) hok.bound]
      omega
    rw [hc, if_pos hsi] at hs
    rw [coalesceAround_unrelated_iff hsp h₁.wellFormed h₁.entries hQ hs, hup]

def filePage (start : Nat) (name : String) (inode : Nat) (prot : BitVec 32) (offset : Nat) :
    MemoryRange × Mapping :=
  let m : KernelMapping := ⟨⟨start, start + 0x1000⟩, name.toList, 0, inode, prot, mapPrivate, offset⟩
  (m.toMemoryRange, { map := m, recordedMap := m })

end AddressSpace

end Attune
