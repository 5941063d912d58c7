import Attune.AddressSpace

namespace Attune.DontFork
open List OrderedMap MemoryRange

structure InOrder (ranges : RangeSet) : Prop where
  nonempty : ∀ e ∈ ranges, e.1.start < e.1.end_
  ordered : ranges.Pairwise fun a b => a.1.end_ ≤ b.1.start

def Covers (ranges : RangeSet) (p : Nat) : Prop := ∃ e ∈ ranges, e.1.start ≤ p ∧ p < e.1.end_

section Order

variable {A B : RangeSet}

theorem InOrder.left (h : InOrder (A ++ B)) : InOrder A :=
  ⟨fun e he => h.nonempty e (mem_append_left B he), (pairwise_append.mp h.ordered).1⟩

theorem InOrder.right (h : InOrder (A ++ B)) : InOrder B :=
  ⟨fun e he => h.nonempty e (mem_append_right A he), (pairwise_append.mp h.ordered).2.1⟩

theorem InOrder.between (h : InOrder (A ++ B)) (ha : a ∈ A) (hb : b ∈ B) : a.1.end_ ≤ b.1.start :=
  (pairwise_append.mp h.ordered).2.2 a ha b hb

theorem InOrder.append (hA : InOrder A) (hB : InOrder B)
    (h : ∀ a ∈ A, ∀ b ∈ B, a.1.end_ ≤ b.1.start) : InOrder (A ++ B) where
  nonempty e he := by
    rcases mem_append.mp he with he | he
    · exact hA.nonempty e he
    · exact hB.nonempty e he
  ordered := pairwise_append.mpr ⟨hA.ordered, hB.ordered, h⟩

theorem InOrder.nil : InOrder [] := ⟨by simp, List.Pairwise.nil⟩

theorem InOrder.singleton (h : r.start < r.end_) : InOrder [(r, ())] :=
  ⟨by simpa using h, pairwise_singleton _ _⟩

theorem InOrder.start_lt (h : InOrder (e :: B)) (hb : b ∈ B) : e.1.end_ ≤ b.1.start :=
  (pairwise_cons.mp h.ordered).1 b hb

theorem less_eq (a b : MemoryRange) :
    less a b = true ↔ a.start < b.start ∨ a.start = b.start ∧ a.end_ < b.end_ := by
  rw [MemoryRange.less]
  split <;> simp <;> omega

theorem not_less_eq (a b : MemoryRange) :
    less a b = false ↔ b.start < a.start ∨ a.start = b.start ∧ b.end_ ≤ a.end_ := by
  rw [← Bool.not_eq_true, less_eq]
  omega

end Order

def upperRest (hit : RangeSet) (range : MemoryRange) : RangeSet :=
  match hit.getLast? with
  | some e => if range.end_ < e.1.end_ then [(⟨range.end_, e.1.end_⟩, ())] else []
  | none => []

section Remove

variable {ranges : RangeSet} {range : MemoryRange}

/-- The entries below the removed range, those it is taken from, and those above it. -/
structure Split (ranges : RangeSet) (range : MemoryRange) (A H T : RangeSet) : Prop where
  eq : ranges = A ++ (H ++ T)
  below : ∀ a ∈ A, less a.1 range = true
  hit : ∀ h ∈ H, less h.1 range = false ∧ range.start ≤ h.1.start ∧ h.1.start < range.end_
  above : ∀ t ∈ T, range.end_ ≤ t.1.start

theorem dropWhile_le (h : InOrder ranges) (c : Nat) :
    ∀ t ∈ ranges.dropWhile fun e => decide (e.1.start < c), c ≤ t.1.start := by
  intro t ht
  refine Nat.le_of_not_lt (of_decide_eq_false (dropWhile_not ?_ t ht))
  refine h.ordered.imp_of_mem fun ha _ hab hb => decide_eq_true ?_
  have hb := of_decide_eq_true hb
  have hne := h.nonempty _ ha
  omega

theorem lowerBound_not_less (h : InOrder ranges) (range : MemoryRange) :
    ∀ t ∈ lowerBound less range ranges,
      less t.1 range = false := by
  apply dropWhile_not
  refine h.ordered.imp_of_mem fun ha _ hab hb => ?_
  have hne := h.nonempty _ ha
  rw [less_eq] at hb ⊢
  omega

theorem insert_rest (h : InOrder (A ++ (H ++ T))) (hsp : Split ranges range A H T) (he : e ∈ H)
    (hr : range.start < range.end_) (hre : range.end_ < e.1.end_) :
    insert less ⟨range.end_, e.1.end_⟩ () (A ++ T) =
      A ++ (⟨range.end_, e.1.end_⟩, ()) :: T := by
  have hT : ∀ t ∈ T, range.end_ < t.1.start := by
    intro t ht
    have := h.right.between he ht
    omega
  apply insert_gap
  · intro a ha
    have := (less_eq _ _).mp (hsp.below a ha)
    rw [less_eq]
    dsimp only
    omega
  · intro t ht
    have := hT t ht
    rw [not_less_eq]
    dsimp only
    omega
  · intro t ht
    have := hT t ht
    rw [less_eq]
    dsimp only
    omega

theorem removeRange_spec (h : InOrder ranges) (hr : range.start < range.end_) :
    ∃ A H T, Split ranges range A H T ∧
      removeRange ranges range = A ++ (upperRest H range ++ T) := by
  generalize hA : below less range ranges = A
  generalize hta : lowerBound less range ranges = tail
  generalize hH : (tail.takeWhile fun e => decide (e.1.start < range.end_)) = H
  generalize hT : (tail.dropWhile fun e => decide (e.1.start < range.end_)) = T
  have hra : A ++ tail = ranges := by
    rw [← hA, ← hta]
    exact below_append_lowerBound _ _ _
  have ht : H ++ T = tail := by
    rw [← hH, ← hT]
    exact takeWhile_append_dropWhile
  have hsp : Split ranges range A H T := by
    refine ⟨by rw [ht, hra], fun a ha => ?_, fun e he => ?_, ?_⟩
    · rw [← hA] at ha
      exact mem_takeWhile_imp (p := fun e : MemoryRange × Unit => less e.1 range) ha
    · have hl := lowerBound_not_less h range e
        (by rw [hta, ← ht]; exact mem_append_left T he)
      rw [← hH] at he
      have hst := mem_takeWhile_imp he
      rw [decide_eq_true_eq] at hst
      have := (not_less_eq _ _).mp hl
      exact ⟨hl, by omega, hst⟩
    · rw [← hT]
      rw [← hra] at h
      exact dropWhile_le h.right _
  refine ⟨A, H, T, hsp, ?_⟩
  rw [removeRange]
  dsimp only
  rw [hta, hH, hT, hA]
  rcases eq_nil_or_concat H with rfl | ⟨H', e, rfl⟩
  · simp [upperRest, hsp.eq]
  obtain ⟨x, hx⟩ : ∃ x, (H'.concat e).head? = some x := by cases H' <;> simp
  have hxm : x ∈ H'.concat e := mem_of_mem_head? hx
  have hla : (H'.concat e).getLast? = some e := by simp
  have hxs : ¬x.1.start < range.start := by
    have := (hsp.hit x hxm).2.1
    omega
  rw [upperRest, hx, hla]
  dsimp only
  rw [if_neg hxs]
  by_cases hre : range.end_ < e.1.end_
  · rw [if_pos hre, if_pos hre]
    exact insert_rest (hsp.eq ▸ h) hsp (by simp) hr hre
  · rw [if_neg hre, if_neg hre]
    rfl

theorem mem_upperRest (hx : x ∈ upperRest H range) :
    ∃ e, H.getLast? = some e ∧ range.end_ < e.1.end_ ∧ x = (⟨range.end_, e.1.end_⟩, ()) := by
  rw [upperRest] at hx
  split at hx
  · next e he =>
    split at hx
    · next hre => exact ⟨e, he, hre, mem_singleton.mp hx⟩
    · cases hx
  · cases hx

theorem covers_upperRest (h : InOrder H) (hhit : ∀ e ∈ H, e.1.start < range.end_) :
    Covers (upperRest H range) p ↔ Covers H p ∧ range.end_ ≤ p := by
  constructor
  · rintro ⟨x, hx, hlo, hhi⟩
    obtain ⟨e, he, hre, rfl⟩ := mem_upperRest hx
    have hmem := mem_of_getLast? he
    have hst := hhit e hmem
    dsimp only at hlo hhi
    exact ⟨⟨e, hmem, by omega, hhi⟩, hlo⟩
  · rintro ⟨⟨e, he, hlo, hhi⟩, hp⟩
    -- only the last entry reaches beyond the range
    obtain ⟨H', last, rfl⟩ := (eq_nil_or_concat H).resolve_left (ne_nil_of_mem he)
    rw [concat_eq_append] at h he hhit
    have hmem : last ∈ H' ++ [last] := mem_append_right H' (mem_singleton_self last)
    obtain rfl : e = last := by
      rcases mem_append.mp he with he | he
      · have := h.between he (mem_singleton_self last)
        have := hhit last hmem
        omega
      · exact mem_singleton.mp he
    have hre : range.end_ < e.1.end_ := by omega
    refine ⟨(⟨range.end_, e.1.end_⟩, ()), ?_, hp, hhi⟩
    rw [upperRest, concat_eq_append, getLast?_append, getLast?_singleton]
    simp [hre]

theorem upperRest_inOrder : InOrder (upperRest H range) := by
  rw [upperRest]
  split
  · split
    · next hre => exact .singleton hre
    · exact .nil
  · exact .nil

theorem covers_append : Covers (A ++ B) p ↔ Covers A p ∨ Covers B p := by
  simp only [Covers, mem_append, or_and_right, exists_or]

/-- No range that comes before the given one overlaps it. -/
def Clean (ranges : RangeSet) (range : MemoryRange) : Prop :=
  ∀ e ∈ ranges, less e.1 range = true → e.1.intersects range = false

theorem Clean.below (hc : Clean ranges range) (h : InOrder ranges)
    (hr : range.start < range.end_) (hsp : Split ranges range A H T) (he : e ∈ A) :
    e.1.end_ ≤ range.start := by
  have hl := hsp.below e he
  have he : e ∈ ranges := hsp.eq ▸ mem_append_left _ he
  have hno := hc e he hl
  have hne := h.nonempty e he
  rw [less_eq] at hl
  simp only [intersects, decide_eq_false_iff_not] at hno
  omega

theorem upper_inOrder (h : InOrder ranges) (hsp : Split ranges range A H T) :
    InOrder (upperRest H range ++ T) ∧ ∀ x ∈ upperRest H range ++ T, range.end_ ≤ x.1.start := by
  have h' : InOrder (A ++ (H ++ T)) := hsp.eq ▸ h
  constructor
  · apply InOrder.append upperRest_inOrder h'.right.right
    intro x hx t ht
    obtain ⟨e, he, _, rfl⟩ := mem_upperRest hx
    have hle : e.1.end_ ≤ t.1.start := h'.right.between (mem_of_getLast? he) ht
    exact hle
  · intro x hx
    rcases mem_append.mp hx with hx | hx
    · obtain ⟨e, _, _, rfl⟩ := mem_upperRest hx
      exact Nat.le_refl _
    · exact hsp.above x hx

theorem removeRange_clean (h : InOrder ranges) (hr : range.start < range.end_)
    (hc : Clean ranges range) :
    InOrder (removeRange ranges range) ∧ ∀ p, Covers (removeRange ranges range) p ↔
      Covers ranges p ∧ ¬(range.start ≤ p ∧ p < range.end_) := by
  obtain ⟨A, H, T, hsp, heq⟩ := removeRange_spec h hr
  have h' : InOrder (A ++ (H ++ T)) := hsp.eq ▸ h
  have hA : ∀ a ∈ A, a.1.end_ ≤ range.start := fun a => hc.below h hr hsp
  obtain ⟨hu, hst⟩ := upper_inOrder h hsp
  rw [heq]
  refine ⟨InOrder.append h'.left hu fun a ha x hx => ?_, fun p => ?_⟩
  · have := hA a ha
    have := hst x hx
    omega
  · have hhit : ∀ e ∈ H, e.1.start < range.end_ := fun e he => (hsp.hit e he).2.2
    rw [hsp.eq, covers_append, covers_append, covers_append, covers_append,
      covers_upperRest h'.right.left hhit]
    constructor
    · rintro (⟨a, ha, hlo, hhi⟩ | ⟨hH, hp⟩ | ⟨t, ht, hlo, hhi⟩)
      · have := hA a ha
        exact ⟨Or.inl ⟨a, ha, hlo, hhi⟩, by omega⟩
      · exact ⟨Or.inr (Or.inl hH), by omega⟩
      · have := hsp.above t ht
        exact ⟨Or.inr (Or.inr ⟨t, ht, hlo, hhi⟩), by omega⟩
    · rintro ⟨hA' | ⟨e, he, hlo, hhi⟩ | hT', hout⟩
      · exact Or.inl hA'
      · have := (hsp.hit e he).2.1
        exact Or.inr (Or.inl ⟨⟨e, he, hlo, hhi⟩, by omega⟩)
      · exact Or.inr (Or.inr hT')

theorem Split.mem_below (hsp : Split ranges range A H T) (hr : range.start < range.end_)
    (he : e ∈ ranges) (hl : less e.1 range = true) : e ∈ A := by
  rw [hsp.eq] at he
  rcases mem_append.mp he with he | he
  · exact he
  rcases mem_append.mp he with he | he
  · rw [(hsp.hit e he).1] at hl
    cases hl
  · have := hsp.above e he
    rw [less_eq] at hl
    omega

variable (h : InOrder ranges) (hr : range.start < range.end_)
include h hr

theorem addRange_spec : ∃ A H T, Split ranges range A H T ∧
      removeRange ranges range = A ++ (upperRest H range ++ T) ∧
      addRange ranges range = A ++ ([(range, ())] ++ (upperRest H range ++ T)) := by
  obtain ⟨A, H, T, hsp, heq⟩ := removeRange_spec h hr
  obtain ⟨_, hst⟩ := upper_inOrder h hsp
  refine ⟨A, H, T, hsp, heq, ?_⟩
  rw [addRange, heq]
  apply insert_gap
  · exact hsp.below
  · intro x hx
    have := hst x hx
    rw [not_less_eq]
    omega
  · intro x hx
    have := hst x hx
    rw [less_eq]
    omega

theorem addRange_clean (hc : Clean ranges range) :
    InOrder (addRange ranges range) ∧ ∀ p, Covers (addRange ranges range) p ↔
      Covers ranges p ∨ range.start ≤ p ∧ p < range.end_ := by
  obtain ⟨A, H, T, hsp, hre, heq⟩ := addRange_spec h hr
  obtain ⟨ho, hco⟩ := removeRange_clean h hr hc
  obtain ⟨hu, hst⟩ := upper_inOrder h hsp
  rw [hre] at ho hco
  rw [heq]
  refine ⟨InOrder.append ho.left (InOrder.append (.singleton hr) hu fun a ha x hx => ?_)
    fun a ha x hx => ?_, fun p => ?_⟩
  · rw [mem_singleton.mp ha]
    exact hst x hx
  · have := hc.below h hr hsp ha
    rcases mem_append.mp hx with hx | hx
    · rw [mem_singleton.mp hx]
      exact this
    · have := hst x hx
      omega
  · have hone : Covers [(range, ())] p ↔ range.start ≤ p ∧ p < range.end_ := by simp [Covers]
    have hres := hco p
    rw [covers_append] at hres
    rw [covers_append, covers_append, or_left_comm, hres, hone]
    by_cases hin : range.start ≤ p ∧ p < range.end_
    · simp [hin]
    · simp [hin]

end Remove

end Attune.DontFork
