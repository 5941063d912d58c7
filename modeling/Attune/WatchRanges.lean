import Attune.DyadicBlocks
import Attune.MemoryRange

namespace Attune.Watch
open Dyadic List

def trySplitUnalignedRange (range : MemoryRange) (bytes : Nat) (result : List MemoryRange) :
    Option (MemoryRange × List MemoryRange) :=
  if range.start &&& (bytes - 1) ≠ 0 ∨ range.size < bytes then none
  else some (⟨ptrAdd range.start bytes, range.end_⟩,
    result ++ [⟨range.start, ptrAdd range.start bytes⟩])

/-- One round of the loop: the first size that can be split off, from 8 down to 1. -/
def splitOnce (r : MemoryRange) (result : List MemoryRange) : MemoryRange × List MemoryRange :=
  match trySplitUnalignedRange r 8 result with
  | some next => next
  | none =>
    match trySplitUnalignedRange r 4 result with
    | some next => next
    | none =>
      match trySplitUnalignedRange r 2 result with
      | some next => next
      | none => (trySplitUnalignedRange r 1 result).getD (r, result)

def splitLoop : Nat → MemoryRange → List MemoryRange → Option (List MemoryRange)
  | 0, _, _ => none
  | fuel + 1, r, result =>
    if 0 < r.size then splitLoop fuel (splitOnce r result).1 (splitOnce r result).2
    else some result

def splitRange (range : MemoryRange) : Option (List MemoryRange) :=
  splitLoop (range.size + 1) range []

def blockRange (x : Nat × Nat) : MemoryRange := ⟨x.1, ptrAdd x.1 x.2⟩

section Split

variable {a n : Nat}

theorem size_wrapped (h : a + n ≤ 2 ^ 64) (hn : n < 2 ^ 64) :
    MemoryRange.size ⟨a % 2 ^ 64, (a + n) % 2 ^ 64⟩ = n := by
  simp only [MemoryRange.size, ptrSub]
  omega

theorem trySplitUnalignedRange_eq (k : Nat) (r : MemoryRange) (result : List MemoryRange) :
    trySplitUnalignedRange r (2 ^ k) result =
      if 2 ^ k ∣ r.start ∧ 2 ^ k ≤ r.size then
        some (⟨ptrAdd r.start (2 ^ k), r.end_⟩, result ++ [blockRange (r.start, 2 ^ k)])
      else none := by
  rw [trySplitUnalignedRange, Nat.and_two_pow_sub_one_eq_mod]
  by_cases hdvd : 2 ^ k ∣ r.start
  · rw [Nat.mod_eq_zero_of_dvd hdvd]
    by_cases hle : 2 ^ k ≤ r.size
    · rw [if_neg (by omega), if_pos ⟨hdvd, hle⟩]
      rfl
    · rw [if_pos (by omega), if_neg (fun h => hle h.2)]
  · rw [if_pos (Or.inl fun h => hdvd (Nat.dvd_of_mod_eq_zero h)), if_neg fun h => hdvd h.1]

theorem largest_of_first (hk : k ≤ 3) (hdvd : 2 ^ k ∣ a) (hle : 2 ^ k ≤ n)
    (hf : ∀ j ≤ 3, k < j → ¬(2 ^ j ∣ a ∧ 2 ^ j ≤ n)) : Largest 3 a (a + n) (2 ^ k) where
  aligned := ⟨k, hk, rfl, hdvd⟩
  fits := by omega
  largest s hs hfits := by
    obtain ⟨j, hj, rfl, hjd⟩ := hs
    by_contra hlt
    have hkj : 2 ^ k < 2 ^ j := by omega
    have hjn : 2 ^ j ≤ n := by omega
    exact hf j hj ((Nat.pow_lt_pow_iff_right Nat.one_lt_two).mp hkj) ⟨hjd, hjn⟩

theorem splitOnce_spec (r : MemoryRange) (hn : 0 < r.size) (result : List MemoryRange) :
    ∃ g, Largest 3 r.start (r.start + r.size) g ∧
      splitOnce r result = (⟨ptrAdd r.start g, r.end_⟩, result ++ [blockRange (r.start, g)]) := by
  have h8 := trySplitUnalignedRange_eq 3 r result
  have h4 := trySplitUnalignedRange_eq 2 r result
  have h2 := trySplitUnalignedRange_eq 1 r result
  have h1 := trySplitUnalignedRange_eq 0 r result
  simp only [Nat.reducePow] at h8 h4 h2 h1
  rw [splitOnce, h8, h4, h2, h1]
  by_cases c8 : 8 ∣ r.start ∧ 8 ≤ r.size
  · rw [if_pos c8]
    exact ⟨2 ^ 3, largest_of_first (Nat.le_refl 3) c8.1 c8.2 (by omega), rfl⟩
  rw [if_neg c8]
  by_cases c4 : 4 ∣ r.start ∧ 4 ≤ r.size
  · rw [if_pos c4]
    refine ⟨2 ^ 2, largest_of_first (by decide) c4.1 c4.2 fun j hj hlt => ?_, rfl⟩
    obtain rfl : j = 3 := by omega
    exact c8
  rw [if_neg c4]
  by_cases c2 : 2 ∣ r.start ∧ 2 ≤ r.size
  · rw [if_pos c2]
    refine ⟨2 ^ 1, largest_of_first (by decide) c2.1 c2.2 fun j hj hlt => ?_, rfl⟩
    obtain rfl | rfl : j = 2 ∨ j = 3 := by omega
    · exact c4
    · exact c8
  rw [if_neg c2, if_pos ⟨Nat.one_dvd _, hn⟩]
  refine ⟨2 ^ 0, largest_of_first (by decide) (Nat.one_dvd _) hn fun j hj hlt => ?_, rfl⟩
  obtain rfl | rfl | rfl : j = 1 ∨ j = 2 ∨ j = 3 := by omega
  · exact c2
  · exact c4
  · exact c8

theorem splitLoop_spec (h : a + n ≤ 2 ^ 64) (hn : n < 2 ^ 64) (hfu : n < fuel)
    (result : List MemoryRange) :
    ∃ l, GreedyCover 3 (a + n) a l ∧
      splitLoop fuel ⟨a % 2 ^ 64, (a + n) % 2 ^ 64⟩ result = some (result ++ l.map blockRange) := by
  induction fuel generalizing a n result with
  | zero => omega
  | succ fuel ih =>
    rw [splitLoop, size_wrapped h hn]
    by_cases hpos : 0 < n
    · have hst : a % 2 ^ 64 = a := Nat.mod_eq_of_lt (by omega)
      rw [if_pos hpos]
      obtain ⟨g, hg, hsp⟩ := splitOnce_spec ⟨a % 2 ^ 64, (a + n) % 2 ^ 64⟩
        (by rwa [size_wrapped h hn]) result
      rw [size_wrapped h hn] at hg
      dsimp only at hg hsp
      rw [hst] at hg hsp
      rw [hst, hsp]
      have hf := hg.fits
      have hgp := hg.aligned.pos
      have hend : a + n = a + g + (n - g) := by omega
      obtain ⟨l, hl, hlo⟩ := ih (a := a + g) (n := n - g) (by omega) (by omega) (by omega)
        (result ++ [blockRange (a, g)])
      rw [← hend] at hl hlo
      refine ⟨(a, g) :: l, .cons hg hl, ?_⟩
      rw [ptrAdd, hlo, map_cons, append_assoc, singleton_append]
    · obtain rfl : n = 0 := by omega
      rw [if_neg hpos]
      exact ⟨[], .nil, by simp⟩

theorem splitRange_spec (h : a + n ≤ 2 ^ 64) (hn : n < 2 ^ 64) : ∃ l, GreedyCover 3 (a + n) a l ∧
      splitRange ⟨a % 2 ^ 64, (a + n) % 2 ^ 64⟩ = some (l.map blockRange) := by
  obtain ⟨l, hl, hlo⟩ := splitLoop_spec h hn (Nat.lt_succ_self n) []
  refine ⟨l, hl, ?_⟩
  rw [splitRange, size_wrapped h hn]
  exact hlo

def Piece (r : MemoryRange) : Prop :=
  r.size ∈ [1, 2, 4, 8] ∧ r.start % r.size = 0

theorem aligned_iff : Aligned 3 a n ↔ n ∈ [1, 2, 4, 8] ∧ a % n = 0 := by
  simp only [mem_cons, not_mem_nil, or_false]
  constructor
  · rintro ⟨k, hk, rfl, hdvd⟩
    refine ⟨?_, Nat.mod_eq_zero_of_dvd hdvd⟩
    obtain rfl | rfl | rfl | rfl : k = 0 ∨ k = 1 ∨ k = 2 ∨ k = 3 := by omega
    all_goals simp
  · rintro ⟨rfl | rfl | rfl | rfl, hmod⟩
    · exact ⟨0, by decide, rfl, Nat.dvd_of_mod_eq_zero hmod⟩
    · exact ⟨1, by decide, rfl, Nat.dvd_of_mod_eq_zero hmod⟩
    · exact ⟨2, by decide, rfl, Nat.dvd_of_mod_eq_zero hmod⟩
    · exact ⟨3, by decide, rfl, Nat.dvd_of_mod_eq_zero hmod⟩

theorem blockRange_size (h : Aligned 3 a n) (hend : a + n ≤ 2 ^ 64) : (blockRange (a, n)).size = n := by
  have hn := (aligned_iff.mp h).1
  simp only [mem_cons, not_mem_nil, or_false] at hn
  simp only [blockRange, MemoryRange.size, ptrSub, ptrAdd]
  omega

theorem blockRange_piece (h : Aligned 3 a n) (hend : a + n ≤ 2 ^ 64) : Piece (blockRange (a, n)) := by
  rw [Piece, blockRange_size h hend]
  exact aligned_iff.mp h

end Split

section Below

theorem greedy_ranges (h : GreedyCover 3 end_ start l) (hend : end_ < 2 ^ 64) :
    ∀ r ∈ l.map blockRange,
      Piece r ∧ start ≤ r.start ∧ r.start + r.size = r.end_ ∧ r.end_ ≤ end_ := by
  intro r hr
  obtain ⟨⟨a, n⟩, hx, rfl⟩ := mem_map.mp hr
  obtain ⟨ha, hlo, hhi⟩ := h.within (a, n) hx
  dsimp only at ha hlo hhi
  have hsi := blockRange_size ha (by omega)
  have hb : (blockRange (a, n)).end_ = a + n := ptrAdd_eq (by omega)
  refine ⟨blockRange_piece ha (by omega), hlo, ?_, ?_⟩
  · rw [hsi, hb]
    rfl
  · rw [hb]
    exact hhi

theorem greedy_consecutive (h : GreedyCover 3 end_ start l) (hend : end_ < 2 ^ 64) :
    (l.map blockRange).IsChain (fun r r' => r.end_ = r'.start) ∧
      ∀ r ∈ (l.map blockRange).head?, r.start = start := by
  induction h with
  | nil => exact ⟨.nil, by simp⟩
  | @cons a g l hg hl ih =>
    obtain ⟨hc, hh⟩ := ih
    have hf := hg.fits
    refine ⟨?_, by simp [blockRange]⟩
    rw [map_cons, isChain_cons]
    refine ⟨fun r hr => ?_, hc⟩
    rw [hh r hr]
    exact ptrAdd_eq (by omega)

theorem split_range_fewest (start end_ : Nat) (hle : start ≤ end_) (hend : end_ < 2 ^ 64) :
    ∃ pieces, splitRange ⟨start, end_⟩ = some pieces ∧
      (∀ r ∈ pieces, r.size ∈ [1, 2, 4, 8] ∧ r.start % r.size = 0 ∧ r.start + r.size = r.end_) ∧
      pieces.IsChain (fun r r' => r.end_ = r'.start) ∧
      pieces.Pairwise (fun r r' => r.end_ ≤ r'.start) ∧
      (∀ p, (∃ r ∈ pieces, r.start ≤ p ∧ p < r.end_) ↔ start ≤ p ∧ p < end_) ∧
      ∀ other : List MemoryRange,
        (∀ r ∈ other, r.size ∈ [1, 2, 4, 8] ∧ r.start % r.size = 0 ∧ r.start + r.size = r.end_) →
        (∀ p, (∃ r ∈ other, r.start ≤ p ∧ p < r.end_) ↔ start ≤ p ∧ p < end_) →
        pieces.length ≤ other.length := by
  obtain ⟨n, rfl⟩ := Nat.exists_eq_add_of_le hle
  obtain ⟨l, hl, hsp⟩ := splitRange_spec (a := start) (n := n) (by omega) (by omega)
  rw [Nat.mod_eq_of_lt (by omega), Nat.mod_eq_of_lt hend] at hsp
  have hra := greedy_ranges hl hend
  refine ⟨l.map blockRange, hsp, fun r hr => ?_, (greedy_consecutive hl hend).1, ?_, ?_, ?_⟩
  · obtain ⟨⟨hsi, hmod⟩, _, hsum, _⟩ := hra r hr
    exact ⟨hsi, hmod, hsum⟩
  · rw [pairwise_map]
    refine hl.pairwise.imp_of_mem fun {x y} hx _ hxy => ?_
    have hx' := (hl.within x hx).2.2
    rw [blockRange, ptrAdd_eq (by omega)]
    exact hxy
  · intro p
    constructor
    · rintro ⟨r, hr, hlo, hhi⟩
      obtain ⟨_, hst, _, hsto⟩ := hra r hr
      omega
    · rintro ⟨hlo, hhi⟩
      obtain ⟨x, hx, hxlo, hxhi⟩ := hl.covers hlo hhi
      have hx' := (hl.within x hx).2.2
      refine ⟨blockRange x, mem_map_of_mem hx, hxlo, ?_⟩
      rw [blockRange, ptrAdd_eq (by omega)]
      exact hxhi
  · intro other ho hc
    have hb : ∀ y ∈ other.map fun r => (r.start, r.size),
        Aligned 3 y.1 y.2 ∧ start ≤ y.1 ∧ y.1 + y.2 ≤ start + n := by
      intro y hy
      obtain ⟨r, hr, rfl⟩ := mem_map.mp hy
      obtain ⟨hsi, hmod, hsum⟩ := ho r hr
      have ha : Aligned 3 r.start r.size := aligned_iff.mpr ⟨hsi, hmod⟩
      have hpos := ha.pos
      -- the first and the last byte of the piece are in the range
      have hf := (hc r.start).mp ⟨r, hr, Nat.le_refl _, by omega⟩
      have hla := (hc (r.end_ - 1)).mp ⟨r, hr, by omega, by omega⟩
      refine ⟨ha, hf.1, ?_⟩
      dsimp only
      omega
    have hco : ∀ p, start ≤ p → p < start + n →
        ∃ y ∈ other.map fun r => (r.start, r.size), y.1 ≤ p ∧ p < y.1 + y.2 := by
      intro p hlo hhi
      obtain ⟨r, hr, hrlo, hrhi⟩ := (hc p).mpr ⟨hlo, hhi⟩
      refine ⟨(r.start, r.size), mem_map_of_mem hr, hrlo, ?_⟩
      rw [(ho r hr).2.2]
      exact hrhi
    have hle := hl.minimal _ hb hco
    rwa [length_map] at hle ⊢

/-- Three sizes are needed from an odd address on. -/
theorem split_range_fewest_odd : splitRange ⟨0x1003, 0x100e⟩ =
      some [⟨0x1003, 0x1004⟩, ⟨0x1004, 0x1008⟩, ⟨0x1008, 0x100c⟩, ⟨0x100c, 0x100e⟩] ∧
    ∃ pieces, splitRange ⟨0x1003, 0x100e⟩ = some pieces ∧
      pieces.Pairwise (fun r r' => r.end_ ≤ r'.start) := by
  refine ⟨by decide, ?_⟩
  obtain ⟨pieces, hsp, _, _, hd, _⟩ :=
    split_range_fewest 0x1003 0x100e (by decide) (by decide)
  exact ⟨pieces, hsp, hd⟩

end Below

end Attune.Watch
