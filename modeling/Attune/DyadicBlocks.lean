import Mathlib

namespace Attune.Dyadic
open List

/-- A block of at most `2 ^ K` numbers: its size is a power of two and divides its start. -/
def Aligned (K start size : Nat) : Prop := ∃ k ≤ K, size = 2 ^ k ∧ 2 ^ k ∣ start

theorem Aligned.pos (h : Aligned K start size) : 0 < size := by
  obtain ⟨k, _, rfl, _⟩ := h
  exact Nat.two_pow_pos k

theorem Aligned.dvd_of_le (h : Aligned K a s) (h' : Aligned K b t) (hle : s ≤ t) : s ∣ t := by
  obtain ⟨k, _, rfl, _⟩ := h
  obtain ⟨l, _, rfl, _⟩ := h'
  exact Nat.pow_dvd_pow 2 ((Nat.pow_le_pow_iff_right (by decide)).mp hle)

theorem Aligned.dvd_start (h : Aligned K a s) : s ∣ a := by
  obtain ⟨k, _, rfl, hdvd⟩ := h
  exact hdvd

structure Largest (K a b size : Nat) : Prop where
  aligned : Aligned K a size
  fits : a + size ≤ b
  largest : ∀ s, Aligned K a s → a + s ≤ b → s ≤ size

theorem Largest.nested (h : Largest K a b g) (hs : Aligned K p s) (hlo : a ≤ p) (hhi : p < a + g)
    (hf : p + s ≤ b) : p + s ≤ a + g := by
  by_cases hle : s ≤ g
  · -- the end of the large block is a multiple of the small size
    have hsg : s ∣ g := hs.dvd_of_le h.aligned hle
    have hend : s ∣ a + g := Nat.dvd_add (Nat.dvd_trans hsg h.aligned.dvd_start) hsg
    obtain ⟨m, hm⟩ := hs.dvd_start
    obtain ⟨n, hn⟩ := hend
    rw [hn, hm, Nat.mul_lt_mul_left hs.pos] at hhi
    rw [hn, hm, ← Nat.mul_succ]
    exact Nat.mul_le_mul_left s hhi
  · -- a larger block would start where the largest one does
    have hg : g ∣ p := Nat.dvd_trans (h.aligned.dvd_of_le hs (by omega)) hs.dvd_start
    obtain ⟨m, hm⟩ := hg
    obtain ⟨n, hn⟩ := h.aligned.dvd_start
    have hmn : m = n := by
      rw [hm, hn, ← Nat.mul_succ, Nat.mul_lt_mul_left h.aligned.pos] at hhi
      rw [hm, hn] at hlo
      have := Nat.le_of_mul_le_mul_left hlo h.aligned.pos
      omega
    rw [hmn, ← hn] at hm
    subst hm
    exact absurd (h.largest s hs hf) hle

inductive GreedyCover (K b : Nat) : Nat → List (Nat × Nat) → Prop where
  | nil : GreedyCover K b b []
  | cons : Largest K a b g → GreedyCover K b (a + g) l → GreedyCover K b a ((a, g) :: l)

namespace GreedyCover

variable {l : List (Nat × Nat)} (h : GreedyCover K b a l)
include h

theorem within : ∀ x ∈ l, Aligned K x.1 x.2 ∧ a ≤ x.1 ∧ x.1 + x.2 ≤ b := by
  induction h with
  | nil => simp
  | @cons a g l hg hl ih =>
    intro x hx
    rcases mem_cons.mp hx with rfl | hx
    · exact ⟨hg.aligned, Nat.le_refl _, hg.fits⟩
    · obtain ⟨ha, hlo, hhi⟩ := ih x hx
      exact ⟨ha, by omega, hhi⟩

theorem pairwise : l.Pairwise fun x y => x.1 + x.2 ≤ y.1 := by
  induction h with
  | nil => exact List.Pairwise.nil
  | cons _ hl ih => exact pairwise_cons.mpr ⟨fun y hy => (hl.within y hy).2.1, ih⟩

theorem covers (hlo : a ≤ p) (hhi : p < b) : ∃ x ∈ l, x.1 ≤ p ∧ p < x.1 + x.2 := by
  induction h with
  | nil => omega
  | @cons a g l hg hl ih =>
    by_cases hp : p < a + g
    · exact ⟨(a, g), mem_cons_self, hlo, hp⟩
    · obtain ⟨x, hx, hin⟩ := ih (by omega)
      exact ⟨x, mem_cons_of_mem _ hx, hin⟩

theorem inside (hs : Aligned K p s) (hlo : a ≤ p) (hhi : p + s ≤ b) :
    ∃ x ∈ l, x.1 ≤ p ∧ p + s ≤ x.1 + x.2 := by
  induction h with
  | nil =>
    have := hs.pos
    omega
  | @cons a g l hg hl ih =>
    by_cases hp : p < a + g
    · exact ⟨(a, g), mem_cons_self, hlo, hg.nested hs hlo hp hhi⟩
    · obtain ⟨x, hx, hin⟩ := ih (by omega)
      exact ⟨x, mem_cons_of_mem _ hx, hin⟩

theorem eq_of_common (hx : x ∈ l) (hy : y ∈ l) (hpx : x.1 ≤ p)
    (hpx' : p < x.1 + x.2) (hpy : y.1 ≤ p) (hpy' : p < y.1 + y.2) : x = y := by
  induction h with
  | nil => cases hx
  | @cons a g l hg hl ih =>
    have hla : ∀ z ∈ l, a + g ≤ z.1 := fun z hz => (hl.within z hz).2.1
    rcases mem_cons.mp hx with rfl | hx'
    · rcases mem_cons.mp hy with rfl | hy'
      · rfl
      · have := hla y hy'
        omega
    · rcases mem_cons.mp hy with rfl | hy'
      · have := hla x hx'
        omega
      · exact ih hx' hy'

theorem nodup : l.Nodup := by
  have hd : l.Pairwise fun x y => x.1 + x.2 ≤ y.1 ∧ 0 < x.2 :=
    h.pairwise.imp_of_mem fun hx _ hle => ⟨hle, (h.within _ hx).1.pos⟩
  refine hd.imp fun {x y} hxy heq => ?_
  rw [heq] at hxy
  omega

/-- No cover has fewer blocks: each of its blocks is inside one greedy block, and each of those has
one. -/
theorem minimal (other : List (Nat × Nat))
    (ho : ∀ y ∈ other, Aligned K y.1 y.2 ∧ a ≤ y.1 ∧ y.1 + y.2 ≤ b)
    (hc : ∀ p, a ≤ p → p < b → ∃ y ∈ other, y.1 ≤ p ∧ p < y.1 + y.2) :
    l.length ≤ other.length := by
  have hou : ∀ y ∈ other, ∃ x ∈ l, x.1 ≤ y.1 ∧ y.1 + y.2 ≤ x.1 + x.2 := by
    intro y hy
    obtain ⟨ha, hlo, hhi⟩ := ho y hy
    exact h.inside ha hlo hhi
  choose! outer houter_mem houter_in using hou
  have hsu : l ⊆ other.map outer := by
    intro x hx
    obtain ⟨ha, hlo, hhi⟩ := h.within x hx
    have hpos := ha.pos
    obtain ⟨y, hy, hle, hlt⟩ := hc x.1 hlo (by omega)
    have hin := houter_in y hy
    have heq : outer y = x := h.eq_of_common (houter_mem y hy) hx (p := x.1) (by omega) (by omega)
      (Nat.le_refl _) (by omega)
    rw [← heq]
    exact mem_map_of_mem hy
  have hle := (subperm_of_subset h.nodup hsu).length_le
  rwa [length_map] at hle

end GreedyCover

end Attune.Dyadic
