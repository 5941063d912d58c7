import Attune.KernelMapping
import Attune.Neighbours

namespace Attune
open List

structure OrderedMappings where
  mappings : List KernelMapping
  inhabited : ∀ km ∈ mappings, km.start < km.end_
  fits : ∀ km ∈ mappings, km.end_ < 2 ^ 64
  ordered : mappings.Pairwise fun a b => a.end_ ≤ b.start

def gap (p : KernelMapping × KernelMapping) : Nat := p.2.start - p.1.end_

/-- The same difference as the source computes it, narrowed to an `int`. -/
def space (prev km : KernelMapping) : BitVec 32 := BitVec.ofNat 32 (ptrSub km.start prev.end_)

namespace OrderedMappings

variable (m : OrderedMappings)

theorem ends_increase : m.mappings.Pairwise fun a b => a.end_ < b.end_ := by
  refine m.ordered.imp_of_mem ?_
  intro a b _ hb hab
  have hin := m.inhabited b hb
  omega

theorem neighbours_increase : (neighbours m.mappings).Pairwise fun p q => p.1.end_ < q.1.end_ := by
  have hfst := m.ends_increase.sublist (map_fst_neighbours m.mappings)
  rw [pairwise_map] at hfst
  exact hfst

variable {m}

theorem around_neighbours (hp : p ∈ neighbours m.mappings) (hkm : km ∈ m.mappings) :
    km.end_ ≤ p.1.end_ ∨ p.2.start ≤ km.start := by
  obtain ⟨A, B, hsp⟩ := mem_neighbours_iff.mp hp
  have ho := m.ordered
  have hinc := m.ends_increase
  rw [hsp] at hkm ho hinc
  rcases mem_append.mp hkm with hA | hB
  · exact .inl (Nat.le_of_lt ((pairwise_append.mp hinc).2.2 km hA p.1 mem_cons_self))
  obtain ⟨_, ht⟩ := pairwise_cons.mp (pairwise_append.mp ho).2.1
  rcases mem_cons.mp hB with rfl | hB
  · exact .inl le_rfl
  · rcases mem_cons.mp hB with rfl | hB
    · exact .inr le_rfl
    · have hin := m.inhabited p.2 (by simp [hsp])
      have hle := (pairwise_cons.mp ht).1 km hB
      exact .inr (by omega)

theorem neighbours_ordered (hp : p ∈ neighbours m.mappings) : p.1.end_ ≤ p.2.start :=
  pairwise_neighbours m.ordered hp

theorem end_le_last (hl : m.mappings.getLast? = some last) (hkm : km ∈ m.mappings) :
    km.end_ ≤ last.end_ := by
  obtain ⟨A, hA⟩ := getLast?_eq_some_iff.mp hl
  have hinc := m.ends_increase
  rw [hA] at hkm hinc
  rcases mem_append.mp hkm with h | h
  · exact Nat.le_of_lt ((pairwise_append.mp hinc).2.2 km h last (mem_singleton_self _))
  · rw [mem_singleton.mp h]

theorem neighbour_end_lt_last (hl : m.mappings.getLast? = some last)
    (hp : p ∈ neighbours m.mappings) : p.1.end_ < last.end_ := by
  have hmem := (mem_of_mem_neighbours hp).2
  have hle := end_le_last hl hmem
  have hin := m.inhabited p.2 hmem
  have hgap := neighbours_ordered hp
  omega

theorem space_toNat (hp : p ∈ neighbours m.mappings) : (space p.1 p.2).toNat = gap p % 2 ^ 32 := by
  have hmem := (mem_of_mem_neighbours hp).2
  have hin := m.inhabited p.2 hmem
  have hf := m.fits p.2 hmem
  rw [space, BitVec.toNat_ofNat, ptrSub_eq (neighbours_ordered hp) (by omega), gap]

end OrderedMappings

end Attune
