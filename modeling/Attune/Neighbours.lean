import Mathlib

namespace Attune
open List

def neighbours (l : List α) : List (α × α) := l.zip l.tail

theorem neighbours_cons (a b : α) (l : List α) :
    neighbours (a :: b :: l) = (a, b) :: neighbours (b :: l) := rfl

variable {l : List α}

theorem mem_neighbours_iff : p ∈ neighbours l ↔ ∃ A B, l = A ++ p.1 :: p.2 :: B := by
  induction l with
  | nil => simp [neighbours]
  | cons a l ih =>
    cases l with
    | nil =>
      constructor
      · intro h
        cases h
      · rintro ⟨A, B, h⟩
        have hlen := congrArg length h
        simp only [length_cons, length_append, length_nil] at hlen
        omega
    | cons b l =>
      rw [neighbours_cons, mem_cons, ih]
      constructor
      · rintro (rfl | ⟨A, B, h⟩)
        · exact ⟨[], l, rfl⟩
        · exact ⟨a :: A, B, by rw [h, cons_append]⟩
      · rintro ⟨A, B, h⟩
        cases A with
        | nil =>
          rw [nil_append, cons.injEq, cons.injEq] at h
          obtain ⟨rfl, rfl, _⟩ := h
          exact .inl rfl
        | cons c A =>
          rw [cons_append, cons.injEq] at h
          exact .inr ⟨A, B, h.2⟩

theorem map_fst_neighbours (l : List α) : ((neighbours l).map Prod.fst).Sublist l := by
  induction l with
  | nil => exact List.Sublist.slnil
  | cons a l ih =>
    cases l with
    | nil => exact nil_sublist _
    | cons b l =>
      rw [neighbours_cons, map_cons]
      exact ih.cons_cons a

theorem mem_of_mem_neighbours (hp : p ∈ neighbours l) : p.1 ∈ l ∧ p.2 ∈ l := by
  obtain ⟨A, B, rfl⟩ := mem_neighbours_iff.mp hp
  constructor
  · simp
  · simp

theorem pairwise_neighbours (hl : l.Pairwise R) (hp : p ∈ neighbours l) : R p.1 p.2 := by
  obtain ⟨A, B, rfl⟩ := mem_neighbours_iff.mp hp
  exact (pairwise_cons.mp (pairwise_append.mp hl).2.1).1 p.2 mem_cons_self

theorem exists_neighbour (ha : a ∈ l) (hl : l.getLast? ≠ some a) :
    ∃ b, (a, b) ∈ neighbours l := by
  obtain ⟨A, B, rfl⟩ := append_of_mem ha
  cases B with
  | nil => exact absurd getLast?_concat hl
  | cons b B => exact ⟨b, mem_neighbours_iff.mpr ⟨A, B, rfl⟩⟩

theorem findIdx?_absent [BEq α] [LawfulBEq α] {xs : List α} (h : c ∉ xs) :
    xs.findIdx? (· == c) = none := by
  rw [findIdx?_eq_none_iff]
  intro x hx
  rw [beq_eq_false_iff_ne]
  rintro rfl
  exact h hx

theorem findIdx?_first [BEq α] [LawfulBEq α] {xs : List α} (h : c ∉ xs) (ys : List α) :
    (xs ++ c :: ys).findIdx? (· == c) = some xs.length := by
  rw [findIdx?_append, findIdx?_absent h, findIdx?_cons, beq_self_eq_true]
  simp

end Attune
