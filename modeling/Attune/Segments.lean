import Mathlib

namespace Attune.Segments
open List

/-- How the members of a list lie on the number line: each covers from `lo` up to `hi` and gives
values there. -/
structure Layout (α β : Type) where
  lo : α → Nat
  hi : α → Nat
  val : α → Nat → β

namespace Layout

variable {α β : Type} (L : Layout α β)

def Covers (a : α) (p : Nat) : Prop := L.lo a ≤ p ∧ p < L.hi a

instance (a : α) (p : Nat) : Decidable (L.Covers a p) := inferInstanceAs (Decidable (_ ∧ _))

def view : List α → Nat → Option β
  | [], _ => none
  | a :: l, p => if L.Covers a p then some (L.val a p) else view l p

def Ordered (l : List α) : Prop := l.Pairwise fun a b => L.hi a ≤ L.lo b

variable {L} {a b : α} {l A B : List α} {p : Nat}

@[simp] theorem view_nil : L.view [] p = none := rfl

theorem view_cons : L.view (a :: l) p = if L.Covers a p then some (L.val a p) else L.view l p := rfl

theorem view_append : L.view (A ++ B) p = (L.view A p).or (L.view B p) := by
  induction A with
  | nil => rfl
  | cons a A ih =>
    simp only [cons_append, view_cons, ih]
    split
    · rfl
    · rfl

theorem view_eq_none (h : ∀ a ∈ l, ¬ L.Covers a p) : L.view l p = none := by
  induction l with
  | nil => rfl
  | cons a l ih =>
    rw [view_cons, if_neg (h a mem_cons_self)]
    exact ih fun b hb => h b (mem_cons_of_mem a hb)

theorem view_eq_none_of_hi_le (h : ∀ a ∈ l, L.hi a ≤ p) : L.view l p = none :=
  view_eq_none fun a ha hc => Nat.not_lt_of_le (h a ha) hc.2

theorem view_eq_none_of_lt_lo (h : ∀ a ∈ l, p < L.lo a) : L.view l p = none :=
  view_eq_none fun a ha hc => Nat.not_lt_of_le hc.1 (h a ha)

theorem Ordered.view_of_mem (h : L.Ordered l) (ha : a ∈ l) (hc : L.Covers a p) :
    L.view l p = some (L.val a p) := by
  induction l with
  | nil => cases ha
  | cons b l ih =>
    obtain ⟨hb, hl⟩ := pairwise_cons.mp h
    rw [view_cons]
    cases mem_cons.mp ha with
    | inl heq =>
      subst heq
      exact if_pos hc
    | inr hmem =>
      have hla : ¬ L.Covers b p := fun hcb =>
        Nat.not_lt_of_le (Nat.le_trans (hb a hmem) hc.1) hcb.2
      rw [if_neg hla]
      exact ih hl hmem

def Joined (L : Layout α β) (a b : α) : Prop :=
  L.hi a = L.lo b ∧ ∀ p, L.lo b ≤ p → L.val a p = L.val b p

/-- A run of joined segments reads like its first segment extended to the end of its last one. -/
theorem view_run (h : (a :: l).IsChain L.Joined) (hne : ∀ x ∈ a :: l, L.lo x ≤ L.hi x) :
    L.lo a ≤ L.hi ((a :: l).getLast (cons_ne_nil a l)) ∧
    L.view (a :: l) p =
      if L.lo a ≤ p ∧ p < L.hi ((a :: l).getLast (cons_ne_nil a l)) then some (L.val a p)
      else none := by
  induction l generalizing a with
  | nil => exact ⟨hne a mem_cons_self, rfl⟩
  | cons b l ih =>
    obtain ⟨hj, hl⟩ := isChain_cons_cons.mp h
    obtain ⟨hle, hv⟩ := ih hl fun x hx => hne x (mem_cons_of_mem a hx)
    have ha := hne a mem_cons_self
    have hjo := hj.1
    rw [getLast_cons (cons_ne_nil b l), view_cons, hv]
    refine ⟨by omega, ?_⟩
    by_cases hc : L.Covers a p
    · have hc' := hc
      obtain ⟨hlo, hhi⟩ := hc'
      rw [if_pos hc, if_pos ⟨hlo, by omega⟩]
    rw [if_neg hc]
    by_cases hin : L.lo b ≤ p ∧ p < L.hi ((b :: l).getLast (cons_ne_nil b l))
    · rw [if_pos hin, if_pos ⟨by omega, hin.2⟩, hj.2 p hin.1]
    · have hout : ¬ (L.lo a ≤ p ∧ p < L.hi ((b :: l).getLast (cons_ne_nil b l))) := by
        intro hp
        have hnot : ¬ p < L.hi a := fun hlt => hc ⟨hp.1, hlt⟩
        exact hin ⟨by omega, hp.2⟩
      rw [if_neg hin, if_neg hout]

end Layout

end Attune.Segments
