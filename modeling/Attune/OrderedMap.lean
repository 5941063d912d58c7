import Mathlib

namespace Attune.OrderedMap
open List Option OrderedMap Function

variable {A B : List (K × V)} {lt : K → K → Bool} {m : List (K × V)}

section

variable (lt : K → K → Bool) (k : K) (m : List (K × V))

/-- The entries from the first one that the comparator does not place before the key. -/
def lowerBound : List (K × V) :=
  m.dropWhile fun e => lt e.1 k

def below : List (K × V) :=
  m.takeWhile fun e => lt e.1 k

/-- Lookup: the lower bound, provided the key is not placed before it. -/
def find : Option (K × V) :=
  match lowerBound lt k m with
  | [] => none
  | e :: _ => if lt k e.1 then none else some e

/-- Erasure removes every entry equivalent to the key. -/
def erase : List (K × V) :=
  m.filter fun e => lt e.1 k || lt k e.1

/-- Insertion keeps an equivalent entry that is already there. -/
def insert (v : V) (m : List (K × V)) : List (K × V) :=
  match find lt k m with
  | some _ => m
  | none => below lt k m ++ (k, v) :: lowerBound lt k m

/-- Assignment through the subscript: an equivalent entry keeps its key and gets the value. -/
def assign (v : V) (m : List (K × V)) : List (K × V) :=
  match find lt k m with
  | some e => below lt k m ++ (e.1, v) :: (lowerBound lt k m).tail
  | none => below lt k m ++ (k, v) :: lowerBound lt k m

theorem below_append_lowerBound : below lt k m ++ lowerBound lt k m = m :=
  takeWhile_append_dropWhile

end

theorem dropWhile_not {q : α → Bool} {l : List α}
    (h : l.Pairwise fun a b => q b = true → q a = true) :
    ∀ e ∈ l.dropWhile q, q e = false := by
  induction l with
  | nil => exact fun _ he => nomatch he
  | cons a l ih =>
    obtain ⟨ha, hl⟩ := pairwise_cons.mp h
    rw [dropWhile_cons]
    split
    · exact ih hl
    · next hq =>
      intro e he
      rcases mem_cons.mp he with rfl | he
      · exact Bool.eq_false_iff.mpr hq
      · exact Bool.eq_false_iff.mpr fun hb => hq (ha e he hb)

theorem find_some_split (h : find lt k m = some e) :
    ∃ A B, m = A ++ e :: B ∧ ∀ v, assign lt k v m = A ++ (e.1, v) :: B := by
  have hm := below_append_lowerBound lt k m
  rw [find] at h
  cases hB : lowerBound lt k m with
  | nil =>
    rw [hB] at h
    cases h
  | cons e' B =>
    rw [hB] at h hm
    dsimp only at h
    split at h
    · cases h
    next hlt =>
    cases h
    refine ⟨below lt k m, B, hm.symm, fun v => ?_⟩
    rw [assign, find, hB]
    dsimp only
    rw [if_neg hlt]
    rfl

theorem find_none_split (h : find lt k m = none) (v : V) :
    ∃ A B, m = A ++ B ∧ insert lt k v m = A ++ (k, v) :: B :=
  ⟨below lt k m, lowerBound lt k m, (below_append_lowerBound lt k m).symm, by rw [insert, h]⟩

section Split

variable {lt : K → K → Bool} {k : K} {A B : List (K × V)}

theorem lowerBound_append (hA : ∀ e ∈ A, lt e.1 k = true) :
    lowerBound lt k (A ++ B) = lowerBound lt k B := by
  simp only [lowerBound]
  exact dropWhile_append_of_pos hA

theorem below_append (hA : ∀ e ∈ A, lt e.1 k = true) : below lt k (A ++ B) = A ++ below lt k B := by
  simp only [below]
  exact takeWhile_append_of_pos hA

theorem lowerBound_cons (h : lt e.1 k = false) : lowerBound lt k (e :: B) = e :: B := by
  simp only [lowerBound, dropWhile_cons, h, Bool.false_eq_true, ↓reduceIte]

theorem below_cons (h : lt e.1 k = false) : below lt k (e :: B) = [] := by
  simp only [below, takeWhile_cons, h, Bool.false_eq_true, ↓reduceIte]

theorem lowerBound_eq (hB : ∀ e ∈ B, lt e.1 k = false) : lowerBound lt k B = B := by
  cases B with
  | nil => rfl
  | cons e B => exact lowerBound_cons (hB e mem_cons_self)

theorem below_eq (hB : ∀ e ∈ B, lt e.1 k = false) : below lt k B = [] := by
  cases B with
  | nil => rfl
  | cons e B => exact below_cons (hB e mem_cons_self)

section

variable (hA : ∀ e ∈ A, lt e.1 k = true)
include hA

theorem find_split (he : lt e.1 k = false)
    (hk : lt k e.1 = false) : find lt k (A ++ e :: B) = some e := by
  simp only [find, lowerBound_append hA, lowerBound_cons he, hk, Bool.false_eq_true, ↓reduceIte]

theorem find_gap (hB : ∀ e ∈ B, lt e.1 k = false)
    (hk : ∀ e ∈ B, lt k e.1 = true) : find lt k (A ++ B) = none := by
  simp only [find, lowerBound_append hA, lowerBound_eq hB]
  cases B with
  | nil => rfl
  | cons e B => simp only [hk e mem_cons_self, ↓reduceIte]

theorem erase_split (he : lt e.1 k = false)
    (hk : lt k e.1 = false) (hB : ∀ e ∈ B, lt k e.1 = true) :
    erase lt k (A ++ e :: B) = A ++ B := by
  have hkA : A.filter (fun e => lt e.1 k || lt k e.1) = A :=
    filter_eq_self.mpr fun a ha => by simp only [hA a ha, Bool.true_or]
  have hkB : B.filter (fun e => lt e.1 k || lt k e.1) = B :=
    filter_eq_self.mpr fun b hb => by simp only [hB b hb, Bool.or_true]
  simp only [erase, filter_append, filter_cons, he, hk, hkA, hkB, Bool.or_self,
    Bool.false_eq_true, ↓reduceIte]

end

variable (v : V) (hA : ∀ e ∈ A, lt e.1 k = true) (hB : ∀ e ∈ B, lt e.1 k = false) (hk : ∀ e ∈ B, lt k e.1 = true)
include hA hB hk

theorem insert_gap : insert lt k v (A ++ B) = A ++ (k, v) :: B := by
  simp only [insert, find_gap hA hB hk, below_append hA, below_eq hB, lowerBound_append hA,
    lowerBound_eq hB, append_nil]

theorem assign_gap : assign lt k v (A ++ B) = A ++ (k, v) :: B := by
  simp only [assign, find_gap hA hB hk, below_append hA, below_eq hB, lowerBound_append hA,
    lowerBound_eq hB, append_nil]

end Split

section Values

variable {lt : K → K → Bool} {k : K} {m : List (K × V)} (f : V → W)

def mapValues (m : List (K × V)) : List (K × W) := m.map fun e => (e.1, f e.2)

theorem lowerBound_mapValues :
    lowerBound lt k (mapValues f m) = mapValues f (lowerBound lt k m) := by
  simp only [lowerBound, mapValues, dropWhile_map, comp_def]

theorem below_mapValues : below lt k (mapValues f m) = mapValues f (below lt k m) := by
  simp only [below, mapValues, takeWhile_map, comp_def]

theorem find_mapValues : find lt k (mapValues f m) = (find lt k m).map fun e => (e.1, f e.2) := by
  simp only [find, lowerBound_mapValues]
  cases lowerBound lt k m with
  | nil => rfl
  | cons e l =>
    simp only [mapValues, map_cons]
    split <;> rfl

theorem erase_mapValues : erase lt k (mapValues f m) = mapValues f (erase lt k m) := by
  simp only [erase, mapValues, List.filter_map, comp_def]

theorem mapValues_append (A B : List (K × V)) :
    mapValues f (A ++ B) = mapValues f A ++ mapValues f B := map_append

theorem insert_mapValues (v : V) :
    insert lt k (f v) (mapValues f m) = mapValues f (insert lt k v m) := by
  simp only [insert, find_mapValues, below_mapValues, lowerBound_mapValues]
  cases find lt k m with
  | some e => rfl
  | none =>
    rw [mapValues_append]
    rfl

theorem assign_mapValues (v : V) :
    assign lt k (f v) (mapValues f m) = mapValues f (assign lt k v m) := by
  simp only [assign, find_mapValues, below_mapValues, lowerBound_mapValues]
  cases find lt k m with
  | some e =>
    simp only [map_some, mapValues_append]
    simp only [mapValues, map_cons, map_tail]
  | none =>
    simp only [map_none, mapValues_append]
    rfl

end Values

section Linear

variable [LinearOrder K] {m : List (K × V)} {k : K}

def less (a b : K) : Bool := decide (a < b)

def Sorted (m : List (K × V)) : Prop := m.Pairwise fun a b => a.1 < b.1

def get (k : K) (m : List (K × V)) : Option V := (find less k m).map Prod.snd

theorem Sorted.split (hm : Sorted m) (k : K) :
    ∃ A B, m = A ++ B ∧ (∀ e ∈ A, e.1 < k) ∧ (∀ e ∈ B, k ≤ e.1) := by
  refine ⟨below less k m, lowerBound less k m, (below_append_lowerBound ..).symm, ?_, ?_⟩
  · intro e he
    have hl : less e.1 k = true := all_eq_true.mp all_takeWhile e he
    exact of_decide_eq_true hl
  · induction m with
    | nil => intro e he; cases he
    | cons a m ih =>
      have hm' := pairwise_cons.mp hm
      by_cases ha : a.1 < k
      · simpa only [lowerBound, dropWhile_cons, less, ha, decide_true, ↓reduceIte]
          using ih hm'.2
      · intro e he
        rw [lowerBound_cons (by simpa only [less, decide_eq_false_iff_not] using ha)] at he
        rcases mem_cons.mp he with rfl | he
        · exact le_of_not_gt ha
        · exact (le_of_not_gt ha).trans (hm'.1 e he).le

theorem Sorted.cases (hm : Sorted m) (k : K) :
    (∃ A v B, m = A ++ (k, v) :: B ∧ (∀ e ∈ A, e.1 < k) ∧ ∀ e ∈ B, k < e.1) ∨
      ∃ A B, m = A ++ B ∧ (∀ e ∈ A, e.1 < k) ∧ ∀ e ∈ B, k < e.1 := by
  obtain ⟨A, B, rfl, hA, hB⟩ := hm.split k
  cases B with
  | nil => exact .inr ⟨A, [], rfl, hA, fun e he => by cases he⟩
  | cons b B =>
    have hb := (pairwise_cons.mp (pairwise_append.mp hm).2.1).1
    rcases (hB b mem_cons_self).eq_or_lt with he | hlt
    · subst he
      exact .inl ⟨A, b.2, B, rfl, hA, hb⟩
    · refine .inr ⟨A, b :: B, rfl, hA, ?_⟩
      intro e he
      rcases mem_cons.mp he with rfl | he
      · exact hlt
      · exact hlt.trans (hb e he)

theorem less_of_lt {a b : K} (h : a < b) : less a b = true := decide_eq_true h

theorem not_less_of_le {a b : K} (h : a ≤ b) : less b a = false :=
  decide_eq_false (not_lt_of_ge h)

theorem find_present (hA : ∀ e ∈ A, e.1 < k) : find less k (A ++ (k, v) :: B) = some (k, v) :=
  find_split (fun e he => less_of_lt (hA e he)) (not_less_of_le le_rfl) (not_less_of_le le_rfl)

theorem find_absent (hA : ∀ e ∈ A, e.1 < k) (hB : ∀ e ∈ B, k < e.1) : find less k (A ++ B) = none :=
  find_gap (fun e he => less_of_lt (hA e he)) (fun e he => not_less_of_le (hB e he).le)
    (fun e he => less_of_lt (hB e he))

theorem erase_present (hA : ∀ e ∈ A, e.1 < k) (hB : ∀ e ∈ B, k < e.1) :
    erase less k (A ++ (k, v) :: B) = A ++ B :=
  erase_split (fun e he => less_of_lt (hA e he)) (not_less_of_le le_rfl) (not_less_of_le le_rfl)
    (fun e he => less_of_lt (hB e he))

theorem assign_absent (v : V) (hA : ∀ e ∈ A, e.1 < k)
    (hB : ∀ e ∈ B, k < e.1) : assign less k v (A ++ B) = A ++ (k, v) :: B :=
  assign_gap v (fun e he => less_of_lt (hA e he)) (fun e he => not_less_of_le (hB e he).le)
    (fun e he => less_of_lt (hB e he))

theorem assign_present (w : V) (hA : ∀ e ∈ A, e.1 < k) :
    assign less k w (A ++ (k, v) :: B) = A ++ (k, w) :: B := by
  have hA' : ∀ e ∈ A, less e.1 k = true := fun e he => less_of_lt (hA e he)
  have hk : less (k, v).1 k = false := not_less_of_le le_rfl
  simp only [assign, find_present hA, below_append hA', below_cons hk, lowerBound_append hA',
    lowerBound_cons hk, append_nil, tail_cons]

theorem Sorted.get_eq_some (hm : Sorted m) : get k m = some v ↔ (k, v) ∈ m := by
  rcases hm.cases k with ⟨A, w, B, rfl, hA, hB⟩ | ⟨A, B, rfl, hA, hB⟩
  · simp only [get, find_present hA, map_some, some.injEq, mem_append,
      mem_cons, Prod.mk.injEq, true_and]
    constructor
    · intro he
      exact .inr (.inl he.symm)
    · rintro (h | rfl | h)
      · exact absurd (hA _ h) (lt_irrefl k)
      · rfl
      · exact absurd (hB _ h) (lt_irrefl k)
  · simp only [get, find_absent hA hB, map_none, reduceCtorEq, mem_append, false_iff]
    rintro (h | h)
    · exact absurd (hA _ h) (lt_irrefl k)
    · exact absurd (hB _ h) (lt_irrefl k)

theorem Sorted.get_eq_none (hm : Sorted m) : get k m = none ↔ ∀ e ∈ m, e.1 ≠ k := by
  rw [eq_none_iff_forall_ne_some]
  constructor
  · rintro h ⟨a, v⟩ he rfl
    exact h v (hm.get_eq_some.mpr he)
  · intro h v hv
    exact h _ (hm.get_eq_some.mp hv) rfl

theorem Sorted.append_cons (h : Sorted (A ++ B)) (hA : ∀ e ∈ A, e.1 < k)
    (hB : ∀ e ∈ B, k < e.1) : Sorted (A ++ (k, v) :: B) := by
  obtain ⟨h1, h2, h3⟩ := pairwise_append.mp h
  refine pairwise_append.mpr ⟨h1, pairwise_cons.mpr ⟨hB, h2⟩, ?_⟩
  intro a ha b hb
  rcases mem_cons.mp hb with rfl | hb
  · exact hA a ha
  · exact h3 a ha b hb

theorem Sorted.erase (hm : Sorted m) (k : K) : Sorted (erase less k m) :=
  List.Pairwise.filter _ hm

theorem mem_erase : e ∈ erase less k m ↔ e ∈ m ∧ e.1 ≠ k := by
  simp only [erase, less, mem_filter, Bool.or_eq_true, decide_eq_true_eq,
    lt_or_lt_iff_ne]

theorem Sorted.assign (hm : Sorted m) (k : K) (v : V) : Sorted (assign less k v m) := by
  rcases hm.cases k with ⟨A, w, B, rfl, hA, hB⟩ | ⟨A, B, rfl, hA, hB⟩
  · rw [assign_present v hA]
    have hAB : Sorted (A ++ B) := List.Pairwise.sublist (by simp) hm
    exact hAB.append_cons hA hB
  · rw [assign_absent v hA hB]
    exact hm.append_cons hA hB

theorem Sorted.mem_assign (hm : Sorted m) :
    e ∈ OrderedMap.assign less k v m ↔ e = (k, v) ∨ e ∈ m ∧ e.1 ≠ k := by
  have hne {C : List (K × V)} (h : ∀ e ∈ C, e.1 ≠ k) : e ∈ C ↔ e ∈ C ∧ e.1 ≠ k :=
    ⟨fun he => ⟨he, h e he⟩, And.left⟩
  rcases hm.cases k with ⟨A, w, B, rfl, hA, hB⟩ | ⟨A, B, rfl, hA, hB⟩
  · have hA' := hne fun e he => (hA e he).ne
    have hB' := hne fun e he => (hB e he).ne'
    rw [assign_present v hA]
    simp only [mem_append, mem_cons]
    constructor
    · rintro (h | h | h)
      · exact .inr ⟨.inl h, (hA'.mp h).2⟩
      · exact .inl h
      · exact .inr ⟨.inr (.inr h), (hB'.mp h).2⟩
    · rintro (h | ⟨h | h | h, hk⟩)
      · exact .inr (.inl h)
      · exact .inl h
      · exact absurd (congrArg Prod.fst h) hk
      · exact .inr (.inr h)
  · have hA' := hne fun e he => (hA e he).ne
    have hB' := hne fun e he => (hB e he).ne'
    rw [assign_absent v hA hB]
    simp only [mem_append, mem_cons]
    constructor
    · rintro (h | h | h)
      · exact .inr ⟨.inl h, (hA'.mp h).2⟩
      · exact .inl h
      · exact .inr ⟨.inr h, (hB'.mp h).2⟩
    · rintro (h | ⟨h | h, hk⟩)
      · exact .inr (.inl h)
      · exact .inl h
      · exact .inr (.inr h)

theorem Sorted.assign_assign (hm : Sorted m) (k : K) (v w : V) :
    OrderedMap.assign less k w (OrderedMap.assign less k v m) = OrderedMap.assign less k w m := by
  rcases hm.cases k with ⟨A, u, B, rfl, hA, hB⟩ | ⟨A, B, rfl, hA, hB⟩
  · rw [assign_present v hA, assign_present w hA, assign_present w hA]
  · rw [assign_absent v hA hB, assign_absent w hA hB, assign_present w hA]

theorem Sorted.get_assign (hm : Sorted m) (k k' : K) (v : V) :
    get k' (OrderedMap.assign less k v m) = if k' = k then some v else get k' m := by
  apply ext
  intro w
  rw [(hm.assign k v).get_eq_some, hm.mem_assign]
  split
  · next h =>
    subst h
    simp only [Prod.mk.injEq, true_and, ne_eq, not_true_eq_false, and_false, or_false,
      some.injEq, eq_comm]
  · next h =>
    simp only [Prod.mk.injEq, h, false_and, ne_eq, not_false_eq_true, and_true, false_or,
      hm.get_eq_some]

theorem get_eq_none_iff_find : get k m = none ↔ find less k m = none := by
  simp only [get, map_eq_none_iff]

theorem insert_eq_assign (v : V) (h : get k m = none) :
    insert less k v m = assign less k v m := by
  simp only [insert, assign, get_eq_none_iff_find.mp h]

theorem Sorted.get_erase (hm : Sorted m) (k k' : K) :
    get k' (OrderedMap.erase less k m) = if k' = k then none else get k' m := by
  apply ext
  intro w
  rw [(hm.erase k).get_eq_some, mem_erase]
  split
  · next h => simp only [h, ne_eq, not_true_eq_false, and_false, reduceCtorEq]
  · next h => simp only [ne_eq, h, not_false_eq_true, and_true, hm.get_eq_some]

end Linear

end Attune.OrderedMap
