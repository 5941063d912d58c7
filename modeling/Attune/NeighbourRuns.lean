import Mathlib

namespace Attune.Runs
open List

variable {α : Type} {R : α → α → Prop}

def Unrelated (R : α → α → Prop) (l : List α) : Prop := l.IsChain fun x y => ¬R x y

instance [DecidableRel R] : Decidable (Unrelated R l) :=
  inferInstanceAs (Decidable (l.IsChain fun x y => ¬R x y))

def UpClosed (R : α → α → Prop) : List α → Prop
  | x :: y :: l => (R x y → (y :: l).IsChain R) ∧ UpClosed R (y :: l)
  | _ => True

instance decidableUpClosed [DecidableRel R] : (l : List α) → Decidable (UpClosed R l)
  | [] => .isTrue trivial
  | [_] => .isTrue trivial
  | x :: y :: l =>
    have := decidableUpClosed (y :: l)
    inferInstanceAs (Decidable ((R x y → (y :: l).IsChain R) ∧ UpClosed R (y :: l)))

theorem upClosed_of_isChain {l : List α} (h : l.IsChain R) : UpClosed R l := by
  induction l with
  | nil => trivial
  | cons x l ih =>
    cases l with
    | nil => trivial
    | cons y l =>
      have ht := (isChain_cons_cons.mp h).2
      exact ⟨fun _ => ht, ih ht⟩

theorem upClosed_run_iff {L : List α} (hch : (first :: T).IsChain R)
    (hlow : ∀ z ∈ L.getLast?, ¬R z first) :
    UpClosed R (L ++ first :: T) ↔ Unrelated R (L ++ [first]) := by
  induction L with
  | nil => exact ⟨fun _ => .singleton first, fun _ => upClosed_of_isChain hch⟩
  | cons x L ih =>
    cases L with
    | nil =>
      have hx : ¬R x first := hlow x rfl
      exact ⟨fun _ => isChain_pair.mpr hx,
        fun _ => ⟨fun h => absurd h hx, upClosed_of_isChain hch⟩⟩
    | cons y L =>
      have hl' : ∀ z ∈ (y :: L).getLast?, ¬R z first := hlow
      -- a related pair further down would have to be followed by related ones only
      have hnot : ¬(y :: L ++ first :: T).IsChain R := by
        intro hc
        obtain ⟨_, _, hj⟩ := isChain_append.mp hc
        exact hl' _ (getLast?_eq_getLast_of_ne_nil (cons_ne_nil y L)) (hj _
          (getLast?_eq_getLast_of_ne_nil (cons_ne_nil y L)) first rfl)
      constructor
      · rintro ⟨hxy, hup⟩
        exact isChain_cons_cons.mpr ⟨fun h => hnot (hxy h), (ih hl').mp hup⟩
      · intro hun
        obtain ⟨hxy, hr⟩ := isChain_cons_cons.mp hun
        exact ⟨fun h => absurd h hxy, (ih hl').mpr hr⟩

theorem upClosed_above_iff {X : List α} (hX : Unrelated R X) : UpClosed R (X ++ y :: Y) ↔
      (∀ z ∈ X.getLast?, R z y → (y :: Y).IsChain R) ∧ UpClosed R (y :: Y) := by
  induction X with
  | nil => exact ⟨fun h => ⟨nofun, h⟩, fun h => h.2⟩
  | cons x X ih =>
    cases X with
    | nil =>
      constructor
      · rintro ⟨hxy, hup⟩
        refine ⟨?_, hup⟩
        intro z hz
        cases hz
        exact hxy
      · rintro ⟨hxy, hup⟩
        exact ⟨hxy x rfl, hup⟩
    | cons x' X =>
      obtain ⟨hxx', hre⟩ := isChain_cons_cons.mp hX
      have hl : (x :: x' :: X).getLast? = (x' :: X).getLast? := rfl
      rw [hl, ← ih hre]
      exact ⟨fun h => h.2, fun h => ⟨fun hr => absurd hr hxx', h⟩⟩

def Alike (R : α → α → Prop) : List α → List α → Prop
  | x :: y :: l, x' :: y' :: l' => (R x y ↔ R x' y') ∧ Alike R (y :: l) (y' :: l')
  | [], [] => True
  | [_], [_] => True
  | _, _ => False

theorem Alike.isChain_iff {l l' : List α} (h : Alike R l l') : l.IsChain R ↔ l'.IsChain R := by
  induction l, l' using Alike.induct with
  | case1 x y l x' y' l' ih =>
    obtain ⟨hxy, hr⟩ := h
    rw [isChain_cons_cons, isChain_cons_cons, hxy, ih hr]
  | case2 => exact Iff.rfl
  | case3 x x' => exact ⟨fun _ => .singleton x', fun _ => .singleton x⟩
  | case4 l l' h1 h2 h3 =>
    rw [Alike] at h
    · exact h.elim
    · exact h1
    · exact h2
    · exact h3

theorem Alike.upClosed_iff {l l' : List α} (h : Alike R l l') : UpClosed R l ↔ UpClosed R l' := by
  induction l, l' using Alike.induct with
  | case1 x y l x' y' l' ih =>
    obtain ⟨hxy, hr⟩ := h
    rw [UpClosed, UpClosed, hxy, hr.isChain_iff, ih hr]
  | case2 => exact Iff.rfl
  | case3 => exact ⟨fun _ => trivial, fun _ => trivial⟩
  | case4 l l' h1 h2 h3 =>
    rw [Alike] at h
    · exact h.elim
    · exact h1
    · exact h2
    · exact h3

theorem unrelated_congr_last (hm : ∀ z, R z m ↔ R z first) :
    Unrelated R (L ++ [m]) ↔ Unrelated R (L ++ [first]) := by
  simp only [Unrelated, isChain_append, isChain_singleton, head?_cons,
    Option.mem_some_iff, forall_eq', hm]

/-- A run around `e` is replaced by one member. Then no neighbours are related exactly when, up to
`e`, they were so from some point on. -/
theorem unrelated_merged_iff {L C D S : List α} (hrun : C ++ e :: D = first :: T)
    (hc : (first :: T).IsChain R) (hlow : ∀ z ∈ L.getLast?, ¬R z first)
    (ha : Unrelated R (D ++ S)) (hm : ∀ z, R z m ↔ R z first)
    (hh : ∀ y ∈ S.head?, ¬R m y) :
    Unrelated R (L ++ m :: S) ↔ UpClosed R (L ++ (C ++ [e])) := by
  have hp : ∃ T', C ++ [e] = first :: T' ∧ (first :: T').IsChain R := by
    rw [← hrun] at hc
    have hl := (isChain_split.mp hc).1
    cases C with
    | nil =>
      cases hrun
      exact ⟨[], rfl, .singleton _⟩
    | cons c C =>
      cases hrun
      exact ⟨C ++ [e], rfl, hl⟩
  obtain ⟨T', hT', hc'⟩ := hp
  have hS : Unrelated R (m :: S) :=
    isChain_cons.mpr ⟨hh, (isChain_append.mp ha).2.1⟩
  rw [hT', upClosed_run_iff hc' hlow, ← unrelated_congr_last hm]
  exact ⟨fun h => (isChain_split.mp h).1, fun h => isChain_split.mpr ⟨h, hS⟩⟩

end Attune.Runs
