import Attune.MuplayPatch

namespace Attune.Patch
open List Option

def SlashEnding (a b s : Line) : Prop := s <:+ a ∧ s <:+ b ∧ s.head? = some '/'

def LongestSlashEnding (a b r : Line) : Prop :=
  (SlashEnding a b r ∧ ∀ s, SlashEnding a b s → s.length ≤ r.length) ∨
    (r = [] ∧ ∀ s, ¬ SlashEnding a b s)

theorem mismatch_take (x y : Line) : x.take (mismatch x y) <+: y := by
  induction x generalizing y with
  | nil => rw [take_nil]; exact nil_prefix
  | cons c x ih =>
    cases y with
    | nil => exact prefix_rfl
    | cons d y =>
      rw [mismatch]
      split
      · next heq =>
        rw [take_succ_cons, heq, cons_prefix_cons]
        exact ⟨rfl, ih y⟩
      · exact nil_prefix

theorem length_le_mismatch (hx : p <+: x) (hy : p <+: y) : p.length ≤ mismatch x y := by
  induction p generalizing x y with
  | nil => exact Nat.zero_le _
  | cons c p ih =>
    obtain ⟨x, rfl, hpx⟩ := cons_prefix_iff.mp hx
    obtain ⟨y, rfl, hpy⟩ := cons_prefix_iff.mp hy
    rw [mismatch, if_pos rfl, length_cons]
    exact Nat.succ_le_succ (ih hpx hpy)

theorem rfind_succ (c : Char) (s : Line) (pos : Nat) :
    rfind c s (pos + 1) = if s[pos + 1]? = some c then some (pos + 1) else rfind c s pos := by
  rw [rfind, range_succ, reverse_append, reverse_singleton, singleton_append,
    find?_cons, rfind]
  by_cases h : s[pos + 1]? = some c
  · rw [if_pos h, h, beq_self_eq_true]
  · rw [if_neg h, beq_eq_false_iff_ne.mpr h]

theorem rfind_spec (c : Char) (s : Line) (pos : Nat) :
    (∃ i, rfind c s pos = some i ∧ i ≤ pos ∧ s[i]? = some c ∧
      ∀ j, i < j → j ≤ pos → s[j]? ≠ some c) ∨
    (rfind c s pos = none ∧ ∀ j, j ≤ pos → s[j]? ≠ some c) := by
  induction pos with
  | zero =>
    by_cases h : s[0]? = some c
    · refine .inl ⟨0, ?_, le_rfl, h, fun j hj hle => absurd hle (by omega)⟩
      simp [rfind, range_succ, h]
    · refine .inr ⟨?_, fun j hj => ?_⟩
      · simp [rfind, range_succ, h]
      · rw [Nat.le_zero.mp hj]
        exact h
  | succ pos ih =>
    rw [rfind_succ]
    split
    · next h =>
      exact .inl ⟨pos + 1, rfl, le_rfl, h, fun j hj hle => absurd hle (by omega)⟩
    next h =>
    have hst {j : Nat} (hle : j ≤ pos + 1) (hj : j ≤ pos → s[j]? ≠ some c) : s[j]? ≠ some c := by
      rcases Nat.lt_or_eq_of_le hle with hlt | rfl
      · exact hj (by omega)
      · exact h
    rcases ih with ⟨i, hi, hle, hsi, hl⟩ | ⟨hn, hno⟩
    · exact .inl ⟨i, hi, by omega, hsi, fun j hij hj => hst hj (hl j hij)⟩
    · exact .inr ⟨hn, fun j hj => hst hj (hno j)⟩

section Endings

variable {a b s : Line}

theorem ending_suffix (x : Line) (k : Nat) : (x.take k).reverse <:+ x.reverse :=
  reverse_suffix.mpr ( take_prefix k x)

theorem head_ending {x : Line} (h : x[i]? = some c) :
    (x.take (i + 1)).reverse = c :: (x.take i).reverse := by
  rw [take_add_one, h, toList_some, reverse_append, reverse_singleton,
    singleton_append]

theorem ending_position {t : Line} (h : c :: t <:+ a) :
    a.reverse[t.length]? = some c ∧ c :: t = (a.reverse.take (t.length + 1)).reverse := by
  have hx := reverse_prefix.mpr h
  rw [reverse_cons] at hx
  constructor
  · obtain ⟨u, hu⟩ := hx
    rw [← hu, append_assoc, ← length_reverse, getElem?_append_right le_rfl,
      Nat.sub_self]
    rfl
  · have ht := prefix_iff_eq_take.mp hx
    rw [length_append, length_reverse, length_singleton] at ht
    rw [← ht, ← reverse_cons, reverse_reverse]

theorem slashEnding_iff : SlashEnding a b s ↔
    ∃ i, i < mismatch a.reverse b.reverse ∧ a.reverse[i]? = some '/' ∧
      s = (a.reverse.take (i + 1)).reverse := by
  constructor
  · rintro ⟨ha, hb, hh⟩
    obtain ⟨t, rfl⟩ : ∃ t, s = '/' :: t := by
      cases s with
      | nil => cases hh
      | cons c t =>
        obtain rfl := some.inj hh
        exact ⟨t, rfl⟩
    have hlen := length_le_mismatch ( reverse_prefix.mpr ha) ( reverse_prefix.mpr hb)
    rw [length_reverse, length_cons] at hlen
    exact ⟨t.length, hlen, ending_position ha⟩
  · rintro ⟨i, hi, hsl, rfl⟩
    have hb : a.reverse.take (i + 1) <+: b.reverse :=
      (take_prefix_take_left hi).trans (mismatch_take _ _)
    refine ⟨?_, ?_, ?_⟩
    · have h := ending_suffix a.reverse (i + 1)
      rwa [reverse_reverse] at h
    · have h := reverse_suffix.mpr hb
      rwa [reverse_reverse] at h
    · rw [head_ending hsl]
      rfl

/-- What follows a slash of the first name is an ending of the second one only together with it. -/
def SlashesShared (a b : Line) : Prop := ∀ c, '/' :: c <:+ a → c <:+ b → '/' :: c <:+ b

theorem slashesShared_iff :
    SlashesShared a b ↔ a.reverse[mismatch a.reverse b.reverse]? ≠ some '/' := by
  constructor
  · intro h hsl
    have ha := ending_suffix a.reverse (mismatch a.reverse b.reverse + 1)
    have hb := reverse_suffix.mpr (mismatch_take a.reverse b.reverse)
    rw [reverse_reverse] at ha hb
    rw [head_ending hsl] at ha
    have hbo := h _ ha hb
    have hlen := length_le_mismatch ( reverse_prefix.mpr ha) ( reverse_prefix.mpr hbo)
    obtain ⟨hlt, _⟩ := List.getElem?_eq_some_iff.mp hsl
    rw [length_reverse, length_cons, length_reverse, length_take] at hlen
    omega
  · intro h c ha hb
    have hc := (suffix_cons '/' c).trans ha
    have hlen := length_le_mismatch ( reverse_prefix.mpr hc) ( reverse_prefix.mpr hb)
    rw [length_reverse] at hlen
    obtain ⟨hsl, heq⟩ := ending_position ha
    have hlt : c.length < mismatch a.reverse b.reverse := by
      rcases Nat.lt_or_eq_of_le hlen with hlt | heq
      · exact hlt
      · rw [heq] at hsl
        exact absurd hsl h
    have hend : SlashEnding a b ('/' :: c) := slashEnding_iff.mpr ⟨c.length, hlt, hsl, heq⟩
    exact hend.2.1

end Endings

/-- The longest common ending with a slash in front is returned for these names and no others. -/
theorem file_name_common_iff (a b : Line) :
    LongestSlashEnding a b (getFileName a b) ↔ SlashesShared a b := by
  rw [slashesShared_iff]
  rcases rfind_spec '/' a.reverse (mismatch a.reverse b.reverse) with
    ⟨i, hf, hle, hsl, hl⟩ | ⟨hf, hno⟩
  · have hn : getFileName a b = (a.reverse.take (i + 1)).reverse := by
      simp only [getFileName, hf]
    rw [hn]
    rcases Nat.lt_or_eq_of_le hle with hlt | rfl
    · refine ⟨fun _ => hl _ hlt le_rfl, fun _ => .inl ⟨?_, ?_⟩⟩
      · exact slashEnding_iff.mpr ⟨i, hlt, hsl, rfl⟩
      · intro s hs
        obtain ⟨j, hj, hjs, rfl⟩ := slashEnding_iff.mp hs
        have hji : j ≤ i := by
          by_contra hnot
          exact hl j (by omega) (by omega) hjs
        obtain ⟨hil, _⟩ := List.getElem?_eq_some_iff.mp hsl
        rw [length_reverse, length_reverse, length_take, length_take]
        omega
    · -- the slash is itself the first difference
      refine ⟨?_, fun h => absurd hsl h⟩
      obtain ⟨hil, _⟩ := List.getElem?_eq_some_iff.mp hsl
      rintro (⟨hend, _⟩ | ⟨hnil, _⟩)
      · obtain ⟨j, hj, _, heq⟩ := slashEnding_iff.mp hend
        have hlen := congrArg length heq
        rw [length_reverse, length_reverse, length_take, length_take] at hlen
        omega
      · rw [head_ending hsl] at hnil
        cases hnil
  · have hn : getFileName a b = [] := by
      simp only [getFileName, hf]
    rw [hn]
    refine ⟨fun _ => hno _ le_rfl, fun _ => .inr ⟨rfl, ?_⟩⟩
    intro s hs
    obtain ⟨j, hj, hjs, _⟩ := slashEnding_iff.mp hs
    exact hno j (by omega) hjs

/-- A file that is moved out of a directory and takes the name of it along. -/
theorem renamed_file_name : getFileName "a/lib/x.c".toList "b/libx.c".toList = "/x.c".toList ∧
      ¬ LongestSlashEnding "a/lib/x.c".toList "b/libx.c".toList "/x.c".toList := by
  refine ⟨by decide, ?_⟩
  rintro (⟨⟨_, hb, _⟩, _⟩ | ⟨hnil, _⟩)
  · exact absurd hb (by decide)
  · cases hnil

end Attune.Patch
