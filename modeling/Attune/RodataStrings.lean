import Attune.CheckedMemory

namespace Attune.Rodata
open Memory List

/-- The loop of `find_string_offset`; `m` is what can be read from the start of the section of the
given size. -/
def scanStrings (m : Bytes) (size : Nat) (key : Bytes) : Nat → Nat → Except Fault (Option Nat)
  | 0, _ => .error .endless
  | fuel + 1, readPtr =>
    if size < readPtr then .ok none
    else do
      if ← textEq (m.drop readPtr) key then return some readPtr
      else
        let text ← textAt (m.drop readPtr)
        scanStrings m size key fuel (readPtr + text.length + 1)

def notFound : Nat := 2 ^ 64 - 1

/-- Every turn of the loop moves on, so that the section limits their number. -/
def findStringOffset (m : Bytes) (size : Nat) (key : Bytes) : Except Fault Nat := do
  match ← scanStrings m size key (size + 2) 0 with
  | some readPtr => return readPtr
  | none => return notFound

/-- The section holds the key at an offset, followed by a zero byte. -/
def HoldsAt (m key : Bytes) (offset : Nat) : Prop := key ++ [0] <+: m.drop offset

def StringStart (m : Bytes) (offset : Nat) : Prop := offset = 0 ∨ m[offset - 1]? = some 0

/-- The search stays in the section and finds the key whenever it is there. -/
def FindsString (m key : Bytes) : Prop :=
  ∃ r, findStringOffset m m.length key = .ok r ∧
    ((∃ o, HoldsAt m key o) → HoldsAt m key r) ∧ ((¬ ∃ o, HoldsAt m key o) → r = notFound)

theorem HoldsAt.zero_mem (h : HoldsAt m key o) (hle : p ≤ o) : 0 ∈ m.drop p := by
  have hmem : (0 : UInt8) ∈ m.drop o := h.subset (by simp)
  exact (drop_subset_drop_left m hle) hmem

theorem next_start (hte : textAt (m.drop p) = .ok text) :
    p + text.length + 1 ≤ m.length ∧ StringStart m (p + text.length + 1) := by
  obtain ⟨_, t, ht⟩ := textAt_eq_ok_iff.mp hte
  have hlen := congrArg length ht
  simp only [length_append, length_drop, length_cons, length_nil] at hlen
  refine ⟨by omega, .inr ?_⟩
  have hget : (m.drop p)[text.length]? = some 0 := by
    rw [← ht, append_assoc, getElem?_append_right (Nat.le_refl _), Nat.sub_self]
    rfl
  rw [getElem?_drop] at hget
  rw [Nat.add_sub_cancel]
  exact hget

theorem text_before_start (hte : textAt (m.drop p) = .ok text) (hlt : p < o)
    (hst : StringStart m o) : p + text.length + 1 ≤ o := by
  obtain ⟨hno, t, ht⟩ := textAt_eq_ok_iff.mp hte
  by_contra hlate
  have hz : m[o - 1]? = some 0 := hst.resolve_left (by omega)
  have hget : (m.drop p)[o - 1 - p]? = some 0 := by
    rw [getElem?_drop]
    rw [← hz]
    congr 1
    omega
  rw [← ht, append_assoc, getElem?_append_left (by omega)] at hget
  exact hno (mem_of_getElem? hget)

/-- With nothing but the section to read, the loop only ends at the key, at the start of a
string. -/
theorem scanStrings_sound (hkey : 0 ∉ key) (hp : p ≤ m.length) (hst : StringStart m p)
    (h : scanStrings m m.length key fuel p = .ok r) :
    ∃ o, HoldsAt m key o ∧ StringStart m o := by
  induction fuel generalizing p with
  | zero => cases h
  | succ fuel ih =>
    rw [scanStrings, if_neg (by omega), bind_eq_ok] at h
    obtain ⟨same, hsa, h⟩ := h
    cases same with
    | true =>
      exact ⟨p, (textEq_true_iff hkey).mp hsa, hst⟩
    | false =>
      rw [if_neg Bool.false_ne_true, bind_eq_ok] at h
      obtain ⟨text, ht, h⟩ := h
      obtain ⟨hle, hn⟩ := next_start ht
      exact ih hle hn h

theorem scanStrings_complete (hkey : 0 ∉ key) (ho : HoldsAt m key o) (hst : StringStart m o)
    (hp : p ≤ o) (hf : m.length < fuel + p) :
    ∃ r, scanStrings m m.length key fuel p = .ok (some r) ∧ HoldsAt m key r := by
  have hol : o < m.length := by
    have hlen := ho.length_le
    simp only [length_append, length_drop, length_cons, length_nil] at hlen
    omega
  induction fuel generalizing p with
  | zero => omega
  | succ fuel ih =>
    rw [scanStrings, if_neg (by omega)]
    obtain ⟨same, hsa⟩ := runs_textEq (ho.zero_mem hp) key
    rw [hsa, ok_bind]
    cases same with
    | true => exact ⟨p, rfl, (textEq_true_iff hkey).mp hsa⟩
    | false =>
      obtain ⟨text, ht⟩ := runs_textAt (ho.zero_mem hp)
      rw [if_neg Bool.false_ne_true, ht, ok_bind]
      have hlt : p < o := by
        rcases Nat.lt_or_eq_of_le hp with hlt | rfl
        · exact hlt
        · have htr := (textEq_true_iff hkey).mpr ho
          rw [hsa] at htr
          cases htr
      exact ih (text_before_start ht hlt hst) (by omega)

/-- The search is right exactly for the keys that are whole strings of the section. -/
theorem string_offset_found_iff (m key : Bytes) (hkey : 0 ∉ key) :
    FindsString m key ↔ ∃ o, HoldsAt m key o ∧ StringStart m o := by
  constructor
  · rintro ⟨r, hr, _⟩
    rw [findStringOffset, bind_eq_ok] at hr
    obtain ⟨found, hsc, _⟩ := hr
    exact scanStrings_sound hkey (Nat.zero_le _) (.inl rfl) hsc
  · rintro ⟨o, ho, hst⟩
    have hf : m.length < m.length + 2 + 0 := by omega
    obtain ⟨r, hsc, hr⟩ := scanStrings_complete hkey ho hst (Nat.zero_le _) hf
    refine ⟨r, ?_, fun _ => hr, fun hno => absurd ⟨o, ho⟩ hno⟩
    rw [findStringOffset, hsc]
    rfl

def foo : Bytes := [102, 111, 111]

theorem string_offset_found_two : 0 ∉ foo ∧ FindsString ([98, 0] ++ foo ++ [0]) foo := by
  have hfoo : 0 ∉ foo := by decide
  refine ⟨hfoo, (string_offset_found_iff _ foo hfoo).mpr ⟨2, ?_, .inr rfl⟩⟩
  exact prefix_rfl

/-- A string that ends another one is missed, and the byte behind the section is read. -/
theorem merged_string_missed :
    findStringOffset ([98, 97, 114] ++ foo ++ [0]) 7 foo = .error .outOfBounds ∧
      findStringOffset ([98, 97, 114] ++ foo ++ [0, 0]) 7 foo = .ok notFound ∧
      HoldsAt ([98, 97, 114] ++ foo ++ [0]) foo 3 ∧
      ¬ FindsString ([98, 97, 114] ++ foo ++ [0]) foo := by
  have hf : findStringOffset ([98, 97, 114] ++ foo ++ [0]) 7 foo = .error .outOfBounds := by
    decide
  refine ⟨hf, by decide, prefix_rfl, ?_⟩
  rintro ⟨r, hr, _⟩
  exact absurd (hf.symm.trans hr) (by simp)

end Attune.Rodata
