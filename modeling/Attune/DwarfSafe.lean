import Attune.SourceFiles

namespace Attune.DebugInfo
open Attune.Memory

variable {set : DwarfAbbrevSet} {die : DwarfDIE} {debugStr : DwarfSpan} {t : DwarfAbbrevs}

variable {m : Bytes} {s : DwarfSpan}

theorem readConstant_spec (h : s.Inside m) (form : Nat) :
    ∃ c s' ok, readConstant m form s = .ok (c, s', ok) ∧ s'.Rest s := by
  simp only [readConstant]
  split
  · obtain ⟨v, s', he, hr⟩ := readLebRef_spec h
    rw [he]
    exact ⟨_, _, _, rfl, hr⟩
  · exact ⟨_, _, _, rfl, .refl s⟩

theorem readUleb_pair (h : s.Inside m) :
    ∃ v₁ s₁ v₂ s₂, readUleb m s = .ok (v₁, s₁) ∧ readUleb m s₁ = .ok (v₂, s₂) ∧ s₂.Rest s ∧
      (s₂.size = s.size → v₁ = none ∧ v₂ = none) := by
  obtain ⟨v₁, s₁, h₁, hr₁, hz₁⟩ := readUleb_spec h
  obtain ⟨v₂, s₂, h₂, hr₂, hz₂⟩ := readUleb_spec (hr₁.inside h)
  refine ⟨v₁, s₁, v₂, s₂, h₁, h₂, hr₂.trans hr₁, ?_⟩
  intro hs
  have hle₁ := hr₁.size_le
  have hle₂ := hr₂.size_le
  exact ⟨(hz₁ (by omega)).2, (hz₂ (by omega)).2⟩

/-- The loop over the attributes of an abbreviation ends, since a turn that goes on takes bytes. -/
theorem readAttributes_spec (h : s.Inside m) (hf : s.size < fuel) :
    ∃ as s' ok, readAttributes m fuel s = .ok (as, s', ok) ∧ s'.Rest s := by
  induction fuel generalizing s with
  | zero => cases hf
  | succ fuel ih =>
    obtain ⟨v₁, s₁, v₂, s₂, h₁, h₂, hr, hz⟩ := readUleb_pair h
    simp only [readAttributes]
    rw [h₁, ok_bind]
    simp only
    rw [h₂, ok_bind]
    simp only
    split
    · exact ⟨_, _, _, rfl, hr⟩
    rename_i hn
    have hlt : s₂.size < s.size := by
      apply Nat.lt_of_le_of_ne hr.size_le
      intro hs
      obtain ⟨rfl, rfl⟩ := hz hs
      exact hn ⟨rfl, rfl⟩
    obtain ⟨c, s₃, okc, h₃, hr₃⟩ := readConstant_spec (hr.inside h) (enum (v₂.getD 0))
    have hle := hr₃.size_le
    obtain ⟨as, s₄, ok, h₄, hr₄⟩ := ih (hr₃.inside (hr.inside h)) (by omega)
    rw [h₃, ok_bind]
    simp only
    rw [h₄, ok_bind]
    exact ⟨_, _, _, rfl, hr₄.trans (hr₃.trans hr)⟩

theorem readAbbrev_spec (h : s.Inside m) :
    ∃ code a s' ok, readAbbrev m s = .ok (code, a, s', ok) ∧ s'.Rest s ∧
      (s.size ≠ 0 → s'.size < s.size) := by
  obtain ⟨v₁, s₁, h₁, hr₁, hz₁⟩ := readUleb_spec h
  have hi₁ := hr₁.inside h
  obtain ⟨v₂, s₂, h₂, hr₂, -⟩ := readUleb_spec hi₁
  have hi₂ := hr₂.inside hi₁
  obtain ⟨v₃, s₃, h₃, hr₃⟩ := readValue_spec hi₂ 1
  obtain ⟨as, s₄, ok, h₄, hr₄⟩ := readAttributes_spec (hr₃.inside hi₂) (Nat.lt_succ_self _)
  have hr := hr₄.trans (hr₃.trans hr₂)
  simp only [readAbbrev]
  rw [h₁, ok_bind]
  simp only
  rw [h₂, ok_bind]
  simp only
  rw [h₃, ok_bind]
  simp only
  rw [h₄, ok_bind]
  refine ⟨_, _, _, _, rfl, hr.trans hr₁, ?_⟩
  intro hs
  apply Nat.lt_of_le_of_lt hr.size_le
  apply Nat.lt_of_le_of_ne hr₁.size_le
  intro he
  exact hs (hz₁ he).1

def DwarfAbbrevSet.Inside (m : Bytes) (set : DwarfAbbrevSet) : Prop := set.remainingSpan.Inside m

theorem lookupLoop_spec (h : set.Inside m) (hf : set.remainingSpan.size < fuel) (code : Nat) :
    ∃ a set', lookupLoop m code fuel set = .ok (a, set') ∧ set'.Inside m := by
  induction fuel generalizing set with
  | zero => cases hf
  | succ fuel ih =>
    simp only [lookupLoop]
    split
    · exact ⟨_, _, rfl, h⟩
    rename_i he
    obtain ⟨c, a, s', ok, hr, hre, hlt⟩ := readAbbrev_spec h
    have hlt := hlt fun hz => he (by simp [DwarfSpan.empty, hz])
    have hi : s'.Inside m := hre.inside h
    rw [hr, ok_bind]
    simp only
    split
    · exact ⟨_, _, rfl, hi⟩
    · split
      · exact ⟨_, _, rfl, hi⟩
      · exact ih hi (by simp only; omega)

theorem lookup_spec (h : set.Inside m) (code : Nat) :
    ∃ a set', set.lookup m code = .ok (a, set') ∧ set'.Inside m := by
  simp only [DwarfAbbrevSet.lookup]
  split
  · exact ⟨_, _, rfl, h⟩
  · exact lookupLoop_spec h (Nat.lt_succ_self _) code

structure DwarfAbbrevs.Inside (m : Bytes) (t : DwarfAbbrevs) : Prop where
  span : t.debugAbbrev.Inside m
  sets : ∀ e ∈ t.abbrevs, e.2.Inside m

theorem mem_of_lookup [BEq κ] [LawfulBEq κ] {l : List (κ × α)} (h : l.lookup k = some v) :
    (k, v) ∈ l := by
  induction l with
  | nil => cases h
  | cons e l ih =>
    rw [List.lookup_cons] at h
    split at h
    · rename_i hk
      cases h
      cases beq_iff_eq.mp hk
      exact .head _
    · exact .tail _ (ih h)

theorem DwarfAbbrevs.Inside.lookup (h : t.Inside m) (offset : Nat) :
    (t.lookup offset).Inside m := by
  simp only [DwarfAbbrevs.lookup]
  cases hl : t.abbrevs.lookup offset with
  | none => exact (t.debugAbbrev.subspan_rest offset).inside h.span
  | some set => exact h.sets _ (mem_of_lookup hl)

theorem DwarfAbbrevs.Inside.update (h : t.Inside m) (offset : Nat)
    (hs : set.Inside m) : (t.update offset set).Inside m := by
  refine ⟨h.span, ?_⟩
  intro e he
  cases he with
  | head => exact hs
  | tail _ he => exact h.sets e (List.mem_of_mem_filter he)

structure DwarfDIE.Inside (m : Bytes) (die : DwarfDIE) : Prop where
  span : die.attrSpan.Inside m
  pointer : die.pointer ≠ none

theorem formSize_spec (die : DwarfDIE) (h : s.Inside m) (form : Nat) :
    ∃ size s', die.formSize m form s = .ok (size, s') ∧ s'.Rest s := by
  simp only [DwarfDIE.formSize]
  split
  · obtain ⟨v, s', he, hr, -⟩ := readUleb_spec h
    rw [he]
    exact ⟨_, _, rfl, hr⟩
  · exact ⟨_, _, rfl, .refl s⟩

/-- The bytes a search gives have a form and lie in the section, but for an implicit constant. -/
structure Found.Sound (m : Bytes) (f : Found) : Prop where
  form : f.span.size ≠ 0 → f.form ≠ none
  inside : f.form ≠ some dwFormImplicitConst → f.span.Inside m

theorem findIn_spec (die : DwarfDIE) (attr : Nat) (h : s.Inside m)
    (as : List DwarfAbbrevAttribute) :
    ∃ f, die.findIn m attr as s = .ok f ∧ f.Sound m := by
  induction as generalizing s with
  | nil =>
    exact ⟨_, rfl, fun hs => absurd rfl hs, fun _ => DwarfSpan.null_inside m⟩
  | cons a as ih =>
    obtain ⟨size, s', he, hr⟩ := formSize_spec die h a.form
    have hi := hr.inside h
    simp only [DwarfDIE.findIn]
    rw [he, ok_bind]
    simp only
    split
    · refine ⟨_, rfl, ⟨?_, ?_⟩⟩
      · intro _ hn
        cases hn
      · intro hn
        have hn : a.form ≠ dwFormImplicitConst := fun he => hn (congrArg some he)
        simp only [if_neg hn]
        exact DwarfSpan.consume_inside hi _
    · obtain ⟨f, hf, hs⟩ := ih ((s'.consume_rest (size.getD 0)).inside hi)
      rw [hf]
      exact ⟨_, rfl, hs.form, hs.inside⟩

theorem findAttribute_spec (h : die.Inside m) (attr : Nat) :
    ∃ f, die.findAttribute m attr = .ok f ∧ f.Sound m := by
  rw [DwarfDIE.findAttribute, DwarfDIE.target]
  cases hp : die.pointer with
  | none => exact absurd hp h.pointer
  | some a => exact findIn_spec die attr h.span a.attributes

theorem decodeUnsignedLoop_spec {n start : Nat} (h : start + n ≤ m.length) (shift ret : Nat) :
    Runs (decodeUnsignedLoop m n start shift ret) := by
  induction n generalizing start shift ret with
  | zero => exact runs_ok _
  | succ n ih =>
    simp only [decodeUnsignedLoop]
    split
    · exact runs_ok _
    · rw [load_eq (by omega), ok_bind]
      exact ih (by omega) _ _

theorem runs_decodeLineptr (form : Nat) (h : form ≠ dwFormImplicitConst → s.Inside m) :
    Runs (decodeLineptr m s form) := by
  simp only [decodeLineptr]
  split
  · rename_i hf
    have hi : s.Inside m := by
      apply h
      intro he
      rw [he] at hf
      cases hf
    obtain ⟨v, hv⟩ := decodeUnsignedLoop_spec hi 0 0
    rw [decodeUnsignedLiteral, hv, ok_bind]
    split <;> exact runs_pure _
  · exact runs_ok _

def TextIn (m : Bytes) (p : Nat) : Prop := 0 ∈ m.drop p

theorem decodeString_spec {str : Bytes} (form : Nat)
    (h : form ≠ dwFormImplicitConst → s.Inside m) (hs : debugStr.Inside str) :
    ∃ p ok, decodeString m str s form debugStr = .ok (p, ok) ∧ ∀ q, p = some q → TextIn str q := by
  simp only [decodeString]
  split
  · rename_i hf
    have hi : s.Inside m := h (by rw [hf]; decide)
    obtain ⟨v, hv⟩ := decodeUnsignedLoop_spec hi 0 0
    obtain ⟨p, s', hp, -, ht⟩ :=
      readNullTerminatedString_spec ((debugStr.subspan_rest (v.getD 0)).inside hs)
    rw [decodeUnsignedLiteral, hv, ok_bind, hp, ok_bind]
    exact ⟨_, _, rfl, fun q hq => (ht q hq).2.2⟩
  · exact ⟨_, _, rfl, fun q hq => by cases hq⟩

theorem Found.Sound.getForm {f : Found} (h : f.Sound m) (he : ¬ f.span.empty = true) :
    ∃ form, f.getForm = .ok form ∧ (form ≠ dwFormImplicitConst → f.span.Inside m) := by
  rw [Found.getForm]
  cases hf : f.form with
  | none => exact absurd hf (h.form fun hz => he (by simp [DwarfSpan.empty, hz]))
  | some form =>
    refine ⟨form, rfl, fun hn => h.inside ?_⟩
    rw [hf]
    exact fun he => hn (Option.some.inj he)

theorem runs_lineptrAttr (h : die.Inside m) (attr : Nat) : Runs (die.lineptrAttr m attr) := by
  obtain ⟨f, hf, hs⟩ := findAttribute_spec h attr
  rw [DwarfDIE.lineptrAttr, hf, ok_bind]
  split
  · exact runs_pure _
  · rename_i he
    obtain ⟨form, hfo, hi⟩ := hs.getForm he
    rw [hfo, ok_bind, runs_bind_of_forall fun _ => runs_pure _]
    exact runs_decodeLineptr form hi

theorem stringAttr_spec {str : Bytes} (h : die.Inside m) (hstr : debugStr.Inside str) (attr : Nat) :
    ∃ p ok, die.stringAttr m str attr debugStr = .ok (p, ok) ∧ ∀ q, p = some q → TextIn str q := by
  obtain ⟨f, hf, hs⟩ := findAttribute_spec h attr
  rw [DwarfDIE.stringAttr, hf, ok_bind]
  split
  · exact ⟨_, _, rfl, fun q hq => by cases hq⟩
  · rename_i he
    obtain ⟨form, hfo, hi⟩ := hs.getForm he
    obtain ⟨p, ok, hp, ht⟩ := decodeString_spec form hi hstr
    rw [hfo, ok_bind, hp, ok_bind]
    exact ⟨_, _, rfl, ht⟩

end Attune.DebugInfo
