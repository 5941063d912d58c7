import Attune.DwarfSafe

namespace Attune.DebugInfo
open Attune.Memory Option

variable {s : DwarfSpan} {h : UnitHeader} {m : Bytes} {secs : Sections} {st : UnitState}

structure UnitState.Inside (secs : Sections) (st : UnitState) : Prop where
  info : st.debugInfo.Inside secs.info
  abbrevs : st.abbrevs.Inside secs.abbrevs

def UnitState.peek (secs : Sections) (st : UnitState) (offset width : Nat) : Nat :=
  Memory.peek secs.info (st.debugInfo.start + offset) width

section

variable (secs : Sections) (st : UnitState)

def unitFormat : Format := formatOf (some (st.peek secs 0 4))

def unitHeader : Option UnitHeader :=
  let version := st.peek secs (unitFormat secs st).preamble 2
  if 2 ≤ version ∧ version ≤ 4 then some .dwarf4
  else if version = 5 then some .dwarf5
  else none

def unitLength : Nat :=
  st.peek secs (unitFormat secs st).lengthAt (unitFormat secs st).offset

def unitAbbrevs (h : UnitHeader) : DwarfAbbrevSet :=
  st.abbrevs.lookup (st.peek secs (h.abbrevAt (unitFormat secs st)) (unitFormat secs st).offset)

def unitBody (h : UnitHeader) : DwarfSpan :=
  (st.debugInfo.read (h.size (unitFormat secs st))).2

structure HeaderComplete (secs : Sections) (st : UnitState) : Prop where
  first : UnitHeader.dwarf4.size (unitFormat secs st) ≤ st.debugInfo.size
  all : ∀ h, unitHeader secs st = some h → h.size (unitFormat secs st) ≤ st.debugInfo.size

def CodeListed : Prop :=
  ∀ h code s found set, unitHeader secs st = some h → unitLength secs st < 2 ^ 64 - 13 →
    readUleb secs.info (unitBody secs st h) = .ok (some code, s) → code ≠ 0 →
    (unitAbbrevs secs st h).lookup secs.abbrevs code = .ok (found, set) → found ≠ none

def UnitFits : Prop :=
  unitLength secs st + (unitFormat secs st).preamble ≤ st.debugInfo.size

end

theorem new_spec {info abbrevs : Bytes} {set : DwarfAbbrevSet}
    (h : s.Inside info) (hs : set.Inside abbrevs) (dwarfSize addressSize : Nat) :
    ∃ die set' ok, DwarfDIE.new info abbrevs s set dwarfSize addressSize = .ok (die, set', ok) ∧
      die.attrSpan.Inside info ∧ set'.Inside abbrevs ∧
      (die.pointer = none ↔ ∃ code s₁ set₁, readUleb info s = .ok (some code, s₁) ∧ code ≠ 0 ∧
        set.lookup abbrevs code = .ok (none, set₁)) := by
  obtain ⟨v, s₁, hu, hr, -⟩ := readUleb_spec h
  rw [DwarfDIE.new, hu, ok_bind]
  simp only
  split
  · rename_i hz
    refine ⟨_, _, _, rfl, DwarfSpan.null_inside _, hs, ?_⟩
    refine iff_of_false (fun hn => by cases hn) ?_
    intro ⟨code, _, _, he, hc, _⟩
    cases he
    exact hc hz
  · rename_i hz
    obtain ⟨a, set', hl, hs'⟩ := lookup_spec hs (v.getD 0)
    rw [hl, ok_bind]
    cases v with
    | none => exact absurd rfl hz
    | some code =>
      cases a with
      | none =>
        refine ⟨_, _, _, rfl, DwarfSpan.null_inside _, hs', ?_⟩
        exact iff_of_true rfl ⟨code, s₁, set', rfl, hz, hl⟩
      | some a =>
        refine ⟨_, _, _, rfl, hr.inside h, hs', ?_⟩
        refine iff_of_false (fun hn => by cases hn) ?_
        intro ⟨code', _, _, he, _, hl'⟩
        cases he
        rw [getD_some, hl'] at hl
        cases hl

theorem UnitHeader.size_pos (f : Format) (h : UnitHeader) : f.preamble + f.offset < h.size f := by
  cases h <;> simp only [UnitHeader.size] <;> omega

theorem deref_eq (h : s.Inside m) (hw : width ≤ s.size) (ho : offset + n ≤ width) :
    deref m (s.read width).1 offset n = .ok (Memory.peek m (s.start + offset) n) := by
  simp only [DwarfSpan.Inside] at h
  simp only [DwarfSpan.read, if_neg (Nat.not_lt.mpr hw), deref]
  exact load_eq (by omega)

theorem deref_eq_error (hw : ¬ width ≤ s.size) :
    deref m (s.read width).1 offset n = .error .null := by
  simp only [DwarfSpan.read, if_pos (Nat.not_le.mp hw), deref]

structure Opened (secs : Sections) (st : UnitState) (cu : CompilationUnit) : Prop where
  state : cu.state.Inside secs
  die : cu.ok = true → ∃ die, cu.die = some die ∧ die.Inside secs.info
  shorter : cu.ok = true → cu.state.debugInfo.size < st.debugInfo.size

theorem initUnit_incomplete {f : Format} (hw : ¬ h.size f ≤ st.debugInfo.size) :
    initUnit secs f h st = .error .null := by
  simp only [initUnit]
  rw [deref_eq_error hw]
  rfl

theorem codeListed_iff (hu : unitHeader secs st = some h) (hl : unitLength secs st < 2 ^ 64 - 13) :
    CodeListed secs st ↔
      ¬ ∃ code s set, readUleb secs.info (unitBody secs st h) = .ok (some code, s) ∧ code ≠ 0 ∧
        (unitAbbrevs secs st h).lookup secs.abbrevs code = .ok (none, set) := by
  constructor
  · intro hc ⟨code, s, set, hr, hz, hn⟩
    exact hc h code s none set hu hl hr hz hn rfl
  · intro hn h' code s found set hu' _ hr hz hf he
    cases hu.symm.trans hu'
    rw [he] at hf
    exact hn ⟨code, s, set, hr, hz, hf⟩

theorem initUnit_eq (hin : st.Inside secs) (hw : h.size (unitFormat secs st) ≤ st.debugInfo.size) :
    initUnit secs (unitFormat secs st) h st =
      if 2 ^ 64 - 13 ≤ unitLength secs st then .ok ⟨none, st, false⟩
      else do
        let (die, set, ok) ← DwarfDIE.new secs.info secs.abbrevs (unitBody secs st h)
          (unitAbbrevs secs st h) (unitFormat secs st).offset
          (st.peek secs (h.addressSizeAt (unitFormat secs st)) 1)
        let tag ← die.tag
        return ⟨some die, ⟨(st.debugInfo.consume (unitLength secs st + (unitFormat secs st).preamble)).2,
          st.abbrevs.update
            (st.peek secs (h.abbrevAt (unitFormat secs st)) (unitFormat secs st).offset) set⟩,
          ok && tag == dwTagCompileUnit⟩ := by
  have hlen : deref secs.info (st.debugInfo.read (h.size (unitFormat secs st))).1
      (unitFormat secs st).lengthAt (unitFormat secs st).offset = .ok (unitLength secs st) := by
    apply deref_eq hin.info hw
    cases unitFormat secs st <;> cases h <;> decide
  have hoff : deref secs.info (st.debugInfo.read (h.size (unitFormat secs st))).1
      (h.abbrevAt (unitFormat secs st)) (unitFormat secs st).offset =
        .ok (st.peek secs (h.abbrevAt (unitFormat secs st)) (unitFormat secs st).offset) := by
    apply deref_eq hin.info hw
    cases unitFormat secs st <;> cases h <;> decide
  have ha : deref secs.info (st.debugInfo.read (h.size (unitFormat secs st))).1
      (h.addressSizeAt (unitFormat secs st)) 1 =
        .ok (st.peek secs (h.addressSizeAt (unitFormat secs st)) 1) := by
    apply deref_eq hin.info hw
    cases unitFormat secs st <;> cases h <;> decide
  simp only [initUnit]
  rw [hlen, ok_bind, hoff, ok_bind, ha, ok_bind]
  rfl

theorem initUnit_complete (hin : st.Inside secs) (hu : unitHeader secs st = some h)
    (hw : h.size (unitFormat secs st) ≤ st.debugInfo.size) :
    (CodeListed secs st ∧ ∃ cu, initUnit secs (unitFormat secs st) h st = .ok cu ∧ Opened secs st cu) ∨
      (¬ CodeListed secs st ∧ initUnit secs (unitFormat secs st) h st = .error .null) := by
  rw [initUnit_eq hin hw]
  by_cases hl : 2 ^ 64 - 13 ≤ unitLength secs st
  · rw [if_pos hl]
    refine .inl ⟨?_, _, rfl, hin, ?_, ?_⟩
    · intro _ _ _ _ _ _ hl' _ _ _
      exact absurd hl (Nat.not_le.mpr hl')
    · intro hok
      cases hok
    · intro hok
      cases hok
  · have hb : (unitBody secs st h).Inside secs.info :=
      (st.debugInfo.read_rest _).inside hin.info
    have ha : (unitAbbrevs secs st h).Inside secs.abbrevs := hin.abbrevs.lookup _
    obtain ⟨die, set, ok, hnew, hsp, hset, hpo⟩ := new_spec hb ha
      (unitFormat secs st).offset (st.peek secs (h.addressSizeAt (unitFormat secs st)) 1)
    have hco := codeListed_iff hu (Nat.not_le.mp hl)
    rw [← hpo] at hco
    rw [if_neg hl, hnew, ok_bind]
    simp only [DwarfDIE.tag, DwarfDIE.target]
    cases hp : die.pointer with
    | none => exact .inr ⟨fun hc => hco.mp hc hp, rfl⟩
    | some a =>
      have hne : die.pointer ≠ none := by
        rw [hp]
        exact some_ne_none a
      refine .inl ⟨hco.mpr hne, _, rfl, ?_, ?_, ?_⟩
      · exact ⟨(st.debugInfo.consume_rest _).inside hin.info, hin.abbrevs.update _ hset⟩
      · intro _
        exact ⟨die, rfl, hsp, hne⟩
      · intro _
        have hpos := h.size_pos (unitFormat secs st)
        have hpre : 0 < (unitFormat secs st).preamble := by cases unitFormat secs st <;> decide
        simp only [DwarfSpan.consume]
        split <;> simp only <;> omega

theorem readValue_eq (h : s.Inside m) (hw : width ≤ s.size) :
    ∃ s', readValue m s width = .ok (some (Memory.peek m s.start width), s') := by
  simp only [DwarfSpan.Inside] at h
  simp only [readValue, DwarfSpan.read, if_neg (Nat.not_lt.mpr hw)]
  rw [load_eq (by omega)]
  exact ⟨_, rfl⟩

/-- A header that is not there is dereferenced through a null pointer, whatever its format. -/
theorem initSize_incomplete {f : Format}
    (h : ¬ UnitHeader.dwarf4.size f ≤ st.debugInfo.size) : initSize secs f st = .error .null := by
  simp only [initSize]
  rw [deref_eq_error h]
  rfl

theorem initSize_complete (hin : st.Inside secs)
    (h : UnitHeader.dwarf4.size (unitFormat secs st) ≤ st.debugInfo.size) :
    initSize secs (unitFormat secs st) st =
      match unitHeader secs st with
      | some h => initUnit secs (unitFormat secs st) h st
      | none => .ok ⟨none, st, false⟩ := by
  have hv : deref secs.info (st.debugInfo.read (UnitHeader.dwarf4.size (unitFormat secs st))).1
      (unitFormat secs st).preamble 2 = .ok (st.peek secs (unitFormat secs st).preamble 2) := by
    apply deref_eq hin.info h
    cases unitFormat secs st <;> decide
  simp only [initSize, unitHeader]
  rw [hv, ok_bind]
  split
  · rfl
  · split <;> rfl

theorem eleven_le_size (f : Format) : 11 ≤ UnitHeader.dwarf4.size f := by cases f <;> decide

theorem next_eq (hin : st.Inside secs)
    (h : UnitHeader.dwarf4.size (unitFormat secs st) ≤ st.debugInfo.size) :
    next secs st =
      match unitHeader secs st with
      | some h => initUnit secs (unitFormat secs st) h st
      | none => .ok ⟨none, st, false⟩ := by
  have h4 : 4 ≤ st.debugInfo.size := by
    have := eleven_le_size (unitFormat secs st)
    omega
  obtain ⟨s', hw⟩ := readValue_eq hin.info h4
  have hf : formatOf (some (Memory.peek secs.info st.debugInfo.start 4)) =
      unitFormat secs st := rfl
  rw [next, hw, ok_bind]
  simp only [hf]
  rw [initSize_complete hin h]
  cases unitHeader secs st with
  | none => rfl
  | some h =>
    simp only
    cases initUnit secs (unitFormat secs st) h st <;> rfl

theorem next_incomplete (hin : st.Inside secs)
    (h : ¬ UnitHeader.dwarf4.size (unitFormat secs st) ≤ st.debugInfo.size) :
    next secs st = .error .null := by
  by_cases h4 : 4 ≤ st.debugInfo.size
  · obtain ⟨s', hw⟩ := readValue_eq hin.info h4
    have hf : formatOf (some (Memory.peek secs.info st.debugInfo.start 4)) =
        unitFormat secs st := rfl
    rw [next, hw, ok_bind]
    simp only [hf]
    rw [initSize_incomplete h]
    rfl
  · obtain ⟨v, s', hw, -⟩ := readValue_spec hin.info 4
    have hsh : ¬ UnitHeader.dwarf4.size (formatOf v) ≤ st.debugInfo.size := by
      have := eleven_le_size (formatOf v)
      omega
    rw [next, hw, ok_bind]
    simp only
    rw [initSize_incomplete hsh]
    rfl

/-- A unit is opened exactly when its header is there and its code is in its table; `next` reads a null
pointer if not. -/
theorem next_spec (hin : st.Inside secs) : ((HeaderComplete secs st ∧ CodeListed secs st) ∧
      ∃ cu, next secs st = .ok cu ∧ Opened secs st cu) ∨
    (¬ (HeaderComplete secs st ∧ CodeListed secs st) ∧ next secs st = .error .null) := by
  by_cases hf : UnitHeader.dwarf4.size (unitFormat secs st) ≤ st.debugInfo.size
  · rw [next_eq hin hf]
    cases hu : unitHeader secs st with
    | none =>
      refine .inl ⟨⟨⟨hf, ?_⟩, ?_⟩, _, rfl, hin, ?_, ?_⟩
      · intro h hh
        cases hu.symm.trans hh
      · intro h _ _ _ _ hh
        cases hu.symm.trans hh
      · intro hok
        cases hok
      · intro hok
        cases hok
    | some h =>
      by_cases hall : h.size (unitFormat secs st) ≤ st.debugInfo.size
      · have hco : HeaderComplete secs st := by
          refine ⟨hf, ?_⟩
          intro h' hh
          cases hu.symm.trans hh
          exact hall
        obtain ⟨hc, hcu⟩ | ⟨hc, he⟩ := initUnit_complete hin hu hall
        · exact .inl ⟨⟨hco, hc⟩, hcu⟩
        · exact .inr ⟨fun hh => hc hh.2, he⟩
      · exact .inr ⟨fun hh => hall (hh.1.all h hu), initUnit_incomplete hall⟩
  · exact .inr ⟨fun hh => hf hh.1.first, next_incomplete hin hf⟩

/-- The unit is a compilation unit that its table of abbreviations describes, with the given entry. -/
inductive Accepted (secs : Sections) (st : UnitState) : DwarfDIE → Prop
  | mk {h : UnitHeader} {code : Nat} {s : DwarfSpan} {a : DwarfAbbrev} {set : DwarfAbbrevSet} :
    unitHeader secs st = some h → unitLength secs st < 2 ^ 64 - 13 →
    readUleb secs.info (unitBody secs st h) = .ok (some code, s) → code ≠ 0 →
    (unitAbbrevs secs st h).lookup secs.abbrevs code = .ok (some a, set) →
    a.tag = dwTagCompileUnit →
    Accepted secs st ⟨some a, s, st.peek secs (h.addressSizeAt (unitFormat secs st)) 1,
      (unitFormat secs st).offset⟩

variable (hin : st.Inside secs) (hc : HeaderComplete secs st)
include hin hc

theorem Accepted.next (ha : Accepted secs st die) :
    ∃ cu, next secs st = .ok cu ∧ cu.ok = true ∧ cu.die = some die := by
  cases ha with
  | mk hu hl hr hz hf ht =>
    rw [next_eq hin hc.first, hu]
    simp only
    rw [initUnit_eq hin (hc.all _ hu), if_neg (Nat.not_le.mpr hl), DwarfDIE.new, hr, ok_bind]
    simp only [getD_some, if_neg hz]
    rw [hf]
    refine ⟨_, rfl, ?_, rfl⟩
    simp only [ht]
    rfl

theorem accepted_of_next (h : DebugInfo.next secs st = .ok cu) (hok : cu.ok = true) :
    ∃ die, cu.die = some die ∧ Accepted secs st die := by
  rw [next_eq hin hc.first] at h
  cases hu : unitHeader secs st with
  | none =>
    rw [hu] at h
    cases h
    cases hok
  | some hd =>
    rw [hu] at h
    simp only at h
    rw [initUnit_eq hin (hc.all _ hu)] at h
    split at h
    · cases h
      cases hok
    rename_i hl
    obtain ⟨⟨die, set, ok⟩, hnew, h⟩ := bind_eq_ok.mp h
    obtain ⟨tag, htag, h⟩ := bind_eq_ok.mp h
    cases h
    obtain ⟨hok, ht⟩ := (Bool.and_eq_true _ _).mp hok
    refine ⟨die, rfl, ?_⟩
    obtain ⟨⟨code, s⟩, hr, hnew⟩ := bind_eq_ok.mp hnew
    simp only at hnew
    split at hnew
    · cases hnew
      cases htag
      cases ht
    rename_i hz
    obtain ⟨⟨found, set'⟩, hf, hnew⟩ := bind_eq_ok.mp hnew
    cases found with
    | none =>
      cases hnew
      cases hok
    | some a =>
      cases hnew
      cases htag
      cases code with
      | none => exact absurd rfl hz
      | some code => exact .mk hu (Nat.not_le.mp hl) hr hz hf (beq_iff_eq.mp ht)

end Attune.DebugInfo
