import Attune.DwarfLines

namespace Attune.DebugInfo
open Attune.Memory

variable {secs : Sections} {st : UnitState}

theorem whole_inside (m : Bytes) : (whole m).Inside m := by
  simp [DwarfSpan.Inside, whole]

structure Parsed (secs : Sections) (die : DwarfDIE) (s : DwarfSpan) : Prop where
  compDir : ∃ p, die.stringAttr secs.info secs.str dwAtCompDir (whole secs.str) = .ok (p, true)
  name : ∃ p, die.stringAttr secs.info secs.str dwAtName (whole secs.str) = .ok (p, true)
  stmtList : ∃ v, die.lineptrAttr secs.info dwAtStmtList = .ok (v, true) ∧ ¬ v < 0 ∧
    s = (whole secs.line).subspan v.toNat

theorem loadText_spec {m : Bytes} {p : Option Nat} (h : ∀ q, p = some q → TextIn m q) :
    Runs (loadText m p) := by
  cases p with
  | none => exact runs_ok _
  | some q =>
    rw [loadText, runs_bind_of_forall fun _ => runs_pure _]
    exact runs_textAt (h q rfl)

theorem runs_resolveFileName {m dir : Bytes} {compDir relDir : Option Nat} {fileName : Nat}
    (hc : ∀ q, compDir = some q → TextIn secs.str q) (hr : ∀ q, relDir = some q → TextIn secs.line q)
    (hf : TextIn m fileName) : Runs (resolveFileName secs dir compDir relDir m fileName) := by
  obtain ⟨c, hc⟩ := loadText_spec hc
  obtain ⟨r, hr⟩ := loadText_spec hr
  rw [resolveFileName, hc, ok_bind, hr, ok_bind, runs_bind_of_forall fun _ => runs_pure _]
  exact runs_textAt hf

theorem runs_resolveFile {dir : Bytes} {compDir : Option Nat} {lines : DwarfLineNumberTable}
    (hc : ∀ q, compDir = some q → TextIn secs.str q) (hl : lines.Sound secs.line)
    {file : Nat × Option Nat} (hf : file ∈ lines.fileNames) :
    Runs (resolveFile secs dir compDir lines file) := by
  have hin := hl.files file hf
  have hlt := hin.dir
  rw [resolveFile]
  cases hp : file.2 with
  | none => exact runs_ok _
  | some p =>
    have hdir : lines.directories[file.1]? = some lines.directories[file.1] :=
      List.getElem?_eq_getElem hlt
    simp only [hdir]
    rw [runs_bind_of_forall fun _ => runs_pure _]
    apply runs_resolveFileName hc _ (hin.name p hp)
    intro q hq
    exact hl.directories q (hq ▸ List.getElem_mem hlt)

theorem runs_resolveName {dir : Bytes} {compDir name : Option Nat}
    (hc : ∀ q, compDir = some q → TextIn secs.str q) (hn : ∀ q, name = some q → TextIn secs.str q) :
    Runs (resolveName secs dir compDir name) := by
  cases name with
  | none => exact runs_ok _
  | some p =>
    rw [resolveName, runs_bind_of_forall fun _ => runs_pure _]
    exact runs_resolveFileName hc (fun q hq => by cases hq) (hn p rfl)

variable {die : DwarfDIE}

theorem runs_sourceNames (hd : die.Inside secs.info) (dir : Bytes) :
    Runs (sourceNames secs dir die) ↔ ∀ s, Parsed secs die s → LinesClosed secs.line s := by
  obtain ⟨comp, okComp, hcom, hco⟩ := stringAttr_spec hd (whole_inside secs.str) dwAtCompDir
  obtain ⟨name, okName, hnam, hn⟩ := stringAttr_spec hd (whole_inside secs.str) dwAtName
  obtain ⟨⟨v, okLine⟩, hl⟩ := runs_lineptrAttr hd dwAtStmtList
  rw [sourceNames, hcom, ok_bind]
  cases okComp with
  | false =>
    refine iff_of_true (runs_pure _) ?_
    intro s hp
    obtain ⟨p, hp⟩ := hp.compDir
    cases hcom.symm.trans hp
  | true =>
    simp only [Bool.not_true, Bool.false_eq_true, if_false]
    rw [hnam, ok_bind]
    cases okName with
    | false =>
      refine iff_of_true (runs_pure _) ?_
      intro s hp
      obtain ⟨p, hp⟩ := hp.name
      cases hnam.symm.trans hp
    | true =>
      obtain ⟨names, hna⟩ : Runs (resolveName secs dir comp name) :=
        runs_resolveName hco hn
      simp only [Bool.not_true, Bool.false_eq_true, if_false]
      rw [hna, ok_bind, hl, ok_bind]
      simp only
      split
      · next hv =>
        refine iff_of_true (runs_pure _) ?_
        intro s hp
        obtain ⟨v', hv', hpos, -⟩ := hp.stmtList
        cases hl.symm.trans hv'
        exact absurd hv (by simp [hpos])
      · next hv =>
        obtain ⟨hpos, hok⟩ := not_or.mp hv
        have hok : okLine = true := by simpa using hok
        have hpa : ∀ s, Parsed secs die s ↔ s = (whole secs.line).subspan v.toNat := by
          intro s
          constructor
          · intro hp
            obtain ⟨v', hv', -, he⟩ := hp.stmtList
            cases hl.symm.trans hv'
            exact he
          · intro he
            exact ⟨⟨comp, hcom⟩, ⟨name, hnam⟩, v, hok ▸ hl, hpos, he⟩
        simp only [hpa, forall_eq]
        have hi := ((whole secs.line).subspan_rest v.toNat).inside (whole_inside secs.line)
        obtain ⟨hc, t, ok, hnew, hs⟩ | ⟨hc, hnew⟩ := newLines_spec hi
        · refine iff_of_true ?_ hc
          rw [hnew, ok_bind]
          simp only
          split
          · exact runs_pure _
          · rw [runs_bind_of_forall fun _ => runs_pure _, runs_mapM]
            intro file hf
            exact runs_resolveFile hco hs hf
        · refine iff_of_false ?_ hc
          intro hr
          obtain ⟨_, hr, _⟩ := runs_bind.mp hr
          exact hnew ⟨_, hr⟩

/-- What a unit needs for a turn of the loop to end without a fault. -/
structure Visitable (secs : Sections) (st : UnitState) : Prop where
  header : HeaderComplete secs st
  code : CodeListed secs st
  lines : ∀ die s, Accepted secs st die → Parsed secs die s → LinesClosed secs.line s

theorem runs_visit (hin : st.Inside secs) (dir : Bytes) :
    Runs (visit secs dir st) ↔ Visitable secs st := by
  obtain ⟨⟨hh, hc⟩, cu, hne, ho⟩ | ⟨hn, hne⟩ := next_spec hin
  · rw [visit, hne, ok_bind]
    cases hok : cu.ok with
    | false =>
      refine iff_of_true (runs_pure _) ⟨hh, hc, ?_⟩
      intro die s ha _
      obtain ⟨cu', hn', hok', -⟩ := ha.next hin hh
      cases hne.symm.trans hn'
      cases hok.symm.trans hok'
    | true =>
      obtain ⟨die, hdie, ha⟩ := accepted_of_next hin hh hne hok
      obtain ⟨die', hd', hd⟩ := ho.die hok
      cases hdie.symm.trans hd'
      simp only [Bool.not_true, Bool.false_eq_true, if_false, hdie]
      rw [runs_bind_of_forall fun _ => runs_pure _, runs_sourceNames hd]
      constructor
      · intro hl
        refine ⟨hh, hc, ?_⟩
        intro die' s ha' hp
        obtain ⟨cu', hn', -, hd'⟩ := ha'.next hin hh
        cases hne.symm.trans hn'
        cases hdie.symm.trans hd'
        exact hl s hp
      · intro hv s hp
        exact hv.lines die s ha hp
  · rw [visit, hne]
    exact iff_of_false (not_runs_error _) fun hv => hn ⟨hv.header, hv.code⟩

theorem visit_next (hin : st.Inside secs) (h : visit secs dir st = .ok (names, some st')) :
    st'.Inside secs ∧ st'.debugInfo.size < st.debugInfo.size := by
  obtain ⟨cu, hn, h⟩ := bind_eq_ok.mp h
  obtain ⟨-, cu', hn', ho⟩ | ⟨-, hn'⟩ := next_spec hin
  · cases hn.symm.trans hn'
    split at h
    · cases h
    rename_i hok
    have hok : cu.ok = true := by simpa using hok
    obtain ⟨die, hdie, -⟩ := ho.die hok
    rw [hdie] at h
    obtain ⟨names', -, h⟩ := bind_eq_ok.mp h
    have he : (if cu.state.debugInfo.empty = true then none else some cu.state) = some st' :=
      congrArg Prod.snd (Except.ok.inj h)
    split at he
    · cases he
    · cases he
      exact ⟨ho.state, ho.shorter hok⟩
  · cases hn.symm.trans hn'

inductive Path (secs : Sections) (dir : Bytes) : UnitState → UnitState → Prop
  | refl (st : UnitState) : Path secs dir st st
  | step {st st₁ st₂ : UnitState} {names : List Bytes} :
    visit secs dir st = .ok (names, some st₁) → Path secs dir st₁ st₂ → Path secs dir st st₂

theorem Path.inside (h : Path secs dir st st') (hin : st.Inside secs) : st'.Inside secs := by
  induction h with
  | refl st => exact hin
  | step hv _ ih => exact ih (visit_next hin hv).1

theorem runs_visitLoop (hin : st.Inside secs) (hf : st.debugInfo.size < fuel) (dir : Bytes) :
    Runs (visitLoop secs dir fuel st) ↔ ∀ st', Path secs dir st st' → Visitable secs st' := by
  induction fuel generalizing st with
  | zero => cases hf
  | succ fuel ih =>
    rw [visitLoop, runs_bind]
    constructor
    · intro ⟨⟨names, next⟩, hv, hr⟩ st' hp
      have hst := (runs_visit hin dir).mp ⟨_, hv⟩
      cases hp with
      | refl => exact hst
      | step hv' hp =>
        cases hv.symm.trans hv'
        obtain ⟨hin', hlt⟩ := visit_next hin hv
        simp only at hr
        rw [runs_bind_of_forall fun _ => runs_pure _] at hr
        exact (ih hin' (by omega)).mp hr st' hp
    · intro h
      obtain ⟨⟨names, next⟩, hv⟩ := (runs_visit hin dir).mpr (h st (.refl st))
      refine ⟨(names, next), hv, ?_⟩
      cases next with
      | none => exact runs_pure _
      | some st₁ =>
        obtain ⟨hin', hlt⟩ := visit_next hin hv
        simp only
        rw [runs_bind_of_forall fun _ => runs_pure _]
        exact (ih hin' (by omega)).mpr fun st' hp => h st' (.step hv hp)

theorem startState_inside (secs : Sections) : (startState secs).Inside secs :=
  ⟨whole_inside _, whole_inside _, fun e he => by cases he⟩

structure Reached (secs : Sections) (dir : Bytes) (st : UnitState) : Prop where
  sections_ : ¬ (secs.info = [] ∨ secs.abbrevs = [] ∨ secs.str = [] ∨ secs.line = [])
  path : Path secs dir (startState secs) st

theorem Reached.inside (h : Reached secs dir st) : st.Inside secs :=
  h.path.inside (startState_inside secs)

theorem runs_listSourceFiles (secs : Sections) (dir : Bytes) :
    Runs (listSourceFiles secs dir) ↔ ∀ st, Reached secs dir st → Visitable secs st := by
  rw [listSourceFiles]
  split
  · rename_i he
    exact iff_of_true (runs_ok _) fun st hr => absurd he hr.sections_
  rename_i he
  have hf : (startState secs).debugInfo.size < secs.info.length + 1 := Nat.lt_succ_self _
  rw [runs_bind_of_forall fun _ => runs_pure _, runs_visitLoop (startState_inside secs) hf]
  constructor
  · intro h st hr
    exact h st hr.path
  · intro h st hp
    exact h st ⟨he, hp⟩

inductive Looked (secs : Sections) (st : UnitState) : DwarfDIE → Nat → Prop
  | compDir {die : DwarfDIE} : Accepted secs st die → Looked secs st die dwAtCompDir
  | name {die : DwarfDIE} {p : Option Nat} : Accepted secs st die →
    die.stringAttr secs.info secs.str dwAtCompDir (whole secs.str) = .ok (p, true) →
    Looked secs st die dwAtName
  | stmtList {die : DwarfDIE} {p q : Option Nat} : Accepted secs st die →
    die.stringAttr secs.info secs.str dwAtCompDir (whole secs.str) = .ok (p, true) →
    die.stringAttr secs.info secs.str dwAtName (whole secs.str) = .ok (q, true) →
    Looked secs st die dwAtStmtList

theorem Looked.accepted (h : Looked secs st die attr) : Accepted secs st die := by
  cases h with
  | compDir h | name h _ => exact h
  | stmtList h _ _ => exact h

/-- The value of an attribute up to the one that is looked up runs past the end of the section. -/
def ShortIn (m : Bytes) (die : DwarfDIE) (attr : Nat) : List DwarfAbbrevAttribute → DwarfSpan → Prop
  | [], _ => False
  | a :: rest, s => ∃ size s', die.formSize m a.form s = .ok (size, s') ∧
    (s'.size < size.getD 0 ∨
      (a.name ≠ attr ∧ ShortIn m die attr rest (s'.consume (size.getD 0)).2))

/-- An attribute up to the one that is looked up has a form without a known size. -/
def UnknownIn (m : Bytes) (die : DwarfDIE) (attr : Nat) :
    List DwarfAbbrevAttribute → DwarfSpan → Prop
  | [], _ => False
  | a :: rest, s => ∃ size s', die.formSize m a.form s = .ok (size, s') ∧
    (size = none ∨ (a.name ≠ attr ∧ UnknownIn m die attr rest (s'.consume (size.getD 0)).2))

def Short (m : Bytes) (die : DwarfDIE) (attr : Nat) : Prop :=
  ∀ a, die.pointer = some a → ShortIn m die attr a.attributes die.attrSpan

def Unknown (m : Bytes) (die : DwarfDIE) (attr : Nat) : Prop :=
  ∀ a, die.pointer = some a → UnknownIn m die attr a.attributes die.attrSpan

theorem findIn_ok {m : Bytes} {as : List DwarfAbbrevAttribute} {s : DwarfSpan}
    (h : die.findIn m attr as s = .ok found) :
    found.ok = false ↔ UnknownIn m die attr as s := by
  induction as generalizing s found with
  | nil =>
    cases h
    exact iff_of_false (fun h => by cases h) fun h => h
  | cons a as ih =>
    obtain ⟨⟨size, s'⟩, hsi, h⟩ := bind_eq_ok.mp h
    simp only at h
    have hun : UnknownIn m die attr (a :: as) s ↔
        size = none ∨ (a.name ≠ attr ∧ UnknownIn m die attr as (s'.consume (size.getD 0)).2) := by
      constructor
      · intro ⟨size', s'', hs', hu⟩
        cases hsi.symm.trans hs'
        exact hu
      · intro hu
        exact ⟨size, s', hsi, hu⟩
    rw [hun]
    split at h
    · rename_i hn
      cases h
      cases size <;> simp [hn]
    · rename_i hn
      obtain ⟨rest, hr, h⟩ := bind_eq_ok.mp h
      cases h
      rw [← ih hr]
      cases size <;> simp [hn]

theorem findAttribute_ok {m : Bytes} (hd : die.Inside m)
    (h : die.findAttribute m attr = .ok found) : found.ok = false ↔ Unknown m die attr := by
  rw [DwarfDIE.findAttribute, DwarfDIE.target] at h
  rw [Unknown]
  cases hp : die.pointer with
  | none => exact absurd hp hd.pointer
  | some a =>
    rw [hp] at h
    rw [findIn_ok h]
    constructor
    · intro hu a' ha
      cases ha
      exact hu
    · intro hu
      exact hu a rfl

/-- The flag is cleared for every unit that runs past its section, and by every search that does. -/
structure Reported (secs : Sections) (dir : Bytes) : Prop where
  unit : ∀ st cu, Reached secs dir st → next secs st = .ok cu → ¬ UnitFits secs st → cu.ok = false
  search : ∀ st die attr found, Reached secs dir st → Looked secs st die attr →
    die.findAttribute secs.info attr = .ok found → Short secs.info die attr → found.ok = false

structure WellFormed (secs : Sections) (st : UnitState) : Prop extends Visitable secs st where
  fits : ∀ die, Accepted secs st die → UnitFits secs st
  attributes : ∀ die attr, Looked secs st die attr → Short secs.info die attr →
    Unknown secs.info die attr

theorem Accepted.inside (hin : st.Inside secs) (hh : HeaderComplete secs st)
    (h : Accepted secs st die) : die.Inside secs.info := by
  obtain ⟨cu, hn, hok, hdie⟩ := h.next hin hh
  obtain ⟨-, cu', hn', ho⟩ | ⟨-, hn'⟩ := next_spec hin
  · cases hn.symm.trans hn'
    obtain ⟨die', hd', hd⟩ := ho.die hok
    cases hdie.symm.trans hd'
    exact hd
  · cases hn.symm.trans hn'

end Attune.DebugInfo
