import Attune.DwarfUnits

namespace Attune.DebugInfo
open Attune.Memory

variable {m : Bytes} {s : DwarfSpan}

theorem skipUlebs_spec (h : s.Inside m) (n : Nat) :
    ∃ s' ok, skipUlebs m n s = .ok (s', ok) ∧ s'.Rest s := by
  induction n generalizing s with
  | zero => exact ⟨_, _, rfl, .refl s⟩
  | succ n ih =>
    obtain ⟨v, s₁, h₁, hr₁, -⟩ := readUleb_spec h
    obtain ⟨s₂, ok, h₂, hr₂⟩ := ih (hr₁.inside h)
    rw [skipUlebs, h₁, ok_bind]
    simp only
    rw [h₂]
    exact ⟨_, _, rfl, hr₂.trans hr₁⟩

/-- `n` directories begin the span and are closed by an empty name; the last span is what follows. -/
inductive DirsClosed (m : Bytes) : DwarfSpan → Nat → DwarfSpan → Prop
  | done {s s' : DwarfSpan} {p : Nat} :
    readNullTerminatedString m s = .ok (some p, s') → load m p 1 = .ok 0 → DirsClosed m s 0 s'
  | dir {s s' s'' : DwarfSpan} {p c n : Nat} :
    readNullTerminatedString m s = .ok (some p, s') → load m p 1 = .ok c → c ≠ 0 →
    DirsClosed m s' n s'' → DirsClosed m s (n + 1) s''

/-- The files are closed by an empty name, or one has no directory among the `n` of the table. -/
inductive FilesClosed (m : Bytes) (n : Nat) : DwarfSpan → Prop
  | done {s s' : DwarfSpan} {p : Nat} :
    readNullTerminatedString m s = .ok (some p, s') → load m p 1 = .ok 0 → FilesClosed m n s
  | stray {s s₁ s₂ : DwarfSpan} {p c : Nat} {v : Option Nat} :
    readNullTerminatedString m s = .ok (some p, s₁) → load m p 1 = .ok c → c ≠ 0 →
    readUleb m s₁ = .ok (v, s₂) → n ≤ v.getD 0 → FilesClosed m n s
  | file {s s₁ s₂ s₃ : DwarfSpan} {p c : Nat} {v : Option Nat} {ok : Bool} :
    readNullTerminatedString m s = .ok (some p, s₁) → load m p 1 = .ok c → c ≠ 0 →
    readUleb m s₁ = .ok (v, s₂) → v.getD 0 < n → skipUlebs m 2 s₂ = .ok (s₃, ok) →
    FilesClosed m n s₃ → FilesClosed m n s

theorem readName_spec (h : s.Inside m) (he : readNullTerminatedString m s = .ok (some p, s')) :
    s'.Rest s ∧ s'.size < s.size ∧ TextIn m p := by
  obtain ⟨v, s₁, he', hr, hv⟩ := readNullTerminatedString_spec h
  cases he.symm.trans he'
  obtain ⟨hlt, -, ht⟩ := hv p rfl
  exact ⟨hr, hlt, ht⟩

theorem dirsClosed_of_read (h : readDirectories m fuel s = .ok (dirs, s')) :
    DirsClosed m s dirs.length s' := by
  induction fuel generalizing s dirs with
  | zero => cases h
  | succ fuel ih =>
    obtain ⟨⟨dir, s₁⟩, hn, h⟩ := bind_eq_ok.mp h
    obtain ⟨c, hc, h⟩ := bind_eq_ok.mp h
    cases dir with
    | none => cases hc
    | some p =>
      split at h
      · rename_i hz
        cases h
        rw [hz] at hc
        exact .done hn hc
      · rename_i hz
        obtain ⟨⟨rest, s₂⟩, hr, h⟩ := bind_eq_ok.mp h
        cases h
        exact .dir hn hc hz (ih hr)

theorem DirsClosed.read (h : DirsClosed m s n s') (hi : s.Inside m) (hf : s.size < fuel) :
    ∃ dirs, readDirectories m fuel s = .ok (dirs, s') ∧ dirs.length = n ∧
      (∀ p ∈ dirs, TextIn m p) ∧ s'.Rest s := by
  induction h generalizing fuel with
  | done hn hc =>
    cases fuel with
    | zero => cases hf
    | succ fuel =>
      obtain ⟨hr, -, -⟩ := readName_spec hi hn
      rw [readDirectories, hn, ok_bind]
      simp only [deref, Nat.add_zero]
      rw [hc]
      exact ⟨_, rfl, rfl, fun p hp => (by cases hp), hr⟩
  | @dir s s₁ _ _ _ _ hn hc hz _ ih =>
    cases fuel with
    | zero => cases hf
    | succ fuel =>
      obtain ⟨hr, hlt, ht⟩ := readName_spec hi hn
      have hf₁ : s₁.size < fuel := by omega
      obtain ⟨dirs, hd, hlen, hall, hr'⟩ := ih (hr.inside hi) hf₁
      rw [readDirectories, hn, ok_bind]
      simp only [deref, Nat.add_zero]
      rw [hc, ok_bind, if_neg hz, hd]
      refine ⟨_, rfl, congrArg Nat.succ hlen, ?_, hr'.trans hr⟩
      intro p hp
      cases hp with
      | head => exact ht
      | tail _ hp => exact hall p hp

theorem filesClosed_of_read (h : readFileNames m n fuel s = .ok (files, ok)) : FilesClosed m n s := by
  induction fuel generalizing s files ok with
  | zero => cases h
  | succ fuel ih =>
    obtain ⟨⟨file, s₁⟩, hna, h⟩ := bind_eq_ok.mp h
    obtain ⟨c, hc, h⟩ := bind_eq_ok.mp h
    cases file with
    | none => cases hc
    | some p =>
      split at h
      · rename_i hz
        rw [hz] at hc
        exact .done hna hc
      rename_i hz
      obtain ⟨⟨v, s₂⟩, hdir, h⟩ := bind_eq_ok.mp h
      simp only at h
      split at h
      · rename_i hn
        exact .stray hna hc hz hdir hn
      · rename_i hn
        obtain ⟨⟨s₃, ok'⟩, hsk, h⟩ := bind_eq_ok.mp h
        obtain ⟨⟨rest, okRest⟩, hr, h⟩ := bind_eq_ok.mp h
        exact .file hna hc hz hdir (Nat.not_le.mp hn) hsk (ih hr)

/-- A file of the table: its directory is one of the `n`, and its name is a text of the section. -/
structure FileIn (m : Bytes) (n : Nat) (file : Nat × Option Nat) : Prop where
  dir : file.1 < n
  name : ∀ p, file.2 = some p → TextIn m p

theorem FilesClosed.read (h : FilesClosed m n s) (hi : s.Inside m) (hf : s.size < fuel) :
    ∃ files ok, readFileNames m n fuel s = .ok (files, ok) ∧ ∀ file ∈ files, FileIn m n file := by
  induction h generalizing fuel with
  | done hna hc =>
    cases fuel with
    | zero => cases hf
    | succ fuel =>
      rw [readFileNames, hna, ok_bind]
      simp only [deref, Nat.add_zero]
      rw [hc]
      exact ⟨_, _, rfl, fun file hfil => by cases hfil⟩
  | stray hna hc hz hdir hn =>
    cases fuel with
    | zero => cases hf
    | succ fuel =>
      rw [readFileNames, hna, ok_bind]
      simp only [deref, Nat.add_zero]
      rw [hc, ok_bind, if_neg hz, hdir, ok_bind]
      simp only [if_pos hn]
      exact ⟨_, _, rfl, fun file hfil => by cases hfil⟩
  | @file s s₁ s₂ s₃ _ _ _ _ hna hc hz hdir hn hsk _ ih =>
    cases fuel with
    | zero => cases hf
    | succ fuel =>
      obtain ⟨hr, hlt, ht⟩ := readName_spec hi hna
      obtain ⟨_, _, hd', hr₂, -⟩ := readUleb_spec (hr.inside hi)
      cases hdir.symm.trans hd'
      obtain ⟨_, _, hs', hr₃⟩ := skipUlebs_spec (hr₂.inside (hr.inside hi)) 2
      cases hsk.symm.trans hs'
      have hf₃ : s₃.size < fuel := by
        have hle₂ := hr₂.size_le
        have hle₃ := hr₃.size_le
        omega
      obtain ⟨files, okRest, hfi, hall⟩ := ih (hr₃.inside (hr₂.inside (hr.inside hi))) hf₃
      rw [readFileNames, hna, ok_bind]
      simp only [deref, Nat.add_zero]
      rw [hc, ok_bind, if_neg hz, hdir, ok_bind]
      simp only [if_neg (Nat.not_le.mpr hn)]
      rw [hsk, ok_bind]
      simp only
      rw [hfi]
      refine ⟨_, _, rfl, ?_⟩
      intro file hfil
      cases hfil with
      | head =>
        refine ⟨hn, ?_⟩
        intro p hp
        cases hp
        exact ht
      | tail _ hfil => exact hall file hfil

def lineFormat (m : Bytes) (s : DwarfSpan) : Format := formatOf (some (peek m s.start 4))

def lineHeader (m : Bytes) (s : DwarfSpan) : Option LineHeader :=
  let version := peek m (s.start + (lineFormat m s).preamble) 2
  if 2 ≤ version ∧ version ≤ 3 then some .dwarf2
  else if version = 4 then some .dwarf4
  else none

def NamesClosed (m : Bytes) (s : DwarfSpan) (h : LineHeader) : Prop :=
  ∃ s₁ ok n s₂,
    skipUlebs m (peek m (s.start + h.opcodeBaseAt (lineFormat m s)) 1 - 1)
      (s.read (h.size (lineFormat m s))).2 = .ok (s₁, ok) ∧
    DirsClosed m s₁ n s₂ ∧ FilesClosed m (n + 1) s₂

/-- The section has all of the header of the table, and the lists of directories and of files are
closed in it. -/
structure LinesClosed (m : Bytes) (s : DwarfSpan) : Prop where
  first : LineHeader.dwarf2.size (lineFormat m s) ≤ s.size
  all : ∀ h, lineHeader m s = some h → h.size (lineFormat m s) ≤ s.size
  names : ∀ h, lineHeader m s = some h → NamesClosed m s h

structure DwarfLineNumberTable.Sound (m : Bytes) (t : DwarfLineNumberTable) : Prop where
  directories : ∀ p, some p ∈ t.directories → TextIn m p
  files : ∀ file ∈ t.fileNames, FileIn m t.directories.length file

theorem initLines_eq {f : Format} {h : LineHeader} (hi : s.Inside m) (hw : h.size f ≤ s.size) :
    initLines m f h s = (do
      let (s, ok) ← skipUlebs m (peek m (s.start + h.opcodeBaseAt f) 1 - 1) (s.read (h.size f)).2
      let (dirs, s) ← readDirectories m (s.size + 1) s
      let (files, okFiles) ← readFileNames m (dirs.length + 1) (s.size + 1) s
      return (⟨none :: dirs.map some, (0, none) :: files⟩, ok && okFiles)) := by
  simp only [initLines]
  rw [deref_eq hi hw (by cases f <;> cases h <;> decide), ok_bind]

theorem NamesClosed.init {h : LineHeader} (hn : NamesClosed m s h) (hi : s.Inside m)
    (hw : h.size (lineFormat m s) ≤ s.size) :
    ∃ t ok, initLines m (lineFormat m s) h s = .ok (t, ok) ∧ t.Sound m := by
  obtain ⟨s₁, ok, n, s₂, hsk, hdi, hfi⟩ := hn
  have hi₀ := (s.read_rest (h.size (lineFormat m s))).inside hi
  obtain ⟨s₁', ok', hs', hr₁⟩ := skipUlebs_spec hi₀
    (peek m (s.start + h.opcodeBaseAt (lineFormat m s)) 1 - 1)
  cases hsk.symm.trans hs'
  have hi₁ := hr₁.inside hi₀
  obtain ⟨dirs, hd, hlen, hall, hr₂⟩ := hdi.read hi₁ (Nat.lt_succ_self _)
  obtain ⟨files, okFiles, hf, hin⟩ := hfi.read (hr₂.inside hi₁) (Nat.lt_succ_self _)
  rw [initLines_eq hi hw, hsk, ok_bind]
  simp only
  rw [hd, ok_bind]
  simp only [hlen]
  rw [hf]
  refine ⟨_, _, rfl, ?_, ?_⟩
  · intro p hp
    cases hp with
    | tail _ hp =>
      obtain ⟨q, hq, he⟩ := List.mem_map.mp hp
      cases he
      exact hall p hq
  · intro file hfil
    have hn : (none :: dirs.map some).length = n + 1 := by
      rw [List.length_cons, List.length_map, hlen]
    simp only [hn]
    cases hfil with
    | head => exact ⟨Nat.succ_pos n, fun p hp => by cases hp⟩
    | tail _ hfil => exact hin file hfil

theorem namesClosed_of_init {h : LineHeader} (hi : s.Inside m)
    (hw : h.size (lineFormat m s) ≤ s.size) (hr : Runs (initLines m (lineFormat m s) h s)) :
    NamesClosed m s h := by
  rw [initLines_eq hi hw] at hr
  obtain ⟨⟨s₁, ok⟩, hsk, hr⟩ := runs_bind.mp hr
  obtain ⟨⟨dirs, s₂⟩, hd, hr⟩ := runs_bind.mp hr
  obtain ⟨⟨files, okFiles⟩, hf, -⟩ := runs_bind.mp hr
  exact ⟨s₁, ok, dirs.length, s₂, hsk, dirsClosed_of_read hd, filesClosed_of_read hf⟩

theorem initLines_incomplete {f : Format} {h : LineHeader} (hw : ¬ h.size f ≤ s.size) :
    initLines m f h s = .error .null := by
  simp only [initLines]
  rw [deref_eq_error hw]
  rfl

theorem fifteen_le_size (f : Format) : 15 ≤ LineHeader.dwarf2.size f := by cases f <;> decide

theorem newLines_eq (hi : s.Inside m) (hw : LineHeader.dwarf2.size (lineFormat m s) ≤ s.size) :
    DwarfLineNumberTable.new m s =
      match lineHeader m s with
      | some h => initLines m (lineFormat m s) h s
      | none => .ok (⟨[], []⟩, false) := by
  have h4 : 4 ≤ s.size := by
    have := fifteen_le_size (lineFormat m s)
    omega
  obtain ⟨s', hwo⟩ := readValue_eq hi h4
  have hf : formatOf (some (peek m s.start 4)) = lineFormat m s := rfl
  have hv : deref m (s.read (LineHeader.dwarf2.size (lineFormat m s))).1
      (lineFormat m s).preamble 2 = .ok (peek m (s.start + (lineFormat m s).preamble) 2) := by
    apply deref_eq hi hw
    cases lineFormat m s <;> decide
  rw [DwarfLineNumberTable.new, hwo, ok_bind]
  simp only [hf]
  rw [hv, ok_bind]
  simp only [lineHeader]
  split
  · rfl
  · split <;> rfl

theorem newLines_incomplete (hi : s.Inside m)
    (hw : ¬ LineHeader.dwarf2.size (lineFormat m s) ≤ s.size) :
    DwarfLineNumberTable.new m s = .error .null := by
  by_cases h4 : 4 ≤ s.size
  · obtain ⟨s', hwo⟩ := readValue_eq hi h4
    have hf : formatOf (some (peek m s.start 4)) = lineFormat m s := rfl
    rw [DwarfLineNumberTable.new, hwo, ok_bind]
    simp only [hf]
    rw [deref_eq_error hw]
    rfl
  · obtain ⟨v, s', hwo, -⟩ := readValue_spec hi 4
    have hw' : ¬ LineHeader.dwarf2.size (formatOf v) ≤ s.size := by
      have := fifteen_le_size (formatOf v)
      omega
    rw [DwarfLineNumberTable.new, hwo, ok_bind]
    simp only
    rw [deref_eq_error hw']
    rfl

/-- A table is read exactly when it is closed in the section; a null pointer is read if not. -/
theorem newLines_spec (hi : s.Inside m) :
    (LinesClosed m s ∧ ∃ t ok, DwarfLineNumberTable.new m s = .ok (t, ok) ∧ t.Sound m) ∨
      (¬ LinesClosed m s ∧ ¬ Runs (DwarfLineNumberTable.new m s)) := by
  by_cases hf : LineHeader.dwarf2.size (lineFormat m s) ≤ s.size
  · rw [newLines_eq hi hf]
    cases hh : lineHeader m s with
    | none =>
      refine .inl ⟨⟨hf, ?_, ?_⟩, _, _, rfl, ?_, ?_⟩
      · intro h he
        cases hh.symm.trans he
      · intro h he
        cases hh.symm.trans he
      · intro p hp
        cases hp
      · intro file hfi
        cases hfi
    | some h =>
      by_cases hall : h.size (lineFormat m s) ≤ s.size
      · by_cases hn : NamesClosed m s h
        · refine .inl ⟨⟨hf, ?_, ?_⟩, hn.init hi hall⟩
          · intro h' he
            cases hh.symm.trans he
            exact hall
          · intro h' he
            cases hh.symm.trans he
            exact hn
        · exact .inr ⟨fun hc => hn (hc.names h hh), fun hr => hn (namesClosed_of_init hi hall hr)⟩
      · simp only [initLines_incomplete hall]
        exact .inr ⟨fun hc => hall (hc.all h hh), not_runs_error _⟩
  · rw [newLines_incomplete hi hf]
    exact .inr ⟨fun hc => hf hc.first, not_runs_error _⟩

end Attune.DebugInfo
