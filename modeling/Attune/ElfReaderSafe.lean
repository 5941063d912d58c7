import Attune.ElfSections

namespace Attune.Elf
open Attune.Memory

variable {a : Arch} {f : File}

/-- An entry of an array is in the file, where it is or after all of it has wrapped around. -/
def EntryInside (f : File) (start width : Nat) : Prop :=
  start + width ≤ f.size ∨ (2 ^ 64 ≤ start ∧ start + width ≤ 2 ^ 64 + f.size)

theorem EntryInside.field (h : EntryInside f start width) {field : Field}
    (hf : field.start + field.width ≤ width) :
    wrap (start + field.start) + field.width ≤ f.size := by
  have := f.short
  simp only [EntryInside, File.size] at h
  simp only [wrap, File.size]
  omega

theorem symSize_le (a : Arch) : 0 < a.symSize ∧ a.symSize ≤ 24 := by cases a <;> decide

theorem EntryInside.readSymbol (h : EntryInside f (list + a.symSize * i) a.symSize) (n : Nat) :
    Runs (readSymbol a f list n i) := by
  refine runs_bind.mpr ⟨_, fetch_eq (h.field (by cases a <;> decide)), ?_⟩
  split
  · exact runs_pure _
  · refine runs_bind.mpr ⟨_, fetch_eq (h.field (by cases a <;> decide)), ?_⟩
    refine runs_bind.mpr ⟨_, fetch_eq (h.field (by cases a <;> decide)), ?_⟩
    exact runs_pure _

theorem EntryInside.readEntry (h : EntryInside f (list + a.dynSize * i) a.dynSize) :
    Runs (readEntry a f list i) := by
  refine runs_bind.mpr ⟨_, fetch_eq (h.field (by cases a <;> decide)), ?_⟩
  refine runs_bind.mpr ⟨_, fetch_eq (h.field (by cases a <;> decide)), ?_⟩
  exact runs_pure _

/-- Of an array that passes and wraps around, the entries behind the wrap are in the file. -/
theorem Passes.entry (h : Passes f offset (width * count)) (ho : offset < 2 ^ 64)
    (hw : width * count < 2 ^ 64) (hi : i < count)
    (hs : offset + width * count < 2 ^ 64 ∨ 2 ^ 64 ≤ offset + width * i) :
    EntryInside f (offset + width * i) width := by
  have hm : width * i + width ≤ width * count := by
    rw [← Nat.mul_succ]
    exact Nat.mul_le_mul_left _ hi
  simp only [Passes, wrap] at h
  simp only [EntryInside]
  omega

/-- An array that runs through the end of the address space has an entry that begins after the file. -/
theorem exists_entry_outside (hw : 0 < width) (hl : width ≤ 24) (ho : offset < f.size)
    (hs : 2 ^ 64 ≤ offset + width * count) :
    ∃ i < count, f.size ≤ offset + width * i ∧ offset + width * i + width < 2 ^ 64 := by
  have hsh := f.short
  have hd := Nat.div_add_mod (f.size - offset) width
  have hm := Nat.mod_lt (f.size - offset) hw
  have he : width * ((f.size - offset) / width + 1) =
      width * ((f.size - offset) / width) + width := Nat.mul_succ _ _
  simp only [File.size] at *
  refine ⟨(f.bytes.length - offset) / width + 1, ?_, ?_, ?_⟩
  · apply Nat.lt_of_mul_lt_mul_left (a := width)
    omega
  · omega
  · omega

theorem not_runs_readSymbol (h : f.size ≤ list + a.symSize * i)
    (hs : list + a.symSize * i + a.stShndx.start < 2 ^ 64) (n : Nat) :
    ¬ Runs (readSymbol a f list n i) := by
  intro hr
  obtain ⟨_, he, _⟩ := runs_bind.mp hr
  have he := runs_fetch.mp ⟨_, he⟩
  rw [wrap_eq hs] at he
  cases a <;> simp only [Arch.stShndx] at he <;> omega

theorem not_runs_readEntry (h : f.size ≤ list + a.dynSize * i)
    (hs : list + a.dynSize * i < 2 ^ 64) : ¬ Runs (readEntry a f list i) := by
  intro hr
  obtain ⟨_, he, _⟩ := runs_bind.mp hr
  have he := runs_fetch.mp ⟨_, he⟩
  rw [Arch.dTag, Nat.add_zero, wrap_eq hs] at he
  cases a <;> simp only [Arch.word] at he <;> omega

theorem runs_entries {offset count : Nat} (ho : offset < 2 ^ 64)
    (hc : a.dynSize * count < 2 ^ 64) (hp : Passes f offset (a.dynSize * count)) :
    Runs ((List.range count).mapM (readEntry a f offset)) ↔
      offset + a.dynSize * count ≤ f.size := by
  rw [runs_mapM]
  constructor
  · intro h
    by_cases hs : offset + a.dynSize * count < 2 ^ 64
    · exact hp.le hs
    exfalso
    by_cases hf : offset < f.size
    · obtain ⟨i, hi, hout, hb⟩ := exists_entry_outside (by cases a <;> decide)
        (by cases a <;> decide) hf (Nat.not_lt.mp hs)
      exact not_runs_readEntry hout (by omega) (h i (List.mem_range.mpr hi))
    · have hz : count ≠ 0 := by
        intro hz
        simp only [hz, Nat.mul_zero, Nat.add_zero] at hs
        exact hs ho
      exact not_runs_readEntry (by omega) ho (h 0 (List.mem_range.mpr (by omega)))
  · intro h i hi
    have hs : offset + a.dynSize * count < 2 ^ 64 := by
      have := f.short
      simp only [File.size] at h
      omega
    exact (hp.entry ho hc (List.mem_range.mp hi) (.inl hs)).readEntry

/-- The symbols are in the file, or only the first is not, and its section index is. -/
def SymbolListInside (a : Arch) (f : File) (offset size : Nat) : Prop :=
  offset + size ≤ f.size ∨
    (2 ^ 64 ≤ offset + a.stShndx.start ∧
      shnum a f ≤ peek f.bytes (wrap (offset + a.stShndx.start)) a.stShndx.width)

theorem readSymbol_zero {offset : Nat}
    (h : wrap (offset + a.stShndx.start) + a.stShndx.width ≤ f.size) (n : Nat) :
    readSymbol a f offset n 0 =
      if n ≤ peek f.bytes (wrap (offset + a.stShndx.start)) a.stShndx.width then .ok ⟨0, 0⟩
      else do
        let value ← f.fetch offset a.stValue
        let name ← f.fetch offset a.stName
        return ⟨value, name⟩ := by
  simp only [readSymbol, File.entry, Nat.mul_zero, Nat.add_zero]
  rw [fetch_eq h]
  rfl

/-- The first symbol when it begins after the file and only the index of its section may be inside. -/
theorem runs_readSymbol_zero {offset : Nat} (ho : offset < 2 ^ 64) (hf : f.size ≤ offset)
    (hp : 2 ^ 64 ≤ offset + a.stShndx.start → offset + a.symSize ≤ 2 ^ 64 + f.size) (n : Nat) :
    Runs (readSymbol a f offset n 0) ↔
      2 ^ 64 ≤ offset + a.stShndx.start ∧
        n ≤ peek f.bytes (wrap (offset + a.stShndx.start)) a.stShndx.width := by
  by_cases hs : offset + a.stShndx.start < 2 ^ 64
  · constructor
    · intro h
      exact absurd h (not_runs_readSymbol (by simpa using hf) (by simpa using hs) n)
    · intro h
      omega
  · have hi : wrap (offset + a.stShndx.start) + a.stShndx.width ≤ f.size := by
      have hp := hp (Nat.not_lt.mp hs)
      simp only [wrap]
      cases a <;> simp only [Arch.stShndx, Arch.symSize] at * <;> omega
    rw [readSymbol_zero hi]
    split
    · rename_i hn
      exact ⟨fun _ => ⟨Nat.not_lt.mp hs, hn⟩, fun _ => runs_ok _⟩
    rename_i hn
    constructor
    · intro h
      obtain ⟨_, _, h⟩ := runs_bind.mp h
      obtain ⟨_, hna, _⟩ := runs_bind.mp h
      have hna := runs_fetch.mp ⟨_, hna⟩
      rw [Arch.stName, Nat.add_zero, wrap_eq ho] at hna
      change offset + 4 ≤ f.size at hna
      omega
    · intro h
      exact absurd h.2 hn

theorem runs_symbols {offset count : Nat} (ho : offset < 2 ^ 64)
    (hc : a.symSize * count < 2 ^ 64) (hp : Passes f offset (a.symSize * count)) :
    Runs ((List.range count).mapM (readSymbol a f offset (shnum a f))) ↔
      SymbolListInside a f offset (a.symSize * count) := by
  rw [runs_mapM]
  by_cases hs : offset + a.symSize * count < 2 ^ 64
  · constructor
    · intro _
      exact .inl (hp.le hs)
    · intro _ i hi
      exact (hp.entry ho hc (List.mem_range.mp hi) (.inl hs)).readSymbol _
  · have hz : 0 < count := by
      apply Nat.pos_of_ne_zero
      intro hz
      rw [hz, Nat.mul_zero, Nat.add_zero] at hs
      exact hs ho
    by_cases hf : offset < f.size
    · have hno : ¬ SymbolListInside a f offset (a.symSize * count) := by
        have := f.short
        intro h
        simp only [SymbolListInside, File.size] at h hf
        cases a <;> simp only [Arch.stShndx, Arch.symSize] at h hs <;> omega
      refine iff_of_false ?_ hno
      intro h
      obtain ⟨i, hi, hout, hb⟩ := exists_entry_outside (symSize_le a).1 (symSize_le a).2 hf
        (Nat.not_lt.mp hs)
      refine not_runs_readSymbol hout ?_ _ (h i (List.mem_range.mpr hi))
      cases a <;> simp only [Arch.symSize, Arch.stShndx] at hb ⊢ <;> omega
    · have hfi := runs_readSymbol_zero (a := a) ho (Nat.not_lt.mp hf)
        (by
          intro _
          have hm := Nat.mul_le_mul_left a.symSize hz
          simp only [Passes, wrap] at hp
          omega) (shnum a f)
      constructor
      · intro h
        exact .inr (hfi.mp (h 0 (List.mem_range.mpr hz)))
      · intro h i hi
        have hin : ¬ offset + a.symSize * count ≤ f.size := by
          have := f.short
          simp only [File.size]
          omega
        have h := h.resolve_left hin
        cases i with
        | zero => exact hfi.mpr h
        | succ i =>
          apply EntryInside.readSymbol
          apply hp.entry ho hc (List.mem_range.mp hi) (.inr _)
          have hm : a.symSize * (i + 1) = a.symSize * i + a.symSize := Nat.mul_succ _ _
          have hlt : a.stShndx.start ≤ a.symSize := by cases a <;> decide
          omega

def SectionInside (a : Arch) (f : File) (i : Nat) : Prop :=
  shdr a f i a.shOffset + shdr a f i a.shSize ≤ f.size

theorem shOffset_lt (a : Arch) (f : File) (i : Nat) : shdr a f i a.shOffset < 2 ^ 64 :=
  shdr_lt (by cases a <;> decide)

theorem shSize_lt (a : Arch) (f : File) (i : Nat) : shdr a f i a.shSize < 2 ^ 64 :=
  shdr_lt (by cases a <;> decide)

theorem runs_copyStrings {offset size : Nat} (ho : offset < 2 ^ 64) (hs : size < 2 ^ 64)
    (hz : size ≠ 0) : Runs (copyStrings f (f.read 1 offset size) size) ↔ offset + size ≤ f.size := by
  have hw : wrap (1 * size) = size := by rw [Nat.one_mul, wrap_eq hs]
  by_cases hp : Passes f offset size
  · rw [read_of_passes hp hw, copyStrings, runs_bind_of_forall fun _ => runs_pure _, runs_memcpy,
      wrap_eq ho]
    exact or_iff_right hz
  · rw [read_of_not_passes hp hw]
    exact iff_of_false (not_runs_error _) (mt passes_of_le hp)

def SymbolsInside (a : Arch) (f : File) (i j : Nat) : Prop :=
  shdr a f j a.shSize ≠ 0 → Passes f (shdr a f i a.shOffset) (shdr a f i a.shSize) →
    SectionInside a f j ∧ SymbolListInside a f (shdr a f i a.shOffset) (shdr a f i a.shSize)

section
variable (h : TableRead a f) (ht : TableInside a f)
include h ht

/-- Both readers of a list of entries with its string table have this shape. -/
theorem runs_listWithStrings {element : Nat → Nat → Except Fault β} {make : List β → Bytes → α}
    {empty : α} {Inside : Prop} (hi : i < shnum a f) (hj : j < shnum a f)
    (hd : shdr a f i a.shSize % width = 0)
    (hl : ∀ count, width * count = shdr a f i a.shSize → width * count < 2 ^ 64 →
      Passes f (shdr a f i a.shOffset) (width * count) →
        (Runs ((List.range count).mapM (element (shdr a f i a.shOffset))) ↔ Inside)) :
    Runs (do
      let strSize ← sectionField a f (members a f) j a.shSize
      if strSize = 0 then return empty
      else do
        let offset ← sectionField a f (members a f) i a.shOffset
        match f.read width offset (shdr a f i a.shSize / width) with
        | none => return empty
        | some list =>
          let strOffset ← sectionField a f (members a f) j a.shOffset
          let strtab ← copyStrings f (f.read 1 strOffset strSize) strSize
          let entries ← (List.range (shdr a f i a.shSize / width)).mapM (element list)
          return make entries strtab) ↔
      (shdr a f j a.shSize ≠ 0 → Passes f (shdr a f i a.shOffset) (shdr a f i a.shSize) →
        SectionInside a f j ∧ Inside) := by
  have hm : width * (shdr a f i a.shSize / width) = shdr a f i a.shSize :=
    Nat.mul_div_cancel' (Nat.dvd_of_mod_eq_zero hd)
  have hlt := shSize_lt a f i
  have hw : wrap (width * (shdr a f i a.shSize / width)) = shdr a f i a.shSize := by
    rw [hm, wrap_eq hlt]
  rw [sectionField_eq h ht a.shSize hj, ok_bind]
  split
  · next hz =>
    exact ⟨fun _ hn => absurd hz hn, fun _ => runs_pure _⟩
  next hz =>
  rw [sectionField_eq h ht a.shOffset hi, ok_bind]
  by_cases hp : Passes f (shdr a f i a.shOffset) (shdr a f i a.shSize)
  · rw [read_of_passes hp hw]
    simp only [sectionField_eq h ht a.shOffset hj, ok_bind]
    rw [runs_bind]
    have hs := runs_copyStrings (f := f) (shOffset_lt a f j) (shSize_lt a f j) hz
    simp only [runs_bind_of_forall fun _ => runs_pure _,
      hl _ hm (by rw [hm]; exact hlt) (by rw [hm]; exact hp)]
    constructor
    · intro ⟨strtab, hr, hin⟩ _ _
      exact ⟨hs.mp ⟨_, hr⟩, hin⟩
    · intro hin
      obtain ⟨hj, hi⟩ := hin hz hp
      obtain ⟨strtab, hr⟩ := hs.mpr hj
      exact ⟨strtab, hr, hi⟩
  · rw [read_of_not_passes hp hw]
    exact ⟨fun _ _ hq => absurd hq hp, fun _ => runs_pure _⟩

theorem runs_readSymbolList (hi : i < shnum a f) (hj : j < shnum a f)
    (hd : shdr a f i a.shSize % a.symSize = 0) :
    Runs (readSymbolList a f (members a f) i j (shdr a f i a.shSize)) ↔ SymbolsInside a f i j := by
  simp only [readSymbolList, members_sections h, ok_bind]
  apply runs_listWithStrings h ht hi hj hd
  intro count hm hlt hp
  rw [runs_symbols (shOffset_lt a f i) hlt hp, hm]

end

theorem runs_inSection {g : Nat → Except Fault α} {empty : α} {Inside : Nat → Prop}
    (hg : TableRead a f → TableInside a f → ∀ i < shnum a f, Runs (g i) ↔ Inside i) :
    Runs (if !(members a f).ok then return empty
      else do
        match ← findSection a f (members a f) name with
        | none => return empty
        | some i => g i) ↔
      (Ok a f → TableInside a f ∧ ∀ i, sectionNamed a f name = some i → Inside i) := by
  rw [runs_guarded]
  apply imp_congr_right
  intro hok
  rw [runs_findSection_bind, and_iff_right hok.1]
  apply and_congr_right
  intro ht
  cases hi : sectionNamed a f name with
  | none => exact ⟨fun _ _ hn => (by cases hn), fun _ => runs_pure _⟩
  | some i =>
    refine (hg hok.1 ht i (sectionNamed_lt hi)).trans ?_
    constructor
    · intro h k hk
      cases hk
      exact h
    · intro h
      exact h i rfl

/-- A section of symbols that is not turned down comes with a string table, and both are in the
file. -/
def SymbolTableInside (a : Arch) (f : File) (symtab strtab : Bytes) : Prop :=
  ∀ i, sectionNamed a f symtab = some i → shdr a f i a.shEntsize = a.symSize →
    shdr a f i a.shSize % a.symSize = 0 →
    ∃ j, sectionNamed a f strtab = some j ∧ SymbolsInside a f i j

theorem runs_readSymbols (symtab strtab : Bytes) :
    Runs (readSymbols a f (members a f) symtab strtab) ↔
      (Ok a f → TableInside a f ∧ SymbolTableInside a f symtab strtab) := by
  rw [readSymbols]
  apply runs_inSection
  intro h ht i hlt
  simp only [findSection_eq h ht, sectionField_eq h ht a.shEntsize hlt,
    sectionField_eq h ht a.shSize hlt, ok_bind]
  split
  · rename_i he
    exact ⟨fun _ he' => absurd he' he, fun _ => runs_pure _⟩
  rename_i he
  rw [not_not] at he
  rw [he]
  split
  · rename_i hd
    exact ⟨fun _ _ hd' => absurd hd' hd, fun _ => runs_pure _⟩
  rename_i hd
  rw [not_not] at hd
  cases hj : sectionNamed a f strtab with
  | none =>
    refine iff_of_false (not_runs_error _) ?_
    intro hs
    obtain ⟨j, hj', _⟩ := hs rfl hd
    cases hj'
  | some j =>
    refine (runs_readSymbolList h ht hlt (sectionNamed_lt hj) hd).trans ?_
    constructor
    · intro hs _ _
      exact ⟨j, rfl, hs⟩
    · intro hs
      obtain ⟨j', hj', hs⟩ := hs rfl hd
      cases hj'
      exact hs

end Attune.Elf
