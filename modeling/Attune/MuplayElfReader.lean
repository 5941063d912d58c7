import Attune.InputStream

namespace Attune.MuplayElf
open Attune.Memory Attune.Stream List Option

def shtSymtab : Nat := 2
def shtStrtab : Nat := 3
def shtRela : Nat := 4
def shtDynsym : Nat := 11

structure Shdr where
  shType : Nat
  shOffset : Nat
  shSize : Nat
  shLink : Nat
  shEntsize : Nat
  deriving DecidableEq

def shdrSize : Nat := 64

def Shdr.ofObject (obj : Object) : Option Shdr := do
  let shType ← obj.field 4 4
  let shOffset ← obj.field 24 8
  let shSize ← obj.field 32 8
  let shLink ← obj.field 40 4
  let shEntsize ← obj.field 56 8
  return ⟨shType, shOffset, shSize, shLink, shEntsize⟩

/-- An `Elf64_Rela`. A field has no value when it was not read; `rAddend` has the bits of the
addend. -/
structure Rela where
  rOffset : Option Nat
  rInfo : Option Nat
  rAddend : Option Nat
  deriving DecidableEq

def relaSize : Nat := 24

def Rela.ofObject (obj : Object) : Rela := ⟨obj.field 0 8, obj.field 8 8, obj.field 16 8⟩

structure Sym where
  stName : Option Nat
  stInfo : Option Nat
  stOther : Option Nat
  stShndx : Option Nat
  stValue : Option Nat
  stSize : Option Nat
  deriving DecidableEq

def symSize : Nat := 24

def Sym.ofObject (obj : Object) : Sym :=
  ⟨obj.field 0 4, obj.field 4 1, obj.field 5 1, obj.field 6 2, obj.field 8 8, obj.field 16 8⟩

def toInt (n : Nat) : Int := (BitVec.ofNat 32 n).toInt

def skipPhdrs : Nat → InStream → InStream
  | 0, s => s
  | n + 1, s => skipPhdrs n (s.read 56).2

/-- The section headers are all read into the same object. -/
def readShdrs : Nat → InStream → Object → Option (List Shdr)
  | 0, _, _ => some []
  | n + 1, s, obj => do
    let (got, s) := s.read shdrSize
    let obj := obj.fill got
    let shdr ← Shdr.ofObject obj
    return shdr :: (← readShdrs n s obj)

section

variable (file : Bytes)

def readMuplayElf : Option (List Shdr) := do
  let (got, s) := (InStream.ofFile file).read 64
  let ehdr := (uninitialised 64).fill got
  let ePhoff ← ehdr.field 32 8
  let eShoff ← ehdr.field 40 8
  let ePhnum ← ehdr.field 56 2
  let eShnum ← ehdr.field 60 2
  let s := skipPhdrs ePhnum (s.seekg ePhoff)
  readShdrs eShnum (s.seekg eShoff) (uninitialised shdrSize)

/-- Each entry is read with the size of the field `sh_entsize`. -/
def relaLoop : Nat → InStream → List Rela
  | 0, _ => []
  | n + 1, s =>
    let (got, s) := s.read 8
    Rela.ofObject ((uninitialised relaSize).fill got) :: relaLoop n s

section

variable (shdr : Shdr)

def readRelaEntries : Option (List Rela) :=
  if shdr.shType ≠ shtRela then none
  else if shdr.shEntsize = 0 then none
  else
    let numEntries := toInt (shdr.shSize / shdr.shEntsize)
    some (relaLoop numEntries.toNat ((InStream.ofFile file).seekg shdr.shOffset))

/-- The symbol is looked for at a multiple of the size of the table, and read with the size of the
field `sh_size`. -/
def readSym (index : Int) : Option Sym :=
  if shdr.shType ≠ shtSymtab ∧ shdr.shType ≠ shtDynsym then none
  else
    let offset := ((shdr.shOffset + shdr.shSize * index) % 2 ^ 64).toNat
    let (got, _) := ((InStream.ofFile file).seekg offset).read 8
    some (Sym.ofObject ((uninitialised symSize).fill got))

def readString (index : Int) : Option Bytes :=
  if shdr.shType ≠ shtStrtab then none
  else
    let s := (InStream.ofFile file).seekg shdr.shOffset
    if s.good then some (s.getlines 0 (index + 1).toNat []) else none

def readRelaSym (rela : Rela) : Option Int := rela.rInfo.map fun info => toInt (info / 2 ^ 32)

def getModSymName (sections : List Shdr) (rela : Rela) (relaShdr : Shdr) : Option Bytes := do
  let linkedSymShdr ← sections[relaShdr.shLink]?
  let symIndex ← readRelaSym rela
  let sym ← readSym file linkedSymShdr symIndex
  let strIndex ← sym.stName
  let linkedStrShdr ← sections[linkedSymShdr.shLink]?
  readString file linkedStrShdr (toInt strIndex)

def shdrAt (shoff i : Nat) : Shdr :=
  let start := shoff + shdrSize * i
  ⟨peek file (start + 4) 4, peek file (start + 24) 8, peek file (start + 32) 8,
    peek file (start + 40) 4, peek file (start + 56) 8⟩

def ephoff : Nat := peek file 32 8
def eshoff : Nat := peek file 40 8
def ephnum : Nat := peek file 56 2
def eshnum : Nat := peek file 60 2

/-- The number of sections is in the first header when there are too many for the file header. -/
def sectionCount : Nat :=
  if eshnum file = 0 ∧ eshoff file ≠ 0 then (shdrAt file (eshoff file) 0).shSize else eshnum file

def sections : List Shdr :=
  (range (sectionCount file)).map (shdrAt file (eshoff file))

def relaAt (i : Nat) : Rela :=
  let start := shdr.shOffset + relaSize * i
  ⟨some (peek file start 8), some (peek file (start + 8) 8), some (peek file (start + 16) 8)⟩

def relaEntries : List Rela :=
  (range (shdr.shSize / relaSize)).map (relaAt file shdr)

def symAt (i : Nat) : Sym :=
  let start := shdr.shOffset + symSize * i
  ⟨some (peek file start 4), some (peek file (start + 4) 1), some (peek file (start + 5) 1),
    some (peek file (start + 6) 2), some (peek file (start + 8) 8), some (peek file (start + 16) 8)⟩

def stringAt (o : Nat) : Bytes :=
  ((slice file shdr.shOffset shdr.shSize).drop o).takeWhile (· != 0)

end

def Shdr.isSymbolTable (s : Shdr) : Prop := s.shType = shtSymtab ∨ s.shType = shtDynsym

def symName (link i : Nat) : Option Bytes := do
  let symtab ← (sections file)[link]?
  let strtab ← (sections file)[symtab.shLink]?
  return stringAt file strtab (peek file (symtab.shOffset + symSize * i) 4)

structure WellFormedRela (file : Bytes) (s : Shdr) : Prop where
  entsize : s.shEntsize = relaSize
  whole : relaSize ∣ s.shSize
  inside : s.shOffset + s.shSize ≤ file.length
  linked : s.shLink ≠ 0 → ∃ symtab, (sections file)[s.shLink]? = some symtab ∧
    symtab.isSymbolTable ∧ ∀ i < s.shSize / relaSize, peek file (s.shOffset + relaSize * i + 8) 8 / 2 ^ 32 <
      symtab.shSize / symSize

structure WellFormedSymtab (file : Bytes) (s : Shdr) : Prop where
  entsize : s.shEntsize = symSize
  whole : symSize ∣ s.shSize
  inside : s.shOffset + s.shSize ≤ file.length
  linked : ∃ strtab, (sections file)[s.shLink]? = some strtab ∧ strtab.shType = shtStrtab ∧
    ∀ i < s.shSize / symSize, peek file (s.shOffset + symSize * i) 4 = 0 ∨
      peek file (s.shOffset + symSize * i) 4 < strtab.shSize

structure WellFormedStrtab (file : Bytes) (s : Shdr) : Prop where
  inside : s.shOffset + s.shSize ≤ file.length
  first : s.shSize ≠ 0 → file[s.shOffset]? = some 0
  last : s.shSize ≠ 0 → file[s.shOffset + s.shSize - 1]? = some 0

/-- A well-formed 64-bit little-endian ELF file, as far as its tables go. -/
structure WellFormed (file : Bytes) : Prop where
  short : file.length < 2 ^ 63
  complete : 64 ≤ file.length
  magic : slice file 0 6 = [0x7f, 0x45, 0x4c, 0x46, 2, 1]
  phdrs : ephoff file + 56 * ephnum file ≤ file.length
  shdrs : eshoff file + shdrSize * sectionCount file ≤ file.length
  rela : ∀ s ∈ sections file, s.shType = shtRela → WellFormedRela file s
  symtab : ∀ s ∈ sections file, s.isSymbolTable → WellFormedSymtab file s
  strtab : ∀ s ∈ sections file, s.shType = shtStrtab → WellFormedStrtab file s

/-- What the readers are for. The indices are those that an `int` can hold. -/
structure ReadsTables (file : Bytes) : Prop where
  rela : ∀ s ∈ sections file, s.shType = shtRela →
    readRelaEntries file s = some (relaEntries file s)
  sym : ∀ s ∈ sections file, s.isSymbolTable → ∀ i < s.shSize / symSize, i < 2 ^ 31 →
    readSym file s i = some (symAt file s i)
  string : ∀ s ∈ sections file, s.shType = shtStrtab → ∀ o < s.shSize, o < 2 ^ 31 →
    readString file s o = some (stringAt file s o)
  name : ∀ s ∈ sections file, s.shType = shtRela → s.shLink ≠ 0 → ∀ i < s.shSize / relaSize,
    (readMuplayElf file).bind (fun elf => getModSymName file elf (relaAt file s i) s) =
      symName file s.shLink (peek file (s.shOffset + relaSize * i + 8) 8 / 2 ^ 32)

theorem relaLoop_ne_cons (n : Nat) (s : InStream) (rest : List Rela) (file : Bytes) (shdr : Shdr)
    (i : Nat) : relaLoop n s ≠ relaAt file shdr i :: rest := by
  intro h
  cases n with
  | zero => cases h
  | succ n =>
    have hin := congrArg Rela.rInfo (cons.inj h).1
    have hn : (Rela.ofObject ((uninitialised relaSize).fill (s.read 8).1)).rInfo = none := by
      apply field_fill_uninitialised (s.length_read_le 8)
      · decide
      · decide
    cases hn.symm.trans hin

theorem relaEntries_of_size (h : shdr.shSize ≠ 0) (hw : relaSize ∣ shdr.shSize) :
    ∃ rest, relaEntries file shdr = relaAt file shdr 0 :: rest := by
  have hpos : 0 < shdr.shSize / relaSize := Nat.div_pos (Nat.le_of_dvd (by omega) hw) (by decide)
  obtain ⟨n, hn⟩ : ∃ n, shdr.shSize / relaSize = n + 1 := ⟨_, (Nat.succ_pred_eq_of_pos hpos).symm⟩
  rw [relaEntries, hn, range_succ_eq_map, map_cons]
  exact ⟨_, rfl⟩

end

theorem readRelaEntries_iff (hs : shdr.shType = shtRela) (hw : WellFormedRela file shdr) :
    readRelaEntries file shdr = some (relaEntries file shdr) ↔ shdr.shSize = 0 := by
  have hsi : ¬ shdr.shEntsize = 0 := by
    rw [hw.entsize]
    decide
  rw [readRelaEntries, if_neg (not_not_intro hs), if_neg hsi]
  apply Iff.intro
  · intro h
    apply Decidable.byContradiction
    intro hne
    obtain ⟨rest, hr⟩ := relaEntries_of_size file hne hw.whole
    rw [hr] at h
    exact relaLoop_ne_cons _ _ _ _ _ _ (some.inj h)
  · intro h
    rw [h, relaEntries, h, Nat.zero_div, Nat.zero_div]
    rfl

theorem readSym_ne (i : Int) (j : Nat) : readSym file shdr i ≠ some (symAt file shdr j) := by
  intro h
  rw [readSym] at h
  obtain ⟨hs, h⟩ := ite_none_left_eq_some.mp h
  have hsi := congrArg Sym.stSize (some.inj h)
  have hn (s : InStream) :
      (Sym.ofObject ((uninitialised symSize).fill (s.read 8).1)).stSize = none := by
    apply field_fill_uninitialised (Nat.le_trans (s.length_read_le 8) (by decide))
    · decide
    · decide
  cases (hn _).symm.trans hsi

/-- The string that comes back for a number is the one with that number, from the start of the
table. -/
theorem readString_eq (hs : shdr.shType = shtStrtab) (h : shdr.shOffset < 2 ^ 63) (o : Nat) :
    readString file shdr o = some (nthPart 0 (file.drop shdr.shOffset) o) := by
  have hc : ((o : Int) + 1).toNat = o + 1 := by omega
  rw [readString, if_neg (not_not_intro hs), InStream.seekg_of_lt rfl h, hc]
  exact congrArg some (InStream.getlines_eq rfl o [])

/-- Tables without relocations and symbols are read when the strings are, in turn, those at the
first offsets. -/
theorem reads_tables_iff (file : Bytes) (hw : WellFormed file) : ReadsTables file ↔
      (∀ s ∈ sections file, s.shType = shtRela → s.shSize = 0) ∧
      (∀ s ∈ sections file, s.isSymbolTable → s.shSize = 0) ∧
      ∀ s ∈ sections file, s.shType = shtStrtab → ∀ o < s.shSize, o < 2 ^ 31 →
        nthPart 0 (file.drop s.shOffset) o = stringAt file s o := by
  have hst (s : Shdr) (hs : s ∈ sections file) (ht : s.shType = shtStrtab) (o : Nat) :
      readString file s o = some (stringAt file s o) ↔
        nthPart 0 (file.drop s.shOffset) o = stringAt file s o := by
    have hin := (hw.strtab s hs ht).inside
    have hsh := hw.short
    rw [readString_eq ht (by omega), some.injEq]
  apply Iff.intro
  · intro h
    refine ⟨?_, ?_, ?_⟩
    · intro s hs ht
      exact (readRelaEntries_iff ht (hw.rela s hs ht)).mp (h.rela s hs ht)
    · intro s hs ht
      apply Decidable.byContradiction
      intro hne
      have hpos : 0 < s.shSize / symSize :=
        Nat.div_pos (Nat.le_of_dvd (by omega) (hw.symtab s hs ht).whole) (by decide)
      exact readSym_ne _ _ (h.sym s hs ht 0 hpos (by decide))
    · intro s hs ht o ho hint
      exact (hst s hs ht o).mp (h.string s hs ht o ho hint)
  · intro ⟨hr, hsym, hstr⟩
    refine ⟨?_, ?_, ?_, ?_⟩
    · intro s hs ht
      exact (readRelaEntries_iff ht (hw.rela s hs ht)).mpr (hr s hs ht)
    · intro s hs ht i hi
      rw [hsym s hs ht, Nat.zero_div] at hi
      exact absurd hi (Nat.not_lt_zero i)
    · intro s hs ht o ho hint
      exact (hst s hs ht o).mpr (hstr s hs ht o ho hint)
    · intro s hs ht _ i hi
      rw [hr s hs ht, Nat.zero_div] at hi
      exact absurd hi (Nat.not_lt_zero i)

section Samples

def header (shoff shnum : Nat) : Bytes :=
  [0x7f, 0x45, 0x4c, 0x46, 2, 1, 1] ++ replicate 9 0 ++ encode 2 3 ++ encode 2 62 ++ encode 4 1 ++
    encode 8 0 ++ encode 8 0 ++ encode 8 shoff ++ encode 4 0 ++ encode 2 64 ++ encode 2 56 ++
    encode 2 0 ++ encode 2 64 ++ encode 2 shnum ++ encode 2 0

def sectionHeader (s : Shdr) : Bytes :=
  encode 4 0 ++ encode 4 s.shType ++ encode 8 0 ++ encode 8 0 ++ encode 8 s.shOffset ++
    encode 8 s.shSize ++ encode 4 s.shLink ++ encode 4 0 ++ encode 8 8 ++ encode 8 s.shEntsize

def emptyStrings : Bytes :=
  header 72 2 ++ replicate 8 0 ++ sectionHeader ⟨0, 0, 0, 0, 0⟩ ++
    sectionHeader ⟨shtStrtab, 64, 1, 0, 0⟩

theorem emptyStrings_sections :
    sections emptyStrings = [⟨0, 0, 0, 0, 0⟩, ⟨shtStrtab, 64, 1, 0, 0⟩] := by decide +kernel

theorem emptyStrings_wellFormed : WellFormed emptyStrings := by
  refine ⟨by decide +kernel, by decide +kernel, by decide +kernel, by decide +kernel,
    by decide +kernel, ?_, ?_, ?_⟩
  all_goals
    rw [emptyStrings_sections]
    intro s hs ht
    obtain rfl | rfl : s = _ ∨ s = _ := by simpa using hs
  · exact absurd ht (by decide)
  · exact absurd ht (by decide)
  · exact absurd ht (by rw [Shdr.isSymbolTable]; decide)
  · exact absurd ht (by rw [Shdr.isSymbolTable]; decide)
  · exact absurd ht (by decide)
  · exact ⟨by decide +kernel, fun _ => by decide +kernel, fun _ => by decide +kernel⟩

theorem reads_tables_empty_strings : WellFormed emptyStrings ∧ ReadsTables emptyStrings := by
  refine ⟨emptyStrings_wellFormed, (reads_tables_iff _ emptyStrings_wellFormed).mpr ?_⟩
  rw [emptyStrings_sections]
  refine ⟨by decide, ?_, ?_⟩
  · intro s hs ht
    obtain rfl | rfl : s = _ ∨ s = _ := by simpa using hs
    · rfl
    · exact absurd ht (by rw [Shdr.isSymbolTable]; decide)
  · decide +kernel

def sampleRela : Shdr := ⟨shtRela, 64, 24, 2, 24⟩
def sampleSymtab : Shdr := ⟨shtSymtab, 88, 48, 3, 24⟩
def sampleStrtab : Shdr := ⟨shtStrtab, 144, 9, 0, 0⟩

def oneRelocation : Bytes :=
  header 160 4 ++ (encode 8 4096 ++ encode 8 (2 ^ 32 + 1) ++ encode 8 5) ++
    replicate 24 0 ++ (encode 4 1 ++ [18, 0] ++ encode 2 1 ++ encode 8 64 ++ encode 8 16) ++
    replicate 8 0 ++ [0, 109, 97, 105, 110, 0, 97, 98, 0] ++ replicate 7 0 ++
    sectionHeader ⟨0, 0, 0, 0, 0⟩ ++ sectionHeader sampleRela ++ sectionHeader sampleSymtab ++
    sectionHeader sampleStrtab

theorem oneRelocation_sections :
    sections oneRelocation = [⟨0, 0, 0, 0, 0⟩, sampleRela, sampleSymtab, sampleStrtab] := by
  decide +kernel

theorem oneRelocation_wellFormed : WellFormed oneRelocation := by
  refine ⟨by decide +kernel, by decide +kernel, by decide +kernel, by decide +kernel,
    by decide +kernel, ?_, ?_, ?_⟩
  all_goals
    rw [oneRelocation_sections]
    intro s hs ht
    obtain rfl | rfl | rfl | rfl : s = _ ∨ s = _ ∨ s = _ ∨ s = _ := by simpa using hs
  · exact absurd ht (by decide)
  · refine ⟨rfl, by decide, by decide +kernel, fun _ => ⟨sampleSymtab, ?_, .inl rfl, ?_⟩⟩
    · rw [oneRelocation_sections]
      rfl
    · decide +kernel
  · exact absurd ht (by decide)
  · exact absurd ht (by decide)
  · exact absurd ht (by rw [Shdr.isSymbolTable]; decide)
  · exact absurd ht (by rw [Shdr.isSymbolTable]; decide)
  · refine ⟨rfl, by decide, by decide +kernel, ⟨sampleStrtab, ?_, rfl, ?_⟩⟩
    · rw [oneRelocation_sections]
      rfl
    · decide +kernel
  · exact absurd ht (by rw [Shdr.isSymbolTable]; decide)
  · exact absurd ht (by decide)
  · exact absurd ht (by decide)
  · exact absurd ht (by decide)
  · exact ⟨by decide +kernel, fun _ => by decide +kernel, fun _ => by decide +kernel⟩

/-- Only the relocation's offset is read, its symbol from behind the table, and the string at offset
6 is not the seventh. -/
theorem tables_misread : WellFormed oneRelocation ∧
    readRelaEntries oneRelocation sampleRela = some [⟨some 4096, none, none⟩] ∧
    readSym oneRelocation sampleSymtab 1 =
      some ⟨some 0, some 0, some 0, some 0, none, none⟩ ∧
    readString oneRelocation sampleStrtab 6 ≠ some [97, 98] ∧
    (readMuplayElf oneRelocation).bind
      (fun elf => getModSymName oneRelocation elf (relaAt oneRelocation sampleRela 0) sampleRela) =
        some [] ∧
    symName oneRelocation 2 1 = some [109, 97, 105, 110] ∧
    ¬ ReadsTables oneRelocation := by
  refine ⟨oneRelocation_wellFormed, by decide +kernel, by decide +kernel, by decide +kernel,
    by decide +kernel, by decide +kernel, fun h => ?_⟩
  have hmem : sampleRela ∈ sections oneRelocation := by
    rw [oneRelocation_sections]
    decide
  have hr := h.rela sampleRela hmem rfl
  exact absurd hr (by decide +kernel)

end Samples

end Attune.MuplayElf
