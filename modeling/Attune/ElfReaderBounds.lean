import Attune.ElfReaderSafe

namespace Attune.Elf
open Attune.Memory List

variable {a : Arch} {f : File}

/-- What `read_dynamic` needs of the two sections when it turns neither down. -/
def DynamicInside (a : Arch) (f : File) : Prop :=
  ∀ i j, sectionNamed a f (text ".dynamic") = some i → sectionNamed a f (text ".dynstr") = some j →
    shdr a f i a.shEntsize = a.dynSize → shdr a f i a.shSize ≠ 0 →
    shdr a f i a.shSize % a.dynSize = 0 → shdr a f j a.shSize ≠ 0 →
    Passes f (shdr a f i a.shOffset) (shdr a f i a.shSize) →
    SectionInside a f j ∧ SectionInside a f i

section
variable (h : TableRead a f) (ht : TableInside a f)
include h ht

theorem runs_readDynamicList (hi : i < shnum a f) (hj : j < shnum a f)
    (hd : shdr a f i a.shSize % a.dynSize = 0) :
    Runs (readDynamicList a f (members a f) i j (shdr a f i a.shSize)) ↔
      (shdr a f j a.shSize ≠ 0 → Passes f (shdr a f i a.shOffset) (shdr a f i a.shSize) →
        SectionInside a f j ∧ SectionInside a f i) := by
  apply runs_listWithStrings h ht hi hj hd
  intro count hm hlt hp
  rw [runs_entries (shOffset_lt a f i) hlt hp, hm, SectionInside]

end

theorem runs_readDynamic :
    Runs (readDynamic a f (members a f)) ↔ (Ok a f → TableInside a f ∧ DynamicInside a f) := by
  simp only [readDynamic, DynamicInside, @forall_comm Nat (sectionNamed a f _ = some _)]
  apply runs_inSection
  intro h ht i hlt
  simp only [findSection_eq h ht, ok_bind]
  cases hj : sectionNamed a f (text ".dynstr") with
  | none => exact ⟨fun _ _ hn => (by cases hn), fun _ => runs_pure _⟩
  | some j =>
    simp only [sectionField_eq h ht a.shEntsize hlt,
      sectionField_eq h ht a.shSize hlt, ok_bind]
    split
    · rename_i he
      exact ⟨fun _ _ _ he' => absurd he' he, fun _ => runs_pure _⟩
    rename_i he
    rw [not_not] at he
    rw [he]
    split
    · rename_i hz
      exact ⟨fun _ _ _ _ hz' => absurd hz hz', fun _ => runs_pure _⟩
    rename_i hz
    split
    · rename_i hd
      exact ⟨fun _ _ _ _ _ hd' => absurd hd' hd, fun _ => runs_pure _⟩
    rename_i hd
    rw [not_not] at hd
    refine (runs_readDynamicList h ht hlt (sectionNamed_lt hj) hd).trans ?_
    constructor
    · intro hs l hl _ _ _
      cases hl
      exact hs
    · intro hs
      exact hs j rfl rfl hz hd

def crcAt (a : Arch) (f : File) (i : Nat) : Nat :=
  wrap (shdr a f i a.shOffset + (shdr a f i a.shSize - 4))

/-- The checksum does not begin in the last four bytes of the address space, and the name before it
does not wrap. -/
def DebuglinkInside (a : Arch) (f : File) : Prop :=
  ∀ i, sectionNamed a f (text ".gnu_debuglink") = some i → 8 ≤ shdr a f i a.shSize →
    crcAt a f i + 4 < 2 ^ 64 ∧
      (crcAt a f i + 4 ≤ f.size → shdr a f i a.shOffset + (shdr a f i a.shSize - 4) < 2 ^ 64)

theorem runs_readDebuglinkAt {offset size : Nat} (ho : offset < 2 ^ 64) (hs : size < 2 ^ 64)
    (hf : 3 ≤ f.size) :
    Runs (readDebuglinkAt f offset size) ↔
      (8 ≤ size → wrap (offset + (size - 4)) + 4 < 2 ^ 64 ∧
        (wrap (offset + (size - 4)) + 4 ≤ f.size → offset + (size - 4) < 2 ^ 64)) := by
  have hsh := f.short
  by_cases h8 : size < 8
  · rw [readDebuglinkAt, if_pos h8]
    exact ⟨fun _ h => absurd h8 (Nat.not_lt.mpr h), fun _ => runs_pure _⟩
  simp only [readDebuglinkAt, if_neg h8]
  rw [imp_iff_right (Nat.not_lt.mp h8)]
  have hw : wrap (4 * 1) = 4 := by decide
  have hlt := wrap_lt (offset + (size - 4))
  by_cases hc : wrap (offset + (size - 4)) + 4 < 2 ^ 64
  · by_cases hin : wrap (offset + (size - 4)) + 4 ≤ f.size
    · have hco : f.memcpy (wrap (offset + (size - 4))) 4 = .ok _ :=
        memcpy_eq (by rw [wrap_eq hlt]; exact hin)
      rw [read_of_passes (passes_of_le hin) hw]
      simp only [hco, ok_bind]
      have hn : wrap (1 * (size - 4)) = size - 4 := by rw [Nat.one_mul, wrap_eq (by omega)]
      have hp : Passes f offset (size - 4) := by
        rw [Passes]
        omega
      rw [read_of_passes hp hn]
      simp only
      rw [runs_bind_of_forall fun _ => runs_pure _, runs_memcpy, wrap_eq ho]
      simp only [hc, hin, true_and, forall_const]
      simp only [File.size] at hin ⊢
      simp only [wrap] at hin
      omega
    · rw [read_of_not_passes (by rw [Passes, wrap_eq hc]; exact hin) hw]
      exact ⟨fun _ => ⟨hc, fun h => absurd h hin⟩, fun _ => runs_pure _⟩
  · have hp : Passes f (wrap (offset + (size - 4))) 4 := by
      simp only [Passes, File.size] at hf ⊢
      simp only [wrap] at hc ⊢
      omega
    rw [read_of_passes hp hw]
    refine iff_of_false ?_ fun h => hc h.1
    intro hr
    obtain ⟨_, hr, _⟩ := runs_bind.mp hr
    have hr := (runs_memcpy.mp ⟨_, hr⟩).resolve_left (by decide)
    rw [wrap_eq hlt] at hr
    simp only [File.size] at hr
    omega

theorem runs_readDebuglink :
    Runs (readDebuglink a f (members a f)) ↔ (Ok a f → TableInside a f ∧ DebuglinkInside a f) := by
  rw [readDebuglink]
  apply runs_inSection
  intro h ht i hlt
  have hf : 3 ≤ f.size := Nat.le_trans (by cases a <;> decide) h.valid.complete
  simp only [sectionField_eq h ht a.shOffset hlt,
    sectionField_eq h ht a.shSize hlt, ok_bind]
  exact runs_readDebuglinkAt (shOffset_lt a f i) (shSize_lt a f i) hf

def FieldsInside (a : Arch) (f : File) : Prop := TableInside a f ∨ 2 ^ 64 ≤ shoff a f + 4

theorem FieldsInside.field (h : FieldsInside a f) (ht : TableRead a f) (field : Field)
    (hi : i < shnum a f) (hs : 4 ≤ field.start := by cases a <;> decide)
    (hf : field.start + field.width ≤ a.shdrSize := by cases a <;> decide) :
    FieldInside a f i field := by
  cases h with
  | inl h => exact h.field hf hi
  | inr h => exact ht.field_of_wrap (by omega) hf hi

theorem fieldsInside_of_first (ht : TableRead a f) (h : FieldInside a f 0 a.shType) :
    FieldsInside a f := by
  by_cases hw : 2 ^ 64 ≤ shoff a f + 4
  · exact .inr hw
  · refine .inl (ht.inside_or.resolve_right fun hs => ?_)
    exact not_fieldInside_zero hs (Nat.succ_pos 3) (Nat.not_le.mp hw) h

theorem runs_addrToOffsetLoop (h : FieldsInside a f) (ht : TableRead a f) (addr : Nat)
    {l : List Nat} (hl : ∀ i ∈ l, i < shnum a f) :
    Runs (addrToOffsetLoop a f (shoff a f) addr l) := by
  induction l with
  | nil => exact runs_ok _
  | cons i l ih =>
    have hi := hl i (.head _)
    have ih := ih fun k hk => hl k (.tail _ hk)
    simp only [addrToOffsetLoop,
      entry_eq (h.field ht a.shType hi),
      entry_eq (h.field ht a.shFlags hi),
      entry_eq (h.field ht a.shAddr hi),
      entry_eq (h.field ht a.shSize hi),
      entry_eq (h.field ht a.shOffset hi), ok_bind]
    split
    · exact ih
    · split
      · exact runs_pure _
      · exact ih

theorem runs_addrToOffset (addr : Nat) :
    Runs (addrToOffset a f (members a f) addr) ↔ TableRead a f ∧ FieldsInside a f := by
  by_cases ht : TableRead a f
  · rw [addrToOffset, members_sections ht, ok_bind, and_iff_right ht]
    constructor
    · intro h
      obtain ⟨l, hl⟩ := range_shnum ht
      simp only [hl, addrToOffsetLoop] at h
      obtain ⟨_, he, _⟩ := runs_bind.mp h
      exact fieldsInside_of_first ht (runs_entry.mp ⟨_, he⟩)
    · intro h
      exact runs_addrToOffsetLoop h ht addr fun i hi => mem_range.mp hi
  · rw [addrToOffset, members_sections_error ht]
    exact iff_of_false (not_runs_error _) fun h => ht h.1

def nhdr (f : File) (start : Nat) (field : Field) : Nat :=
  peek f.bytes (start + field.start) field.width

def noteName (a : Arch) (start : Nat) : Nat := (start + a.nhdrSize) % 256 ^ a.word

structure IsBuildId (a : Arch) (f : File) (start : Nat) : Prop where
  namesz : nhdr f start a.nNamesz = 4
  inside : noteName a start + 4 ≤ f.size
  name : slice f.bytes (noteName a start) 4 = text "GNU" ++ [0]
  descsz : nhdr f start a.nDescsz ≠ 0
  type : nhdr f start a.nType = ntGnuBuildId

theorem fetch_nhdr (h : start + a.nhdrSize ≤ f.size) (field : Field)
    (hf : field.start + field.width ≤ a.nhdrSize) : f.fetch start field = .ok (nhdr f start field) := by
  have := f.short
  simp only [File.size] at h
  have hw : wrap (start + field.start) = start + field.start := wrap_eq (by omega)
  rw [fetch_eq (by rw [hw, File.size]; omega), hw, nhdr]

theorem passes_iff (ho : offset < 2 ^ 63) (hs : size < 2 ^ 63) :
    Passes f offset size ↔ offset + size ≤ f.size :=
  ⟨fun h => h.le (by omega), passes_of_le⟩

theorem readNote_inside (h : start + a.nhdrSize ≤ f.size) :
    (¬ IsBuildId a f start ∧ readNote a f start = .ok .next) ∨
      (IsBuildId a f start ∧ ∃ id, readNote a f start = .ok (.done id)) := by
  have hsh : f.size < 2 ^ 63 := f.short
  have hnm : (start + a.nhdrSize) % 256 ^ a.word = noteName a start := rfl
  have hn : noteName a start ≤ start + a.nhdrSize := Nat.mod_le _ _
  have hr : f.read a.nhdrSize start 1 = some start :=
    read_of_passes (passes_of_le h) (by cases a <;> decide)
  simp only [readNote, hr, fetch_nhdr h a.nNamesz (by cases a <;> decide),
    fetch_nhdr h a.nDescsz (by cases a <;> decide), fetch_nhdr h a.nType (by cases a <;> decide),
    ok_bind, hnm]
  by_cases hz : nhdr f start a.nNamesz = 4
  · rw [if_neg (not_not.mpr hz)]
    by_cases hin : noteName a start + 4 ≤ f.size
    · have hc : f.memcpy (noteName a start) 4 = .ok (slice f.bytes (noteName a start) 4) := by
        have hw : wrap (noteName a start) = noteName a start := wrap_eq (by omega)
        rw [memcpy_eq (by rw [hw]; exact hin), hw]
      rw [read_of_passes (passes_of_le hin) (by decide)]
      simp only [hc, ok_bind]
      split
      · next hg =>
        refine .inl ⟨fun hb => ?_, rfl⟩
        exact hg.elim (fun hg => hg hb.name) hb.descsz
      next hg =>
      obtain ⟨hgnu, hde⟩ := not_or.mp hg
      by_cases ht : nhdr f start a.nType = ntGnuBuildId
      · refine .inr ⟨⟨hz, hin, not_not.mp hgnu, hde, ht⟩, ?_⟩
        rw [if_neg (not_not.mpr ht)]
        have hd : nhdr f start a.nDescsz < 2 ^ 32 := peek_lt _ _ _
        have hid : (noteName a start + 4) % 256 ^ a.word ≤ noteName a start + 4 := Nat.mod_le _ _
        have hw : wrap (1 * nhdr f start a.nDescsz) = nhdr f start a.nDescsz := by
          rw [Nat.one_mul, wrap_eq (by omega)]
        by_cases hp : Passes f ((noteName a start + 4) % 256 ^ a.word) (nhdr f start a.nDescsz)
        · have hle := hp.le (by omega)
          rw [read_of_passes hp hw]
          simp only
          rw [memcpy_eq (by rw [wrap_eq (by omega)]; exact hle)]
          exact ⟨_, rfl⟩
        · rw [read_of_not_passes hp hw]
          exact ⟨_, rfl⟩
      · refine .inl ⟨fun hb => ht hb.type, ?_⟩
        rw [if_pos ht]
        rfl
    · rw [read_of_not_passes (mt (passes_iff (by omega) (by decide)).mp hin) (by decide)]
      exact .inl ⟨fun hb => hin hb.inside, rfl⟩
  · rw [if_pos hz]
    exact .inl ⟨fun hb => hz hb.namesz, rfl⟩

theorem readNote_outside (h : ¬ start + a.nhdrSize ≤ f.size) (hs : start + a.nhdrSize < 2 ^ 64) :
    readNote a f start = .ok (.done []) := by
  rw [readNote, read_of_not_passes (fun hp : Passes f start a.nhdrSize => h (hp.le hs))
    (by cases a <;> decide)]
  rfl

/-- The header of a note in the last bytes of the address space passes the test and is read. -/
theorem not_runs_readNote (ho : start < 2 ^ 64) (hs : 2 ^ 64 ≤ start + a.nhdrSize)
    (hf : a.nhdrSize ≤ f.size) : ¬ Runs (readNote a f start) := by
  have hsi : a.nhdrSize = 12 := rfl
  have hsh : f.size < 2 ^ 63 := f.short
  have hp : Passes f start a.nhdrSize := by
    simp only [Passes, wrap]
    omega
  rw [readNote, read_of_passes hp (by cases a <;> decide)]
  intro h
  obtain ⟨_, he, _⟩ := runs_bind.mp h
  have he := runs_fetch.mp ⟨_, he⟩
  rw [Arch.nNamesz, Nat.add_zero, wrap_eq ho] at he
  omega

/-- No header of a note wraps around, up to a note beyond the file or a build id. -/
def NotesInside (a : Arch) (f : File) : List Nat → Prop
  | [] => True
  | i :: rest =>
    if shdr a f i a.shType = shtNote then
      shdr a f i a.shOffset + a.nhdrSize < 2 ^ 64 ∧
        (shdr a f i a.shOffset + a.nhdrSize ≤ f.size → ¬ IsBuildId a f (shdr a f i a.shOffset) →
          NotesInside a f rest)
    else NotesInside a f rest

theorem runs_readBuildidLoop (h : FieldsInside a f) (ht : TableRead a f) {l : List Nat}
    (hl : ∀ i ∈ l, i < shnum a f) :
    Runs (readBuildidLoop a f (shoff a f) l) ↔ NotesInside a f l := by
  induction l with
  | nil => exact iff_of_true (runs_ok _) trivial
  | cons i l ih =>
    have hi := hl i (.head _)
    have ih := ih fun k hk => hl k (.tail _ hk)
    simp only [readBuildidLoop, NotesInside,
      entry_eq (h.field ht a.shType hi),
      entry_eq (h.field ht a.shOffset hi), ok_bind]
    by_cases hn : shdr a f i a.shType = shtNote
    · rw [if_neg (not_not.mpr hn), if_pos hn]
      by_cases hs : shdr a f i a.shOffset + a.nhdrSize < 2 ^ 64
      · rw [and_iff_right hs]
        by_cases hin : shdr a f i a.shOffset + a.nhdrSize ≤ f.size
        · rw [imp_iff_right hin]
          obtain ⟨hb, hr⟩ | ⟨hb, id, hr⟩ := readNote_inside hin
          · rw [imp_iff_right hb, hr]
            exact ih
          · rw [hr]
            exact ⟨fun _ hb' => absurd hb hb', fun _ => runs_pure _⟩
        · rw [readNote_outside hin hs]
          exact ⟨fun _ h' => absurd h' hin, fun _ => runs_pure _⟩
      · refine iff_of_false ?_ fun h' => hs h'.1
        intro hr
        obtain ⟨_, hr, _⟩ := runs_bind.mp hr
        have hf : a.nhdrSize ≤ f.size := Nat.le_trans (by cases a <;> decide) ht.valid.complete
        exact not_runs_readNote (shOffset_lt a f i) (Nat.not_lt.mp hs) hf ⟨_, hr⟩
    · rw [if_pos hn, if_neg hn]
      exact ih

theorem runs_readBuildid : Runs (readBuildid a f (members a f)) ↔
      (Ok a f → FieldsInside a f ∧ NotesInside a f (range (shnum a f))) := by
  rw [readBuildid, runs_guarded]
  apply imp_congr_right
  intro hok
  have ht := hok.1
  rw [members_sections ht, ok_bind]
  have hl : ∀ i ∈ range (shnum a f), i < shnum a f := fun i hi => mem_range.mp hi
  constructor
  · intro h
    have hf : FieldsInside a f := by
      obtain ⟨l, hl⟩ := range_shnum ht
      simp only [hl, readBuildidLoop] at h
      obtain ⟨_, he, _⟩ := runs_bind.mp h
      exact fieldsInside_of_first ht (runs_entry.mp ⟨_, he⟩)
    exact ⟨hf, (runs_readBuildidLoop hf ht hl).mp h⟩
  · intro ⟨hf, h⟩
    exact (runs_readBuildidLoop hf ht hl).mpr h

noncomputable def offsetsOf (a : Arch) (f : File) (name : Bytes) : SectionOffsets :=
  match sectionNamed a f name with
  | none => ⟨0, 0⟩
  | some i =>
    ⟨shdr a f i a.shOffset, (shdr a f i a.shOffset + shdr a f i a.shSize) % 256 ^ a.word⟩

theorem findSectionFileOffsets_eq (h : TableRead a f) (ht : TableInside a f) (name : Bytes) :
    findSectionFileOffsets a f (members a f) name = .ok (offsetsOf a f name) := by
  rw [findSectionFileOffsets, findSection_eq h ht, ok_bind, offsetsOf]
  cases hi : sectionNamed a f name with
  | none => rfl
  | some i =>
    simp only [sectionField_eq h ht a.shOffset (sectionNamed_lt hi),
      sectionField_eq h ht a.shSize (sectionNamed_lt hi), ok_bind]
    rfl

theorem runs_findSectionFileOffsets (name : Bytes) :
    Runs (findSectionFileOffsets a f (members a f) name) ↔ TableRead a f ∧ TableInside a f := by
  constructor
  · intro h
    obtain ⟨_, hf, _⟩ := runs_bind.mp h
    exact inside_of_findSection ⟨_, hf⟩
  · intro ⟨h, ht⟩
    exact ⟨_, findSectionFileOffsets_eq h ht name⟩

def SpanInside (a : Arch) (f : File) (name : Bytes) : Prop :=
  ∀ i, sectionNamed a f name = some i → shdr a f i a.shSize ≠ 0 →
    SectionInside a f i ∧ shdr a f i a.shOffset + shdr a f i a.shSize < 256 ^ a.word

theorem runs_span {offset size : Nat} (ho : offset < 256 ^ a.word) (hs : size < 256 ^ a.word) :
    Runs (f.memcpy offset (wrap ((offset + size) % 256 ^ a.word + 2 ^ 64 - offset))) ↔
      (size ≠ 0 → offset + size ≤ f.size ∧ offset + size < 256 ^ a.word) := by
  have hsh : f.size < 2 ^ 63 := f.short
  rw [runs_memcpy]
  cases a <;> simp only [Arch.word, wrap] at * <;> omega

theorem dwarfSection_eq (h : TableRead a f) (ht : TableInside a f) (name : Bytes) :
    (dwarfSection a f (members a f) name >>= traverse f) =
      f.memcpy (offsetsOf a f name).start
        (wrap ((offsetsOf a f name).stop + 2 ^ 64 - (offsetsOf a f name).start)) := by
  rw [dwarfSection, findSectionFileOffsets_eq h ht, ok_bind, pure_bind, traverse]

theorem runs_traverse (name : Bytes) : Runs (f.memcpy (offsetsOf a f name).start
      (wrap ((offsetsOf a f name).stop + 2 ^ 64 - (offsetsOf a f name).start))) ↔
      SpanInside a f name := by
  rw [SpanInside]
  cases hi : sectionNamed a f name with
  | none =>
    have hz : wrap (0 + 2 ^ 64 - 0) = 0 := by decide
    simp only [offsetsOf, hi, hz, runs_memcpy]
    exact ⟨fun _ _ hn => (by cases hn), fun _ => .inl trivial⟩
  | some i =>
    have ho : shdr a f i a.shOffset < 256 ^ a.word := peek_lt _ _ _
    have hs : shdr a f i a.shSize < 256 ^ a.word := peek_lt _ _ _
    simp only [offsetsOf, hi]
    rw [runs_span ho hs]
    constructor
    · intro hs k hk
      cases hk
      exact hs
    · intro hs
      exact hs i rfl

theorem runs_dwarfSection (name : Bytes) :
    Runs (dwarfSection a f (members a f) name >>= traverse f) ↔
      TableRead a f ∧ TableInside a f ∧ SpanInside a f name := by
  constructor
  · intro h
    obtain ⟨ht, hin⟩ : TableRead a f ∧ TableInside a f := by
      obtain ⟨_, hd, _⟩ := runs_bind.mp h
      obtain ⟨_, hd, _⟩ := bind_eq_ok.mp hd
      exact (runs_findSectionFileOffsets name).mp ⟨_, hd⟩
    rw [dwarfSection_eq ht hin, runs_traverse] at h
    exact ⟨ht, hin, h⟩
  · intro ⟨ht, hin, hs⟩
    rw [dwarfSection_eq ht hin, runs_traverse]
    exact hs

theorem readSymbolList_strtab (h : readSymbolList a f impl i j size = .ok t) :
    t.symbols = [] ∨ ∃ bytes, t.strtab = terminate bytes := by
  obtain ⟨strSize, -, h⟩ := bind_eq_ok.mp h
  split at h
  · cases h
    exact .inl rfl
  obtain ⟨offset, -, h⟩ := bind_eq_ok.mp h
  cases hr : f.read a.symSize offset (size / a.symSize) with
  | none =>
    rw [hr] at h
    cases h
    exact .inl rfl
  | some list =>
    simp only [hr] at h
    obtain ⟨strOffset, -, h⟩ := bind_eq_ok.mp h
    obtain ⟨strtab, hs, h⟩ := bind_eq_ok.mp h
    obtain ⟨_, -, h⟩ := bind_eq_ok.mp h
    obtain ⟨_, -, h⟩ := bind_eq_ok.mp h
    cases h
    cases hp : f.read 1 strOffset strSize with
    | none =>
      rw [hp] at hs
      cases hs
    | some p =>
      rw [hp] at hs
      obtain ⟨bytes, -, hs⟩ := bind_eq_ok.mp hs
      cases hs
      exact .inr ⟨bytes, rfl⟩

theorem readSymbols_strtab (h : readSymbols a f impl symtab strtab = .ok t) :
    t.symbols = [] ∨ ∃ bytes, t.strtab = terminate bytes := by
  simp only [readSymbols] at h
  split at h
  · cases h
    exact .inl rfl
  obtain ⟨symbols, -, h⟩ := bind_eq_ok.mp h
  cases symbols with
  | none =>
    cases h
    exact .inl rfl
  | some symbols =>
    obtain ⟨strings, -, h⟩ := bind_eq_ok.mp h
    obtain ⟨entsize, -, h⟩ := bind_eq_ok.mp h
    split at h
    · cases h
      exact .inl rfl
    obtain ⟨size, -, h⟩ := bind_eq_ok.mp h
    split at h
    · cases h
      exact .inl rfl
    · cases strings with
      | none => cases h
      | some strings => exact readSymbolList_strtab h

theorem runs_name {t : SymbolTable} (h : t.strtab = terminate bytes) (s : Symbol) :
    Runs (t.name s) := by
  rw [SymbolTable.name, h]
  split
  · rename_i hs
    rw [runs_bind_of_forall fun _ => runs_pure _]
    exact runs_textAt (mem_terminate _ hs)
  · exact runs_ok _

theorem runs_isName {t : SymbolTable} (h : t.strtab = terminate bytes) (s : Symbol) (name : Bytes) :
    Runs (t.isName s name) := by
  rw [SymbolTable.isName, h]
  split
  · rename_i hs
    exact runs_textEq (mem_terminate _ hs) name
  · exact runs_ok _

theorem runs_lookup {g : SymbolTable → Except Fault α}
    (hem : ∀ t : SymbolTable, t.symbols = [] → Runs (g t))
    (hg : ∀ (t : SymbolTable) bytes, t.strtab = terminate bytes → Runs (g t)) :
    Runs (readSymbols a f (members a f) symtab strtab >>= g) ↔
      Runs (readSymbols a f (members a f) symtab strtab) := by
  rw [runs_bind]
  constructor
  · intro ⟨t, ht, _⟩
    exact ⟨t, ht⟩
  · intro ⟨t, ht⟩
    refine ⟨t, ht, ?_⟩
    cases readSymbols_strtab ht with
    | inl he => exact hem t he
    | inr he =>
      obtain ⟨bytes, he⟩ := he
      exact hg t bytes he

def Inside (a : Arch) (f : File) : Op → Prop
  | .readSymbols symtab strtab | .symbolName symtab strtab _ | .isSymbolName symtab strtab _ _ =>
    Ok a f → TableInside a f ∧ SymbolTableInside a f symtab strtab
  | .readDynamic => Ok a f → TableInside a f ∧ DynamicInside a f
  | .readDebuglink => Ok a f → TableInside a f ∧ DebuglinkInside a f
  | .readBuildid => Ok a f → FieldsInside a f ∧ NotesInside a f (range (shnum a f))
  | .addrToOffset _ => TableRead a f ∧ FieldsInside a f
  | .findSectionFileOffsets _ => TableRead a f ∧ TableInside a f
  | .dwarfSection name => TableRead a f ∧ TableInside a f ∧ SpanInside a f name

end Attune.Elf
