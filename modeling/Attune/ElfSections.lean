import Attune.ElfReader

namespace Attune.Elf
open Attune.Memory Bool

variable {a : Arch} {f : File}

theorem wrap_eq (h : n < 2 ^ 64) : wrap n = n := Nat.mod_eq_of_lt h

theorem wrap_lt (n : Nat) : wrap n < 2 ^ 64 := Nat.mod_lt _ (by decide)

/-- The test of `read_bytes`, which adds without a look at the carry. -/
def Passes (f : File) (offset size : Nat) : Prop := wrap (offset + size) ≤ f.size

instance : Decidable (Passes f offset size) := inferInstanceAs (Decidable (_ ≤ _))

theorem read_of_passes (h : Passes f offset size) (hs : wrap (width * count) = size) :
    f.read width offset count = some offset := by
  rw [File.read, File.readBytes, hs]
  exact if_neg (Nat.not_lt.mpr h)

theorem read_of_not_passes (h : ¬ Passes f offset size) (hs : wrap (width * count) = size) :
    f.read width offset count = none := by
  rw [File.read, File.readBytes, hs]
  exact if_pos (Nat.not_le.mp h)

theorem Passes.le (h : Passes f offset size) (hw : offset + size < 2 ^ 64) :
    offset + size ≤ f.size := by
  rw [Passes, wrap_eq hw] at h
  exact h

theorem passes_of_le (h : offset + size ≤ f.size) : Passes f offset size := by
  have := f.short
  rw [Passes, wrap_eq (by simp only [File.size] at h; omega)]
  exact h

theorem fetch_eq {field : Field} (h : wrap (p + field.start) + field.width ≤ f.size) :
    f.fetch p field = .ok (peek f.bytes (wrap (p + field.start)) field.width) := load_eq h

theorem runs_fetch {field : Field} :
    Runs (f.fetch p field) ↔ wrap (p + field.start) + field.width ≤ f.size := runs_load

theorem memcpy_eq (h : wrap p + size ≤ f.size) :
    f.memcpy p size = .ok (slice f.bytes (wrap p) size) := copy_eq (.inr h)

theorem runs_memcpy : Runs (f.memcpy p size) ↔ size = 0 ∨ wrap p + size ≤ f.size := runs_copy

def ehdr (f : File) (field : Field) : Nat := peek f.bytes field.start field.width

section

variable (a : Arch) (f : File)

def shoff : Nat := ehdr f a.eShoff

def shnum : Nat := ehdr f a.eShnum

def shstrndx : Nat := ehdr f a.eShstrndx

structure Valid (a : Arch) (f : File) : Prop where
  complete : a.ehdrSize ≤ f.size
  magic : slice f.bytes 0 4 = elfMag
  elfclass : ehdr f a.eClass = a.elfclass
  data : ehdr f a.eData = a.elfendian
  machine : ehdr f a.eMachine = a.elfmachine
  shentsize : ehdr f a.eShentsize = a.shdrSize
  shstrndx_lt : shstrndx a f < shnum a f

theorem shoff_lt : shoff a f < 2 ^ 64 := by
  apply Nat.lt_of_lt_of_le (peek_lt _ _ _)
  cases a <;> decide

theorem shnum_lt : shnum a f < 65536 := peek_lt _ _ _

theorem shdrSize_le : a.shdrSize ≤ 64 := by cases a <;> decide

theorem table_size_lt : a.shdrSize * shnum a f < 2 ^ 22 := by
  have h := Nat.mul_le_mul (shdrSize_le a) (Nat.le_of_lt_succ (shnum_lt a f))
  omega

end

theorem fetch_ehdr {field : Field} (h : a.ehdrSize ≤ f.size)
    (hf : field.start + field.width ≤ a.ehdrSize) : f.fetch 0 field = .ok (ehdr f field) := by
  have := f.short
  have hw : wrap (0 + field.start) = field.start := by
    rw [Nat.zero_add]
    exact wrap_eq (by simp only [File.size] at h; omega)
  rw [fetch_eq (by rw [hw]; omega), hw, ehdr]

theorem headerOk_eq (h : a.ehdrSize ≤ f.size) :
    ∃ b, headerOk a f 0 = .ok b ∧ (b = true ↔ Valid a f) := by
  have hc : f.memcpy 0 4 = .ok (slice f.bytes 0 4) :=
    memcpy_eq (by cases a <;> exact Nat.le_trans (by decide) h)
  rw [headerOk, hc, fetch_ehdr h (by cases a <;> decide), fetch_ehdr h (by cases a <;> decide),
    fetch_ehdr h (by cases a <;> decide), fetch_ehdr h (by cases a <;> decide),
    fetch_ehdr h (by cases a <;> decide), fetch_ehdr h (by cases a <;> decide)]
  refine ⟨_, rfl, ?_⟩
  simp only [and_eq_true, beq_iff_eq, decide_eq_true_eq]
  constructor
  · intro ⟨⟨⟨⟨⟨h₁, h₂⟩, h₃⟩, h₄⟩, h₅⟩, h₆⟩
    exact ⟨h, h₁, h₂, h₃, h₄, h₅, h₆⟩
  · intro hv
    exact ⟨⟨⟨⟨⟨hv.magic, hv.elfclass⟩, hv.data⟩, hv.machine⟩, hv.shentsize⟩, hv.shstrndx_lt⟩

structure TableRead (a : Arch) (f : File) : Prop where
  valid : Valid a f
  passes : Passes f (shoff a f) (a.shdrSize * shnum a f)
  nonempty : shnum a f ≠ 0

def TableInside (a : Arch) (f : File) : Prop := shoff a f + a.shdrSize * shnum a f ≤ f.size

theorem TableRead.inside_or (h : TableRead a f) : TableInside a f ∨ 2 ^ 63 ≤ shoff a f := by
  have hs := table_size_lt a f
  by_cases hw : shoff a f + a.shdrSize * shnum a f < 2 ^ 64
  · exact .inl (h.passes.le hw)
  · exact .inr (by omega)

def fieldAt (a : Arch) (f : File) (i : Nat) (field : Field) : Nat :=
  wrap (shoff a f + a.shdrSize * i + field.start)

def shdr (a : Arch) (f : File) (i : Nat) (field : Field) : Nat :=
  peek f.bytes (fieldAt a f i field) field.width

def FieldInside (a : Arch) (f : File) (i : Nat) (field : Field) : Prop :=
  fieldAt a f i field + field.width ≤ f.size

theorem entry_eq {field : Field} (h : FieldInside a f i field) :
    f.entry (shoff a f) a.shdrSize i field = .ok (shdr a f i field) := fetch_eq h

theorem runs_entry {field : Field} :
    Runs (f.entry (shoff a f) a.shdrSize i field) ↔ FieldInside a f i field := runs_fetch

theorem TableInside.field (h : TableInside a f) {field : Field}
    (hf : field.start + field.width ≤ a.shdrSize) (hi : i < shnum a f) :
    FieldInside a f i field := by
  have hm : a.shdrSize * i + a.shdrSize ≤ a.shdrSize * shnum a f := by
    rw [← Nat.mul_succ]
    exact Nat.mul_le_mul_left _ hi
  have := f.short
  simp only [TableInside, File.size] at h
  rw [FieldInside, fieldAt, wrap_eq (by omega), File.size]
  omega

/-- The fields from a place on are in the file also when every one of them has wrapped around. -/
theorem TableRead.field_of_wrap (h : TableRead a f) {field : Field}
    (hs : 2 ^ 64 ≤ shoff a f + field.start) (hf : field.start + field.width ≤ a.shdrSize)
    (hi : i < shnum a f) : FieldInside a f i field := by
  have hm : a.shdrSize * i + a.shdrSize ≤ a.shdrSize * shnum a f := by
    rw [← Nat.mul_succ]
    exact Nat.mul_le_mul_left _ hi
  have hp := h.passes
  have ho := shoff_lt a f
  have ht := table_size_lt a f
  simp only [Passes, wrap] at hp
  simp only [FieldInside, fieldAt, wrap]
  omega

theorem not_fieldInside_zero {field : Field} (h : 2 ^ 63 ≤ shoff a f) (hw : 0 < field.width)
    (hf : shoff a f + field.start < 2 ^ 64) : ¬ FieldInside a f 0 field := by
  have := f.short
  rw [FieldInside, fieldAt, Nat.mul_zero, Nat.add_zero, wrap_eq hf, File.size]
  omega

def namesOffset (a : Arch) (f : File) : Nat := shdr a f (shstrndx a f) a.shOffset

def namesSize (a : Arch) (f : File) : Nat := shdr a f (shstrndx a f) a.shSize

theorem shdr_lt {field : Field} (h : field.width ≤ 8) : shdr a f i field < 2 ^ 64 :=
  Nat.lt_of_lt_of_le (peek_lt _ _ _)
    (Nat.le_trans (Nat.pow_le_pow_right (by decide) h) (by decide))

structure NamesRead (a : Arch) (f : File) : Prop where
  passes : Passes f (namesOffset a f) (namesSize a f)
  nonempty : namesSize a f ≠ 0

structure NamesInside (a : Arch) (f : File) : Prop where
  offset : FieldInside a f (shstrndx a f) a.shOffset
  size : FieldInside a f (shstrndx a f) a.shSize
  names : NamesRead a f → namesOffset a f + namesSize a f ≤ f.size

def Constructs (a : Arch) (f : File) : Prop := TableRead a f → NamesInside a f

def Ok (a : Arch) (f : File) : Prop := TableRead a f ∧ NamesRead a f

open Classical in
noncomputable def members (a : Arch) (f : File) : ElfReaderImpl :=
  if TableRead a f then
    if NamesRead a f then
      ⟨some (shoff a f, shnum a f),
        terminate (slice f.bytes (namesOffset a f) (namesSize a f)), true⟩
    else ⟨some (shoff a f, shnum a f), [], false⟩
  else ⟨none, [], false⟩

theorem readSectionNames_eq (h : NamesInside a f) (ht : TableRead a f) :
    readSectionNames a f (shoff a f) (shnum a f) (shstrndx a f) = .ok (members a f) := by
  have hs : namesSize a f < 2 ^ 64 := shdr_lt (by cases a <;> decide)
  have hr : wrap (1 * namesSize a f) = namesSize a f := by rw [Nat.one_mul, wrap_eq hs]
  rw [readSectionNames, entry_eq h.offset, ok_bind, entry_eq h.size, ok_bind, members, if_pos ht,
    ← namesOffset, ← namesSize]
  by_cases hp : Passes f (namesOffset a f) (namesSize a f)
  · rw [read_of_passes hp hr]
    by_cases hz : namesSize a f = 0
    · rw [if_neg fun hn : NamesRead a f => hn.nonempty hz]
      exact if_pos hz
    have hn : NamesRead a f := ⟨hp, hz⟩
    have hi := h.names hn
    have hw : wrap (namesOffset a f) = namesOffset a f :=
      wrap_eq (by have := f.short; simp only [File.size] at hi; omega)
    rw [if_pos hn]
    refine (if_neg hz).trans ?_
    rw [memcpy_eq (by rw [hw]; exact hi), hw]
    rfl
  · rw [read_of_not_passes hp hr, if_neg fun hn : NamesRead a f => hp hn.passes]
    rfl

theorem namesInside_of_runs
    (h : Runs (readSectionNames a f (shoff a f) (shnum a f) (shstrndx a f))) :
    NamesInside a f := by
  have hs : namesSize a f < 2 ^ 64 := shdr_lt (by cases a <;> decide)
  have hr : wrap (1 * namesSize a f) = namesSize a f := by rw [Nat.one_mul, wrap_eq hs]
  have ho : FieldInside a f (shstrndx a f) a.shOffset := by
    obtain ⟨_, ho, _⟩ := runs_bind.mp h
    exact runs_entry.mp ⟨_, ho⟩
  rw [readSectionNames, entry_eq ho, ok_bind] at h
  have hz : FieldInside a f (shstrndx a f) a.shSize := by
    obtain ⟨_, hz, _⟩ := runs_bind.mp h
    exact runs_entry.mp ⟨_, hz⟩
  rw [entry_eq hz, ok_bind, ← namesOffset, ← namesSize] at h
  refine ⟨ho, hz, ?_⟩
  intro hn
  rw [read_of_passes hn.passes hr] at h
  simp only [if_neg hn.nonempty] at h
  obtain ⟨_, hc, _⟩ := runs_bind.mp h
  have hc := (runs_memcpy.mp ⟨_, hc⟩).resolve_left hn.nonempty
  have hw : wrap (namesOffset a f) = namesOffset a f := wrap_eq (shdr_lt (by cases a <;> decide))
  rw [hw] at hc
  exact hc

theorem read_ehdr : f.read a.ehdrSize 0 1 = if a.ehdrSize ≤ f.size then some 0 else none := by
  have hw : wrap (a.ehdrSize * 1) = a.ehdrSize := by cases a <;> decide
  have hp : Passes f 0 a.ehdrSize ↔ a.ehdrSize ≤ f.size := by
    rw [Passes, Nat.zero_add, wrap_eq (by cases a <;> decide)]
  split
  · rename_i h
    exact read_of_passes (hp.mpr h) hw
  · rename_i h
    exact read_of_not_passes (mt hp.mp h) hw

theorem readSections_eq (hv : Valid a f) : readSections a f 0 =
      if Passes f (shoff a f) (a.shdrSize * shnum a f) ∧ shnum a f ≠ 0 then
        readSectionNames a f (shoff a f) (shnum a f) (shstrndx a f)
      else .ok ⟨none, [], false⟩ := by
  have hw : wrap (a.shdrSize * shnum a f) = a.shdrSize * shnum a f :=
    wrap_eq (by have := table_size_lt a f; omega)
  rw [readSections, fetch_ehdr hv.complete (by cases a <;> decide), ok_bind,
    fetch_ehdr hv.complete (by cases a <;> decide), ok_bind, ← shoff, ← shnum]
  by_cases hp : Passes f (shoff a f) (a.shdrSize * shnum a f)
  · rw [read_of_passes hp hw]
    by_cases hz : shnum a f = 0
    · rw [if_neg fun h => h.2 hz]
      exact if_pos hz
    · rw [if_pos ⟨hp, hz⟩]
      refine (if_neg hz).trans ?_
      rw [fetch_ehdr hv.complete (by cases a <;> decide)]
      rfl
  · rw [read_of_not_passes hp hw, if_neg fun h => hp h.1]
    rfl

theorem construct_of_tableRead (h : TableRead a f) :
    construct a f = readSectionNames a f (shoff a f) (shnum a f) (shstrndx a f) := by
  obtain ⟨b, hb, hv⟩ := headerOk_eq h.valid.complete
  rw [construct, read_ehdr, if_pos h.valid.complete]
  simp only [hb, ok_bind, hv.mpr h.valid, if_true]
  rw [readSections_eq h.valid, if_pos ⟨h.passes, h.nonempty⟩]

theorem construct_of_not_tableRead (h : ¬ TableRead a f) :
    construct a f = .ok ⟨none, [], false⟩ := by
  rw [construct, read_ehdr]
  by_cases hc : a.ehdrSize ≤ f.size
  · obtain ⟨b, hb, hv⟩ := headerOk_eq hc
    simp only [if_pos hc, hb, ok_bind]
    split
    · rename_i hbt
      have hv := hv.mp hbt
      rw [readSections_eq hv, if_neg fun ht => h ⟨hv, ht.1, ht.2⟩]
    · rfl
  · rw [if_neg hc]
    rfl

/-- The constructor reads in the file exactly under `Constructs`, and then sets the members. -/
theorem runs_construct_bind {g : ElfReaderImpl → Except Fault α} :
    Runs (construct a f >>= g) ↔ Constructs a f ∧ Runs (g (members a f)) := by
  by_cases ht : TableRead a f
  · rw [construct_of_tableRead ht]
    constructor
    · intro h
      have hn : NamesInside a f := by
        obtain ⟨_, hr, _⟩ := runs_bind.mp h
        exact namesInside_of_runs ⟨_, hr⟩
      rw [readSectionNames_eq hn ht] at h
      exact ⟨fun _ => hn, h⟩
    · intro ⟨hc, h⟩
      rw [readSectionNames_eq (hc ht) ht]
      exact h
  · rw [construct_of_not_tableRead ht, members, if_neg ht]
    constructor
    · intro h
      exact ⟨fun h' => absurd h' ht, h⟩
    · intro h
      exact h.2

theorem members_sections (h : TableRead a f) :
    (members a f).sections = .ok (shoff a f, shnum a f) := by
  simp only [members, if_pos h]
  split <;> rfl

theorem members_sections_error (h : ¬ TableRead a f) :
    (members a f).sections = .error .uninitialised := by
  rw [members, if_neg h]
  rfl

theorem members_ok : (members a f).ok = true ↔ Ok a f := by
  simp only [members, Ok]
  split
  · split <;> simp [*]
  · simp [*]

theorem mem_terminate (bytes : Bytes) (h : i < (terminate bytes).length) :
    0 ∈ (terminate bytes).drop i := by
  simp only [terminate, List.length_append, List.length_singleton] at h
  rw [terminate, List.drop_append_of_le_length (by omega)]
  exact List.mem_append_right _ (.head _)

theorem zero_mem_names (h : i < (members a f).sectionNames.length) :
    0 ∈ (members a f).sectionNames.drop i := by
  by_cases ht : TableRead a f
  · by_cases hn : NamesRead a f
    · simp only [members, if_pos ht, if_pos hn] at h ⊢
      exact mem_terminate _ h
    · simp only [members, if_pos ht, if_neg hn] at h
      cases h
  · simp only [members, if_neg ht] at h
    cases h

noncomputable def named (a : Arch) (f : File) (n : Bytes) (i : Nat) : Bool :=
  decide (shdr a f i a.shName < (members a f).sectionNames.length) &&
    (textEq ((members a f).sectionNames.drop (shdr a f i a.shName)) n).toOption == some true

def only : List α → Option α
  | [x] => some x
  | _ => none

noncomputable def sectionNamed (a : Arch) (f : File) (n : Bytes) : Option Nat :=
  only ((List.range (shnum a f)).filter (named a f n))

theorem findSectionLoop_cons (h : FieldInside a f i a.shName) (n : Bytes) (l : List Nat)
    (found : Option Nat) :
    findSectionLoop a f (shoff a f) (members a f).sectionNames n (i :: l) found =
      if named a f n i then
        match found with
        | some _ => .ok none
        | none => findSectionLoop a f (shoff a f) (members a f).sectionNames n l (some i)
      else findSectionLoop a f (shoff a f) (members a f).sectionNames n l found := by
  rw [findSectionLoop.eq_def]
  simp only [entry_eq h, ok_bind]
  by_cases hl : (members a f).sectionNames.length ≤ shdr a f i a.shName
  · have hn : named a f n i = false := by
      rw [named, decide_eq_false (Nat.not_lt.mpr hl), Bool.false_and]
    rw [if_pos hl, hn]
    rfl
  · obtain ⟨b, hb⟩ := runs_textEq (zero_mem_names (Nat.not_le.mp hl)) n
    have hn : named a f n i = b := by
      simp [named, Nat.not_le.mp hl, hb, Except.toOption]
    cases found with
    | none | some _ => simp only [if_neg hl, hb, ok_bind, hn]

theorem findSectionLoop_some {l : List Nat} (h : ∀ i ∈ l, FieldInside a f i a.shName) (n : Bytes) :
    findSectionLoop a f (shoff a f) (members a f).sectionNames n l (some j) =
      .ok (if l.filter (named a f n) = [] then some j else none) := by
  induction l with
  | nil => rfl
  | cons i l ih =>
    rw [findSectionLoop_cons (h i (.head _))]
    split
    · rename_i hn
      rw [List.filter_cons_of_pos hn]
      rfl
    · rename_i hn
      rw [List.filter_cons_of_neg hn]
      exact ih fun k hk => h k (.tail _ hk)

theorem findSectionLoop_none {l : List Nat} (h : ∀ i ∈ l, FieldInside a f i a.shName) (n : Bytes) :
    findSectionLoop a f (shoff a f) (members a f).sectionNames n l none =
      .ok (only (l.filter (named a f n))) := by
  induction l with
  | nil => rfl
  | cons i l ih =>
    rw [findSectionLoop_cons (h i (.head _))]
    split
    · rename_i hn
      rw [List.filter_cons_of_pos hn]
      refine (findSectionLoop_some (fun k hk => h k (.tail _ hk)) n).trans ?_
      cases l.filter (named a f n) <;> rfl
    · rename_i hn
      rw [List.filter_cons_of_neg hn]
      exact ih fun k hk => h k (.tail _ hk)

theorem range_shnum (h : TableRead a f) : ∃ l, List.range (shnum a f) = 0 :: l := by
  obtain ⟨n, hn⟩ := Nat.exists_eq_succ_of_ne_zero h.nonempty
  exact ⟨_, by rw [hn, List.range_succ_eq_map]⟩

theorem findSection_eq (h : TableRead a f) (ht : TableInside a f) (n : Bytes) :
    findSection a f (members a f) n = .ok (sectionNamed a f n) := by
  rw [findSection, members_sections h, ok_bind, sectionNamed]
  apply findSectionLoop_none
  intro i hi
  exact ht.field (by cases a <;> decide) (List.mem_range.mp hi)

theorem inside_of_findSection (h : Runs (findSection a f (members a f) n)) :
    TableRead a f ∧ TableInside a f := by
  by_cases ht : TableRead a f
  · refine ⟨ht, ht.inside_or.resolve_right ?_⟩
    intro hs
    obtain ⟨l, hl⟩ := range_shnum ht
    simp only [findSection, members_sections ht, ok_bind, hl, findSectionLoop] at h
    obtain ⟨_, he, _⟩ := runs_bind.mp h
    have hz : ¬ FieldInside a f 0 a.shName := not_fieldInside_zero hs (Nat.succ_pos 3) (shoff_lt a f)
    exact hz (runs_entry.mp ⟨_, he⟩)
  · rw [findSection, members_sections_error ht] at h
    exact absurd h (not_runs_error _)

theorem sectionField_eq (h : TableRead a f) (ht : TableInside a f) (field : Field)
    (hi : i < shnum a f)
    (hf : field.start + field.width ≤ a.shdrSize := by cases a <;> decide) :
    sectionField a f (members a f) i field = .ok (shdr a f i field) := by
  rw [sectionField, members_sections h, ok_bind]
  exact entry_eq (ht.field hf hi)

theorem runs_findSection_bind {g : Option Nat → Except Fault α} :
    Runs (findSection a f (members a f) n >>= g) ↔
      TableRead a f ∧ TableInside a f ∧ Runs (g (sectionNamed a f n)) := by
  constructor
  · intro h
    obtain ⟨ht, hin⟩ : TableRead a f ∧ TableInside a f := by
      obtain ⟨_, hf, _⟩ := runs_bind.mp h
      exact inside_of_findSection ⟨_, hf⟩
    rw [findSection_eq ht hin] at h
    exact ⟨ht, hin, h⟩
  · intro ⟨ht, hin, h⟩
    rw [findSection_eq ht hin]
    exact h

theorem runs_guarded {x : Except Fault α} {e : α} :
    Runs (if !(members a f).ok then pure e else x) ↔ (Ok a f → Runs x) := by
  by_cases h : Ok a f
  · rw [members_ok.mpr h]
    exact ⟨fun hx _ => hx, fun hx => hx h⟩
  · rw [eq_false_iff.mpr (mt members_ok.mp h)]
    exact ⟨fun _ h' => absurd h' h, fun _ => runs_pure _⟩

theorem only_mem {l : List α} (h : only l = some x) : x ∈ l := by
  cases l with
  | nil => cases h
  | cons y l =>
    cases l with
    | nil =>
      cases h
      exact .head _
    | cons z l => cases h

theorem sectionNamed_lt (h : sectionNamed a f n = some i) : i < shnum a f :=
  List.mem_range.mp (List.mem_of_mem_filter (only_mem h))

end Attune.Elf
