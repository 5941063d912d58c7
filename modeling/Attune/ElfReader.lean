import Attune.CheckedMemory

namespace Attune.Elf
open Attune.Memory List

def wrap (n : Nat) : Nat := n % 2 ^ 64

/-- A mapped file. Its size comes from `st_size`, a signed 64-bit number. -/
structure File where
  bytes : Bytes
  short : bytes.length < 2 ^ 63

def File.size (f : File) : Nat := f.bytes.length

inductive Arch
  | x86
  | x86_64
  deriving DecidableEq

structure Field where
  start : Nat
  width : Nat
  deriving DecidableEq

namespace Arch

def word : Arch → Nat
  | .x86 => 4
  | .x86_64 => 8

def elfclass : Arch → Nat
  | .x86 => 1
  | .x86_64 => 2

def elfmachine : Arch → Nat
  | .x86 => 3
  | .x86_64 => 62

def elfendian (_ : Arch) : Nat := 1

def eClass (_ : Arch) : Field := ⟨4, 1⟩
def eData (_ : Arch) : Field := ⟨5, 1⟩
def eMachine (_ : Arch) : Field := ⟨18, 2⟩
variable (a : Arch)

def eShoff : Field := ⟨24 + 2 * a.word, a.word⟩
def eShentsize : Field := ⟨34 + 3 * a.word, 2⟩
def eShnum : Field := ⟨36 + 3 * a.word, 2⟩
def eShstrndx : Field := ⟨38 + 3 * a.word, 2⟩
def ehdrSize : Nat := 40 + 3 * a.word

def shName (_ : Arch) : Field := ⟨0, 4⟩
def shType (_ : Arch) : Field := ⟨4, 4⟩
def shFlags : Field := ⟨8, a.word⟩
def shAddr : Field := ⟨8 + a.word, a.word⟩
def shOffset : Field := ⟨8 + 2 * a.word, a.word⟩
def shSize : Field := ⟨8 + 3 * a.word, a.word⟩
def shEntsize : Field := ⟨16 + 5 * a.word, a.word⟩
def shdrSize : Nat := 16 + 6 * a.word

def stName (_ : Arch) : Field := ⟨0, 4⟩

def stShndx : Arch → Field
  | .x86 => ⟨14, 2⟩
  | .x86_64 => ⟨6, 2⟩

def stValue : Arch → Field
  | .x86 => ⟨4, 4⟩
  | .x86_64 => ⟨8, 8⟩

def symSize : Arch → Nat
  | .x86 => 16
  | .x86_64 => 24

def dTag : Field := ⟨0, a.word⟩
def dVal : Field := ⟨a.word, a.word⟩
def dynSize : Nat := 2 * a.word

def nNamesz (_ : Arch) : Field := ⟨0, 4⟩
def nDescsz (_ : Arch) : Field := ⟨4, 4⟩
def nType (_ : Arch) : Field := ⟨8, 4⟩
def nhdrSize (_ : Arch) : Nat := 12

end Arch

/-- Pointers into the map are offsets from its begin; a null pointer is `none`. -/
def File.readBytes (f : File) (offset size : Nat) : Option Nat :=
  if f.size < wrap (offset + size) then none else some offset

def File.read (f : File) (width offset count : Nat) : Option Nat :=
  f.readBytes offset (wrap (width * count))

def File.fetch (f : File) (p : Nat) (field : Field) : Except Fault Nat :=
  load f.bytes (wrap (p + field.start)) field.width

def File.memcpy (f : File) (p size : Nat) : Except Fault Bytes := copy f.bytes (wrap p) size

def File.entry (f : File) (array width i : Nat) (field : Field) : Except Fault Nat :=
  f.fetch (array + width * i) field

/-- A vector whose last byte was overwritten with zero. -/
def terminate (bytes : Bytes) : Bytes := bytes.dropLast ++ [0]

/-- The members of `ElfReaderImpl`; `table` is `none` when `sections_size` was never set. -/
structure ElfReaderImpl where
  table : Option (Nat × Nat)
  sectionNames : Bytes
  ok : Bool
  deriving DecidableEq

def elfMag : Bytes := [0x7f, 0x45, 0x4c, 0x46]

def headerOk (a : Arch) (f : File) (elfheader : Nat) : Except Fault Bool := do
  let ident ← f.memcpy elfheader 4
  let elfclass ← f.fetch elfheader a.eClass
  let data ← f.fetch elfheader a.eData
  let machine ← f.fetch elfheader a.eMachine
  let shentsize ← f.fetch elfheader a.eShentsize
  let shstrndx ← f.fetch elfheader a.eShstrndx
  let shnum ← f.fetch elfheader a.eShnum
  return ident == elfMag && elfclass == a.elfclass && data == a.elfendian &&
    machine == a.elfmachine && shentsize == a.shdrSize && decide (shstrndx < shnum)

def readSectionNames (a : Arch) (f : File) (sections shnum shstrndx : Nat) :
    Except Fault ElfReaderImpl := do
  let offset ← f.entry sections a.shdrSize shstrndx a.shOffset
  let size ← f.entry sections a.shdrSize shstrndx a.shSize
  match f.read 1 offset size with
  | none => return ⟨some (sections, shnum), [], false⟩
  | some p =>
    if size = 0 then return ⟨some (sections, shnum), [], false⟩
    else do
      let names ← f.memcpy p size
      return ⟨some (sections, shnum), terminate names, true⟩

def readSections (a : Arch) (f : File) (elfheader : Nat) : Except Fault ElfReaderImpl := do
  let shoff ← f.fetch elfheader a.eShoff
  let shnum ← f.fetch elfheader a.eShnum
  match f.read a.shdrSize shoff shnum with
  | none => return ⟨none, [], false⟩
  | some sections =>
    if shnum = 0 then return ⟨none, [], false⟩
    else do
      let shstrndx ← f.fetch elfheader a.eShstrndx
      readSectionNames a f sections shnum shstrndx

def construct (a : Arch) (f : File) : Except Fault ElfReaderImpl :=
  match f.read a.ehdrSize 0 1 with
  | none => return ⟨none, [], false⟩
  | some elfheader => do
    if ← headerOk a f elfheader then readSections a f elfheader
    else return ⟨none, [], false⟩

namespace ElfReaderImpl

/-- The members that are read only after the constructor has set them. -/
def sections (impl : ElfReaderImpl) : Except Fault (Nat × Nat) :=
  match impl.table with
  | none => .error .uninitialised
  | some table => .ok table

end ElfReaderImpl

/-- The loop of `find_section`. Two sections of one name are as good as none. -/
def findSectionLoop (a : Arch) (f : File) (sections : Nat) (names n : Bytes) :
    List Nat → Option Nat → Except Fault (Option Nat)
  | [], section_ => .ok section_
  | i :: rest, section_ => do
    let shName ← f.entry sections a.shdrSize i a.shName
    if names.length ≤ shName then findSectionLoop a f sections names n rest section_
    else if ← textEq (names.drop shName) n then
      match section_ with
      | some _ => .ok none
      | none => findSectionLoop a f sections names n rest (some i)
    else findSectionLoop a f sections names n rest section_

variable (a : Arch) (f : File) (impl : ElfReaderImpl)

def findSection (n : Bytes) : Except Fault (Option Nat) := do
  let (sections, size) ← impl.sections
  findSectionLoop a f sections impl.sectionNames n (range size) none

def sectionField (i : Nat) (field : Field) : Except Fault Nat := do
  let (sections, _) ← impl.sections
  f.entry sections a.shdrSize i field

structure SectionOffsets where
  start : Nat
  stop : Nat
  deriving DecidableEq

/-- The sum has the width of the two fields. -/
def findSectionFileOffsets (name : Bytes) : Except Fault SectionOffsets := do
  match ← findSection a f impl name with
  | none => return ⟨0, 0⟩
  | some i =>
    let offset ← sectionField a f impl i a.shOffset
    let size ← sectionField a f impl i a.shSize
    return ⟨offset, (offset + size) % 256 ^ a.word⟩

structure Symbol where
  addr : Nat
  nameIndex : Nat
  deriving DecidableEq

structure SymbolTable where
  symbols : List Symbol
  strtab : Bytes
  deriving DecidableEq

def SymbolTable.empty : SymbolTable := ⟨[], []⟩

def SymbolTable.name (t : SymbolTable) (s : Symbol) : Except Fault (Option Bytes) :=
  if s.nameIndex < t.strtab.length then do return some (← textAt (t.strtab.drop s.nameIndex))
  else .ok none

def SymbolTable.isName (t : SymbolTable) (s : Symbol) (name : Bytes) : Except Fault Bool :=
  if s.nameIndex < t.strtab.length then textEq (t.strtab.drop s.nameIndex) name else .ok false

def readSymbol (list sectionsSize i : Nat) : Except Fault Symbol := do
  let shndx ← f.entry list a.symSize i a.stShndx
  if sectionsSize ≤ shndx then return ⟨0, 0⟩
  else do
    let value ← f.entry list a.symSize i a.stValue
    let name ← f.entry list a.symSize i a.stName
    return ⟨value, name⟩

/-- The copy of a string table. A null pointer is reported and then copied from all the same. -/
def copyStrings (strtab : Option Nat) (size : Nat) : Except Fault Bytes :=
  match strtab with
  | none => .error .null
  | some p => do return terminate (← f.memcpy p size)

def readSymbolList (symbols strings size : Nat) : Except Fault SymbolTable := do
  let strSize ← sectionField a f impl strings a.shSize
  if strSize = 0 then return .empty
  else do
    let offset ← sectionField a f impl symbols a.shOffset
    match f.read a.symSize offset (size / a.symSize) with
    | none => return .empty
    | some list =>
      let strOffset ← sectionField a f impl strings a.shOffset
      let strtab ← copyStrings f (f.read 1 strOffset strSize) strSize
      let (_, sectionsSize) ← impl.sections
      let syms ← (range (size / a.symSize)).mapM (readSymbol a f list sectionsSize)
      return ⟨syms, strtab⟩

/-- The source tests the name `strtab`, which is not null, so a missing table is dereferenced. -/
def readSymbols (symtab strtab : Bytes) : Except Fault SymbolTable :=
  if !impl.ok then return .empty
  else do
    match ← findSection a f impl symtab with
    | none => return .empty
    | some symbols =>
      let strings ← findSection a f impl strtab
      let entsize ← sectionField a f impl symbols a.shEntsize
      if entsize ≠ a.symSize then return .empty
      else do
        let size ← sectionField a f impl symbols a.shSize
        if size % entsize ≠ 0 then return .empty
        else match strings with
          | none => .error .null
          | some strings => readSymbolList a f impl symbols strings size

structure Entry where
  tag : Nat
  val : Nat
  deriving DecidableEq

structure DynamicSection where
  entries : List Entry
  strtab : Bytes
  deriving DecidableEq

def DynamicSection.empty : DynamicSection := ⟨[], []⟩

/-- The tag is a signed 32-bit number on x86 and is widened to 64 bits. -/
def widenTag (tag : Nat) : Nat :=
  match a with
  | .x86 => if tag < 2 ^ 31 then tag else tag + (2 ^ 64 - 2 ^ 32)
  | .x86_64 => tag

def readEntry (list i : Nat) : Except Fault Entry := do
  let tag ← f.entry list a.dynSize i a.dTag
  let val ← f.entry list a.dynSize i a.dVal
  return ⟨widenTag a tag, val⟩

def readDynamicList (dynamic dynstr size : Nat) : Except Fault DynamicSection := do
  let strSize ← sectionField a f impl dynstr a.shSize
  if strSize = 0 then return .empty
  else do
    let offset ← sectionField a f impl dynamic a.shOffset
    match f.read a.dynSize offset (size / a.dynSize) with
    | none => return .empty
    | some list =>
      let strOffset ← sectionField a f impl dynstr a.shOffset
      let strtab ← copyStrings f (f.read 1 strOffset strSize) strSize
      let entries ← (range (size / a.dynSize)).mapM (readEntry a f list)
      return ⟨entries, strtab⟩

def text (s : String) : Bytes := s.toList.map fun c => UInt8.ofNat c.toNat

def readDynamic : Except Fault DynamicSection :=
  if !impl.ok then return .empty
  else do
    match ← findSection a f impl (text ".dynamic") with
    | none => return .empty
    | some dynamic =>
      match ← findSection a f impl (text ".dynstr") with
      | none => return .empty
      | some dynstr =>
        let entsize ← sectionField a f impl dynamic a.shEntsize
        if entsize ≠ a.dynSize then return .empty
        else do
          let size ← sectionField a f impl dynamic a.shSize
          if size = 0 then return .empty
          else if size % entsize ≠ 0 then return .empty
          else readDynamicList a f impl dynamic dynstr size

structure Debuglink where
  filename : Bytes
  crc : Option Nat
  deriving DecidableEq

/-- The part of `read_debuglink` after the section is known. `crc` is unset until it was read. -/
def readDebuglinkAt (offset size : Nat) : Except Fault Debuglink :=
  if size < 8 then return ⟨[], none⟩
  else
    let crcOffset := size - 4
    match f.read 4 (wrap (offset + crcOffset)) 1 with
    | none => return ⟨[], none⟩
    | some p => do
      let crc ← f.memcpy p 4
      match f.read 1 offset crcOffset with
      | none => return ⟨[], some (littleEndian crc)⟩
      | some filename =>
        return ⟨← f.memcpy filename (crcOffset - 1), some (littleEndian crc)⟩

def readDebuglink : Except Fault Debuglink :=
  if !impl.ok then return ⟨[], none⟩
  else do
    match ← findSection a f impl (text ".gnu_debuglink") with
    | none => return ⟨[], none⟩
    | some i =>
      let offset ← sectionField a f impl i a.shOffset
      let size ← sectionField a f impl i a.shSize
      readDebuglinkAt f offset size

def shtNote : Nat := 7

def ntGnuBuildId : Nat := 3

def hexDigit (n : Nat) : UInt8 := UInt8.ofNat (if n < 10 then 48 + n else 87 + n)

def hexByte (b : UInt8) : Bytes := [hexDigit (b.toNat / 16), hexDigit (b.toNat % 16)]

inductive NoteStep
  | next
  | done (id : Bytes)
  deriving DecidableEq

/-- The turn of `read_buildid`'s loop for a note; the offset has the width of its field. -/
def readNote (start : Nat) : Except Fault NoteStep :=
  match f.read a.nhdrSize start 1 with
  | none => return .done []
  | some nhdr => do
    let offset := (start + a.nhdrSize) % 256 ^ a.word
    let namesz ← f.fetch nhdr a.nNamesz
    if namesz ≠ 4 then return .next
    else
      match f.read 4 offset 1 with
      | none => return .next
      | some p => do
        let name ← f.memcpy p 4
        let descsz ← f.fetch nhdr a.nDescsz
        if name ≠ text "GNU" ++ [0] ∨ descsz = 0 then return .next
        else do
          let offset := (offset + 4) % 256 ^ a.word
          let type ← f.fetch nhdr a.nType
          if type ≠ ntGnuBuildId then return .next
          else match f.read 1 offset descsz with
            | none => return .done []
            | some id => return .done ((← f.memcpy id descsz).flatMap hexByte)

def readBuildidLoop (a : Arch) (f : File) (sections : Nat) : List Nat → Except Fault Bytes
  | [] => .ok []
  | i :: rest => do
    let type ← f.entry sections a.shdrSize i a.shType
    if type ≠ shtNote then readBuildidLoop a f sections rest
    else do
      let offset ← f.entry sections a.shdrSize i a.shOffset
      match ← readNote a f offset with
      | .next => readBuildidLoop a f sections rest
      | .done id => return id

def readBuildid : Except Fault Bytes :=
  if !impl.ok then return []
  else do
    let (sections, size) ← impl.sections
    readBuildidLoop a f sections (range size)

def shtNobits : Nat := 8

def shfAlloc : Nat := 2

def addrToOffsetLoop (a : Arch) (f : File) (sections addr : Nat) :
    List Nat → Except Fault (Option Nat)
  | [] => .ok none
  | i :: rest => do
    let type ← f.entry sections a.shdrSize i a.shType
    let flags ← f.entry sections a.shdrSize i a.shFlags
    if type = shtNobits ∨ flags &&& shfAlloc = 0 then addrToOffsetLoop a f sections addr rest
    else do
      let shAddr ← f.entry sections a.shdrSize i a.shAddr
      let size ← f.entry sections a.shdrSize i a.shSize
      if shAddr ≤ addr ∧ addr - shAddr < size then do
        let offset ← f.entry sections a.shdrSize i a.shOffset
        return some (wrap (addr - shAddr + offset))
      else addrToOffsetLoop a f sections addr rest

def addrToOffset (addr : Nat) : Except Fault (Option Nat) := do
  let (sections, size) ← impl.sections
  addrToOffsetLoop a f sections addr (range size)

/-- The span of a section, as its begin and its size, the distance of the two pointers. -/
def dwarfSection (name : Bytes) : Except Fault (Nat × Nat) := do
  let offsets ← findSectionFileOffsets a f impl name
  return (offsets.start, wrap (offsets.stop + 2 ^ 64 - offsets.start))

def traverse (span : Nat × Nat) : Except Fault Bytes := f.memcpy span.1 span.2

inductive Op
  | readSymbols (symtab strtab : Bytes)
  | symbolName (symtab strtab : Bytes) (i : Nat)
  | isSymbolName (symtab strtab : Bytes) (i : Nat) (name : Bytes)
  | readDynamic
  | readDebuglink
  | readBuildid
  | addrToOffset (addr : Nat)
  | findSectionFileOffsets (name : Bytes)
  | dwarfSection (name : Bytes)

inductive Answer
  | symbols (t : SymbolTable)
  | name (text : Option Bytes)
  | isName (b : Bool)
  | dynamic (d : DynamicSection)
  | debuglink (d : Debuglink)
  | buildid (id : Bytes)
  | offset (offset : Option Nat)
  | offsets (offsets : SectionOffsets)
  | bytes (bytes : Bytes)
  deriving DecidableEq

def answer : Op → Except Fault Answer
  | .readSymbols symtab strtab => do return .symbols (← readSymbols a f impl symtab strtab)
  | .symbolName symtab strtab i => do
    let t ← readSymbols a f impl symtab strtab
    match t.symbols[i]? with
    | none => return .name none
    | some s => return .name (← t.name s)
  | .isSymbolName symtab strtab i name => do
    let t ← readSymbols a f impl symtab strtab
    match t.symbols[i]? with
    | none => return .isName false
    | some s => return .isName (← t.isName s name)
  | .readDynamic => do return .dynamic (← readDynamic a f impl)
  | .readDebuglink => do return .debuglink (← readDebuglink a f impl)
  | .readBuildid => do return .buildid (← readBuildid a f impl)
  | .addrToOffset addr => do return .offset (← addrToOffset a f impl addr)
  | .findSectionFileOffsets name => do return .offsets (← findSectionFileOffsets a f impl name)
  | .dwarfSection name => do return .bytes (← traverse f (← dwarfSection a f impl name))

/-- An operation of `ElfReader`. The first one constructs the implementation. -/
def perform (op : Op) : Except Fault Answer := do
  let impl ← construct a f
  answer a f impl op

end Attune.Elf
