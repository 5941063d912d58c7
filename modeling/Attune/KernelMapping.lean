import Attune.MemoryRange

namespace Attune

def mapShared : BitVec 32 := 0x1
def mapPrivate : BitVec 32 := 0x2
def mapAnonymous : BitVec 32 := 0x20
def mapGrowsdown : BitVec 32 := 0x100
def mapNoreserve : BitVec 32 := 0x4000
def mapStack : BitVec 32 := 0x20000

def mapFlagsMask : BitVec 32 :=
  mapAnonymous ||| mapNoreserve ||| mapPrivate ||| mapShared ||| mapStack ||| mapGrowsdown

def protGrowsdown : BitVec 32 := 0x01000000

def protReadWriteExec : BitVec 32 := 0x7

structure KernelMapping extends MemoryRange where
  fsname : List Char
  device : Nat
  inode : Nat
  prot : BitVec 32
  flags : BitVec 32
  offset : Nat
  deriving DecidableEq

namespace KernelMapping

def new (start end_ : Nat) (fsname : List Char) (device inode : Nat) (prot flags : BitVec 32)
    (offset : Nat) : KernelMapping :=
  ⟨⟨start, end_⟩, fsname, device, inode, prot, flags &&& mapFlagsMask, offset % 2 ^ 64⟩

variable (m : KernelMapping)

def isRealDevice : Bool := decide (0 < m.device)

def isVdso : Bool := m.fsname == "[vdso]".toList

def isHeap : Bool := m.fsname == "[heap]".toList

def isStack : Bool := "[stack".toList.isPrefixOf m.fsname

def extend (end_ : Nat) : KernelMapping :=
  new m.start end_ m.fsname m.device m.inode m.prot m.flags m.offset

def setRange (start end_ : Nat) : KernelMapping :=
  new start end_ m.fsname m.device m.inode m.prot m.flags m.offset

def subrange (start end_ : Nat) : KernelMapping :=
  new start end_ m.fsname m.device m.inode m.prot m.flags
    (m.offset + if m.isRealDevice then ptrSub start m.start else 0)

def setProt (prot : BitVec 32) : KernelMapping :=
  new m.start m.end_ m.fsname m.device m.inode prot m.flags m.offset

end KernelMapping

def findText (text : List Char) : List Char → Option Nat
  | [] => if text.isEmpty then some 0 else none
  | c :: s => if text.isPrefixOf (c :: s) then some 0 else (findText text s).map (· + 1)

/-- Drops the suffix the kernel gives to deleted files, when its first occurrence is at the end. -/
def stripDeleted (s : List Char) : List Char :=
  let deleted := " (deleted)".toList
  if findText deleted s = some (s.length - deleted.length) then
    s.take (s.length - deleted.length)
  else s

inductive HandleHeap where
  | treatHeapAsAnonymous
  | respectHeap
  deriving DecidableEq

def normalizedFileNamesEqual (km1 km2 : KernelMapping) (handleHeap : HandleHeap) : Bool :=
  if km1.isStack || km2.isStack then true
  else if handleHeap = .treatHeapAsAnonymous ∧ (km1.isHeap || km2.isHeap) = true then true
  else stripDeleted km1.fsname == stripDeleted km2.fsname

/-- Adjacent in memory with the same metadata, and adjacent in the same real device. -/
def isAdjacentMapping (mleft mright : KernelMapping) (handleHeap : HandleHeap)
    (flagsToCheck : BitVec 32 := 0xFFFFFFFF) : Bool :=
  if mleft.end_ ≠ mright.start then false
  else if (mleft.flags ^^^ mright.flags) &&& flagsToCheck ≠ 0 ∨ mleft.prot ≠ mright.prot then false
  else if !normalizedFileNamesEqual mleft mright handleHeap then false
  else if mleft.device ≠ mright.device ∨ mleft.inode ≠ mright.inode then false
  else if mleft.isRealDevice ∧ (mleft.offset + mleft.size) % 2 ^ 64 ≠ mright.offset then false
  else true

/-- A mapping with the resources it refers to. A null local address is 0; emulated files and
monitored memory are identities. -/
structure Mapping where
  map : KernelMapping
  recordedMap : KernelMapping
  emuFile : Option Nat := none
  localAddr : Nat := 0
  monitored : Option Nat := none
  flags : BitVec 32 := 0
  deriving DecidableEq

namespace Mapping

def localAt (m : Mapping) (addr : Nat) : Nat :=
  if m.localAddr = 0 then 0 else ptrAdd m.localAddr (ptrSub addr m.map.start)

end Mapping

/-- Subranges of monitored memory are not supported: none is returned. -/
def MonitoredSharedMemory.subrange (_monitored _start _size : Nat) : Option Nat := none

def isCoalescable (mleft mright : Mapping) : Bool :=
  if !isAdjacentMapping mleft.map mright.map .respectHeap ||
      !isAdjacentMapping mleft.recordedMap mright.recordedMap .respectHeap then false
  else mleft.flags == mright.flags

def assertCoalesceable (lower higher : Mapping) : Bool :=
  decide (lower.emuFile = higher.emuFile) && decide (lower.flags = higher.flags) &&
  (decide (lower.localAddr = 0 ∧ higher.localAddr = 0) ||
    decide (ptrAdd lower.localAddr lower.map.size = higher.localAddr)) &&
  lower.monitored.isNone && higher.monitored.isNone

end Attune
