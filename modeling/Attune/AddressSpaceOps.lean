import Attune.AddressSpace

namespace Attune
open OrderedMap MemoryRange

namespace Mapping

/-- The piece below the remaining region; the callers start the recorded piece differently. -/
def underflow (m : Mapping) (recordedStart : Nat) (rem : MemoryRange) : Mapping :=
  { map := m.map.subrange m.map.start rem.start
    recordedMap := m.recordedMap.subrange recordedStart rem.start
    emuFile := m.emuFile, localAddr := m.localAddr, monitored := m.monitored, flags := m.flags }

def overflow (m : Mapping) (rem : MemoryRange) : Mapping :=
  { map := m.map.subrange rem.end_ m.map.end_
    recordedMap := m.recordedMap.subrange rem.end_ m.map.end_
    emuFile := m.emuFile, localAddr := m.localAt rem.end_
    monitored := m.monitored.bind fun shm => MonitoredSharedMemory.subrange shm
      (ptrSub rem.end_ m.map.start) (ptrSub m.map.end_ rem.end_)
    flags := m.flags }

def overlap (m : Mapping) (newStart newEnd : Nat) (newProt : BitVec 32) : Mapping :=
  { map := (m.map.subrange newStart newEnd).setProt newProt
    recordedMap := (m.recordedMap.subrange newStart newEnd).setProt newProt
    emuFile := m.emuFile, localAddr := m.localAt newStart
    monitored := m.monitored.bind fun shm => MonitoredSharedMemory.subrange shm
      (ptrSub newStart m.map.start) (ptrSub newEnd newStart)
    flags := m.flags }

end Mapping

namespace AddressSpace

/-- The callback of `unmap_internal`. The local image is released with the length of the remaining
region. -/
def unmapper (s : AddressSpace) (m : Mapping) (rem : MemoryRange) : AddressSpace :=
  let s := s.removeFromMap m.map.toMemoryRange
  let s := if m.map.start < rem.start then s.addToMap (m.underflow m.map.start rem) else s
  let s := if rem.end_ < m.map.end_ then s.addToMap (m.overflow rem) else s
  if m.localAddr ≠ 0 then
    { s with released := s.released ++
        [(ptrAdd m.localAddr (ptrSub rem.start m.map.start), rem.size)] }
  else s

def unmapInternal (s : AddressSpace) (addr numBytes : Nat) : Option AddressSpace :=
  forEachInRange AddressSpace.mem unmapper .iterateDefault s addr numBytes

/-- The callback of `protect`; the second component is the variable `last_overlap`. -/
def protector (prot : BitVec 32) (st : AddressSpace × MemoryRange) (m : Mapping)
    (rem : MemoryRange) : AddressSpace × MemoryRange :=
  let s := st.1.removeFromMap m.map.toMemoryRange
  let newStart := if m.map.start < rem.start ∧ prot &&& protGrowsdown ≠ 0 then m.map.start
    else rem.start
  let s := if m.map.start < newStart then
      s.addToMap (m.underflow m.recordedMap.start rem)
    else s
  let newEnd := min rem.end_ m.map.end_
  let overlap := m.overlap newStart newEnd (prot &&& protReadWriteExec)
  let s := s.addToMap overlap
  let s := if rem.end_ < m.map.end_ then s.addToMap (m.overflow rem) else s
  (s, overlap.map.toMemoryRange)

def protect (s : AddressSpace) (addr numBytes : Nat) (prot : BitVec 32) : Option AddressSpace := do
  let (s, lastOverlap) ← forEachInRange (fun st => st.1.mem) (protector prot) .iterateContiguous
    (s, ⟨0, 0⟩) addr numBytes
  if lastOverlap.size ≠ 0 then s.coalesceAround lastOverlap else some s

/-- The arguments of `map` after the address and the length. Without a recorded mapping the new
mapping is its own. -/
structure MapArgs where
  prot : BitVec 32
  flags : BitVec 32
  offsetBytes : Nat
  fsname : List Char
  device : Nat := 0
  inode : Nat := 0
  recordedMap : Option KernelMapping := none
  emuFile : Option Nat := none
  localAddr : Nat := 0
  monitored : Option Nat := none
  deriving DecidableEq

variable (s : AddressSpace)

def map (addr numBytes : Nat) (a : MapArgs) : Option AddressSpace :=
  let numBytes := ceilPageSize numBytes
  let m := KernelMapping.new addr (ptrAdd addr numBytes) a.fsname a.device a.inode a.prot a.flags
    a.offsetBytes
  if numBytes = 0 then some s
  else do
    let s := { s with dontFork := removeRange s.dontFork ⟨addr, ptrAdd addr numBytes⟩ }
    let s ← s.unmapInternal addr numBytes
    let actualRecordedMap := a.recordedMap.getD m
    let s ← s.mapAndCoalesce m actualRecordedMap a.emuFile a.localAddr a.monitored
    some (if actualRecordedMap.isVdso then { s with vdsoStartAddr := addr } else s)

def unmap (addr numBytes : Nat) : Option AddressSpace :=
  let numBytes := ceilPageSize numBytes
  if numBytes = 0 then some s
  else unmapInternal { s with dontFork := removeRange s.dontFork ⟨addr, ptrAdd addr numBytes⟩ }
    addr numBytes

/-- The mapping of the page of an address; the source dereferences the end of the map when there is
none. -/
def mappingOf (addr : Nat) : Option Mapping :=
  (find comparator
    ⟨floorPageSize addr, ptrAdd (floorPageSize addr) 1⟩ s.mem).map (·.2)

def remapDontFork (ranges : RangeSet) (old new : MemoryRange) : RangeSet :=
  match lowerBound less old ranges with
  | [] => removeRange (removeRange ranges old) new
  | (it, _) :: _ =>
    if it.start < old.end_ then addRange (removeRange ranges old) new
    else removeRange (removeRange ranges old) new

def remap (oldAddr oldNumBytes newAddr newNumBytes : Nat) : Option AddressSpace := do
  let oldNumBytes := ceilPageSize oldNumBytes
  let mr ← s.mappingOf oldAddr
  let km := mr.map.subrange oldAddr (min mr.map.end_ (ptrAdd oldAddr oldNumBytes))
  let s ← s.unmapInternal oldAddr oldNumBytes
  if newNumBytes = 0 then some s
  else
    let newNumBytes := ceilPageSize newNumBytes
    let newEnd := ptrAdd newAddr newNumBytes
    let dontFork :=
      remapDontFork s.dontFork ⟨oldAddr, ptrAdd oldAddr oldNumBytes⟩ ⟨newAddr, newEnd⟩
    let s := { s with dontFork }
    let s ← s.unmapInternal newAddr newNumBytes
    s.mapAndCoalesce (km.setRange newAddr newEnd) (mr.recordedMap.setRange newAddr newEnd)
      mr.emuFile 0 none

def brk (addr : Nat) (prot : BitVec 32) : Option AddressSpace := do
  let oldBrk := ceilPageSize s.brkEnd
  let newBrk := ceilPageSize addr
  let s ← if oldBrk < newBrk then
      s.map oldBrk (ptrSub newBrk oldBrk)
        { prot, flags := mapAnonymous ||| mapPrivate, offsetBytes := 0, fsname := "[heap]".toList }
    else s.unmap newBrk (ptrSub oldBrk newBrk)
  some { s with brkEnd := addr }

end AddressSpace

end Attune
