import Attune.AddressSpaceClone
import Attune.TraceStream

namespace Attune

namespace Tracee

def bytes (t : Tracee) (addr n : Nat) : List UInt8 :=
  (List.range n).map fun i => t.memory (addr + i)

def readMem (t : Tracee) (addr n : Nat) : Option (List UInt8) :=
  if (List.range n).all fun i => t.readable (addr + i) then some (t.bytes addr n) else none

/-- What a read gets before the first byte that it cannot read. -/
def readBytesFallible (t : Tracee) : Nat → Nat → List UInt8
  | _, 0 => []
  | addr, n + 1 =>
    if t.readable addr then t.memory addr :: t.readBytesFallible (addr + 1) n else []

def read32 (t : Tracee) (addr : Nat) : Nat :=
  (t.bytes addr 4).foldr (fun b n => b.toNat + 256 * n) 0

end Tracee

namespace AddressSpace

def hasMapping (s : AddressSpace) (addr : Nat) : Bool :=
  -- the last byte of the address space is never mapped
  if ptrAdd addr pageSize < addr then false
  else
    let m : MemoryRange := ⟨floorPageSize addr, ptrAdd (floorPageSize addr) 1⟩
    match OrderedMap.find MemoryRange.comparator m s.mem with
    | none => false
    | some (range, _) => range.contains m

def localMapping (s : AddressSpace) (addr size : Nat) : Bool :=
  match s.mappingOf addr with
  | none => false
  | some m => decide (size ≤ ptrSub m.map.end_ addr ∧ m.localAddr ≠ 0)

end AddressSpace

namespace Trace

def Event.recordRegs : Event → Bool
  | .instructionTrap | .patchSyscall | .sched | .syscall _ | .signal _ | .signalDelivery _
  | .signalHandler _ => true
  | _ => false

def isSigreturn (syscallno : Int) : SupportedArch → Bool
  | .x86 => syscallno = 119 ∨ syscallno = 173
  | .x86_64 => syscallno = 15

def isExecveSyscall (syscallno : Int) : SupportedArch → Bool
  | .x86 => syscallno = 11
  | .x86_64 => syscallno = 59

def Event.recordExtraRegs : Event → Bool
  | .syscall e => e.state = .exitingSyscall ∧
      (isSigreturn e.number e.arch ∨ isExecveSyscall e.number e.arch)
  | .signalHandler _ => true
  | _ => false

def Event.hasTicksSlop : Event → Bool
  | .syscallbufAbortCommit | .syscallbufFlush _ | .syscallbufReset | .desched _ | .growMap => true
  | _ => false

def syscallbufHdrSize : Nat := 30

/-- What recording reads and changes of a task. Null is 0, the last pending event comes first;
`lockedInSyscall`: in an untraced syscall. -/
structure RecordTask where
  recTid : Int
  state : TaskState
  regs : List UInt8
  extraRegs : List UInt8
  vm : AddressSpace
  tracee : Tracee
  syscallbufChild : Nat
  mprotectRecords : List MprotectRecord
  isRunning : Bool
  lockedInSyscall : Bool
  flushedSyscallbuf : Bool
  flushedNumRecBytes : Nat
  delaySyscallbufResetForDesched : Bool
  delaySyscallbufResetForSeccompTrap : Bool
  pendingEvents : List Event
  writer : Writer

namespace RecordTask

def writeRaw (s : RecordTask) (addr : Nat) (data : List UInt8) : RecordTask :=
  { s with writer := s.writer.writeRaw s.recTid data addr }

def isFlushing (s : RecordTask) : Bool :=
  match s.pendingEvents with
  | .syscallbufFlush _ :: _ => true
  | _ => false

def writeEvent (s : RecordTask) (ev : Event) (registers : Option (List UInt8)) : Option RecordTask :=
  do
  let regs := registers.getD (if ev.recordRegs then s.regs else [])
  let extraRegs := if ev.recordRegs && ev.recordExtraRegs then s.extraRegs else []
  let writer ← s.writer.writeFrame s.state ev regs extraRegs
  return { s with writer }

-- The helpers are called by the flush that they begin with. There they find its event pending and
-- flush nothing, so that the flush is a parameter here.
section
variable (flush : RecordTask → Option RecordTask)

def recordLocal (s : RecordTask) (addr : Nat) (data : List UInt8) : Option RecordTask := do
  let s ← flush s
  return if addr = 0 then s else s.writeRaw addr data

/-- The end of the functions that read the tracee: by its local mapping if it has one. -/
def recordBytes (s : RecordTask) (addr n : Nat) : Option RecordTask :=
  if s.vm.localMapping addr n then recordLocal flush s addr (s.tracee.bytes addr n)
  else do
    let buf ← s.tracee.readMem addr n
    return s.writeRaw addr buf

def recordRemote (s : RecordTask) (addr : Nat) (numBytes : Int) : Option RecordTask := do
  let s ← flush s
  if numBytes < 0 then none
  else if addr = 0 then some s
  else s.recordBytes flush addr numBytes.toNat

end

variable (s : RecordTask)

def alreadyFlushing : Option RecordTask := if s.isFlushing then some s else none

def recordSyscallbuf (size : Nat) : Option RecordTask :=
  if s.isRunning then do
    let buf ← s.tracee.readMem s.syscallbufChild size
    s.recordLocal alreadyFlushing s.syscallbufChild buf
  else s.recordRemote alreadyFlushing s.syscallbufChild size

def maybeFlushSyscallbuf : Option RecordTask :=
  if s.isFlushing then some s
  else if s.syscallbufChild = 0 then some s
  else do
    let _ ← s.tracee.readMem s.syscallbufChild syscallbufHdrSize
    let numRecBytes := s.tracee.read32 s.syscallbufChild
    let mprotectRecordCount := s.tracee.read32 (s.syscallbufChild + 4)
    if s.flushedSyscallbuf ∧ s.flushedNumRecBytes ≠ numRecBytes then none
    else if numRecBytes = 0 ∨ s.flushedSyscallbuf then some s
    else
      let records := s.mprotectRecords.take mprotectRecordCount
      let vm ← records.foldlM
        (fun (vm : AddressSpace) r => vm.protect r.start r.size (BitVec.ofInt 32 r.prot)) s.vm
      let ev := Event.syscallbufFlush records
      let flushing := { s with vm, pendingEvents := ev :: s.pendingEvents }
      let s' ← flushing.recordSyscallbuf (syscallbufHdrSize + numRecBytes)
      let s' ← s'.writeEvent ev none
      return { s' with
        pendingEvents := s.pendingEvents
        flushedSyscallbuf := true
        flushedNumRecBytes := numRecBytes }

/-- `reset_syscallbuf` clears the records and four fields of the header. -/
def resetSyscallbuf : Option RecordTask :=
  if s.syscallbufChild = 0 then some s
  else if s.lockedInSyscall then none
  else
    let recs := s.syscallbufChild + syscallbufHdrSize
    let numRec := s.tracee.read32 s.syscallbufChild
    let generation := s.syscallbufChild + 24
    let cleared a := (recs ≤ a ∧ a < recs + numRec) ∨
      (s.syscallbufChild ≤ a ∧ a < s.syscallbufChild + 12) ∨
      (generation ≤ a ∧ a < generation + 4)
    some { s with
      tracee := { s.tracee with memory := fun a => if cleared a then 0 else s.tracee.memory a } }

/-- The event of a reset has ticks slop, so that recording it does not reset again. -/
def maybeResetSyscallbuf : Option RecordTask :=
  if s.flushedSyscallbuf && !s.delaySyscallbufResetForDesched &&
      !s.delaySyscallbufResetForSeccompTrap then do
    let s ← resetSyscallbuf { s with flushedSyscallbuf := false }
    let s ← s.maybeFlushSyscallbuf
    s.writeEvent .syscallbufReset none
  else some s

def recordEvent (ev : Event) (allowReset : Bool)
    (registers : Option (List UInt8)) : Option RecordTask := do
  let s ← s.maybeFlushSyscallbuf
  let s ← s.writeEvent ev registers
  if !ev.hasTicksSlop && allowReset then s.maybeResetSyscallbuf else some s

/-- The loop of `record_remote_writable`: how far mappings that can be written follow each other. -/
def writableEnd (vm : AddressSpace) (stop : Nat) : Nat → Nat → Option Nat
  | 0, _ => none
  | fuel + 1, p =>
    if p < stop then
      if !vm.hasMapping p then some p
      else do
        let m ← vm.mappingOf p
        if m.map.prot &&& 2 = 0 then some p else writableEnd vm stop fuel m.map.end_
    else some p

def writableBytes (vm : AddressSpace) (addr : Nat) (numBytes : Int) : Option Int := do
  let p ← writableEnd vm (ptrAdd addr numBytes.toNat) (numBytes.toNat + 1) addr
  return min numBytes (ptrSub p addr)

def recordRemoteWritable (addr : Nat) (numBytes : Int) : Option RecordTask :=
  if numBytes < 0 then none
  else do
    let numBytes ← writableBytes s.vm addr numBytes
    s.recordRemote maybeFlushSyscallbuf addr numBytes

def recordRemoteFallible (addr : Nat) (numBytes : Int) : Option RecordTask :=
  if numBytes < 0 then none
  else if s.vm.localMapping addr numBytes.toNat then
    s.recordLocal maybeFlushSyscallbuf addr (s.tracee.bytes addr numBytes.toNat)
  else
    let buf := if addr = 0 then [] else s.tracee.readBytesFallible addr numBytes.toNat
    some (s.writeRaw addr buf)

def recordRemoteEvenIfNull (addr : Nat) (numBytes : Int) : Option RecordTask := do
  let s ← s.maybeFlushSyscallbuf
  if addr = 0 then return s.writeRaw addr []
  -- a negative size is too large for a buffer
  else if numBytes < 0 then none
  else s.recordBytes maybeFlushSyscallbuf addr numBytes.toNat

inductive RecordCall where
  | recordLocal (addr : Nat) (data : List UInt8)
  | recordRemote (addr : Nat) (numBytes : Int)
  | recordRemoteWritable (addr : Nat) (numBytes : Int)
  | recordRemoteFallible (addr : Nat) (numBytes : Int)
  | recordRemoteEvenIfNull (addr : Nat) (numBytes : Int)
  deriving DecidableEq

def record : RecordCall → Option RecordTask
  | .recordLocal addr data => s.recordLocal maybeFlushSyscallbuf addr data
  | .recordRemote addr numBytes => s.recordRemote maybeFlushSyscallbuf addr numBytes
  | .recordRemoteWritable addr numBytes => s.recordRemoteWritable addr numBytes
  | .recordRemoteFallible addr numBytes => s.recordRemoteFallible addr numBytes
  | .recordRemoteEvenIfNull addr numBytes => s.recordRemoteEvenIfNull addr numBytes

def recordAll : List RecordCall → RecordTask → Option RecordTask
  | [], s => some s
  | call :: calls, s => do
    let s ← s.record call
    recordAll calls s

end RecordTask

end Trace

end Attune
