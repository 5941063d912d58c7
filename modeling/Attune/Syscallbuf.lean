import Attune.RecordTask

namespace Attune.Syscallbuf

def recordSize : Nat := 16

/-- The space that a record of a length takes: a whole number of 64-bit words. -/
def storedRecordSize (length : Nat) : Nat := (length + 7) % 2 ^ 64 / 8 * 8

def toInt (n : Int) : Int := n.bmod (2 ^ 32)

structure Record where
  ret : Int
  syscallno : Nat
  desched : Bool
  size : Nat
  deriving DecidableEq

/-- The buffer of a thread, with the records by their offset behind the header. A thread without a
buffer has it at 0. -/
structure Buffer where
  start : Nat
  size : Nat
  numRecBytes : Nat
  locked : Bool
  lockedByTracer : Bool
  record : Nat → Record

namespace Buffer

variable (b : Buffer)

def last : Nat := ptrAdd (ptrAdd b.start Trace.syscallbufHdrSize) b.numRecBytes

def end_ : Nat := ptrAdd b.start b.size

def modifyRecord (f : Record → Record) : Buffer :=
  { b with record := fun o => if o = b.numRecBytes then f (b.record o) else b.record o }

def prepSyscall : Nat × Buffer :=
  (ptrAdd b.last recordSize, { b with locked := true })

def prepSyscallForFd (bufferable : Bool) : Nat × Buffer :=
  if bufferable then b.prepSyscall else (0, b)

def startCommitBufferedSyscall (syscallno recordEnd : Nat) (mayBlock : Bool) : Bool × Buffer :=
  let recordStart := b.last
  let storedEnd := ptrAdd recordStart (storedRecordSize (ptrSub recordEnd recordStart))
  if storedEnd < ptrAdd recordStart recordSize then (false, b)
  else if storedEnd > ptrSub b.end_ recordSize then (false, { b with locked := false })
  else
    (true, b.modifyRecord fun rec =>
      { rec with syscallno, desched := mayBlock, size := ptrSub recordEnd recordStart % 2 ^ 32 })

/-- `commit_raw_syscall`; a commit that is aborted leaves no record. -/
def commitRawSyscall (recordEnd : Nat) (ret : Int) (abortCommit : Bool) : Buffer :=
  let size := ptrSub recordEnd b.last % 2 ^ 32
  let b' := b.modifyRecord fun rec => { rec with size, ret := if abortCommit then 0 else ret }
  { b' with
    locked := false
    numRecBytes := if abortCommit then b.numRecBytes
      else (b.numRecBytes + storedRecordSize size) % 2 ^ 32 }

def reset : Buffer := { b with numRecBytes := 0, record := fun _ => ⟨0, 0, false, 0⟩ }

end Buffer

structure Result where
  ret : Int
  failedDuringPreparation : Bool
  abortCommit : Bool
  deriving DecidableEq

def copyOutputBuffer (retSize : Int) (ptr buf2 : Nat) (failedDuringPreparation : Bool) : Nat :=
  if buf2 = 0 then ptr
  else if retSize ≤ 0 ∨ failedDuringPreparation = true then buf2
  else ptrAdd buf2 retSize.toNat

/-- The end a handler commits: all its space, the end of what came back in its last part, or of a
received message. -/
inductive Output where
  | whole
  | buffer (len : Nat) (count : Int → Int)
  | message (extra data : List Nat)

def Output.parts : Output → List Nat
  | .whole => []
  | .buffer len _ => [len]
  | .message extra data => extra ++ data

/-- One buffered syscall: the moves of the pointer into the record and what is committed; null
without a bufferable descriptor. -/
structure Transaction where
  syscallno : Nat
  bufferable : Bool := true
  mayBlock : Bool := false
  receives : Bool := false
  before : List Nat := []
  output : Output := .whole

namespace Transaction

def parts (t : Transaction) : List Nat := t.before ++ t.output.parts

def allocate (t : Transaction) (ptr : Nat) : Nat := t.parts.foldl ptrAdd ptr

def commitEnd (t : Transaction) (ptr : Nat) (r : Result) : Nat :=
  let ptr' := t.before.foldl ptrAdd ptr
  match t.output with
  | .whole => t.allocate ptr
  | .buffer _ count =>
    copyOutputBuffer (count r.ret) (t.allocate ptr) ptr' r.failedDuringPreparation
  | .message extra _ =>
    if r.ret ≥ 0 ∧ r.failedDuringPreparation = false then
      ptrAdd (extra.foldl ptrAdd ptr') r.ret.toNat
    else ptr'

end Transaction

/-- A commit: the offset of its record, the end that was accepted and the one that was committed. -/
structure Commit where
  offset : Nat
  acceptedEnd : Nat
  recordEnd : Nat
  aborted : Bool
  deriving DecidableEq

/-- A handler's syscall, or nothing if the buffer does not take it. -/
def Buffer.transact (b : Buffer) (t : Transaction) (r : Result) : Buffer × Option Commit :=
  let (ptr, b₁) := b.prepSyscallForFd t.bufferable
  let recordEnd := t.allocate ptr
  let (accepted, b₂) := b₁.startCommitBufferedSyscall t.syscallno recordEnd t.mayBlock
  if accepted then
    (b₂.commitRawSyscall (t.commitEnd ptr r) r.ret r.abortCommit,
      some ⟨b.numRecBytes, recordEnd, t.commitEnd ptr r, r.abortCommit⟩)
  else (b₂, none)

end Attune.Syscallbuf
