import Attune.AddressSpaceClone

namespace Attune

/-- The descriptor for the memory of the task. One that was opened early in an exec gives nothing, and
is opened again. -/
inductive MemFd where
  | closed
  | live
  | stale (reopens : Bool)
  deriving DecidableEq

/-- What a write can change, and the bytes that the kernel lets be poked or written through the
descriptor. -/
structure WriteState where
  tracee : Tracee
  pokable : Nat → Bool
  storable : Nat → Bool
  locals : List MemoryRange
  memFd : MemFd
  watchpoints : Watchpoints

namespace WriteState

variable (s : WriteState)

def setMemory (memory : Nat → UInt8) : WriteState :=
  { s with tracee := { s.tracee with memory } }

def localMapping (addr size : Nat) : Bool :=
  s.locals.any fun r => decide (r.start ≤ addr ∧ addr < r.end_ ∧ size ≤ r.end_ - addr)

/-- `notify_written`; a write for a breakpoint leaves the watchpoints alone. -/
def notifyWritten (addr numBytes : Nat) (isBreakpointRelated : Bool) : WriteState :=
  if isBreakpointRelated then s
  else { s with
    watchpoints := Watchpoints.updateValues s.tracee s.watchpoints addr (ptrAdd addr numBytes) }

def wordSize : Nat := 8

def wordStart (a : Nat) : Nat := a / wordSize * wordSize

def pokeWord (m : Nat → UInt8) (startWord : Nat) (v : Nat → UInt8) (a : Nat) : UInt8 :=
  if startWord ≤ a ∧ a < startWord + wordSize then v (a - startWord) else m a

/-- The loop of `write_bytes_ptrace` and the bytes it counts. It ends when a partial word cannot be
read; a failed poke goes unnoticed. -/
def pokeLoop (s : WriteState) : Nat → Nat → List UInt8 → (Nat → UInt8) → (Nat → UInt8) × Nat
  | 0, _, _, m => (m, 0)
  | fuel + 1, start, data, m =>
    if data = [] then (m, 0)
    else
      let startWord := wordStart start
      let length := min (startWord + wordSize - start) data.length
      if length < wordSize ∧ s.tracee.readable startWord = false then (m, 0)
      else
        let from_ := start - startWord
        let v i := if from_ ≤ i ∧ i < from_ + length then data.getD (i - from_) 0
          else m (startWord + i)
        let m := if s.pokable startWord then pokeWord m startWord v else m
        let rest := pokeLoop s fuel (start + length) (data.drop length) m
        (rest.1, length + rest.2)

def writeBytesPtrace (addr : Nat) (data : List UInt8) : WriteState × Nat :=
  let r := pokeLoop s data.length addr data s.tracee.memory
  (s.setMemory r.1, r.2)

def overlay (m : Nat → UInt8) (addr : Nat) (data : List UInt8) (a : Nat) : UInt8 :=
  if addr ≤ a ∧ a < addr + data.length then data.getD (a - addr) 0 else m a

/-- How many bytes of a range a write through the descriptor reaches: up to the first it cannot
change. -/
def stored (s : WriteState) : Nat → Nat → Nat
  | _, 0 => 0
  | addr, size + 1 => if s.storable addr then s.stored (addr + 1) size + 1 else 0

def writeLocal (addr : Nat) (data : List UInt8) : WriteState :=
  s.setMemory (overlay s.tracee.memory addr data)

def writePtrace (addr : Nat) (data : List UInt8) (isBreakpointRelated : Bool) : WriteState :=
  let (s, nwritten) := s.writeBytesPtrace addr data
  if nwritten > 0 then s.notifyWritten addr nwritten isBreakpointRelated else s

/-- Without `ok` it is an error to write less than everything. -/
def writeMem (addr : Nat) (data : List UInt8) (ok isBreakpointRelated : Bool) : Option WriteState :=
  let nwritten := s.stored addr data.length
  if ok = false ∧ nwritten < data.length then none
  else
    let s := s.setMemory (overlay s.tracee.memory addr (data.take nwritten))
    some (if nwritten > 0 then s.notifyWritten addr nwritten isBreakpointRelated else s)

inductive WritePath where
  | local
  | ptrace
  | mem
  deriving DecidableEq

def writeVia (addr : Nat) (data : List UInt8) (ok isBreakpointRelated : Bool) :
    WritePath → Option WriteState
  | .local => some (s.writeLocal addr data)
  | .ptrace => some (s.writePtrace addr data isBreakpointRelated)
  | .mem => s.writeMem addr data ok isBreakpointRelated

def writePath (addr size : Nat) : WritePath :=
  if s.localMapping addr size then .local
  else
    match s.memFd with
    | .closed | .stale false => .ptrace
    | .live | .stale true => .mem

/-- A descriptor that gives nothing is opened again, with what comes of that. -/
def reopenMemFd (addr size : Nat) : WriteState :=
  if s.localMapping addr size then s
  else
    match s.memFd with
    | .stale reopens => { s with memFd := if reopens then .live else .closed }
    | _ => s

def writeBytesHelper (addr : Nat) (data : List UInt8)
    (ok isBreakpointRelated : Bool) : Option WriteState :=
  if data = [] then some s
  else (s.reopenMemFd addr data.length).writeVia addr data ok isBreakpointRelated
    (s.writePath addr data.length)

/-- The ways that there are for a range: the local one needs a local mapping. -/
def Available (addr size : Nat) (path : WritePath) : Prop :=
  path = .local → s.localMapping addr size = true

/-- Whatever is written to the range, it does not matter which way. -/
def SamePaths (addr size : Nat) (ok isBreakpointRelated : Bool) : Prop :=
  ∀ data, data.length = size → ∀ p q, s.Available addr size p → s.Available addr size q →
    s.writeVia addr data ok isBreakpointRelated p = s.writeVia addr data ok isBreakpointRelated q

/-- How far the pokes of a range get: to a word at its start or at its end that is written in part and
cannot be read. -/
def pokeEnd (addr size : Nat) : Nat :=
  if size = 0 then 0
  else if (addr % wordSize ≠ 0 ∨ size < wordSize) ∧ s.tracee.readable (wordStart addr) = false then 0
  else if (addr + size) % wordSize ≠ 0 ∧ addr < wordStart (addr + size) ∧
      s.tracee.readable (wordStart (addr + size)) = false then wordStart (addr + size) - addr
  else size

def UpToDate (e : MemoryRange × Watchpoint) : Prop :=
  (e.2.updateValue s.tracee e.1).1 = false

/-- Pages are readable as a whole, what is mapped locally is readable, and watched ranges end in the
address space. -/
structure Valid (s : WriteState) : Prop where
  pages : ∀ a b, a / pageSize = b / pageSize → s.tracee.readable a = s.tracee.readable b
  locals : ∀ r ∈ s.locals, ∀ a, r.start ≤ a → a < r.end_ → s.tracee.readable a = true
  watched : ∀ e ∈ s.watchpoints, e.1.end_ < 2 ^ 64

structure PathsAgree (s : WriteState) (addr size : Nat) (ok isBreakpointRelated : Bool) : Prop where
  poked : ∀ j < size, j < s.pokeEnd addr size ∧ s.pokable (wordStart (addr + j)) = true ↔
    j < s.stored addr size
  asserted : ok = true ∨ s.stored addr size = size
  refreshed : isBreakpointRelated = true ∨ ∀ e ∈ s.watchpoints,
    e.1.intersects ⟨addr, addr + s.pokeEnd addr size⟩ = true →
    e.1.intersects ⟨addr, addr + s.stored addr size⟩ = false → s.UpToDate e
  unwatched : s.localMapping addr size = true → s.stored addr size = size ∧
    (isBreakpointRelated = true ∨
      ∀ e ∈ s.watchpoints, e.1.intersects ⟨addr, addr + size⟩ = false)

end WriteState

end Attune
