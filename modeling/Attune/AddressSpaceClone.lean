import Attune.AddressSpaceOps
import Attune.Breakpoints

namespace Attune
open OrderedMap MemoryRange

inductive WatchType where
  | exec
  | write
  | readWrite
  deriving DecidableEq

structure Tracee where
  readable : Nat → Bool
  memory : Nat → UInt8

structure Watchpoint where
  execCount : Int
  readCount : Int
  writeCount : Int
  valueBytes : List UInt8
  valid : Bool
  changed : Bool
  deriving DecidableEq

abbrev Watchpoints := List (MemoryRange × Watchpoint)

namespace Watchpoint

def new (numBytes : Nat) : Watchpoint := ⟨0, 0, 0, List.replicate numBytes 0, false, false⟩

def adjust (w : Watchpoint) (type : WatchType) (d : Int) : Watchpoint :=
  match type with
  | .exec => { w with execCount := w.execCount + d }
  | .write => { w with writeCount := w.writeCount + d }
  | .readWrite => { w with readCount := w.readCount + d, writeCount := w.writeCount + d }

def total (w : Watchpoint) : Int := w.execCount + w.readCount + w.writeCount

/-- Reading stops at what cannot be read and goes on at the next page. -/
def readValue (t : Tracee) : Nat → Bool → Nat → List UInt8 × Bool
  | _, _, 0 => ([], true)
  | addr, skipping, n + 1 =>
    if (skipping && addr % pageSize ≠ 0) || !t.readable addr then
      (0xFF :: (readValue t (addr + 1) true n).1, false)
    else
      let rest := readValue t (addr + 1) false n
      (t.memory addr :: rest.1, rest.2)

def updateValue (t : Tracee) (range : MemoryRange) (w : Watchpoint) : Bool × Watchpoint :=
  let (bytes, valid) := readValue t range.start false range.size
  let valueBytes := bytes ++ List.replicate (w.valueBytes.length - bytes.length) 0xFF
  (valid != w.valid || valueBytes != w.valueBytes, { w with valueBytes, valid })

end Watchpoint

namespace Watchpoints

/-- A watchpoint does not reach the last byte of the address space. -/
def rangeFor (addr numBytes : Nat) : MemoryRange :=
  ⟨addr, ptrAdd addr (min numBytes (2 ^ 64 - 1 - addr))⟩

def add (t : Tracee) (ws : Watchpoints) (addr numBytes : Nat) (type : WatchType) : Watchpoints :=
  let key := rangeFor addr numBytes
  match find less key ws with
  | some (_, w) => assign less key (w.adjust type 1) ws
  | none =>
    insert less key
      (((Watchpoint.new numBytes).updateValue t key).2.adjust type 1) ws

def remove (ws : Watchpoints) (addr numBytes : Nat) (type : WatchType) : Watchpoints :=
  let key := rangeFor addr numBytes
  match find less key ws with
  | none => ws
  | some (_, w) =>
    let w := w.adjust type (-1)
    if w.total = 0 then erase less key ws
    else assign less key w ws

def updateValues (t : Tracee) (ws : Watchpoints) (start end_ : Nat) : Watchpoints :=
  ws.map fun e =>
    if e.1.intersects ⟨start, end_⟩ then
      let (changed, w) := e.2.updateValue t e.1
      (e.1, if changed then { w with changed := true } else w)
    else e

end Watchpoints

inductive MapCall where
  | map (addr numBytes : Nat) (args : AddressSpace.MapArgs)
  | unmap (addr numBytes : Nat)
  | protect (addr numBytes : Nat) (prot : BitVec 32)
  | brk (addr : Nat) (prot : BitVec 32)
  | madvise (addr numBytes advice : Nat)
  deriving DecidableEq

inductive WatchCall where
  | addWatchpoint (addr numBytes : Nat) (type : WatchType)
  | removeWatchpoint (addr numBytes : Nat) (type : WatchType)
  | removeAllWatchpoints
  | saveWatchpoints
  | restoreWatchpoints
  | consumeWatchpointChanges
  deriving DecidableEq

def madvDontfork : Nat := 10

def madvDofork : Nat := 11

namespace AddressSpace

variable (s : AddressSpace)

def advise (addr numBytes advice : Nat) : AddressSpace :=
  let range : MemoryRange := ⟨addr, ptrAdd addr (ceilPageSize numBytes)⟩
  if advice = madvDontfork then { s with dontFork := addRange s.dontFork range }
  else if advice = madvDofork then { s with dontFork := removeRange s.dontFork range }
  else s

def call : MapCall → Option AddressSpace
  | .map addr numBytes args => s.map addr numBytes args
  | .unmap addr numBytes => s.unmap addr numBytes
  | .protect addr numBytes prot => s.protect addr numBytes prot
  | .brk addr prot => s.brk addr prot
  | .madvise addr numBytes advice => some (s.advise addr numBytes advice)

def watched : MapCall → List MemoryRange
  | .map addr numBytes _ =>
    if ceilPageSize numBytes = 0 then []
    else
      let range : MemoryRange := ⟨addr, ptrAdd addr (ceilPageSize numBytes)⟩
      [range, range]
  | .unmap addr numBytes =>
    if ceilPageSize numBytes = 0 then [] else [⟨addr, ptrAdd addr (ceilPageSize numBytes)⟩]
  | .brk addr _ =>
    let oldBrk := ceilPageSize s.brkEnd
    let newBrk := ceilPageSize addr
    if oldBrk < newBrk then [⟨oldBrk, newBrk⟩, ⟨oldBrk, newBrk⟩]
    else if newBrk < oldBrk then [⟨newBrk, oldBrk⟩]
    else []
  | _ => []

/-- The copying constructor: local mappings stay with the original, and `dont_fork` is not copied.
-/
def clone : AddressSpace :=
  { mem := mapValues (fun m => { m with localAddr := 0 }) s.mem
    monitoredMem := s.monitoredMem
    dontFork := []
    brkEnd := s.brkEnd
    vdsoStartAddr := s.vdsoStartAddr
    released := [] }

/-- `did_fork_into`: the child loses the ranges that are not to be forked. -/
def didForkInto (s child : AddressSpace) : Option AddressSpace :=
  s.dontFork.foldlM (fun child r => child.unmap r.1.start r.1.size) child

end AddressSpace

structure Space where
  vm : AddressSpace
  breakpoints : Breakpoints.AddressSpace
  watchpoints : Watchpoints
  savedWatchpoints : List Watchpoints

inductive SpaceOp where
  | mapping (call : MapCall)
  | breakpoint (call : Breakpoints.Call)
  | watchpoint (call : WatchCall)
  | fork
  deriving DecidableEq

namespace Space

def watchCall (t : Tracee) (s : Space) : WatchCall → Option Space
  | .addWatchpoint addr numBytes type =>
    some { s with watchpoints := s.watchpoints.add t addr numBytes type }
  | .removeWatchpoint addr numBytes type =>
    some { s with watchpoints := s.watchpoints.remove addr numBytes type }
  | .removeAllWatchpoints => some { s with watchpoints := [] }
  | .saveWatchpoints => some { s with savedWatchpoints := s.watchpoints :: s.savedWatchpoints }
  | .restoreWatchpoints =>
    -- with nothing saved the source reads before the beginning of the vector
    match s.savedWatchpoints with
    | [] => none
    | ws :: saved => some { s with watchpoints := ws, savedWatchpoints := saved }
  | .consumeWatchpointChanges =>
    some { s with watchpoints := s.watchpoints.map fun e => (e.1, { e.2 with changed := false }) }

/-- The writes of suspending and restoring are not marked as breakpoint-related. -/
def breakpointWatched (b : Breakpoints.AddressSpace) : Breakpoints.Call → List MemoryRange
  | .suspendBreakpointAt addr | .restoreBreakpointAt addr =>
    if (get addr b.breakpoints).isSome then [⟨addr, ptrAdd addr 1⟩] else []
  | _ => []

def updateAll (t : Tracee) (ws : Watchpoints) (ranges : List MemoryRange) : Watchpoints :=
  ranges.foldl (fun ws r => ws.updateValues t r.start r.end_) ws

/-- One operation, given what the task's memory is at it, with the child of a fork. -/
def step (s : Space) (t : Tracee) : SpaceOp → Option (Space × Option AddressSpace)
  | .mapping call => do
    let vm ← s.vm.call call
    return ({ s with vm, watchpoints := updateAll t s.watchpoints (s.vm.watched call) }, none)
  | .breakpoint call => do
    let b ← Breakpoints.AddressSpace.step t.readable { s.breakpoints with memory := t.memory } call
    let ranges := breakpointWatched b call
    return ({ s with
      breakpoints := b
      watchpoints := updateAll { t with memory := b.memory } s.watchpoints ranges }, none)
  | .watchpoint call => do
    let s ← s.watchCall t call
    return (s, none)
  | .fork => do
    let child ← s.vm.didForkInto s.vm.clone
    return (s, some child)

def clone (s : Space) : Space :=
  { vm := s.vm.clone
    breakpoints := s.breakpoints
    watchpoints := s.watchpoints
    savedWatchpoints := [] }

end Space

structure Observation where
  mem : MemoryMap
  brkEnd : Nat
  breakpoints : List (Nat × Breakpoints.Breakpoint)
  watchpoints : Watchpoints
  child : Option MemoryMap
  deriving DecidableEq

namespace Space

def observe (s : Space) (child : Option AddressSpace) : Observation :=
  ⟨s.vm.mem, s.vm.brkEnd, s.breakpoints.breakpoints, s.watchpoints, child.map AddressSpace.mem⟩

def run (s : Space) : List (SpaceOp × Tracee) → Option (List Observation)
  | [] => some []
  | (op, t) :: ops => do
    let (s, child) ← s.step t op
    let rest ← s.run ops
    return s.observe child :: rest

end Space

end Attune
