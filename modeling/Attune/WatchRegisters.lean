import Attune.AddressSpaceClone
import Attune.WatchRanges

namespace Attune.Watch
open OrderedMap MemoryRange

structure WatchConfig where
  addr : Nat
  numBytes : Nat
  type : WatchType
  deriving DecidableEq

structure ArmedWatchpoint extends Watchpoint where
  debugRegsForExecRead : List Int8
  deriving DecidableEq

abbrev WatchTable := List (MemoryRange × ArmedWatchpoint)

/-- The alignment to which a range of a write watchpoint is upgraded. -/
def upgradeAlign (size : Nat) : Nat := if size ≤ 2 then 2 else if size ≤ 4 then 4 else 8

def alignedRange (range : MemoryRange) : MemoryRange :=
  let align := upgradeAlign range.size
  ⟨range.start / align * align, (range.end_ + (align - 1)) % 2 ^ 64 / align * align⟩

/-- The pieces for a range; a write watchpoint takes the aligned range where that needs fewer
registers. -/
def watchPieces (range : MemoryRange) (type : WatchType) : Option (List MemoryRange) := do
  let splitRanges ← splitRange range
  if type = .write ∧ 1 < range.size then
    let split ← splitRange (alignedRange range)
    return if split.length < splitRanges.length then split else splitRanges
  else return splitRanges

/-- Without `assignedRegs` the numbers of the new registers are not noted. -/
def pushRegister (type : WatchType) (st : List WatchConfig × Option (List Int8)) (r : MemoryRange) :
    List WatchConfig × Option (List Int8) :=
  (st.1 ++ [⟨r.start, r.size, type⟩], st.2.map (· ++ [Int8.ofNat st.1.length]))

section

variable (regs : List WatchConfig) (range : MemoryRange)

def configureWatchRegisters (type : WatchType)
    (assignedRegs : Option (List Int8)) : Option (List WatchConfig × Option (List Int8)) := do
  let splitRanges ← watchPieces range type
  return splitRanges.foldl (pushRegister type) (regs, assignedRegs)

inductive WillSetTaskState where
  | settingTaskState
  | notSettingTaskState
  deriving DecidableEq

def configureExec (w : Watchpoint)
    (assignedRegs : Option (List Int8)) : Option (List WatchConfig × Option (List Int8)) :=
  if 0 < w.execCount then configureWatchRegisters regs range .exec assignedRegs
  else some (regs, assignedRegs)

def configureReadWrite (w : Watchpoint)
    (assignedRegs : Option (List Int8)) : Option (List WatchConfig × Option (List Int8)) :=
  if 0 < w.readCount then configureWatchRegisters regs range .readWrite assignedRegs
  else if 0 < w.writeCount then
    (configureWatchRegisters regs range .write none).map fun r => (r.1, assignedRegs)
  else some (regs, assignedRegs)

end

def configureWatchpoint (will : WillSetTaskState) (regs : List WatchConfig) (range : MemoryRange)
    (w : ArmedWatchpoint) : Option (List WatchConfig × ArmedWatchpoint) := do
  let assignedRegs := if will = .settingTaskState then some [] else none
  let (regs, assignedRegs) ← configureExec regs range w.toWatchpoint assignedRegs
  let (regs, assignedRegs) ← configureReadWrite regs range w.toWatchpoint assignedRegs
  return (regs, { w with debugRegsForExecRead := assignedRegs.getD w.debugRegsForExecRead })

def getWatchConfigs (will : WillSetTaskState) :
    List WatchConfig → WatchTable → Option (List WatchConfig × WatchTable)
  | regs, [] => some (regs, [])
  | regs, (range, w) :: rest => do
    let (regs, w) ← configureWatchpoint will regs range w
    let (regs, rest) ← getWatchConfigs will regs rest
    return (regs, (range, w) :: rest)

/-- The code of a size in the control register; other sizes are fatal. -/
def numBytesToDrLen : Nat → Option Nat
  | 1 => some 0
  | 2 => some 1
  | 4 => some 3
  | 8 => some 2
  | _ => none

/-- The debug registers of a task: status, addresses, and the size and type of each enabled one. -/
structure DebugRegisters where
  status : Nat
  addrs : Nat → Nat
  control : List (Nat × WatchType)

def DebugRegisters.armed (d : DebugRegisters) : List (Nat × Nat × WatchType) :=
  d.control.zipIdx.map fun c => (d.addrs c.2, c.1)

/-- Which requests of a `set_debug_regs` call the kernel accepts; enabling nothing is always
accepted. -/
structure Kernel where
  pokeAddr : Nat → Nat → Bool
  pokeControl : List (Nat × WatchType) → Bool
  clears : pokeControl [] = true

def setControl (k : Kernel) (d : DebugRegisters) (control : List (Nat × WatchType)) :
    Bool × DebugRegisters :=
  if k.pokeControl control then (true, { d with control }) else (false, d)

/-- The loop of `set_debug_regs` over the registers, and the request after it. -/
def setAddrs (k : Kernel) : Nat → List WatchConfig → List (Nat × WatchType) → DebugRegisters →
    Option (Bool × DebugRegisters)
  | _, [], control, d => some (setControl k d control)
  | index, reg :: regs, control, d =>
    if k.pokeAddr index reg.addr then do
      let len ← numBytesToDrLen reg.numBytes
      setAddrs k (index + 1) regs (control.set index (len, reg.type))
        { d with addrs := Function.update d.addrs index reg.addr }
    else some (false, (setControl k d []).2)

def numX86Watchpoints : Nat := 4

def setDebugRegs (k : Kernel) (d : DebugRegisters) (regs : List WatchConfig) :
    Option (Bool × DebugRegisters) :=
  let d := { d with status := 0 }
  if numX86Watchpoints < regs.length then some (false, (setControl k d []).2)
  else
    -- every register is enabled with size 1 before its address is set
    let control := regs.map fun _ => (0, WatchType.exec)
    setAddrs k 0 regs control (setControl k d control).2

/-- `set_debug_regs` of every task; all are tried when one fails. -/
def setAllDebugRegs (k : Nat → Kernel) (regs : List WatchConfig) :
    Nat → List DebugRegisters → Option (Bool × List DebugRegisters)
  | _, [] => some (true, [])
  | i, d :: rest => do
    let (ok, d) ← setDebugRegs (k i) d regs
    let (restOk, rest) ← setAllDebugRegs k regs (i + 1) rest
    return (ok && restOk, d :: rest)

/-- The first round over the tasks. More registers than have a number are not tried. -/
def programTasks (k : Nat → Kernel) (regs : List WatchConfig) (tasks : List DebugRegisters) :
    Option (Bool × List DebugRegisters) :=
  if regs.length ≤ 0x7f then setAllDebugRegs k regs 0 tasks else some (false, tasks)

structure WatchState where
  watchpoints : WatchTable
  tasks : List DebugRegisters

namespace WatchState

/-- With the answers of the kernel to the first and to the second round over the tasks. -/
def allocateWatchpoints (first second : Nat → Kernel) (s : WatchState) :
    Option (Bool × WatchState) := do
  let (regs, watchpoints) ← getWatchConfigs .settingTaskState [] s.watchpoints
  let (ok, tasks) ← programTasks first regs s.tasks
  if ok then return (true, ⟨watchpoints, tasks⟩)
  else
    let (_, tasks) ← setAllDebugRegs second [] 0 tasks
    -- the loop that comes last clears the registers of copies of the entries
    return (false, ⟨watchpoints, tasks⟩)

end WatchState

namespace WatchTable

def add (t : Tracee) (ws : WatchTable) (addr numBytes : Nat) (type : WatchType) : WatchTable :=
  let key := Watchpoints.rangeFor addr numBytes
  match find less key ws with
  | some (_, w) =>
    assign less key
      { w with toWatchpoint := w.toWatchpoint.adjust type 1 } ws
  | none =>
    insert less key
      ⟨((Watchpoint.new numBytes).updateValue t key).2.adjust type 1, []⟩ ws

def remove (ws : WatchTable) (addr numBytes : Nat) (type : WatchType) : WatchTable :=
  let key := Watchpoints.rangeFor addr numBytes
  match find less key ws with
  | none => ws
  | some (_, w) =>
    let w := { w with toWatchpoint := w.toWatchpoint.adjust type (-1) }
    if w.total = 0 then erase less key ws
    else assign less key w ws

end WatchTable

inductive Call where
  | addWatchpoint (t : Tracee) (addr numBytes : Nat) (type : WatchType)
  | removeWatchpoint (addr numBytes : Nat) (type : WatchType)

def Call.edit : Call → WatchTable → WatchTable
  | .addWatchpoint t addr numBytes type, ws => ws.add t addr numBytes type
  | .removeWatchpoint addr numBytes type, ws => ws.remove addr numBytes type

def Call.addr : Call → Nat
  | .addWatchpoint _ addr _ _ => addr
  | .removeWatchpoint addr _ _ => addr

namespace WatchState

def perform (first second : Nat → Kernel) (s : WatchState) (c : Call) : Option (Bool × WatchState) :=
  allocateWatchpoints first second { s with watchpoints := c.edit s.watchpoints }

def addWatchpoint (first second : Nat → Kernel) (s : WatchState) (t : Tracee) (addr numBytes : Nat)
    (type : WatchType) : Option (Bool × WatchState) :=
  s.perform first second (.addWatchpoint t addr numBytes type)

/-- `remove_watchpoint`, which does not look at the result. -/
def removeWatchpoint (first second : Nat → Kernel) (s : WatchState) (addr numBytes : Nat)
    (type : WatchType) : Option WatchState :=
  (s.perform first second (.removeWatchpoint addr numBytes type)).map Prod.snd

def run : List (Call × (Nat → Kernel) × (Nat → Kernel)) → WatchState → Option WatchState
  | [], s => some s
  | (c, first, second) :: calls, s => do
    let (_, s) ← s.perform first second c
    run calls s

end WatchState

/-- `DR_WATCHPOINT`; a shift by a negative number or out of an `int` is undefined. -/
def drWatchpoint (n : Int8) : Option Nat :=
  if 0 ≤ n.toInt ∧ n.toInt < 31 then some (2 ^ n.toInt.toNat) else none

def watchpointTriggered (debugStatus : Nat) : List Int8 → Option Bool
  | [] => some false
  | reg :: regs => do
    let bit ← drWatchpoint reg
    if debugStatus &&& bit ≠ 0 then return true else watchpointTriggered debugStatus regs

def readTriggered (debugStatus : Nat) (w : ArmedWatchpoint) : Option Bool :=
  if 0 < w.readCount then watchpointTriggered debugStatus w.debugRegsForExecRead else some false

def execTriggered (debugStatus singlestepStart : Nat) (range : MemoryRange) (w : ArmedWatchpoint) :
    Option Bool :=
  if 0 < w.execCount ∧ (singlestepStart = 0 ∨ range.start = singlestepStart) then
    watchpointTriggered debugStatus w.debugRegsForExecRead
  else some false

def writeTriggered (t : Tracee) (range : MemoryRange) (w : ArmedWatchpoint) :
    Bool × ArmedWatchpoint :=
  if 0 < w.writeCount then
    let (changed, value) := w.toWatchpoint.updateValue t range
    (changed, { w with toWatchpoint := value })
  else (false, w)

def notifyWatchpointFired (t : Tracee) (debugStatus singlestepStart : Nat) :
    WatchTable → Option (Bool × WatchTable)
  | [] => some (false, [])
  | (range, w) :: rest => do
    let (written, w) := writeTriggered t range w
    let read ← readTriggered debugStatus w
    let executed ← execTriggered debugStatus singlestepStart range w
    let fired := written || read || executed
    let (triggered, rest) ← notifyWatchpointFired t debugStatus singlestepStart rest
    return (fired || triggered,
      (range, if fired then { w with toWatchpoint := { w.toWatchpoint with changed := true } } else w)
        :: rest)

end Attune.Watch
