import Mathlib

namespace Attune.Fds
open Function

abbrev Fd := Fin 2147483648

def SYSCALLBUF_FDS_DISABLED_SIZE : Nat := 1024

structure FdTable (Monitor : Type) where
  fds : List (Fd × Monitor)
  fdCountBeyondLimit : Nat
  deriving DecidableEq

namespace FdTable
variable {Monitor : Type}

def create : FdTable Monitor := ⟨[], 0⟩

variable (table : FdTable Monitor)

def isMonitoring (fd : Fd) : Bool := (table.fds.lookup fd).isSome

def erase (fds : List (Fd × Monitor)) (fd : Fd) : List (Fd × Monitor) := fds.filter (·.1 != fd)

def assign (fds : List (Fd × Monitor)) (fd : Fd) (monitor : Monitor) : List (Fd × Monitor) :=
  (fd, monitor) :: erase fds fd

def increment (count : Nat) : Nat := (count + 1) % 2 ^ 32

def decrement (count : Nat) : Nat := (count + (2 ^ 32 - 1)) % 2 ^ 32

def set (fd : Fd) (monitor : Monitor) : FdTable Monitor :=
  { fds := assign table.fds fd monitor
    fdCountBeyondLimit :=
      if SYSCALLBUF_FDS_DISABLED_SIZE ≤ fd.val && !table.isMonitoring fd then
        increment table.fdCountBeyondLimit
      else table.fdCountBeyondLimit }

def unset (fd : Fd) : FdTable Monitor :=
  { fds := erase table.fds fd
    fdCountBeyondLimit :=
      if SYSCALLBUF_FDS_DISABLED_SIZE ≤ fd.val && table.isMonitoring fd then
        decrement table.fdCountBeyondLimit
      else table.fdCountBeyondLimit }

def dup (old new : Fd) : FdTable Monitor :=
  match table.fds.lookup old with
  | some monitor => table.set new monitor
  | none => table.unset new

end FdTable

structure Task where
  table : Nat
  vm : Nat
  preloadGlobals : Nat
  deriving DecidableEq

structure State (Monitor : Type) where
  tables : Nat → FdTable Monitor
  memory : Nat → Nat → Nat

section
variable {Monitor : Type} (offset : Nat) (tasks : List Task)

def Task.disabledArray (t : Task) : Nat := t.preloadGlobals + offset

variable (tables : Nat → FdTable Monitor)

def isFdMonitoredInAnyTask (vm : Nat) (fd : Fd) : Bool :=
  (tasks.filter (·.vm == vm)).any fun t =>
    (tables t.table).isMonitoring fd ||
      (SYSCALLBUF_FDS_DISABLED_SIZE - 1 ≤ fd.val && 0 < (tables t.table).fdCountBeyondLimit)

def writeByte (memory : Nat → Nat → Nat) (vm addr byte : Nat) : Nat → Nat → Nat :=
  update memory vm (update (memory vm) addr byte)

/-- The entry of a descriptor; those beyond the limit share the last one. -/
def clamp (fd : Fd) : Fd :=
  if SYSCALLBUF_FDS_DISABLED_SIZE ≤ fd.val then ⟨SYSCALLBUF_FDS_DISABLED_SIZE - 1, by decide⟩ else fd

/-- The loop of `update_syscallbuf_fds_disabled`; the descriptor stays clamped for the rest of it.
-/
def updateLoop (tables : Nat → FdTable Monitor) :
    List Task → List Nat → Fd → (Nat → Nat → Nat) → Nat → Nat → Nat
  | [], _, _, memory => memory
  | t :: rest, vmsUpdated, fd, memory =>
    if t.vm ∈ vmsUpdated then updateLoop tables rest vmsUpdated fd memory
    else if t.preloadGlobals = 0 then updateLoop tables rest (t.vm :: vmsUpdated) fd memory
    else
      let disable := (isFdMonitoredInAnyTask tasks tables t.vm (clamp fd)).toNat
      updateLoop tables rest (t.vm :: vmsUpdated) (clamp fd)
        (writeByte memory t.vm (t.disabledArray offset + clamp fd) disable)

variable (s : State Monitor)

def updateSyscallbufFdsDisabled (table : Nat) (fd : Fd) : State Monitor :=
  { s with
    memory := updateLoop offset tasks s.tables (tasks.filter (·.table == table)) [] fd s.memory }

def addMonitor (table : Nat) (fd : Fd) (monitor : Monitor) : Option (State Monitor) :=
  if (s.tables table).isMonitoring fd then none
  else
    let s := { s with tables := update s.tables table ((s.tables table).set fd monitor) }
    some (updateSyscallbufFdsDisabled offset tasks s table fd)

def didDup (table : Nat) (old new : Fd) : State Monitor :=
  let s := { s with tables := update s.tables table ((s.tables table).dup old new) }
  updateSyscallbufFdsDisabled offset tasks s table new

def didClose (table : Nat) (fd : Fd) : State Monitor :=
  let s := { s with tables := update s.tables table ((s.tables table).unset fd) }
  updateSyscallbufFdsDisabled offset tasks s table fd

def setEntry (disabled : Nat → Nat) (e : Fd × Monitor) : Nat → Nat :=
  update disabled (clamp e.1).val 1

def setEntries (disabled : Nat → Nat) (t : Task) : Nat → Nat :=
  (tables t.table).fds.foldl setEntry disabled

/-- The array that `init_syscallbuf_fds_disabled` fills from the tables of an address space. -/
def disabledEntries (vm : Nat) : Nat → Nat :=
  (tasks.filter (·.vm == vm)).foldl (setEntries tables) fun _ => 0

def initSyscallbufFdsDisabled (t : Task) : State Monitor :=
  if t.preloadGlobals = 0 then s
  else
    { s with
      memory := update s.memory t.vm fun addr =>
        if t.disabledArray offset ≤ addr ∧
            addr < t.disabledArray offset + SYSCALLBUF_FDS_DISABLED_SIZE then
          disabledEntries tasks s.tables t.vm (addr - t.disabledArray offset)
        else s.memory t.vm addr }

inductive Op (Monitor : Type) where
  | addMonitor (table : Nat) (fd : Fd) (monitor : Monitor)
  | didDup (table : Nat) (old new : Fd)
  | didClose (table : Nat) (fd : Fd)
  | initSyscallbufFdsDisabled (t : Task)

def step : Op Monitor → Option (State Monitor)
  | .addMonitor table fd monitor => addMonitor offset tasks s table fd monitor
  | .didDup table old new => some (didDup offset tasks s table old new)
  | .didClose table fd => some (didClose offset tasks s table fd)
  | .initSyscallbufFdsDisabled t =>
    if t ∈ tasks then some (initSyscallbufFdsDisabled offset tasks s t) else none

def run (s : State Monitor) : List (Op Monitor) → Option (State Monitor)
  | [] => some s
  | op :: ops => do
    let s ← step offset tasks s op
    run s ops

end

end Attune.Fds
