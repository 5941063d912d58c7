import Mathlib

namespace Attune.Trace
open List

inductive SupportedArch where
  | x86
  | x86_64
  deriving DecidableEq

def nativeArch : SupportedArch := .x86_64

def syscallNumberForRestartSyscall : SupportedArch → Int
  | .x86 => 0
  | .x86_64 => 219

def siginfoSize : Nat := 128

structure Siginfo where
  bytes : List UInt8
  size : bytes.length = siginfoSize
  deriving DecidableEq

inductive SignalDeterministic where
  | nondeterministicSig
  | deterministicSig
  deriving DecidableEq

inductive SignalResolvedDisposition where
  | fatal
  | userHandler
  | ignored
  deriving DecidableEq

structure SignalEvent where
  siginfo : Siginfo
  deterministic : SignalDeterministic
  disposition : SignalResolvedDisposition
  deriving DecidableEq

structure MprotectRecord where
  start : Nat
  size : Nat
  prot : Int
  padding : Int
  deriving DecidableEq

inductive SyscallState where
  | noSyscall
  | enteringSyscallPtrace
  | enteringSyscall
  | processingSyscall
  | exitingSyscall
  deriving DecidableEq

inductive Switchable where
  | preventSwitch
  | allowSwitch
  deriving DecidableEq

structure OpenedFd where
  path : List Char
  fd : Int
  device : Nat
  inode : Nat
  deriving DecidableEq

structure SyscallEvent where
  arch : SupportedArch
  deschedRec : Nat
  writeOffset : Int
  execFdsToClose : List Int
  opened : List OpenedFd
  state : SyscallState
  number : Int
  switchable : Switchable
  isRestart : Bool
  failedDuringPreparation : Bool
  inSysemu : Bool
  deriving DecidableEq

def SyscallEvent.new (syscallno : Int) (arch : SupportedArch) : SyscallEvent where
  arch := arch
  deschedRec := 0
  writeOffset := -1
  execFdsToClose := []
  opened := []
  state := .noSyscall
  number := syscallno
  switchable := .preventSwitch
  isRestart := false
  failedDuringPreparation := false
  inSysemu := false

inductive Event where
  | unassigned
  | sentinel
  | noop
  | desched (record : Nat)
  | seccompTrap
  | syscallInterruption (ev : SyscallEvent)
  | traceTermination
  | exit
  | sched
  | instructionTrap
  | syscallbufFlush (mprotectRecords : List MprotectRecord)
  | syscallbufAbortCommit
  | syscallbufReset
  | patchSyscall
  | growMap
  | signal (ev : SignalEvent)
  | signalDelivery (ev : SignalEvent)
  | signalHandler (ev : SignalEvent)
  | syscall (ev : SyscallEvent)
  deriving DecidableEq

section Schema

inductive ArchMsg where
  | x86
  | x8664
  deriving DecidableEq

inductive DispositionMsg where
  | fatal
  | userHandler
  | ignored
  deriving DecidableEq

inductive SyscallStateMsg where
  | enteringPtrace
  | entering
  | exiting
  deriving DecidableEq

structure SignalMsg where
  siginfoArch : ArchMsg
  siginfo : List UInt8
  deterministic : Bool
  disposition : DispositionMsg
  deriving DecidableEq

inductive SyscallExtraMsg where
  | none
  | writeOffset (offset : Int)
  | execFdsToClose (fds : List Int)
  | openedFds (fds : List OpenedFd)
  deriving DecidableEq

structure SyscallMsg where
  arch : ArchMsg
  number : Int
  state : SyscallStateMsg
  failedDuringPreparation : Bool
  extra : SyscallExtraMsg
  deriving DecidableEq

inductive EventMsg where
  | instructionTrap
  | patchSyscall
  | syscallbufAbortCommit
  | syscallbufReset
  | sched
  | growMap
  | signal (msg : SignalMsg)
  | signalDelivery (msg : SignalMsg)
  | signalHandler (msg : SignalMsg)
  | exit
  | syscallbufFlush (mprotectRecords : List MprotectRecord)
  | syscall (msg : SyscallMsg)
  deriving DecidableEq

end Schema

def toTraceArch : SupportedArch → ArchMsg
  | .x86 => .x86
  | .x86_64 => .x8664

def fromTraceArch : ArchMsg → SupportedArch
  | .x86 => .x86
  | .x8664 => .x86_64

def toTraceDisposition : SignalResolvedDisposition → DispositionMsg
  | .fatal => .fatal
  | .ignored => .ignored
  | .userHandler => .userHandler

def fromTraceDisposition : DispositionMsg → SignalResolvedDisposition
  | .fatal => .fatal
  | .ignored => .ignored
  | .userHandler => .userHandler

/-- Two states are never stored: writing them is fatal. -/
def toTraceSyscallState : SyscallState → Option SyscallStateMsg
  | .enteringSyscallPtrace => some .enteringPtrace
  | .enteringSyscall => some .entering
  | .exitingSyscall => some .exiting
  | .noSyscall | .processingSyscall => none

def fromTraceSyscallState : SyscallStateMsg → SyscallState
  | .enteringPtrace => .enteringSyscallPtrace
  | .entering => .enteringSyscall
  | .exiting => .exitingSyscall

def toTraceSignal (ev : SignalEvent) : SignalMsg where
  siginfoArch := toTraceArch nativeArch
  siginfo := ev.siginfo.bytes
  deterministic := decide (ev.deterministic = .deterministicSig)
  disposition := toTraceDisposition ev.disposition

def fromTraceSignal (msg : SignalMsg) : Option SignalEvent :=
  if msg.siginfoArch ≠ toTraceArch nativeArch then none
  else if h : msg.siginfo.length = siginfoSize then
    some ⟨⟨msg.siginfo, h⟩,
      if msg.deterministic then .deterministicSig else .nondeterministicSig,
      fromTraceDisposition msg.disposition⟩
  else none

/-- A task id read from the trace must be positive. -/
def i32ToTid (tid : Int) : Option Int := if tid ≤ 0 then none else some tid

def checkFd (fd : Int) : Option Int := if fd < 0 then none else some fd

/-- A string read from the trace must not contain the null character. -/
def dataToStr (data : List Char) : Option (List Char) :=
  if Char.ofNat 0 ∈ data then none else some data

/-- What `write_frame` stores for a syscall: one of three optional items. -/
def toTraceExtra (e : SyscallEvent) : SyscallExtraMsg :=
  if e.writeOffset ≥ 0 then .writeOffset e.writeOffset
  else if e.execFdsToClose ≠ [] then .execFdsToClose e.execFdsToClose
  else if e.opened ≠ [] then .openedFds e.opened
  else .none

variable (taskArch : SupportedArch)

def toTraceEvent : Event → Option EventMsg
  | .instructionTrap => some .instructionTrap
  | .patchSyscall => some .patchSyscall
  | .syscallbufAbortCommit => some .syscallbufAbortCommit
  | .syscallbufReset => some .syscallbufReset
  | .sched => some .sched
  | .growMap => some .growMap
  | .signal ev => some (.signal (toTraceSignal ev))
  | .signalDelivery ev => some (.signalDelivery (toTraceSignal ev))
  | .signalHandler ev => some (.signalHandler (toTraceSignal ev))
  | .exit => some .exit
  | .syscallbufFlush records => some (.syscallbufFlush records)
  | .syscall e => do
    let state ← toTraceSyscallState e.state
    let number := if e.isRestart then syscallNumberForRestartSyscall taskArch else e.number
    return .syscall ⟨toTraceArch e.arch, number, state, e.failedDuringPreparation, toTraceExtra e⟩
  | .unassigned | .sentinel | .noop | .desched _ | .seccompTrap | .syscallInterruption _
  | .traceTermination => none

def readOpenedFd (o : OpenedFd) : Option OpenedFd := do
  let fd ← checkFd o.fd
  let path ← dataToStr o.path
  return { o with fd, path }

def fromTraceExtra (ev : SyscallEvent) : SyscallExtraMsg → Option SyscallEvent
  | .none => some ev
  | .writeOffset offset => if offset < 0 then none else some { ev with writeOffset := offset }
  | .execFdsToClose fds => do
    let fds ← fds.mapM checkFd
    return { ev with execFdsToClose := fds }
  | .openedFds fds => do
    let fds ← fds.mapM readOpenedFd
    return { ev with opened := fds }

def fromTraceEvent : EventMsg → Option Event
  | .instructionTrap => some .instructionTrap
  | .patchSyscall => some .patchSyscall
  | .syscallbufAbortCommit => some .syscallbufAbortCommit
  | .syscallbufReset => some .syscallbufReset
  | .sched => some .sched
  | .growMap => some .growMap
  | .signal msg => (fromTraceSignal msg).map .signal
  | .signalDelivery msg => (fromTraceSignal msg).map .signalDelivery
  | .signalHandler msg => (fromTraceSignal msg).map .signalHandler
  | .exit => some .exit
  | .syscallbufFlush records => some (.syscallbufFlush records)
  | .syscall msg => do
    let ev := { SyscallEvent.new msg.number (fromTraceArch msg.arch) with
      state := fromTraceSyscallState msg.state
      failedDuringPreparation := msg.failedDuringPreparation }
    let ev ← fromTraceExtra ev msg.extra
    return .syscall ev

/-- What the trace keeps: a restart as `restart_syscall`, one optional item, and defaults for what
only recording uses. -/
def SyscallEvent.recorded (e : SyscallEvent) : SyscallEvent :=
  { SyscallEvent.new (if e.isRestart then syscallNumberForRestartSyscall taskArch else e.number)
      e.arch with
    state := e.state
    failedDuringPreparation := e.failedDuringPreparation
    writeOffset := if e.writeOffset ≥ 0 then e.writeOffset else -1
    execFdsToClose := if e.writeOffset ≥ 0 then [] else e.execFdsToClose
    opened := if e.writeOffset ≥ 0 ∨ e.execFdsToClose ≠ [] then [] else e.opened }

def Event.recorded (taskArch : SupportedArch) : Event → Event
  | .syscall e => .syscall (e.recorded taskArch)
  | ev => ev

def SyscallEvent.Recordable (e : SyscallEvent) : Prop :=
  (e.state = .enteringSyscallPtrace ∨ e.state = .enteringSyscall ∨ e.state = .exitingSyscall) ∧
    (∀ fd ∈ e.execFdsToClose, 0 ≤ fd) ∧ ∀ o ∈ e.opened, 0 ≤ o.fd ∧ Char.ofNat 0 ∉ o.path

instance (e : SyscallEvent) : Decidable e.Recordable := by
  unfold SyscallEvent.Recordable
  infer_instance

def Event.Recordable : Event → Prop
  | .syscall e => e.Recordable
  | .unassigned | .sentinel | .noop | .desched _ | .seccompTrap | .syscallInterruption _
  | .traceTermination => False
  | _ => True

instance : (ev : Event) → Decidable ev.Recordable
  | .syscall e => inferInstanceAs (Decidable e.Recordable)
  | .unassigned | .sentinel | .noop | .desched _ | .seccompTrap | .syscallInterruption _
  | .traceTermination => .isFalse id
  | .exit | .sched | .instructionTrap | .syscallbufFlush _ | .syscallbufAbortCommit
  | .syscallbufReset | .patchSyscall | .growMap | .signal _ | .signalDelivery _
  | .signalHandler _ => .isTrue trivial

theorem mapM_map_eq_some {f : β → Option γ} {g : α → β} {h : α → γ} {l : List α}
    (hl : ∀ x ∈ l, f (g x) = some (h x)) : (l.map g).mapM f = some (l.map h) := by
  induction l with
  | nil => rfl
  | cons x l ih =>
    have hx := hl x mem_cons_self
    have hr := ih fun y hy => hl y (mem_cons_of_mem _ hy)
    simp only [map_cons, mapM_cons, hx, hr]
    rfl

theorem mapM_eq_self {f : α → Option α} {l : List α} (h : ∀ x ∈ l, f x = some x) :
    l.mapM f = some l := by
  have hmap := mapM_map_eq_some (g := id) (h := id) h
  rwa [map_id] at hmap

theorem fromTraceArch_to (a : SupportedArch) : fromTraceArch (toTraceArch a) = a := by
  cases a <;> rfl

theorem fromTraceDisposition_to (d : SignalResolvedDisposition) :
    fromTraceDisposition (toTraceDisposition d) = d := by
  cases d <;> rfl

theorem fromTraceSignal_to (ev : SignalEvent) : fromTraceSignal (toTraceSignal ev) = some ev := by
  have hsi : (toTraceSignal ev).siginfo.length = siginfoSize := ev.siginfo.size
  rw [fromTraceSignal, if_neg (fun hne => hne rfl), dif_pos hsi]
  obtain ⟨⟨bytes, size⟩, deterministic, disposition⟩ := ev
  simp only [toTraceSignal, fromTraceDisposition_to]
  cases deterministic <;> rfl

theorem toTraceSyscallState_some (h : state = .enteringSyscallPtrace ∨ state = .enteringSyscall ∨
    state = .exitingSyscall) :
    ∃ msg, toTraceSyscallState state = some msg ∧ fromTraceSyscallState msg = state := by
  rcases h with rfl | rfl | rfl
  · exact ⟨.enteringPtrace, rfl, rfl⟩
  · exact ⟨.entering, rfl, rfl⟩
  · exact ⟨.exiting, rfl, rfl⟩

theorem readOpenedFd_eq {o : OpenedFd} (hfd : 0 ≤ o.fd) (hp : Char.ofNat 0 ∉ o.path) :
    readOpenedFd o = some o := by
  simp only [readOpenedFd, checkFd, dataToStr, if_neg (Int.not_lt.mpr hfd), if_neg hp]
  rfl

theorem fromTraceExtra_to {e ev : SyscallEvent} (h : e.Recordable) (hof : ev.writeOffset = -1)
    (hfds : ev.execFdsToClose = []) (hop : ev.opened = []) :
    fromTraceExtra ev (toTraceExtra e) = some { ev with
      writeOffset := if e.writeOffset ≥ 0 then e.writeOffset else -1
      execFdsToClose := if e.writeOffset ≥ 0 then [] else e.execFdsToClose
      opened := if e.writeOffset ≥ 0 ∨ e.execFdsToClose ≠ [] then [] else e.opened } := by
  obtain ⟨_, hc, hope⟩ := h
  obtain ⟨arch, deschedRec, _, _, _, state, number, switchable, isRestart, failed, inSysemu⟩ := ev
  subst hof hfds hop
  by_cases hw : e.writeOffset ≥ 0
  · have he : toTraceExtra e = .writeOffset e.writeOffset := if_pos hw
    rw [he, fromTraceExtra, if_neg (Int.not_lt.mpr hw)]
    simp only [hw, if_true, true_or]
  by_cases hex : e.execFdsToClose = []
  · have hr : e.opened.mapM readOpenedFd = some e.opened :=
      mapM_eq_self fun o ho => readOpenedFd_eq (hope o ho).1 (hope o ho).2
    by_cases hany : e.opened = []
    · have he : toTraceExtra e = .none := by
        simp only [toTraceExtra, hw, hex, hany, ne_eq, not_true_eq_false, if_false]
      simp only [he, fromTraceExtra, hw, hex, hany, ite_self, if_false]
    have he : toTraceExtra e = .openedFds e.opened := by
      simp only [toTraceExtra, hw, hex, hany, ne_eq, not_true_eq_false, not_false_eq_true,
        if_false, if_true]
    simp only [he, fromTraceExtra, hr, hw, hex, ne_eq, not_true_eq_false, or_self,
      if_false]
    rfl
  · have hr : e.execFdsToClose.mapM checkFd = some e.execFdsToClose :=
      mapM_eq_self fun fd hfd => if_neg (Int.not_lt.mpr (hc fd hfd))
    have he : toTraceExtra e = .execFdsToClose e.execFdsToClose := by
      simp only [toTraceExtra, hw, hex, ne_eq, not_false_eq_true, if_false, if_true]
    simp only [he, fromTraceExtra, hr, hw, hex, ne_eq, not_false_eq_true, or_true,
      if_false, if_true]
    rfl

theorem fromTraceEvent_to {ev : Event} (h : ev.Recordable) :
    ∃ msg, toTraceEvent taskArch ev = some msg ∧ fromTraceEvent msg = some (ev.recorded taskArch) := by
  cases ev with
  | unassigned | sentinel | noop | desched record | seccompTrap | syscallInterruption ev
  | traceTermination => exact absurd h id
  | signal ev | signalDelivery ev | signalHandler ev =>
    refine ⟨_, rfl, ?_⟩
    rw [fromTraceEvent, fromTraceSignal_to]
    rfl
  | syscall e =>
    obtain ⟨state, hto, hf⟩ := toTraceSyscallState_some h.1
    refine ⟨.syscall ⟨toTraceArch e.arch, if e.isRestart then syscallNumberForRestartSyscall taskArch
      else e.number, state, e.failedDuringPreparation, toTraceExtra e⟩, ?_, ?_⟩
    · simp only [toTraceEvent, hto]
      rfl
    · simp only [fromTraceEvent, fromTraceArch_to, hf]
      rw [fromTraceExtra_to h rfl rfl rfl]
      rfl
  | exit | sched | instructionTrap | syscallbufFlush records | syscallbufAbortCommit
  | syscallbufReset | patchSyscall | growMap => exact ⟨_, rfl, rfl⟩

end Attune.Trace
