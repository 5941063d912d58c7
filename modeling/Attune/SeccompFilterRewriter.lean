import Attune.Bpf

namespace Attune.Seccomp
open Bpf

def retTrace : BitVec 32 := 0x7ff00000
def retAllow : BitVec 32 := 0x7fff0000
def retAction : BitVec 32 := 0x7fff0000
def retData : BitVec 32 := 0x0000ffff

def baseCustomData : Nat := 0x100

structure SeccompData where
  nr : BitVec 32
  arch : BitVec 32
  instructionPointer : BitVec 64
  args : Fin 6 → BitVec 64

def SeccompData.size : Nat := 64

def SeccompData.packet (d : SeccompData) : Packet where
  len := BitVec.ofNat 32 SeccompData.size
  word off :=
    if off = 0 then d.nr
    else if off = 4 then d.arch
    else
      let field : BitVec 64 := if h : 16 ≤ off ∧ off < 64 then d.args ⟨(off - 16) / 8, by omega⟩
        else d.instructionPointer
      if off % 8 = 0 then field.setWidth 32 else (field >>> 32).setWidth 32

inductive Traced where
  | traced | untraced
  deriving DecidableEq

inductive Privileged where
  | privileged | unprivileged
  deriving DecidableEq

inductive Enabled where
  | recordingOnly | replayOnly | recordingAndReplay
  deriving DecidableEq

structure SyscallType where
  traced : Traced
  privileged : Privileged
  enabled : Enabled
  deriving DecidableEq

/-- The system call stubs of the rr page, in the order in which they lie there. -/
def entryPoints : List SyscallType :=
  [⟨.traced, .unprivileged, .recordingAndReplay⟩, ⟨.traced, .privileged, .recordingAndReplay⟩,
   ⟨.untraced, .unprivileged, .recordingAndReplay⟩, ⟨.untraced, .unprivileged, .replayOnly⟩,
   ⟨.untraced, .unprivileged, .recordingOnly⟩, ⟨.untraced, .privileged, .recordingAndReplay⟩,
   ⟨.untraced, .privileged, .replayOnly⟩, ⟨.untraced, .privileged, .recordingOnly⟩]

def rrPageAddr : Nat := 0x70000000
def rrPageSyscallStubSize : Nat := 3
def rrPageSyscallInstructionEnd : Nat := 2

def exitIpFromIndex (i : Nat) : BitVec 64 :=
  BitVec.ofNat 64 (rrPageAddr + rrPageSyscallStubSize * i + rrPageSyscallInstructionEnd)

def rrPageSyscallExitPoint (e : SyscallType) : BitVec 64 :=
  match entryPoints.findIdx? (· == e) with
  | some i => exitIpFromIndex i
  | none => 0

/-- The exit points of the privileged stubs, the only callsites a tracee's filter never sees. -/
def privilegedCallsites : List (BitVec 64) :=
  (entryPoints.filter fun e => e.privileged == .privileged).map rrPageSyscallExitPoint

/-- The byte offset of the instruction pointer in the record. -/
def instPtr : BitVec 32 := 8

def allow : Insn := { code := 0x06, k := retAllow }

def allowSyscallsFromCallsite (ip : BitVec 64) : List Insn :=
  [{ code := 0x20, k := instPtr }, { code := 0x15, jt := 0, jf := 1, k := ip.setWidth 32 }, allow]

/-- The numbers given to the constants that filters return. -/
structure SeccompFilterRewriter where
  resultToIndex : List (BitVec 32 × BitVec 16) := []
  indexToResult : List (BitVec 32) := []
  deriving DecidableEq

namespace SeccompFilterRewriter

variable (t : SeccompFilterRewriter)

/-- Gives a constant a number, unless it has one. A failed assertion is `none`. -/
def addResult (k : BitVec 32) : Option SeccompFilterRewriter :=
  if (t.resultToIndex.lookup k).isSome then some t
  else if baseCustomData + t.indexToResult.length < retData.toNat then
    some { resultToIndex := (k, BitVec.ofNat 16 t.indexToResult.length) :: t.resultToIndex
           indexToResult := t.indexToResult ++ [k] }
  else none

def rewriteInsn (u : Insn) : Option (SeccompFilterRewriter × Insn) :=
  if u.code &&& 0x07 = 0x06 then
    if u.code &&& 0x18 ≠ 0 then none
    else if u.k ≠ retAllow then do
      let t ← t.addResult u.k
      let index ← t.resultToIndex.lookup u.k
      some (t, { u with k := (BitVec.ofNat 32 baseCustomData + index.setWidth 32) ||| retTrace })
    else some (t, u)
  else some (t, u)

def rewriteCode (t : SeccompFilterRewriter) : List Insn → Option (SeccompFilterRewriter × List Insn)
  | [] => some (t, [])
  | u :: code => do
    let (t, u) ← t.rewriteInsn u
    let (t, code) ← t.rewriteCode code
    some (t, u :: code)

def installPatchedSeccompFilter (code : List Insn) :
    Option (SeccompFilterRewriter × List Insn) := do
  let (t, code) ← t.rewriteCode code
  some (t, privilegedCallsites.flatMap allowSyscallsFromCallsite ++ code)

def installAll (t : SeccompFilterRewriter) : List (List Insn) → Option SeccompFilterRewriter
  | [] => some t
  | code :: codes => do
    let (t, _) ← t.installPatchedSeccompFilter code
    t.installAll codes

/-- `none` when the assertion fails, `some none` when the value is none of rr's. -/
def mapFilterDataToRealResult (value : BitVec 16) : Option (Option (BitVec 32)) :=
  if value.toNat < baseCustomData then some none
  else if value.toNat < baseCustomData + t.indexToResult.length then
    some t.indexToResult[value.toNat - baseCustomData]?
  else none

end SeccompFilterRewriter

end Attune.Seccomp
