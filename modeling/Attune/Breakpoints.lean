import Attune.OrderedMap
import Attune.MemoryRange

namespace Attune.Breakpoints
open OrderedMap

inductive BreakpointType where
  | internal
  | user
  deriving DecidableEq

structure Breakpoint where
  internalCount : Int
  userCount : Int
  overwrittenData : UInt8
  deriving DecidableEq

namespace Breakpoint

variable (b : Breakpoint)

def total : Int := b.internalCount + b.userCount

variable (which : BreakpointType)

def adjust (d : Int) : Breakpoint :=
  match which with
  | .internal => { b with internalCount := b.internalCount + d }
  | .user => { b with userCount := b.userCount + d }

def ref : Breakpoint := b.adjust which 1

def unref : Breakpoint := b.adjust which (-1)

def dataLength (_ : Breakpoint) : Nat := 1

def originalData : List UInt8 := [b.overwrittenData]

@[simp] theorem adjust_total (d : Int) : (b.adjust which d).total = b.total + d := by
  cases which <;> simp only [adjust, total] <;> omega

@[simp] theorem adjust_data (d : Int) : (b.adjust which d).overwrittenData = b.overwrittenData := by
  cases which <;> rfl

end Breakpoint

def breakpointInsn : UInt8 := 0xCC

structure AddressSpace where
  taskSet : List Nat
  memory : Nat → UInt8
  breakpoints : List (Nat × Breakpoint)

namespace AddressSpace

variable (s : AddressSpace)

def writeMem (addr : Nat) (b : UInt8) : AddressSpace :=
  { s with memory := Function.update s.memory addr b }

def readMem (addr len : Nat) : List UInt8 :=
  (List.range len).map fun i => s.memory (addr + i)

def destroyBreakpoint (e : Nat × Breakpoint) : AddressSpace :=
  if s.taskSet.isEmpty then s
  else { s.writeMem e.1 e.2.overwrittenData with breakpoints := erase less e.1 s.breakpoints }

def removeBreakpoint (addr : Nat) (type : BreakpointType) : AddressSpace :=
  match get addr s.breakpoints with
  | none => s
  | some b =>
    let b' := b.unref type
    let s' := { s with breakpoints := assign less addr b' s.breakpoints }
    if 0 < b'.total then s' else s'.destroyBreakpoint (addr, b')

/-- `none` stands for the dereference of the first task of an empty set. -/
def addBreakpoint (readable : Nat → Bool) (s : AddressSpace) (addr : Nat)
    (type : BreakpointType) : Option (Bool × AddressSpace) :=
  match get addr s.breakpoints with
  | some b => some (true, { s with breakpoints := assign less addr (b.ref type) s.breakpoints })
  | none =>
    if s.taskSet.isEmpty then none
    else if readable addr then
      let b : Breakpoint := ⟨0, 0, s.memory addr⟩
      let m := insert less addr b s.breakpoints
      some (true, { s.writeMem addr breakpointInsn with
        breakpoints := assign less addr (b.ref type) m })
    else some (false, s)

/-- The loop of `remove_all_breakpoints`; it never ends when nothing can be destroyed. -/
def removeAllLoop : Nat → AddressSpace → Option AddressSpace
  | 0, s => if s.breakpoints.isEmpty then some s else none
  | fuel + 1, s =>
    match s.breakpoints with
    | [] => some s
    | e :: _ => removeAllLoop fuel (s.destroyBreakpoint e)

def removeAllBreakpoints : Option AddressSpace :=
  removeAllLoop s.breakpoints.length s

def writeAtBreakpoint (addr : Nat) (byte : Breakpoint → UInt8) : Option AddressSpace :=
  match get addr s.breakpoints with
  | none => some s
  | some b => if s.taskSet.isEmpty then none else some (s.writeMem addr (byte b))

def suspendBreakpointAt (addr : Nat) : Option AddressSpace :=
  s.writeAtBreakpoint addr Breakpoint.overwrittenData

def restoreBreakpointAt (addr : Nat) : Option AddressSpace :=
  s.writeAtBreakpoint addr fun _ => breakpointInsn

end AddressSpace

def memcpy (dest : List UInt8) (at_ : Nat) (src : List UInt8) : List UInt8 :=
  dest.take at_ ++ src ++ dest.drop (at_ + src.length)

def replaceOne (length addr : Nat) (dest : List UInt8) (e : Nat × Breakpoint) : List UInt8 :=
  let start := max addr e.1
  let stop := min (ptrAdd addr length) (ptrAdd e.1 e.2.dataLength)
  if start < stop then
    memcpy dest (ptrSub start addr)
      ((e.2.originalData.drop (ptrSub start e.1)).take (ptrSub stop start))
  else dest

def AddressSpace.replaceBreakpointsWithOriginalValues (s : AddressSpace) (dest : List UInt8)
    (length addr : Nat) : List UInt8 :=
  s.breakpoints.foldl (replaceOne length addr) dest

inductive Call where
  | addBreakpoint (addr : Nat) (type : BreakpointType)
  | removeBreakpoint (addr : Nat) (type : BreakpointType)
  | removeAllBreakpoints
  | suspendBreakpointAt (addr : Nat)
  | restoreBreakpointAt (addr : Nat)
  deriving DecidableEq

variable (readable : Nat → Bool)

def AddressSpace.step (s : AddressSpace) : Call → Option AddressSpace
  | .addBreakpoint addr type => (s.addBreakpoint readable addr type).map Prod.snd
  | .removeBreakpoint addr type => some (s.removeBreakpoint addr type)
  | .removeAllBreakpoints => s.removeAllBreakpoints
  | .suspendBreakpointAt addr => s.suspendBreakpointAt addr
  | .restoreBreakpointAt addr => s.restoreBreakpointAt addr

def AddressSpace.run (s : AddressSpace) (calls : List Call) : Option AddressSpace :=
  calls.foldlM (AddressSpace.step readable) s

/-- What one call does to the number of references held on an address. -/
def refStep (n : Nat → Nat) : Call → Nat → Nat
  | .addBreakpoint addr _ => fun a => if a = addr ∧ readable a then n a + 1 else n a
  | .removeBreakpoint addr _ => fun a => if a = addr then n a - 1 else n a
  | .removeAllBreakpoints => fun _ => 0
  | .suspendBreakpointAt _ => n
  | .restoreBreakpointAt _ => n

def refCount (calls : List Call) : Nat → Nat :=
  calls.foldl (refStep readable) fun _ => 0

end Attune.Breakpoints
