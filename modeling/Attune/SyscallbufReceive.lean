import Attune.SyscallbufHandlers
import Attune.TaskWritePaths

namespace Attune.Syscallbuf
open WriteState

/-- What the kernel does for a receive: the data, name and control bytes it writes, with gaps, and
the lengths and flags it returns. -/
structure Received where
  ret : Int
  failedDuringPreparation : Bool
  data : List UInt8
  name : List UInt8
  nameLen : Nat
  control : List (Option UInt8)
  controlLen : Nat
  msgFlags : Nat
  deriving DecidableEq

structure Request where
  capacity : Nat
  named : Bool
  nameLen : Nat
  controlled : Bool
  controlLen : Nat
  msgFlags : Nat
  deriving DecidableEq

namespace Received

def Ok (r : Received) : Prop := 0 ≤ r.ret ∧ r.failedDuringPreparation = false

instance (r : Received) : Decidable r.Ok := inferInstanceAs (Decidable (_ ∧ _))

/-- What Linux can do: write no more data than fits, cut a name off at its length, and still return
the full lengths. -/
structure Allowed (q : Request) (r : Received) : Prop where
  small : -4096 < r.ret ∧ r.ret < 2 ^ 31
  failed : ¬ r.Ok → r.data = [] ∧ r.name = [] ∧ r.control = [] ∧ r.nameLen = q.nameLen ∧
    r.controlLen = q.controlLen ∧ r.msgFlags = q.msgFlags
  counted : r.Ok → r.data.length ≤ r.ret.toNat
  space : r.data.length ≤ q.capacity
  unnamed : q.named = false → r.name = [] ∧ r.nameLen = q.nameLen
  cut : r.Ok → q.named = true → r.name.length = min r.nameLen q.nameLen
  uncontrolled : q.controlled = false → r.control = []
  control : r.Ok → q.controlled = true →
    r.control.length = r.controlLen ∧ r.controlLen ≤ q.controlLen

end Received

/-- What is written to the caller: the data buffers, name and control buffer from their starts,
lengths and flags at the end. -/
structure Outputs where
  data : List (List UInt8)
  name : List UInt8
  nameLen : Nat
  control : List (Option UInt8)
  controlLen : Nat
  msgFlags : Nat
  deriving DecidableEq

/-- The arguments of `recvfrom`, with the length that `addrlen` points to. Without it there is no
`src_addr` either. -/
structure RecvfromArgs where
  buf : Nat
  len : Nat
  srcAddr : Nat
  addrlen : Option Nat
  named : srcAddr ≠ 0 → addrlen.isSome = true

inductive ReceiveCall where
  | recvfrom (args : RecvfromArgs)
  | recvmsg (msg : Msghdr) (msgFlags : Nat)

def overlayGaps (m : Nat → UInt8) (addr : Nat) (data : List (Option UInt8)) (a : Nat) : UInt8 :=
  if addr ≤ a then (data.getD (a - addr) none).getD (m a) else m a

def splitIov : List UInt8 → List (Nat × Nat) → List (List UInt8)
  | _, [] => []
  | data, (_, len) :: iov => data.take len :: splitIov (data.drop len) iov

namespace RecvfromArgs

variable (a : RecvfromArgs)

def request : Request where
  capacity := if a.buf = 0 then 0 else a.len
  named := a.srcAddr ≠ 0
  nameLen := a.addrlen.getD 0
  controlled := false
  controlLen := 0
  msgFlags := 0

/-- `sys_recvfrom` with its outputs in the record at `ptr`. -/
def wrapped (m : Nat → UInt8) (ptr : Nat) (r : Received) : Outputs :=
  let srcAddr2 := ptr
  let addrlen2 := if a.srcAddr ≠ 0 then srcAddr2 + a.addrlen.getD 0 else srcAddr2
  let buf2 := if a.addrlen.isSome then addrlen2 + 4 else addrlen2
  let hasBuffer := a.buf ≠ 0 ∧ 0 < a.len
  -- the kernel writes to the record
  let m := if a.srcAddr ≠ 0 then overlay m srcAddr2 r.name else m
  let m := if hasBuffer then overlay m buf2 r.data else m
  let name := if r.Ok ∧ a.srcAddr ≠ 0 then
      bytesFor m srcAddr2 (min r.nameLen (a.addrlen.getD 0))
    else []
  let nameLen := if r.Ok ∧ a.addrlen.isSome = true then r.nameLen else a.addrlen.getD 0
  let data := if hasBuffer ∧ 0 < toInt r.ret ∧ r.failedDuringPreparation = false then
      bytesFor m buf2 (toInt r.ret).toNat
    else []
  ⟨[data], name, nameLen, [], 0, 0⟩

def direct (_a : RecvfromArgs) (r : Received) : Outputs := ⟨[r.data], r.name, r.nameLen, [], 0, 0⟩

/-- The kernel wrote all the data that it counts. -/
def Faithful (r : Received) : Prop :=
  a.buf ≠ 0 → 0 < a.len → r.Ok → r.data.length = r.ret.toNat

end RecvfromArgs

namespace Msghdr

def request (msg : Msghdr) (msgFlags : Nat) : Request where
  capacity := (msg.iov.map Prod.snd).sum
  named := msg.name ≠ 0
  nameLen := msg.nameLen
  controlled := msg.control ≠ 0
  controlLen := msg.controlLen
  msgFlags := msgFlags

def copyIov (m : Nat → UInt8) : Nat → Nat → List (Nat × Nat) → List (List UInt8)
  | _, _, [] => []
  | ptr, bytes, (_, len) :: iov =>
    let copyBytes := if bytes < len then bytes else len
    bytesFor m ptr copyBytes :: copyIov m (ptr + len) (bytes - copyBytes) iov

/-- `sys_recvmsg` with its copy of the message header in the record at `ptr`. -/
def wrapped (msg : Msghdr) (msgFlags : Nat) (m : Nat → UInt8) (ptr : Nat) (r : Received) : Outputs :=
  let name2 := ptr + 56 + 16 * msg.iov.length
  let control2 := if msg.name ≠ 0 then name2 + msg.nameLen else name2
  let bytesStart := if msg.control ≠ 0 then control2 + msg.controlLen else control2
  -- the kernel writes to the record, where the data buffers follow each other
  let m := if msg.name ≠ 0 then overlay m name2 r.name else m
  let m := if msg.control ≠ 0 then overlayGaps m control2 r.control else m
  let m := overlay m bytesStart r.data
  if r.Ok then
    ⟨copyIov m bytesStart r.ret.toNat msg.iov,
      if msg.name ≠ 0 then bytesFor m name2 r.nameLen else [],
      r.nameLen,
      if msg.control ≠ 0 then (bytesFor m control2 r.controlLen).map some else [],
      r.controlLen,
      r.msgFlags⟩
  else ⟨msg.iov.map fun _ => [], [], msg.nameLen, [], msg.controlLen, msgFlags⟩

def direct (msg : Msghdr) (r : Received) : Outputs :=
  ⟨splitIov r.data msg.iov, r.name, r.nameLen, r.control, r.controlLen, r.msgFlags⟩

/-- The name fits, the control bytes have no gap, and all counted data that fits was written. -/
structure Faithful (msg : Msghdr) (r : Received) : Prop where
  name : msg.name ≠ 0 → r.nameLen ≤ msg.nameLen
  control : none ∉ r.control
  data : r.data.length = min r.ret.toNat (msg.iov.map Prod.snd).sum

end Msghdr

namespace ReceiveCall

def request : ReceiveCall → Request
  | .recvfrom args => args.request
  | .recvmsg msg msgFlags => msg.request msgFlags

def wrapped (call : ReceiveCall) (m : Nat → UInt8) (ptr : Nat) (r : Received) : Outputs :=
  match call with
  | .recvfrom args => args.wrapped m ptr r
  | .recvmsg msg msgFlags => msg.wrapped msgFlags m ptr r

def direct (call : ReceiveCall) (r : Received) : Outputs :=
  match call with
  | .recvfrom args => args.direct r
  | .recvmsg msg _ => msg.direct r

def Faithful (call : ReceiveCall) (r : Received) : Prop :=
  match call with
  | .recvfrom args => args.Faithful r
  | .recvmsg msg _ => r.Ok → msg.Faithful r

end ReceiveCall

end Attune.Syscallbuf
