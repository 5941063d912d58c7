import Attune.Syscallbuf

namespace Attune.Syscallbuf

structure SyscallInfo where
  no : Nat
  args : Nat → Nat

structure Msghdr where
  name : Nat
  nameLen : Nat
  iov : List (Nat × Nat)
  control : Nat
  controlLen : Nat
  deriving DecidableEq

structure Caller where
  fdDisabled : Nat → Bool
  forceTraced : Bool
  inChaos : Bool
  word32 : Nat → Nat
  msghdr : Nat → Msghdr
  allowBufferedOpen : Nat → Bool
  absolutePath : Nat → Bool
  mprotectRecordCount : Nat
  clonedFileDataFd : Int
  usableScratchSize : Nat

def isBufferableFd (c : Caller) (fd : Int) : Bool :=
  if fd < 0 then true else !c.fdDisabled (min fd.toNat 1023)

/-- An out-parameter has its space unless its pointer is null. -/
def outparam (ptr size : Nat) : List Nat := if ptr = 0 then [] else [size]

def outputBuffer (buf size : Nat) (count : Int → Int) : Output :=
  if buf ≠ 0 ∧ 0 < size then .buffer size count else .whole

section
variable (c : Caller) (call : SyscallInfo)

def arg (i : Nat) : Nat := call.args i

def intArg (i : Nat) : Int := toInt (call.args i)

def fdArg (i : Nat) : Bool := isBufferableFd c (intArg call i)

/-- The handlers that chaos mode makes traced from time to time. -/
def unlessForced (ts : List Transaction) : List Transaction := if c.forceTraced then [] else ts

def sysGenericNonblocking : List Transaction := [{ syscallno := call.no }]

def sysGenericNonblockingFd : List Transaction :=
  [{ syscallno := call.no, bufferable := fdArg c call 0 }]

def sysClockGettime : List Transaction :=
  [{ syscallno := 228, before := outparam (arg call 1) 16 }]

/-- Opens for writing are traced, unless they make a new file. -/
def supportedOpenFlags (flags : BitVec 32) : Bool :=
  flags &&& 3 = 0 ∨ flags &&& 0xC0 = 0xC0

def open_ (pathname : Nat) (flags : BitVec 32) : List Transaction :=
  unlessForced c (if supportedOpenFlags flags && c.allowBufferedOpen pathname then
    [{ syscallno := 2, mayBlock := true }] else [])

def sysOpen : List Transaction := open_ c (arg call 0) (BitVec.ofNat 32 (arg call 1))

def sysCreat : List Transaction := open_ c (arg call 0) 0x241

def sysOpenat : List Transaction :=
  let pathname := arg call 1
  let treatAsOpen := intArg call 0 = -100 ∨ c.absolutePath pathname = true
  unlessForced c (if supportedOpenFlags (BitVec.ofNat 32 (arg call 2)) && treatAsOpen &&
      c.allowBufferedOpen pathname then
    [{ syscallno := 257, mayBlock := true }] else [])

def sysFcntl64NoOutparams : List Transaction :=
  [{ syscallno := 72, bufferable := fdArg c call 0 }]

def sysFcntl64OwnEx : List Transaction :=
  [{ syscallno := 72, bufferable := fdArg c call 0, before := outparam (arg call 2) 8 }]

def sysFcntl64Setlk64 : List Transaction :=
  unlessForced c
    [{ syscallno := 72, bufferable := fdArg c call 0, before := outparam (arg call 2) 32 }]

def sysFcntl64Setlkw64 : List Transaction :=
  unlessForced c [{ syscallno := 72, bufferable := fdArg c call 0, mayBlock := true }]

def sysFcntl : List Transaction :=
  match arg call 1 with
  | 0 | 1 | 2 | 3 | 4 | 8 | 9 | 10 => sysFcntl64NoOutparams c call
  | 15 | 16 => sysFcntl64OwnEx c call
  | 6 => sysFcntl64Setlk64 c call
  | 7 => sysFcntl64Setlkw64 c call
  | _ => []

/-- The attribute functions copy no more than the size of the buffer. -/
def clampTo (size : Nat) (ret : Int) : Int :=
  let size := (size : Int).bmod (2 ^ 64)
  toInt (if ret > size then size else ret)

def sysFlistxattr : List Transaction :=
  [{ syscallno := 196, bufferable := fdArg c call 0
     output := outputBuffer (arg call 1) (arg call 2) (clampTo (arg call 2)) }]

def sysGenericGetxattr : List Transaction :=
  [{ syscallno := call.no
     output := outputBuffer (arg call 2) (arg call 3) (clampTo (arg call 3)) }]

def sysFgetxattr : List Transaction :=
  [{ syscallno := 193, bufferable := fdArg c call 0
     output := outputBuffer (arg call 2) (arg call 3) (clampTo (arg call 3)) }]

def sysGenericListxattr : List Transaction :=
  [{ syscallno := call.no
     output := outputBuffer (arg call 1) (arg call 2) (clampTo (arg call 2)) }]

def sysIoctl : List Transaction :=
  match arg call 1 with
  | 0x4020940D | 0x5451 | 0x5450 => [{ syscallno := 16, bufferable := fdArg c call 0 }]
  | _ => []

def sysFutex : List Transaction :=
  if c.inChaos then []
  else
    match (BitVec.ofNat 32 (arg call 1) &&& ~~~0x180#32).toNat with
    | 1 | 10 => [{ syscallno := 202, before := [4] }]
    | 4 | 5 => [{ syscallno := 202, before := [4, 4] }]
    | _ => []

def sysGenericGetdents : List Transaction :=
  [{ syscallno := call.no, bufferable := fdArg c call 0
     output := outputBuffer (arg call 1) (arg call 2 % 2 ^ 32) toInt }]

def sysGettimeofday : List Transaction :=
  [{ syscallno := 96, before := outparam (arg call 0) 16 ++ outparam (arg call 1) 8 }]

def sysMadvise : List Transaction :=
  if intArg call 2 ∈ [0, 1, 2, 3, 4, 8, 12, 13, 14, 15, 16, 17] then [{ syscallno := 28 }] else []

def sysMprotect : List Transaction :=
  if BitVec.ofNat 32 (arg call 2) &&& ~~~7#32 = 0 ∧ c.mprotectRecordCount < 1000 then
    [{ syscallno := 10 }] else []

def sysPoll : List Transaction :=
  let nfds := arg call 1 % 2 ^ 32
  [{ syscallno := 7, before := if arg call 0 ≠ 0 ∧ 0 < nfds then [nfds * 8] else [] }]

/-- The number of events is multiplied as an unsigned one. -/
def epollBytes (ret : Int) : Int := toInt (ret * 12)

def sysEpollWait : List Transaction :=
  let maxEvents := intArg call 2
  [{ syscallno := 232
     output := if arg call 1 ≠ 0 ∧ 0 < maxEvents then .buffer (maxEvents.toNat * 12) epollBytes
       else .whole }]

/-- A large read may be tried as a clone of the file first: with a seek, the clone, and a read that
stores nothing. -/
def sysReadCloned : List Transaction :=
  let count := arg call 2
  if arg call 1 ≠ 0 ∧ 0x10000 ≤ count ∧ 0 ≤ c.clonedFileDataFd ∧ fdArg c call 0 = true ∧
      count % 4096 = 0 then
    [{ syscallno := 8, bufferable := fdArg c call 0 }, { syscallno := 16 },
      { syscallno := 0, mayBlock := decide (count ≤ c.usableScratchSize) }]
  else []

def sysRead : List Transaction :=
  unlessForced c (sysReadCloned c call ++
    [{ syscallno := 0, bufferable := fdArg c call 0, mayBlock := true
       output := outputBuffer (arg call 1) (arg call 2) toInt }])

def sysPread64 : List Transaction :=
  [{ syscallno := 17, bufferable := fdArg c call 0, mayBlock := true
     output := outputBuffer (arg call 1) (arg call 2) toInt }]

def sysReadlink : List Transaction :=
  let bufsiz := intArg call 2
  [{ syscallno := 89
     output := if arg call 1 ≠ 0 ∧ 0 < bufsiz then .buffer bufsiz.toNat toInt else .whole }]

def sysRecvfrom : List Transaction :=
  let srcAddr := arg call 4
  let addrlen := arg call 5
  unlessForced c [{
    syscallno := 45
    bufferable := fdArg c call 0
    mayBlock := true
    receives := true
    before := outparam srcAddr (c.word32 addrlen) ++ outparam addrlen 4
    output := outputBuffer (arg call 1) (arg call 2) toInt }]

def sysRecvmsg : List Transaction :=
  let msg := c.msghdr (arg call 1)
  unlessForced c [{
    syscallno := 47
    bufferable := fdArg c call 0
    mayBlock := true
    receives := true
    before := [56 + 16 * msg.iov.length]
    output := .message (outparam msg.name msg.nameLen ++ outparam msg.control msg.controlLen)
      (msg.iov.map Prod.snd) }]

/-- The sending handlers give the caller's memory to the kernel. -/
def sending : List Transaction :=
  [{ syscallno := call.no, bufferable := fdArg c call 0, mayBlock := true }]

def sysSendmsg : List Transaction := unlessForced c (sending c call)

def sysSendto : List Transaction := unlessForced c (sending c call)

def sysSetsockopt : List Transaction :=
  if intArg call 1 = 263 ∧ (intArg call 2 = 5 ∨ intArg call 2 = 13) then [] else sending c call

def sysWrite : List Transaction := unlessForced c (sending c call)

def sysPwrite64 : List Transaction := sending c call

def sysWritev : List Transaction := unlessForced c (sending c call)

/-- The space is that of a `struct timezone`. -/
def sysSocketpair : List Transaction := [{ syscallno := 53, before := [8] }]

def sysTime : List Transaction := [{ syscallno := 201 }]

def sysXstat64 : List Transaction :=
  [{ syscallno := call.no, before := outparam (arg call 1) 144 }]

def sysQuotactl : List Transaction :=
  if intArg call 0 >>> 8 ≠ 0x800007 then []
  else [{ syscallno := call.no, before := outparam (arg call 3) 72 }]

def sysStatfs : List Transaction :=
  [{ syscallno := call.no, before := outparam (arg call 1) 120 }]

/-- Peeking is done with `process_vm_readv`. -/
def sysPtrace : List Transaction :=
  if intArg call 0 ≠ 2 ∨ arg call 3 = 0 then [] else [{ syscallno := 310, before := [8] }]

def sysGetrusage : List Transaction :=
  [{ syscallno := 98, before := outparam (arg call 1) 144 }]

def sysRtSigprocmask : List Transaction :=
  if arg call 3 ≠ 8 then [] else [{ syscallno := 14, before := [8] }]

/-- The transactions that a handler can make in turn; none when the syscall is traced. -/
def syscallHookInternal : List Transaction :=
  match call.no with
  | 21 | 91 | 108 | 107 | 104 | 39 | 110 | 186 | 102 | 94 | 83 | 133 | 188 | 88 | 76 | 87 | 263 =>
    sysGenericNonblocking call
  | 3 | 32 | 221 | 190 | 77 | 8 | 280 => sysGenericNonblockingFd c call
  | 228 => sysClockGettime call
  | 85 => sysCreat c call
  | 232 => sysEpollWait call
  | 72 => sysFcntl c call
  | 193 => sysFgetxattr c call
  | 196 => sysFlistxattr c call
  | 202 => sysFutex c call
  | 78 | 217 => sysGenericGetdents c call
  | 98 => sysGetrusage call
  | 96 => sysGettimeofday call
  | 191 | 192 => sysGenericGetxattr call
  | 16 => sysIoctl c call
  | 194 | 195 => sysGenericListxattr call
  | 28 => sysMadvise call
  | 10 => sysMprotect c call
  | 2 => sysOpen c call
  | 257 => sysOpenat c call
  | 7 => sysPoll call
  | 17 => sysPread64 c call
  | 18 => sysPwrite64 c call
  | 101 => sysPtrace call
  | 179 => sysQuotactl call
  | 0 => sysRead c call
  | 89 => sysReadlink call
  | 45 => sysRecvfrom c call
  | 47 => sysRecvmsg c call
  | 14 => sysRtSigprocmask call
  | 46 => sysSendmsg c call
  | 44 => sysSendto c call
  | 54 => sysSetsockopt c call
  | 53 => sysSocketpair
  | 201 => sysTime
  | 1 => sysWrite c call
  | 20 => sysWritev c call
  | 4 | 5 | 6 => sysXstat64 call
  | 137 | 138 => sysStatfs call
  | _ => []

end

/-- A call of the hook, with what comes of its untraced syscalls and whether rr empties the buffer at
its end. -/
structure HookCall where
  caller : Caller
  info : SyscallInfo
  results : List Result
  reset : Bool

namespace HookCall

def transactions (h : HookCall) : List (Transaction × Result) :=
  (syscallHookInternal h.caller h.info).zip h.results

end HookCall

def Buffer.transactAll : Buffer → List (Transaction × Result) → Buffer × List Commit
  | b, [] => (b, [])
  | b, (t, r) :: rest =>
    let (b, commit) := b.transact t r
    let (b, commits) := b.transactAll rest
    (b, commit.toList ++ commits)

/-- A thread without a buffer, or one that is in it already, has its syscalls traced. -/
def syscallHook (b : Buffer) (h : HookCall) : Buffer × List Commit :=
  if b.start = 0 ∨ b.locked = true ∨ b.lockedByTracer = true then (b, [])
  else b.transactAll h.transactions

/-- A buffer with its commits: those since it was last empty, and all. -/
structure Run where
  buffer : Buffer
  commits : List Commit
  all : List Commit

namespace Run

def step (s : Run) (h : HookCall) : Run :=
  let (b, commits) := syscallHook s.buffer h
  if h.reset then ⟨b.reset, [], s.all ++ commits⟩
  else ⟨b, s.commits ++ commits, s.all ++ commits⟩

def run (s : Run) (calls : List HookCall) : Run := calls.foldl step s

def committed (s : Run) : List Nat := (s.commits.filter fun c => !c.aborted).map Commit.offset

end Run

def walk (record : Nat → Record) (stop : Nat) : Nat → Nat → Option (List Nat)
  | 0, _ => none
  | fuel + 1, offset =>
    if offset = stop then some []
    else (walk record stop fuel (offset + storedRecordSize (record offset).size)).map (offset :: ·)

/-- The records lie one behind the other, and a further one has room. -/
structure Tiled (s : Run) : Prop where
  ends : ∀ c ∈ s.all, c.recordEnd ≤ c.acceptedEnd
  aligned : s.buffer.numRecBytes % 8 = 0
  room : Trace.syscallbufHdrSize + s.buffer.numRecBytes + recordSize ≤ s.buffer.size
  sizes : ∀ o ∈ s.committed, recordSize ≤ (s.buffer.record o).size
  walks : ∃ fuel, walk s.buffer.record s.buffer.numRecBytes fuel 0 = some s.committed

def Output.Within (r : Result) : Output → Prop
  | .whole => True
  | .buffer len count => count r.ret ≤ len
  | .message _ data => r.ret ≤ data.sum

/-- Apart from receiving, the kernel does not return more than it was asked for. -/
def Transaction.Allowed (t : Transaction) (r : Result) : Prop :=
  t.receives = false → t.output.Within r

/-- The lengths do not overflow a pointer, and nothing that is received is longer than its buffers. -/
structure Transaction.Fits (start : Nat) (t : Transaction) (r : Result) : Prop where
  noWrap : recordSize + t.parts.sum < 2 ^ 64
  disabled : t.bufferable = false → t.parts.sum < start
  received : t.receives = true → t.output.Within r

end Attune.Syscallbuf
