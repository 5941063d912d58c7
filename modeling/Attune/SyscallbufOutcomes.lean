import Attune.SyscallbufTiling

namespace Attune.Syscallbuf
open List Option BitVec

section
variable {b : Buffer} {t : Transaction} {r : Result}

/-- The lengths go round the address space: the end of the record comes out below that of its
header. -/
def Transaction.Wraps (t : Transaction) (b : Buffer) : Prop :=
  t.bufferable = true ∧
    ptrAdd b.last (storedRecordSize ((recordSize + t.parts.sum) % 2 ^ 64)) <
      ptrAdd b.last recordSize

theorem Transaction.not_wraps (h : t.parts = []) : ¬ t.Wraps b := by
  rintro ⟨_, hlt⟩
  rw [h] at hlt
  exact absurd hlt (Nat.lt_irrefl _)

def Unwrapped : Buffer → List (Transaction × Result) → Prop
  | _, [] => True
  | b, (t, r) :: rest => ¬ t.Wraps b ∧ Unwrapped (b.transact t r).1 rest

theorem startCommit_unlocks (h : (b.startCommitBufferedSyscall no recordEnd m).2.locked = true) :
    b.locked = true := by
  revert h
  simp only [Buffer.startCommitBufferedSyscall]
  split
  · exact id
  · split
    · exact fun h => absurd h Bool.false_ne_true
    · exact id

/-- A transaction leaves the buffer locked by the bail-out that does not unlock it. -/
theorem locked_transact (h : b.locked = false) : (b.transact t r).1.locked = true ↔ t.Wraps b := by
  have hla : b.last < 2 ^ 64 := Nat.mod_lt _ (by decide)
  rw [Buffer.transact, Transaction.Wraps]
  cases hbuf : t.bufferable with
  | false =>
    refine ⟨fun hlo => ?_, fun hw => absurd hw.1 Bool.false_ne_true⟩
    simp only [Buffer.prepSyscallForFd, Bool.false_eq_true, if_false] at hlo
    split at hlo
    · exact absurd hlo Bool.false_ne_true
    · exact absurd (h.symm.trans (startCommit_unlocks hlo)) Bool.false_ne_true
  | true =>
    have hptr : ptrAdd b.last recordSize < 2 ^ 64 := Nat.mod_lt _ (by decide)
    have hl : ptrSub (t.allocate (ptrAdd b.last recordSize)) b.last =
        (recordSize + t.parts.sum) % 2 ^ 64 := by
      rw [Transaction.allocate, foldl_ptrAdd hptr]
      simp only [ptrSub, ptrAdd, recordSize]
      omega
    have hlen : { b with locked := true }.last = b.last := rfl
    simp only [Buffer.prepSyscallForFd, if_true, Buffer.prepSyscall, true_and,
      Buffer.startCommitBufferedSyscall, hlen, hl]
    by_cases hw : ptrAdd b.last (storedRecordSize ((recordSize + t.parts.sum) % 2 ^ 64)) <
        ptrAdd b.last recordSize
    · simp only [hw, if_true, Bool.false_eq_true, if_false]
    simp only [hw, if_false, iff_false, Bool.not_eq_true]
    by_cases ho : ptrAdd b.last (storedRecordSize ((recordSize + t.parts.sum) % 2 ^ 64)) >
        ptrSub { b with locked := true }.end_ recordSize
    · simp only [if_pos ho, Bool.false_eq_true, if_false]
    · simp only [if_neg ho, if_true]
      rfl

theorem transactAll_unlocked_iff (h : b.locked = false)
    (hm : ∀ e ∈ made.dropLast, e.1.parts = []) :
    (b.transactAll made).1.locked = false ↔ Unwrapped b made := by
  induction made generalizing b with
  | nil => exact iff_of_true h trivial
  | cons e rest ih =>
    have hh : (b.transact e.1 e.2).1.locked = false ↔ ¬ e.1.Wraps b := by
      rw [← locked_transact h (r := e.2), Bool.not_eq_true]
    cases rest with
    | nil => exact hh.trans (and_iff_left trivial).symm
    | cons e' rest =>
      have he : ¬ e.1.Wraps b := Transaction.not_wraps (hm e mem_cons_self)
      have hr := ih (hh.mpr he) fun x hx => hm x (mem_cons_of_mem _ hx)
      exact hr.trans (and_iff_right he).symm

/-- Only the last transaction of a ha has more in its record than the header. -/
theorem parts_of_mem_dropLast (c : Caller) (call : SyscallInfo) :
    ∀ t ∈ (syscallHookInternal c call).dropLast, t.parts = [] := by
  have hsh : ∀ ts : List Transaction, ts.length ≤ 1 → ∀ t ∈ ts.dropLast, t.parts = [] := by
    intro ts hts t ht
    have hlen : ts.dropLast.length = 0 := by rw [length_dropLast]; omega
    rw [length_eq_zero_iff.mp hlen] at ht
    cases ht
  have hr : ∀ t ∈ (sysRead c call).dropLast, t.parts = [] := by
    rw [sysRead, unlessForced]
    split
    · exact hsh _ (Nat.zero_le _)
    intro t ht
    rw [dropLast_concat, sysReadCloned] at ht
    split at ht
    · simp only [mem_cons, not_mem_nil, or_false] at ht
      obtain rfl | rfl | rfl := ht <;> rfl
    · cases ht
  rw [syscallHookInternal]
  split
  all_goals first
    | with_reducible exact hr
    | apply hsh
  all_goals try simp only [sysCreat, sysOpen, sysOpenat, open_, sysFcntl, sysFcntl64NoOutparams,
    sysFcntl64OwnEx, sysFcntl64Setlk64, sysFcntl64Setlkw64, sysFutex, sysIoctl, sysMadvise,
    sysMprotect, sysPtrace, sysQuotactl, sysRecvfrom, sysRecvmsg, sysRtSigprocmask, sysSendmsg,
    sysSendto, sysSetsockopt, sysWrite, sysWritev, sending, unlessForced]
  all_goals repeat' split
  all_goals first
    | exact Nat.le_refl 1
    | exact Nat.zero_le 1

/-- The buffer after the hook, with the transactions that the handler has come to. -/
def Buffer.afterHook (b : Buffer) (made : List (Transaction × Result)) : Buffer :=
  if b.start = 0 ∨ b.locked = true ∨ b.lockedByTracer = true then b else (b.transactAll made).1

theorem hook_unlocks_iff (c : Caller) (call : SyscallInfo) (b : Buffer)
    (made : List (Transaction × Result))
    (hmade : (made.map Prod.fst).Sublist (syscallHookInternal c call))
    (htracee : b.locked = false) (htracer : b.lockedByTracer = false) :
    (b.afterHook made).locked = false ↔ b.start = 0 ∨ Unwrapped b made := by
  have hp : ∀ e ∈ made.dropLast, e.1.parts = [] := by
    intro e he
    have hsub := hmade.reverse.tail
    rw [tail_reverse, tail_reverse, reverse_sublist, ← map_dropLast] at hsub
    exact parts_of_mem_dropLast c call e.1 (hsub.subset (mem_map_of_mem he))
  rw [Buffer.afterHook, htracee, htracer]
  by_cases hst : b.start = 0
  · rw [if_pos (.inl hst)]
    exact iff_of_true htracee (.inl hst)
  · rw [if_neg (by simp [hst]), transactAll_unlocked_iff htracee hp]
    exact (or_iff_right hst).symm

theorem hook_unlocks_iff_received : ((receiving 5).transactions.map Prod.fst).Sublist
      (syscallHookInternal (receiving 5).caller (receiving 5).info) ∧
    ((emptyBuffer.afterHook (receiving 5).transactions).locked = false ↔
      emptyBuffer.start = 0 ∨ Unwrapped emptyBuffer (receiving 5).transactions) := by
  have hm : ((receiving 5).transactions.map Prod.fst).Sublist
      (syscallHookInternal (receiving 5).caller (receiving 5).info) := by
    rw [HookCall.transactions, map_fst_zip (by decide)]
  exact ⟨hm, hook_unlocks_iff _ _ _ _ hm rfl rfl⟩

def hugeRead : HookCall where
  caller := (receiving 0).caller
  info := ⟨0, fun i => [3, 8192, 2 ^ 64 - 24].getD i 0⟩
  results := [⟨-14, false, false⟩]
  reset := false

/-- It is traced, and the buffer stays locked. -/
theorem huge_read_stays_locked :
    hugeRead.transactions.map Prod.fst = syscallHookInternal hugeRead.caller hugeRead.info ∧
    emptyBuffer.locked = false ∧ emptyBuffer.lockedByTracer = false ∧
    (syscallHook emptyBuffer hugeRead).2 = [] ∧
    (emptyBuffer.afterHook hugeRead.transactions).locked = true := by
  refine ⟨map_fst_zip (by decide), rfl, rfl, by decide, by decide⟩

end

structure Wait where
  ret : Int
  events : List Nat
  failedDuringPreparation : Bool := false
  deriving DecidableEq

structure EpollCall where
  hasEvents : Bool
  maxEvents : Int
  timeout : Int
  deriving DecidableEq

structure EpollSeen where
  ret : Int
  events : Nat → Nat
  traced : Bool

def storeEvents (buffer : Nat → Nat) (events : List Nat) : Nat → Nat :=
  fun i => if i < events.length then events.getD i 0 else buffer i

def eintr : Int := 4

namespace EpollCall

def copied (call : EpollCall) (w : Wait) : List Nat :=
  if call.hasEvents = false ∨ call.maxEvents ≤ 0 then []
  else if epollBytes w.ret ≤ 0 ∨ w.failedDuringPreparation = true then []
  else w.events.take (epollBytes w.ret / 12).toNat

def tracedWait (traced : Wait) (buffer : Nat → Nat) : EpollSeen :=
  ⟨traced.ret, storeEvents buffer traced.events, true⟩

/-- `sys_epoll_wait`, with what the untraced wait and a traced one bring. -/
def sysEpollWait (call : EpollCall) (accepted : Bool) (buffer : Nat → Nat) (attempt traced : Wait) :
    EpollSeen :=
  if accepted = false then tracedWait traced buffer
  else
    let buffer := storeEvents buffer (call.copied attempt)
    if call.timeout = 0 ∨ (attempt.ret ≠ eintr ∧ attempt.ret ≠ 0) then
      ⟨attempt.ret, buffer, false⟩
    else tracedWait traced buffer

/-- What the kernel does with a wait, and the space that an accepted record has had. -/
structure Allowed (call : EpollCall) (accepted : Bool) (w : Wait) : Prop where
  count : w.events.length = w.ret.toNat
  most : 0 < w.ret → call.hasEvents = true ∧ w.ret ≤ call.maxEvents ∧
    w.failedDuringPreparation = false
  room : accepted = true → call.maxEvents * 12 < 2 ^ 31

end EpollCall

def EpollSeen.Shows (seen : EpollSeen) (w : Wait) : Prop :=
  seen.ret = w.ret ∧ ∀ i < w.events.length, seen.events i = w.events.getD i 0

/-- The caller sees one wait: the untraced one if it has brought events, and a traced one if it has to
wait. -/
structure OneWait (call : EpollCall) (accepted : Bool) (attempt traced : Wait) (seen : EpollSeen) :
    Prop where
  one : seen.Shows (if seen.traced then traced else attempt)
  refused : accepted = false → seen.traced = true
  brought : accepted = true → 0 < attempt.ret → seen.traced = false
  waits : accepted = true → attempt.ret = 0 ∨ attempt.ret = -eintr → call.timeout ≠ 0 →
    seen.traced = true

theorem EpollCall.Allowed.copied_eq {call : EpollCall} (h : call.Allowed true w) :
    call.copied w = w.events := by
  by_cases hret : 0 < w.ret
  · obtain ⟨he, hle, hf⟩ := h.most hret
    have hr := h.room rfl
    have hb : epollBytes w.ret = w.ret * 12 := by
      rw [epollBytes, toInt, Int.bmod_eq_of_le (by omega) (by omega)]
    rw [EpollCall.copied, if_neg (by simp [he]; omega), hb,
      if_neg (by simp [hf]; omega), take_of_length_le]
    rw [h.count]
    omega
  · have hnil : w.events = [] := length_eq_zero_iff.mp (by rw [h.count]; omega)
    rw [EpollCall.copied, hnil]
    split
    · rfl
    · split
      · rfl
      · exact take_nil

theorem shows_storeEvents (buffer : Nat → Nat) (w : Wait) (traced : Bool) :
    EpollSeen.Shows ⟨w.ret, storeEvents buffer w.events, traced⟩ w :=
  ⟨rfl, fun _ hi => if_pos hi⟩

/-- One wait is seen exactly when the untraced one, with a timeout, brings neither four events nor
`EINTR`. -/
theorem one_wait_iff (call : EpollCall) (accepted : Bool) (buffer : Nat → Nat) (attempt traced : Wait)
    (hallowed : call.Allowed accepted attempt) :
    OneWait call accepted attempt traced (call.sysEpollWait accepted buffer attempt traced) ↔
      accepted = false ∨ call.timeout = 0 ∨ (attempt.ret ≠ eintr ∧ attempt.ret ≠ -eintr) := by
  cases accepted with
  | false =>
    refine iff_of_true ⟨shows_storeEvents buffer traced true, fun _ => rfl, ?_, ?_⟩ (.inl rfl)
    · exact fun h => absurd h Bool.false_ne_true
    · exact fun h => absurd h Bool.false_ne_true
  | true =>
    rw [EpollCall.sysEpollWait, if_neg (by decide), hallowed.copied_eq]
    dsimp only
    split
    · next hd =>
      constructor
      · intro h
        by_cases ht : call.timeout = 0
        · exact .inr (.inl ht)
        · have hret := hd.resolve_left ht
          refine .inr (.inr ⟨hret.1, fun hin => ?_⟩)
          exact absurd (h.waits rfl (.inr hin) ht) Bool.false_ne_true
      · intro h
        refine ⟨shows_storeEvents buffer attempt false, fun h => absurd h.symm Bool.false_ne_true,
          fun _ _ => rfl, fun _ hret ht => ?_⟩
        obtain hf | hz | hne := h
        · exact absurd hf.symm Bool.false_ne_true
        · exact absurd hz ht
        · exact hret.elim (fun h => absurd h (hd.resolve_left ht).2)
            fun h => absurd h hne.2
    · next hw =>
      obtain ⟨ht, hret⟩ := not_or.mp hw
      constructor
      · intro h
        refine .inr (.inr ⟨fun he => ?_, fun hin => ?_⟩)
        · have hpos : 0 < attempt.ret := by rw [he]; decide
          exact absurd (h.brought rfl hpos).symm Bool.false_ne_true
        · exact hret ⟨by rw [hin]; decide, by rw [hin]; decide⟩
      · intro h
        have hz : attempt.ret = 0 := by
          obtain hf | hz | hne := h
          · exact absurd hf.symm Bool.false_ne_true
          · exact absurd hz ht
          · exact not_not.mp fun h0 => hret ⟨hne.1, h0⟩
        refine ⟨shows_storeEvents _ traced true, fun _ => rfl, fun _ hpos => ?_, fun _ _ _ => rfl⟩
        rw [hz] at hpos
        exact absurd hpos (Int.lt_irrefl 0)

def waitForEight : EpollCall := ⟨true, 8, -1⟩

theorem waitForEight_allowed (events : List Nat) (h : events.length ≤ 8) :
    waitForEight.Allowed true ⟨events.length, events, false⟩ :=
  ⟨rfl, fun _ => ⟨rfl, Int.ofNat_le.mpr h, rfl⟩, fun _ => by decide⟩

theorem one_wait_iff_three : waitForEight.Allowed true ⟨3, [1, 2, 3], false⟩ ∧
    (OneWait waitForEight true ⟨3, [1, 2, 3], false⟩ ⟨1, [9], false⟩
        (waitForEight.sysEpollWait true (fun _ => 0) ⟨3, [1, 2, 3], false⟩ ⟨1, [9], false⟩) ↔
      true = false ∨ waitForEight.timeout = 0 ∨ ((3 : Int) ≠ eintr ∧ (3 : Int) ≠ -eintr)) := by
  have ha := waitForEight_allowed [1, 2, 3] (by decide)
  exact ⟨ha, one_wait_iff waitForEight true _ _ ⟨1, [9], false⟩ ha⟩

/-- Four events are lost to a second wait, and an interrupted wait is not made again. -/
theorem four_events_lost :
    (waitForEight.sysEpollWait true (fun _ => 0) ⟨4, [1, 2, 3, 4], false⟩ ⟨1, [9], false⟩).ret = 1 ∧
    (waitForEight.sysEpollWait true (fun _ => 0) ⟨4, [1, 2, 3, 4], false⟩ ⟨1, [9], false⟩).events 0 =
      9 ∧
    ¬ OneWait waitForEight true ⟨4, [1, 2, 3, 4], false⟩ ⟨1, [9], false⟩
      (waitForEight.sysEpollWait true (fun _ => 0) ⟨4, [1, 2, 3, 4], false⟩ ⟨1, [9], false⟩) ∧
    ¬ OneWait waitForEight true ⟨-4, [], false⟩ ⟨1, [9], false⟩
      (waitForEight.sysEpollWait true (fun _ => 0) ⟨-4, [], false⟩ ⟨1, [9], false⟩) := by
  refine ⟨by decide, by decide, fun h => ?_, fun h => ?_⟩
  · exact absurd (h.brought rfl (by decide)) (by decide)
  · exact absurd (h.waits rfl (.inr rfl) (by decide)) (by decide)

abbrev SigSet := BitVec 64

def signalBit (sig : Nat) : SigSet := 1#64 <<< (sig - 1)

/-- `SIGKILL` and `SIGSTOP`, which the kernel does not block. -/
def unblockable : SigSet := signalBit 9 ||| signalBit 19

inductive How where
  | block
  | unblock
  | setmask
  | other
  deriving DecidableEq

/-- The mask that the kernel makes of a set; it refuses any other `how`. -/
def kernelMask (how : How) (set mask : SigSet) : Option SigSet :=
  let set := set &&& ~~~unblockable
  match how with
  | .block => some (mask ||| set)
  | .unblock => some (mask &&& ~~~set)
  | .setmask => some set
  | .other => none

inductive Attempt where
  | runs
  | fails
  | again
  deriving DecidableEq

structure SigprocmaskCall where
  how : How
  set : Option SigSet
  untraced : Attempt
  traced : Attempt
  deriving DecidableEq

/-- The mask of the thread in the kernel, and the copy in the header of the buffer. -/
structure SigState where
  mask : SigSet
  blockedSigs : SigSet
  generation : BitVec 32
  deriving DecidableEq

def withoutRrSignals (set : SigSet) : SigSet := set &&& (~~~signalBit 16 &&& ~~~signalBit 30)

namespace SigprocmaskCall

variable (call : SigprocmaskCall)

def modifiedSet : Option SigSet :=
  if call.how = .block ∨ call.how = .setmask then call.set.map withoutRrSignals else call.set

def rtSigprocmask (how : How) (set : Option SigSet) (attempt : Attempt) (mask : SigSet) :
    Option SigSet :=
  if attempt ≠ .runs then none
  else match set with
    | none => some mask
    | some set => kernelMask how set mask

def updatedSet (how : How) (set previous : SigSet) : SigSet :=
  match how with
  | .unblock => previous &&& ~~~set
  | .block => previous ||| set
  | .setmask => set
  | .other => previous

def sysRtSigprocmask (s : SigState) : SigState × Bool :=
  match rtSigprocmask call.how call.modifiedSet call.untraced s.mask with
  | some mask =>
    match call.modifiedSet with
    | none => ({ s with mask }, true)
    | some set => (⟨mask, updatedSet call.how set s.mask, s.generation + 1⟩, true)
  | none =>
    if call.untraced = .again then
      -- in a traced syscall rr leaves its signals out, whatever is done with the set
      match rtSigprocmask call.how (call.set.map withoutRrSignals) call.traced s.mask with
      | some mask => ({ s with mask }, true)
      | none => (s, false)
    else (s, false)

/-- A set to block has no signal the kernel leaves out; a traced one makes the mask what the header
says. -/
def Mirrorable (s : SigState) : Prop :=
  ∀ set, call.set = some set →
    match call.untraced with
    | .runs => call.how = .block ∨ call.how = .setmask → set &&& unblockable = 0
    | .fails => True
    | .again => call.traced = .runs → call.how ≠ .other →
      kernelMask call.how (withoutRrSignals set) s.mask = some s.blockedSigs

end SigprocmaskCall

/-- After each call, once one with a set has succeeded, the header has the mask. -/
def Mirrors : Bool → SigState → List SigprocmaskCall → Prop
  | _, _, [] => True
  | known, s, call :: rest =>
    let (s', succeeded) := call.sysRtSigprocmask s
    let known' := known || (succeeded && call.set.isSome)
    (known' = true → s'.blockedSigs = s'.mask) ∧ Mirrors known' s' rest

def MirrorableRun : SigState → List SigprocmaskCall → Prop
  | _, [] => True
  | s, call :: rest => call.Mirrorable s ∧ MirrorableRun (call.sysRtSigprocmask s).1 rest

section
variable {a b k : SigSet} {call : SigprocmaskCall} {s : SigState}

theorem or_filtered_eq_iff (h : a &&& k = 0) : a ||| b = a ||| (b &&& ~~~k) ↔ b &&& k = 0 := by
  simp only [eq_of_getLsbD_eq_iff, getLsbD_and, getLsbD_or,
    getLsbD_not] at *
  grind

theorem filtered_eq_iff : b = b &&& ~~~k ↔ b &&& k = 0 := by
  simp only [eq_of_getLsbD_eq_iff, getLsbD_and, getLsbD_not]
  grind

theorem and_not_filtered (h : a &&& k = 0) : a &&& ~~~b = a &&& ~~~(b &&& ~~~k) := by
  simp only [eq_of_getLsbD_eq_iff, getLsbD_and, getLsbD_not] at *
  grind

theorem withoutRrSignals_and (set : SigSet) :
    withoutRrSignals set &&& unblockable = set &&& unblockable := by
  rw [withoutRrSignals, BitVec.and_assoc]
  exact congrArg (set &&& ·) (by decide)

theorem kernelMask_and (h : a &&& unblockable = 0) (hm : kernelMask how b a = some m) :
    m &&& unblockable = 0 := by
  cases how
  all_goals cases hm
  all_goals
    simp only [eq_of_getLsbD_eq_iff, getLsbD_and, getLsbD_or,
      getLsbD_not] at *
    grind

theorem rtSigprocmask_and (h : a &&& unblockable = 0)
    (hm : SigprocmaskCall.rtSigprocmask how given attempt a = some m) : m &&& unblockable = 0 := by
  unfold SigprocmaskCall.rtSigprocmask at hm
  split at hm
  · cases hm
  · cases given with
    | none =>
      cases hm
      exact h
    | some set => exact kernelMask_and h hm

theorem sysRtSigprocmask_and (h : s.mask &&& unblockable = 0) :
    (call.sysRtSigprocmask s).1.mask &&& unblockable = 0 := by
  rw [SigprocmaskCall.sysRtSigprocmask]
  split
  · next hm =>
    split
    · exact rtSigprocmask_and h hm
    · exact rtSigprocmask_and h hm
  · split
    · split
      · next hm => exact rtSigprocmask_and h hm
      · exact h
    · exact h

/-- What the header gets is the kernel's mask, unless a signal to block is left out there. -/
theorem updatedSet_eq_iff (h : a &&& unblockable = 0) (hm : kernelMask how b a = some m) :
    SigprocmaskCall.updatedSet how b a = m ↔
      (how = .block ∨ how = .setmask → b &&& unblockable = 0) := by
  cases how with
  | block =>
    cases hm
    exact (or_filtered_eq_iff h).trans ⟨fun hb _ => hb, fun hb => hb (.inl rfl)⟩
  | unblock =>
    cases hm
    exact iff_of_true (and_not_filtered h) fun hhow => by cases hhow <;> contradiction
  | setmask =>
    cases hm
    exact filtered_eq_iff.trans ⟨fun hb _ => hb, fun hb => hb (.inr rfl)⟩
  | other => cases hm

theorem modifiedSet_some (how : How) (set : SigSet) (untraced traced : Attempt) :
    ∃ b, SigprocmaskCall.modifiedSet ⟨how, some set, untraced, traced⟩ = some b ∧
      b &&& unblockable = set &&& unblockable := by
  rw [SigprocmaskCall.modifiedSet]
  split
  · exact ⟨_, rfl, withoutRrSignals_and set⟩
  · exact ⟨set, rfl, rfl⟩

theorem kernelMask_eq_none (h : kernelMask how b a = none) : how = .other := by
  cases how with
  | other => rfl
  | _ => cases h

theorem mirrored_iff (hma : s.mask &&& unblockable = 0)
    (hk : known = true → s.blockedSigs = s.mask) :
    ((known || ((call.sysRtSigprocmask s).2 && call.set.isSome)) = true →
        (call.sysRtSigprocmask s).1.blockedSigs = (call.sysRtSigprocmask s).1.mask) ↔
      call.Mirrorable s := by
  obtain ⟨how, given, untraced, traced⟩ := call
  cases given with
  | none =>
    have hsa : (SigprocmaskCall.sysRtSigprocmask ⟨how, none, untraced, traced⟩ s).1 = s := by
      simp only [SigprocmaskCall.sysRtSigprocmask, SigprocmaskCall.modifiedSet, map_none,
        ite_self, SigprocmaskCall.rtSigprocmask]
      cases untraced <;> cases traced <;> rfl
    rw [hsa, isSome_none, Bool.and_false, Bool.or_false]
    exact iff_of_true hk nofun
  | some set =>
    have hsa : ((known || (false && (some set).isSome)) = true → s.blockedSigs = s.mask) := by
      rw [Bool.false_and, Bool.or_false]
      exact hk
    obtain ⟨b, hset, hand⟩ := modifiedSet_some how set untraced traced
    cases untraced with
    | runs =>
      simp only [SigprocmaskCall.sysRtSigprocmask, hset, SigprocmaskCall.rtSigprocmask,
        SigprocmaskCall.Mirrorable, some.injEq, forall_eq', ← hand]
      cases hm : kernelMask how b s.mask with
      | none =>
        cases kernelMask_eq_none hm
        exact iff_of_true hsa fun hhow => by cases hhow <;> contradiction
      | some m =>
        have heq := updatedSet_eq_iff hma hm
        simpa using heq
    | fails => exact iff_of_true hsa fun _ _ => trivial
    | again =>
      cases traced with
      | runs =>
        simp only [SigprocmaskCall.sysRtSigprocmask, SigprocmaskCall.rtSigprocmask,
          SigprocmaskCall.Mirrorable, some.injEq, forall_eq', map_some]
        cases hm : kernelMask how (withoutRrSignals set) s.mask with
        | none =>
          cases kernelMask_eq_none hm
          exact iff_of_true hsa fun _ h => absurd rfl h
        | some m =>
          have ho : how ≠ .other := by rintro rfl; cases hm
          simp [ho, eq_comm]
      | fails | again => exact iff_of_true hsa fun _ _ h => nomatch h

/-- The header has the mask along a run exactly when no set to block has `SIGKILL` or `SIGSTOP`, and
no traced retry brings another mask. -/
theorem blocked_sigs_mirror_iff (s : SigState) (calls : List SigprocmaskCall)
    (hmask : s.mask &&& unblockable = 0) : Mirrors false s calls ↔ MirrorableRun s calls := by
  have hrun : ∀ known, (known = true → s.blockedSigs = s.mask) →
      (Mirrors known s calls ↔ MirrorableRun s calls) := by
    induction calls generalizing s with
    | nil => exact fun _ _ => Iff.rfl
    | cons call calls ih =>
      intro known hk
      rw [Mirrors, MirrorableRun, ← mirrored_iff hmask hk]
      apply and_congr_right
      intro hn
      exact ih _ (sysRtSigprocmask_and hmask) _ hn
  exact hrun false fun h => absurd h Bool.false_ne_true

theorem blocked_sigs_mirror_iff_block : (⟨1, 0, 0⟩ : SigState).mask &&& unblockable = 0 ∧
    (Mirrors false ⟨1, 0, 0⟩ [⟨.block, some 2, .runs, .fails⟩] ↔
      MirrorableRun ⟨1, 0, 0⟩ [⟨.block, some 2, .runs, .fails⟩]) :=
  ⟨by decide, blocked_sigs_mirror_iff _ _ (by decide)⟩

/-- After all signals are blocked, the header has `SIGKILL` and `SIGSTOP` and the kernel has not. -/
theorem fill_set_not_mirrored :
    let s := (SigprocmaskCall.sysRtSigprocmask ⟨.setmask, some (~~~0), .runs, .fails⟩ ⟨0, 0, 0⟩).1
    s.blockedSigs &&& unblockable = unblockable ∧ s.mask &&& unblockable = 0 ∧
      ¬ Mirrors false ⟨0, 0, 0⟩ [⟨.setmask, some (~~~0), .runs, .fails⟩] := by
  intro s
  refine ⟨by decide, by decide, fun h => ?_⟩
  exact absurd (h.1 rfl) (by decide)

end

end Attune.Syscallbuf
