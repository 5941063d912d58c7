import Attune.SyscallbufHandlers

namespace Attune.Syscallbuf
open List Option Bool

theorem foldl_ptrAdd (hp : p < 2 ^ 64) (parts : List Nat) :
    parts.foldl ptrAdd p = (p + parts.sum) % 2 ^ 64 := by
  induction parts generalizing p with
  | nil => exact (Nat.mod_eq_of_lt hp).symm
  | cons n parts ih =>
    have hlt : ptrAdd p n < 2 ^ 64 := Nat.mod_lt _ (by decide)
    rw [foldl_cons, ih hlt, ptrAdd, sum_cons, Nat.mod_add_mod, Nat.add_assoc]

structure Valid (b : Buffer) : Prop where
  bound : b.start + b.size < 2 ^ 64
  size : b.size < 2 ^ 32
  aligned : b.numRecBytes % 8 = 0
  room : Trace.syscallbufHdrSize + b.numRecBytes + recordSize ≤ b.size

section
variable {b : Buffer} {t : Transaction} {r : Result}

theorem Valid.last_eq (h : Valid b) : b.last = b.start + Trace.syscallbufHdrSize + b.numRecBytes := by
  have hb := h.bound
  have hr := h.room
  simp only [Buffer.last, ptrAdd, Trace.syscallbufHdrSize, recordSize] at *
  omega

theorem storedRecordSize_spec (h : n + 7 < 2 ^ 64) :
    n ≤ storedRecordSize n ∧ storedRecordSize n < n + 8 ∧ storedRecordSize n % 8 = 0 := by
  simp only [storedRecordSize]
  omega

theorem accepted_of_length (h : Valid b) (hlen : recordSize ≤ n) (hn : n < 2 ^ 64)
    (hsub : ptrSub recordEnd b.last = n)
    (hacc : (b.startCommitBufferedSyscall no recordEnd m).1 = true) :
    Trace.syscallbufHdrSize + b.numRecBytes + storedRecordSize n + recordSize ≤ b.size ∧
      n + 7 < 2 ^ 64 := by
  have hb := h.bound
  have hr := h.room
  simp only [Buffer.startCommitBufferedSyscall, hsub] at hacc
  rw [h.last_eq, Buffer.end_] at hacc
  split at hacc
  · exact absurd hacc false_ne_true
  · split at hacc
    · exact absurd hacc false_ne_true
    · rename_i h₁ h₂
      simp only [storedRecordSize, ptrAdd, ptrSub, Trace.syscallbufHdrSize, recordSize] at *
      omega

theorem startCommit_cases (b : Buffer) (no recordEnd : Nat) (m : Bool) :
    (∃ locked, b.startCommitBufferedSyscall no recordEnd m = (false, { b with locked })) ∨
    ∃ f, b.startCommitBufferedSyscall no recordEnd m = (true, b.modifyRecord f) := by
  simp only [Buffer.startCommitBufferedSyscall]
  split
  · exact .inl ⟨b.locked, rfl⟩
  · split
    · exact .inl ⟨false, rfl⟩
    · exact .inr ⟨_, rfl⟩

theorem refused_of_disabled (h : Valid b) (hn : n < b.start) :
    b.startCommitBufferedSyscall no n m = (false, b) := by
  have hb := h.bound
  have hr := h.room
  have hlt : ptrAdd b.last (storedRecordSize (ptrSub n b.last)) < ptrAdd b.last recordSize := by
    rw [h.last_eq]
    simp only [storedRecordSize, ptrAdd, ptrSub, Trace.syscallbufHdrSize, recordSize] at *
    omega
  simp only [Buffer.startCommitBufferedSyscall]
  rw [if_pos hlt]

theorem commitEnd_spec (hptr : 0 < ptr) (hbo : ptr + t.parts.sum < 2 ^ 64)
    (hw : t.output.Within r) : ∃ e, t.commitEnd ptr r = ptr + e ∧ e ≤ t.parts.sum := by
  have hlt : ptr < 2 ^ 64 := by omega
  have hall : t.allocate ptr = ptr + t.parts.sum := by
    rw [Transaction.allocate, foldl_ptrAdd hlt, Nat.mod_eq_of_lt hbo]
  have hsum : t.parts.sum = t.before.sum + t.output.parts.sum := sum_append
  have hb : t.before.foldl ptrAdd ptr = ptr + t.before.sum := by
    rw [foldl_ptrAdd hlt, Nat.mod_eq_of_lt (by omega)]
  simp only [Transaction.commitEnd, hall, hb]
  cases hout : t.output with
  | whole => exact ⟨t.parts.sum, rfl, Nat.le_refl _⟩
  | buffer len count =>
    rw [hout] at hw hsum
    have hlen : (Output.buffer len count).parts.sum = len := by simp [Output.parts]
    have hc : count r.ret ≤ len := hw
    dsimp only
    rw [copyOutputBuffer, if_neg (by omega)]
    split
    · exact ⟨t.before.sum, rfl, by omega⟩
    · refine ⟨t.before.sum + (count r.ret).toNat, ?_, by omega⟩
      rw [ptrAdd_eq (by omega), Nat.add_assoc]
  | message extra data =>
    rw [hout] at hw hsum
    have hlen : (Output.message extra data).parts.sum = extra.sum + data.sum := sum_append
    have hret : r.ret ≤ data.sum := hw
    dsimp only
    split
    · refine ⟨t.before.sum + extra.sum + r.ret.toNat, ?_, by omega⟩
      rw [foldl_ptrAdd (by omega), Nat.mod_eq_of_lt (by omega), ptrAdd_eq (by omega)]
      omega
    · exact ⟨t.before.sum, rfl, by omega⟩

/-- What a transaction that was accepted does to the buffer: a record of length `e` in a space of
length `n`. -/
structure Committed (b b' : Buffer) (abort : Bool) (n e : Nat) : Prop where
  start : b'.start = b.start
  size : b'.size = b.size
  least : recordSize ≤ e
  within : e ≤ n
  bounded : n + 7 < 2 ^ 64
  fits : Trace.syscallbufHdrSize + b.numRecBytes + storedRecordSize n + recordSize ≤ b.size
  record : (b'.record b.numRecBytes).size = e
  others : ∀ o, o ≠ b.numRecBytes → b'.record o = b.record o
  numRecBytes : b'.numRecBytes =
    if abort then b.numRecBytes else b.numRecBytes + storedRecordSize e

theorem commitRawSyscall_spec (h : Valid b) (hmin : recordSize ≤ e) (he : e ≤ n)
    (hfi : Trace.syscallbufHdrSize + b.numRecBytes + storedRecordSize n + recordSize ≤ b.size)
    (hn : n + 7 < 2 ^ 64) (b₀ : Buffer) (hb₀ : ∃ f, b = b₀.modifyRecord f) (ret : Int) (abort : Bool) :
    Committed b₀ (b.commitRawSyscall (b.last + e) ret abort) abort n e := by
  have hb := h.bound
  have hst := storedRecordSize_spec hn
  have hs' : storedRecordSize e ≤ storedRecordSize n := by
    simp only [storedRecordSize]
    omega
  have hsi := h.size
  have hl := h.last_eq
  have he32 : ptrSub (b.last + e) b.last % 2 ^ 32 = e := by
    rw [ptrSub_eq (by omega) (by omega), Nat.mod_eq_of_lt (by omega)]
    omega
  obtain ⟨f, hf⟩ := hb₀
  have hnum : b.numRecBytes = b₀.numRecBytes := by rw [hf]; rfl
  refine ⟨by rw [hf]; rfl, by rw [hf]; rfl, hmin, he, hn, ?_, ?_, ?_, ?_⟩
  · rw [hnum, show b.size = b₀.size by rw [hf]; rfl] at hfi
    exact hfi
  · simp only [Buffer.commitRawSyscall, Buffer.modifyRecord, hnum, he32, if_pos]
  · intro o ho
    simp only [Buffer.commitRawSyscall, Buffer.modifyRecord, hnum, if_neg ho]
    rw [hf]
    simp only [Buffer.modifyRecord, if_neg ho]
  · simp only [Buffer.commitRawSyscall, he32, hnum]
    cases abort with
    | true => rfl
    | false => exact Nat.mod_eq_of_lt (by omega)

theorem transact_spec (h : Valid b) (hf : t.Fits b.start r) (hal : t.Allowed r) :
    (∃ locked, b.transact t r = ({ b with locked }, none)) ∨
    ∃ b' n e, b.transact t r =
        (b', some ⟨b.numRecBytes, b.last + n, b.last + e, r.abortCommit⟩) ∧
      Committed b b' r.abortCommit n e := by
  have hb := h.bound
  have hro := h.room
  have hla := h.last_eq
  have hwr := hf.noWrap
  rw [Buffer.transact]
  cases hbuf : t.bufferable with
  | false =>
    have hsum := hf.disabled hbuf
    have hall : t.allocate 0 = t.parts.sum := by
      rw [Transaction.allocate, foldl_ptrAdd (by decide), Nat.mod_eq_of_lt (by omega), Nat.zero_add]
    simp only [Buffer.prepSyscallForFd, false_eq_true, if_false, hall,
      refused_of_disabled h hsum]
    exact .inl ⟨b.locked, rfl⟩
  | true =>
    have hw : t.output.Within r := by
      cases hrec : t.receives with
      | false => exact hal hrec
      | true => exact hf.received hrec
    have hlo : Valid { b with locked := true } := ⟨hb, h.size, h.aligned, hro⟩
    have hptr : ptrAdd b.last recordSize = b.last + recordSize := by
      apply ptrAdd_eq
      simp only [Trace.syscallbufHdrSize, recordSize] at *
      omega
    have hl : ptrSub (t.allocate (b.last + recordSize)) b.last = recordSize + t.parts.sum := by
      rw [Transaction.allocate, foldl_ptrAdd (by
        simp only [Trace.syscallbufHdrSize, recordSize] at *
        omega)]
      simp only [ptrSub, Trace.syscallbufHdrSize, recordSize] at *
      omega
    simp only [Buffer.prepSyscallForFd, if_true, Buffer.prepSyscall, hptr]
    obtain ⟨locked, hr⟩ | ⟨f, ha⟩ := startCommit_cases { b with locked := true }
      t.syscallno (t.allocate (b.last + recordSize)) t.mayBlock
    · rw [hr]
      exact .inl ⟨locked, rfl⟩
    have hn : recordSize + t.parts.sum < 2 ^ 64 := hwr
    obtain ⟨hfit, hn7⟩ := accepted_of_length hlo (Nat.le_add_right _ _) hn hl
      (congrArg Prod.fst ha)
    have hst := storedRecordSize_spec hn7
    have hp : b.last + recordSize + t.parts.sum < 2 ^ 64 := by
      have hf' : Trace.syscallbufHdrSize + b.numRecBytes +
        storedRecordSize (recordSize + t.parts.sum) + recordSize ≤ b.size := hfit
      omega
    obtain ⟨e, hend, he⟩ := commitEnd_spec (by simp only [recordSize]; omega) hp hw
    have hall : t.allocate (b.last + recordSize) = b.last + (recordSize + t.parts.sum) := by
      rw [Transaction.allocate, foldl_ptrAdd (by omega), Nat.mod_eq_of_lt hp, Nat.add_assoc]
    have hv : Valid ({ b with locked := true }.modifyRecord f) :=
      ⟨hb, h.size, h.aligned, hro⟩
    have hc := commitRawSyscall_spec hv (Nat.le_add_right recordSize e)
      (Nat.add_le_add_left he _) hfit hn7 { b with locked := true } ⟨f, rfl⟩ r.ret r.abortCommit
    rw [ha, hall, hend, Nat.add_assoc]
    exact .inr ⟨_, _, _, rfl, ⟨hc.start, hc.size, hc.least, hc.within,
      hc.bounded, hc.fits, hc.record, hc.others, hc.numRecBytes⟩⟩

/-- The records at the offsets lie one behind the other, from an offset to the end. -/
def Tiles (record : Nat → Record) (stop : Nat) : List Nat → Nat → Prop
  | [], offset => offset = stop
  | o :: os, offset => o = offset ∧ recordSize ≤ (record o).size ∧ (record o).size + 7 < 2 ^ 64 ∧
    Tiles record stop os (offset + storedRecordSize (record o).size)

section

variable (h : Tiles record stop os offset)
include h

theorem Tiles.le : offset ≤ stop := by
  induction os generalizing offset with
  | nil => exact Nat.le_of_eq h
  | cons o os ih =>
    have := ih h.2.2.2
    omega

theorem Tiles.lt : ∀ o ∈ os, o < stop := by
  induction os generalizing offset with
  | nil => exact fun o ho => (nomatch ho)
  | cons o os ih =>
    obtain ⟨heq, hmin, hmax, hr⟩ := h
    intro o' ho'
    cases ho' with
    | head =>
      have hle := hr.le
      have hst := storedRecordSize_spec hmax
      simp only [recordSize] at hmin
      omega
    | tail _ hmem => exact ih hr o' hmem

theorem Tiles.sizes : ∀ o ∈ os, recordSize ≤ (record o).size := by
  induction os generalizing offset with
  | nil => exact fun o ho => (nomatch ho)
  | cons o os ih =>
    intro o' ho'
    cases ho' with
    | head => exact h.2.1
    | tail _ hmem => exact ih h.2.2.2 o' hmem

end

theorem Tiles.congr {record record' : Nat → Record} (h : Tiles record stop os offset)
    (heq : ∀ o ∈ os, record' o = record o) : Tiles record' stop os offset := by
  induction os generalizing offset with
  | nil => exact h
  | cons o os ih =>
    have ho := heq o mem_cons_self
    rw [Tiles, ho]
    exact ⟨h.1, h.2.1, h.2.2.1, ih h.2.2.2 (fun o' ho' => heq o' (mem_cons_of_mem _ ho'))⟩

theorem Tiles.snoc (h : Tiles record stop os offset) (hmin : recordSize ≤ (record stop).size)
    (hmax : (record stop).size + 7 < 2 ^ 64) :
    Tiles record (stop + storedRecordSize (record stop).size) (os ++ [stop]) offset := by
  induction os generalizing offset with
  | nil =>
    have hoff : offset = stop := h
    rw [hoff]
    exact ⟨rfl, hmin, hmax, rfl⟩
  | cons o os ih => exact ⟨h.1, h.2.1, h.2.2.1, ih h.2.2.2⟩

theorem Tiles.walk_eq (h : Tiles record stop os offset) :
    walk record stop (os.length + 1) offset = some os := by
  induction os generalizing offset with
  | nil =>
    rw [walk]
    exact if_pos h
  | cons o os ih =>
    have hlt := h.lt o mem_cons_self
    obtain ⟨heq, _, _, hr⟩ := h
    rw [walk, if_neg (by omega), ← heq, length_cons, ih (by rw [heq]; rw [heq] at hr; exact hr)]
    rfl

structure Inv (base : Nat) (s : Run) : Prop where
  start : s.buffer.start = base
  valid : Valid s.buffer
  tiles : Tiles s.buffer.record s.buffer.numRecBytes s.committed 0
  ends : ∀ c ∈ s.all, c.recordEnd ≤ c.acceptedEnd

theorem Inv.tiled (h : Inv base s) : Tiled s :=
  ⟨h.ends, h.valid.aligned, h.valid.room, h.tiles.sizes, _, h.tiles.walk_eq⟩

theorem committed_append (s : Run) (commit : Commit) (b : Buffer) (all : List Commit) :
    (Run.mk b (s.commits ++ [commit]) all).committed =
      s.committed ++ (if commit.aborted then [] else [commit.offset]) := by
  simp only [Run.committed, filter_append, map_append]
  cases h : commit.aborted <;> simp [h]

theorem Committed.valid (h : Committed b b' abort n e) (hv : Valid b) : Valid b' := by
  have hb := hv.bound
  have hfit := h.fits
  have hw := h.within
  have hn := h.bounded
  have ha := hv.aligned
  have hr := hv.room
  have hst := storedRecordSize_spec hn
  have hs' : storedRecordSize e ≤ storedRecordSize n ∧ storedRecordSize e % 8 = 0 := by
    simp only [storedRecordSize]
    omega
  refine ⟨by rw [h.start, h.size]; exact hb, by rw [h.size]; exact hv.size, ?_, ?_⟩
  · rw [h.numRecBytes]
    split <;> omega
  · rw [h.numRecBytes, h.size]
    split <;> omega

theorem Committed.tiles (h : Committed b b' abort n e) (hv : Valid b)
    (ht : Tiles b.record b.numRecBytes os 0) :
    Tiles b'.record b'.numRecBytes (os ++ (if abort then [] else [b.numRecBytes])) 0 := by
  have hold : Tiles b'.record b.numRecBytes os 0 :=
    ht.congr fun o ho => h.others o (Nat.ne_of_lt (ht.lt o ho))
  rw [h.numRecBytes]
  cases abort with
  | true =>
    simp only [if_true, append_nil]
    exact hold
  | false =>
    have hn := h.bounded
    have hw := h.within
    simp only [false_eq_true, if_false]
    rw [← h.record]
    exact hold.snoc (by rw [h.record]; exact h.least) (by rw [h.record]; omega)

theorem Inv.transact (h : Inv base s) (hf : t.Fits base r) (ha : t.Allowed r) :
    Inv base ⟨(s.buffer.transact t r).1, s.commits ++ (s.buffer.transact t r).2.toList,
      s.all ++ (s.buffer.transact t r).2.toList⟩ := by
  have hv := h.valid
  rw [← h.start] at hf
  obtain ⟨locked, heq⟩ | ⟨b', n, e, heq, hc⟩ := transact_spec hv hf ha
  · rw [heq]
    simp only [toList, append_nil]
    exact ⟨h.start, ⟨hv.bound, hv.size, hv.aligned, hv.room⟩, h.tiles, h.ends⟩
  rw [heq]
  refine ⟨hc.start.trans h.start, hc.valid hv, ?_, ?_⟩
  · simp only [toList]
    rw [committed_append]
    exact hc.tiles hv h.tiles
  · intro c hmem
    rcases mem_append.mp hmem with hold | hnew
    · exact h.ends c hold
    · rw [mem_singleton.mp hnew]
      exact Nat.add_le_add_left hc.within _

theorem Inv.transactAll (h : Inv base s) (hts : ∀ e ∈ ts, e.1.Fits base e.2 ∧ e.1.Allowed e.2) :
    Inv base ⟨(s.buffer.transactAll ts).1, s.commits ++ (s.buffer.transactAll ts).2,
      s.all ++ (s.buffer.transactAll ts).2⟩ := by
  induction ts generalizing s with
  | nil =>
    simp only [Buffer.transactAll, append_nil]
    exact h
  | cons e ts ih =>
    have he := hts e mem_cons_self
    have hst := ih (h.transact he.1 he.2) fun e' he' => hts e' (mem_cons_of_mem _ he')
    simp only [Buffer.transactAll]
    simp only [append_assoc] at hst
    exact hst

theorem Inv.step (h : Inv base s)
    (hts : ∀ e ∈ call.transactions, e.1.Fits base e.2 ∧ e.1.Allowed e.2) :
    Inv base (s.step call) := by
  have hh : Inv base ⟨(syscallHook s.buffer call).1,
      s.commits ++ (syscallHook s.buffer call).2, s.all ++ (syscallHook s.buffer call).2⟩ := by
    rw [syscallHook]
    split
    · simp only [append_nil]
      exact h
    · exact h.transactAll hts
  rw [Run.step]
  cases hr : call.reset with
  | false => exact hh
  | true =>
    have hro := hh.valid.room
    refine ⟨hh.start, ⟨hh.valid.bound, hh.valid.size, rfl, ?_⟩, rfl, hh.ends⟩
    exact Nat.le_trans (Nat.add_le_add_right (Nat.add_le_add_left (Nat.zero_le _) _) _) hro

theorem Inv.run (h : Inv base s)
    (hc : ∀ call ∈ calls, ∀ e ∈ call.transactions, e.1.Fits base e.2 ∧ e.1.Allowed e.2) :
    Inv base (s.run calls) := by
  induction calls generalizing s with
  | nil => exact h
  | cons call calls ih =>
    exact ih (h.step (hc call mem_cons_self))
      fun call' hc' => hc call' (mem_cons_of_mem _ hc')

structure Empty (b : Buffer) : Prop where
  bound : b.start + b.size < 2 ^ 64
  size : b.size < 2 ^ 32
  room : Trace.syscallbufHdrSize + recordSize ≤ b.size
  numRecBytes : b.numRecBytes = 0

/-- As long as nothing that is received is longer than its buffers, the records tile the buffer. -/
theorem records_tile (hb : Empty b)
    (hallowed : ∀ call ∈ calls, ∀ e ∈ call.transactions, e.1.Allowed e.2)
    (hfits : ∀ call ∈ calls, ∀ e ∈ call.transactions, e.1.Fits b.start e.2) :
    Tiled ((Run.mk b [] []).run calls) := by
  have hin : Inv b.start (Run.mk b [] []) := by
    refine ⟨rfl, ⟨hb.bound, hb.size, ?_, ?_⟩, hb.numRecBytes.symm, fun c hc => (nomatch hc)⟩
    · rw [hb.numRecBytes]
    · rw [hb.numRecBytes]
      exact hb.room
  exact (hin.run fun call hca e he => ⟨hfits call hca e he, hallowed call hca e he⟩).tiled

def emptyBuffer : Buffer := ⟨65536, 4096, 0, false, false, fun _ => ⟨0, 0, false, 0⟩⟩

theorem emptyBuffer_empty : Empty emptyBuffer :=
  ⟨by decide, by decide, by decide, rfl⟩

def receiving (ret : Int) : HookCall where
  caller := ⟨fun _ => false, false, false, fun _ => 0, fun _ => ⟨0, 0, [], 0, 0⟩, fun _ => true,
    fun _ => true, 0, -1, 0⟩
  info := ⟨45, fun i => [3, 8192, 8, 32, 0, 0].getD i 0⟩
  results := [⟨ret, false, false⟩]
  reset := false

theorem transactions_receiving (ret : Int) : (receiving ret).transactions =
    [({ syscallno := 45, mayBlock := true, receives := true, output := .buffer 8 toInt },
      ⟨ret, false, false⟩)] := by
  simp only [HookCall.transactions, receiving, syscallHookInternal]
  rfl

theorem records_tile_received : Empty emptyBuffer ∧
    (∀ call ∈ [receiving 5], ∀ e ∈ call.transactions, e.1.Allowed e.2) ∧
    (∀ call ∈ [receiving 5], ∀ e ∈ call.transactions, e.1.Fits emptyBuffer.start e.2) ∧
    Tiled ((Run.mk emptyBuffer [] []).run [receiving 5]) := by
  have ha : ∀ call ∈ [receiving 5], ∀ e ∈ call.transactions, e.1.Allowed e.2 := by
    intro call hc e he
    rw [mem_singleton.mp hc, transactions_receiving] at he
    rw [mem_singleton.mp he]
    exact fun h => absurd h.symm false_ne_true
  have hf : ∀ call ∈ [receiving 5], ∀ e ∈ call.transactions, e.1.Fits emptyBuffer.start e.2 := by
    intro call hc e he
    rw [mem_singleton.mp hc, transactions_receiving] at he
    rw [mem_singleton.mp he]
    refine ⟨by decide, fun h => absurd h.symm false_ne_true, fun _ => ?_⟩
    rw [Output.Within, toInt]
    decide
  exact ⟨emptyBuffer_empty, ha, hf, records_tile emptyBuffer_empty ha hf⟩

/-- A message of 5000 bytes moves the end of the records out of the buffer. -/
theorem truncated_receive_overruns :
    ((Run.mk emptyBuffer [] []).run [receiving 5000]).all = [⟨0, 65590, 70582, false⟩] ∧
    ((Run.mk emptyBuffer [] []).run [receiving 5000]).buffer.numRecBytes = 5016 ∧
    ¬ Tiled ((Run.mk emptyBuffer [] []).run [receiving 5000]) := by
  refine ⟨by decide, by decide, fun h => ?_⟩
  exact absurd h.room (by decide)

end

end Attune.Syscallbuf
