import Attune.RecordTask

namespace Attune.Trace.RecordTask
open List Option Bool

structure RawRecord where
  addr : Nat
  data : List UInt8
  deriving DecidableEq

section

variable (s : RecordTask)

def writeRaws (records : List RawRecord) : RecordTask :=
  records.foldl (fun s r => s.writeRaw r.addr r.data) s

def memWrite (r : RawRecord) : MemWriteMsg := ⟨s.recTid, r.addr, r.data.length⟩

def buffer : RawRecord :=
  ⟨s.syscallbufChild, s.tracee.bytes s.syscallbufChild
    (syscallbufHdrSize + s.tracee.read32 s.syscallbufChild)⟩

def recordUnlessNull (addr : Nat) (data : List UInt8) : List RawRecord :=
  if addr = 0 then [] else [⟨addr, data⟩]

def own : RecordCall → List RawRecord
  | .recordLocal addr data => recordUnlessNull addr data
  | .recordRemote addr numBytes => recordUnlessNull addr (s.tracee.bytes addr numBytes.toNat)
  | .recordRemoteWritable addr numBytes =>
    recordUnlessNull addr
      (s.tracee.bytes addr ((writableBytes s.vm addr numBytes).getD 0).toNat)
  | .recordRemoteFallible addr numBytes =>
    if s.vm.localMapping addr numBytes.toNat then
      recordUnlessNull addr (s.tracee.bytes addr numBytes.toNat)
    else [⟨addr, if addr = 0 then [] else s.tracee.readBytesFallible addr numBytes.toNat⟩]
  | .recordRemoteEvenIfNull addr numBytes =>
    [⟨addr, if addr = 0 then [] else s.tracee.bytes addr numBytes.toNat⟩]

def ownAll : List RecordCall → RecordTask → List RawRecord
  | [], _ => []
  | call :: calls, s => s.own call ++ (match s.record call with
    | none => []
    | some s => ownAll calls s)

def FlushDue : Prop :=
  s.isFlushing = false ∧ s.syscallbufChild ≠ 0 ∧ s.tracee.read32 s.syscallbufChild ≠ 0 ∧
    s.flushedSyscallbuf = false

instance : Decidable s.FlushDue := by unfold FlushDue; infer_instance

/-- The records of the calls are in the event's frame behind those waiting; earlier flush frames
have the buffer only. -/
structure Attributed (s s₁ s' : RecordTask) (calls : List RecordCall) (ev : Event) : Prop where
  attached : ∃ s₂, s₁.maybeFlushSyscallbuf = some s₂ ∧
    (∃ between, s₂.writer.events = s.writer.events ++ between ∧
      ∀ f ∈ between, (∃ records, f.event = .syscallbufFlush records) ∧
        f.memWrites = [s.memWrite s.buffer]) ∧
    ∃ frame after, s'.writer.events = s₂.writer.events ++ frame :: after ∧
      toTraceEvent s.state.arch ev = some frame.event ∧
      frame.memWrites = (s.writer.rawRecs.map fun r => ⟨r.recTid, r.addr, r.size⟩) ++
        (ownAll calls s).map s.memWrite
  data : s'.writer.rawData = s.writer.rawData ++ (if s.FlushDue then s.buffer.data else []) ++
    (ownAll calls s).flatMap RawRecord.data

def Flushes : RecordCall → Prop
  | .recordRemoteFallible addr numBytes => s.vm.localMapping addr numBytes.toNat = true
  | _ => True

end

section
variable {s s' : RecordTask}

theorem writeRaws_eq (s : RecordTask) (records : List RawRecord) : s.writeRaws records =
    { s with writer := { s.writer with
        rawRecs := s.writer.rawRecs ++ records.map fun r => ⟨r.addr, r.data.length, s.recTid⟩
        rawData := s.writer.rawData ++ records.flatMap RawRecord.data } } := by
  induction records generalizing s with
  | nil =>
    rw [map_nil, flatMap_nil, append_nil, append_nil]
    rfl
  | cons r records ih =>
    rw [writeRaws, foldl_cons, ← writeRaws, ih, writeRaw, Writer.writeRaw]
    simp only [map_cons, flatMap_cons, append_assoc, singleton_append]

theorem writeRaws_append (s : RecordTask) (l r : List RawRecord) :
    (s.writeRaws l).writeRaws r = s.writeRaws (l ++ r) := by
  rw [writeRaws, writeRaws, writeRaws, foldl_append]

theorem writeRaws_unlessNull (s : RecordTask) (addr : Nat) (data : List UInt8) :
    s.writeRaws (recordUnlessNull addr data) = if addr = 0 then s else s.writeRaw addr data := by
  rw [recordUnlessNull]
  by_cases h : addr = 0
  · rw [if_pos h, if_pos h]
    rfl
  · rw [if_neg h, if_neg h]
    rfl

theorem readMem_some {t : Tracee} (h : t.readMem addr n = some buf) : buf = t.bytes addr n := by
  rw [Tracee.readMem] at h
  split at h
  · exact (some.inj h).symm
  · exact nomatch h

theorem recordBytes_eq {flush : RecordTask → Option RecordTask}
    (hno : ∀ s', flush s = some s' → s' = s) (ha : addr ≠ 0)
    (h : s.recordBytes flush addr n = some s') : s' = s.writeRaw addr (s.tracee.bytes addr n) := by
  rw [recordBytes] at h
  split at h
  · rw [recordLocal] at h
    obtain ⟨s₁, hf, hs'⟩ := bind_eq_some_iff.mp h
    rw [hno s₁ hf, if_neg ha] at hs'
    exact (some.inj hs').symm
  · obtain ⟨buf, hr, hs'⟩ := bind_eq_some_iff.mp h
    rw [readMem_some hr] at hs'
    exact (some.inj hs').symm

theorem alreadyFlushing_eq (h : s.alreadyFlushing = some s') : s' = s := by
  rw [alreadyFlushing] at h
  split at h
  · exact (some.inj h).symm
  · exact nomatch h

theorem maybeFlush_of_not_due (hdue : ¬ s.FlushDue) (h : s.maybeFlushSyscallbuf = some s') :
    s' = s := by
  rw [maybeFlushSyscallbuf] at h
  split at h
  · exact (some.inj h).symm
  next hfl =>
  split at h
  · exact (some.inj h).symm
  next hc =>
  obtain ⟨_, _, h⟩ := bind_eq_some_iff.mp h
  dsimp only at h
  have hd : s.tracee.read32 s.syscallbufChild = 0 ∨ s.flushedSyscallbuf = true := by
    by_cases hnum : s.tracee.read32 s.syscallbufChild = 0
    · exact .inl hnum
    · apply Or.inr
      cases hf : s.flushedSyscallbuf with
      | true => rfl
      | false =>
        exact absurd ⟨eq_false_iff.mpr hfl, hc, hnum, hf⟩ hdue
  obtain ⟨ha, h⟩ := ite_none_left_eq_some.mp h
  rw [if_pos hd] at h
  exact (some.inj h).symm

theorem writeEvent_some (h : s.writeEvent ev registers = some s') : ∃ frame,
    toTraceEvent s.state.arch ev = some frame.event ∧
    frame.memWrites = (s.writer.rawRecs.map fun r => ⟨r.recTid, r.addr, r.size⟩) ∧
    s' = { s with writer := { s.writer with
      rawRecs := []
      events := s.writer.events ++ [frame]
      globalTime := s.writer.globalTime + 1 } } := by
  obtain ⟨writer, hw, hs'⟩ := bind_eq_some_iff.mp h
  obtain ⟨event, he, hwr⟩ := bind_eq_some_iff.mp hw
  rw [← some.inj hs', ← some.inj hwr]
  exact ⟨_, he, rfl, rfl⟩

theorem recordSyscallbuf_eq (h : s.recordSyscallbuf n = some s') (hc : s.syscallbufChild ≠ 0) :
    s' = s.writeRaw s.syscallbufChild (s.tracee.bytes s.syscallbufChild n) := by
  rw [recordSyscallbuf] at h
  split at h
  · obtain ⟨buf, hr, h⟩ := bind_eq_some_iff.mp h
    obtain ⟨s₁, hf, hs'⟩ := bind_eq_some_iff.mp h
    rw [alreadyFlushing_eq hf, if_neg hc, readMem_some hr] at hs'
    exact (some.inj hs').symm
  · obtain ⟨s₁, hf, h⟩ := bind_eq_some_iff.mp h
    rw [alreadyFlushing_eq hf, if_neg (Int.not_lt.mpr (Int.natCast_nonneg n)), if_neg hc] at h
    exact recordBytes_eq (fun _ => alreadyFlushing_eq) hc h

theorem maybeFlush_of_due (hdue : s.FlushDue) (h : s.maybeFlushSyscallbuf = some s') :
    ∃ vm frame, (∃ records, frame.event = .syscallbufFlush records) ∧
      frame.memWrites = (s.writer.rawRecs.map fun r => ⟨r.recTid, r.addr, r.size⟩) ++
        [s.memWrite s.buffer] ∧
      s' = { s with
        vm
        flushedSyscallbuf := true
        flushedNumRecBytes := s.tracee.read32 s.syscallbufChild
        writer := { s.writer with
          rawRecs := []
          rawData := s.writer.rawData ++ s.buffer.data
          events := s.writer.events ++ [frame]
          globalTime := s.writer.globalTime + 1 } } := by
  obtain ⟨hflu, hc, hnum, hfl⟩ := hdue
  rw [maybeFlushSyscallbuf, if_neg (eq_false_iff.mp hflu), if_neg hc] at h
  obtain ⟨_, _, h⟩ := bind_eq_some_iff.mp h
  dsimp only at h
  have hf : ¬ s.flushedSyscallbuf = true := eq_false_iff.mp hfl
  rw [if_neg (fun h => hf h.1), if_neg (fun h => h.elim hnum hf)] at h
  obtain ⟨vm, _, h⟩ := bind_eq_some_iff.mp h
  obtain ⟨s₁, hr, h⟩ := bind_eq_some_iff.mp h
  obtain ⟨s₂, hw, hs'⟩ := bind_eq_some_iff.mp h
  have hs₁ := recordSyscallbuf_eq hr hc
  obtain ⟨frame, he, hmem, hs₂⟩ := writeEvent_some hw
  refine ⟨vm, frame, ⟨_, (some.inj he).symm⟩, ?_, ?_⟩
  · rw [hmem, hs₁]
    exact map_append
  · rw [← some.inj hs', hs₂, hs₁]
    rfl

theorem after_maybeFlush (h : s.maybeFlushSyscallbuf = some s') :
    ¬ s'.FlushDue ∧ s'.tracee = s.tracee := by
  by_cases hdue : s.FlushDue
  · obtain ⟨vm, frame, _, _, hs'⟩ := maybeFlush_of_due hdue h
    rw [hs']
    exact ⟨fun hd' => false_ne_true hd'.2.2.2.symm, rfl⟩
  · rw [maybeFlush_of_not_due hdue h]
    exact ⟨hdue, rfl⟩

theorem record_of_flushes (hc : s.Flushes call) (h : s.record call = some s') :
    ∃ s₁, s.maybeFlushSyscallbuf = some s₁ ∧ s' = s₁.writeRaws (s.own call) := by
  have hq {s₁ : RecordTask} (hf : s.maybeFlushSyscallbuf = some s₁) (s₂ : RecordTask)
      (h : s₁.maybeFlushSyscallbuf = some s₂) : s₂ = s₁ :=
    maybeFlush_of_not_due (after_maybeFlush hf).1 h
  have hr {addr : Nat} {n : Int} (h : s.recordRemote maybeFlushSyscallbuf addr n = some s') :
      ∃ s₁, s.maybeFlushSyscallbuf = some s₁ ∧
        s' = s₁.writeRaws (recordUnlessNull addr (s.tracee.bytes addr n.toNat)) := by
    obtain ⟨s₁, hf, h⟩ := bind_eq_some_iff.mp h
    refine ⟨s₁, hf, ?_⟩
    rw [writeRaws_unlessNull, ← (after_maybeFlush hf).2]
    obtain ⟨hneg, h⟩ := ite_none_left_eq_some.mp h
    by_cases ha : addr = 0
    · rw [if_pos ha] at h ⊢
      exact (some.inj h).symm
    · rw [if_neg ha] at h ⊢
      exact recordBytes_eq (hq hf) ha h
  have hl {addr : Nat} {data : List UInt8}
      (h : s.recordLocal maybeFlushSyscallbuf addr data = some s') :
      ∃ s₁, s.maybeFlushSyscallbuf = some s₁ ∧ s' = s₁.writeRaws (recordUnlessNull addr data) := by
    obtain ⟨s₁, hf, h⟩ := bind_eq_some_iff.mp h
    refine ⟨s₁, hf, ?_⟩
    rw [writeRaws_unlessNull]
    exact (some.inj h).symm
  cases call with
  | recordLocal addr data => exact hl h
  | recordRemote addr numBytes => exact hr h
  | recordRemoteWritable addr numBytes =>
    rw [record, recordRemoteWritable] at h
    obtain ⟨hneg, h⟩ := ite_none_left_eq_some.mp h
    obtain ⟨n, hn, h⟩ := bind_eq_some_iff.mp h
    rw [own, hn]
    exact hr h
  | recordRemoteFallible addr numBytes =>
    rw [Flushes] at hc
    rw [record, recordRemoteFallible] at h
    obtain ⟨hneg, h⟩ := ite_none_left_eq_some.mp h
    rw [if_pos hc] at h
    rw [own, if_pos hc]
    exact hl h
  | recordRemoteEvenIfNull addr numBytes =>
    obtain ⟨s₁, hf, h⟩ := bind_eq_some_iff.mp h
    refine ⟨s₁, hf, ?_⟩
    rw [own, ← (after_maybeFlush hf).2]
    by_cases ha : addr = 0
    · rw [if_pos ha] at h ⊢
      exact (some.inj h).symm
    · rw [if_neg ha] at h ⊢
      obtain ⟨hneg, h⟩ := ite_none_left_eq_some.mp h
      exact recordBytes_eq (hq hf) ha h

theorem record_of_not_flushes (hc : ¬ s.Flushes call) (h : s.record call = some s') :
    ∃ r, s.own call = [r] ∧ s' = s.writeRaws [r] := by
  cases call with
  | recordRemoteFallible addr numBytes =>
    rw [Flushes] at hc
    rw [record, recordRemoteFallible] at h
    obtain ⟨hneg, h⟩ := ite_none_left_eq_some.mp h
    rw [if_neg hc] at h
    rw [own, if_neg hc]
    exact ⟨_, rfl, (some.inj h).symm⟩
  | _ => exact absurd trivial hc

theorem flushDue_writeRaws : (s.writeRaws records).FlushDue ↔ s.FlushDue := by
  rw [writeRaws_eq]
  exact Iff.rfl

theorem recordAll_of_not_due (hdue : ¬ s.FlushDue) (h : recordAll calls s = some s') :
    s' = s.writeRaws (ownAll calls s) := by
  induction calls generalizing s with
  | nil => exact (some.inj h).symm
  | cons call calls ih =>
    obtain ⟨s₁, hr, h⟩ := bind_eq_some_iff.mp h
    have hs₁ : s₁ = s.writeRaws (s.own call) := by
      by_cases hc : s.Flushes call
      · obtain ⟨s₂, hf, hs₁⟩ := record_of_flushes hc hr
        rw [hs₁, maybeFlush_of_not_due hdue hf]
      · obtain ⟨r, hown, hs₁⟩ := record_of_not_flushes hc hr
        rw [hs₁, hown]
    have hd₁ : ¬ s₁.FlushDue := by
      rw [hs₁, flushDue_writeRaws]
      exact hdue
    rw [ih hd₁ h, ownAll, hr, ← writeRaws_append, ← hs₁]

theorem flush_after_recordAll (hdue : ¬ s.FlushDue) (h : recordAll calls s = some s₁)
    (hf : s₁.maybeFlushSyscallbuf = some s₂) : s₂ = s.writeRaws (ownAll calls s) := by
  have hs₁ := recordAll_of_not_due hdue h
  rw [maybeFlush_of_not_due _ hf, hs₁]
  rw [hs₁, flushDue_writeRaws]
  exact hdue

theorem recordAll_of_flushes_first (hfi : ∀ call ∈ calls.head?, s.Flushes call)
    (h : recordAll calls s = some s₁) (hfl : s₁.maybeFlushSyscallbuf = some s₂) :
    ∃ f, s.maybeFlushSyscallbuf = some f ∧ s₂ = f.writeRaws (ownAll calls s) := by
  cases calls with
  | nil =>
    rw [← some.inj h] at hfl
    exact ⟨s₂, hfl, rfl⟩
  | cons call calls =>
    obtain ⟨s₀, hr, h⟩ := bind_eq_some_iff.mp h
    obtain ⟨f, hf, hs₀⟩ := record_of_flushes (hfi call rfl) hr
    have hq : ¬ s₀.FlushDue := by
      rw [hs₀, flushDue_writeRaws]
      exact (after_maybeFlush hf).1
    refine ⟨f, hf, ?_⟩
    rw [flush_after_recordAll hq h hfl, hs₀, ownAll, hr, ← writeRaws_append, ← hs₀]

theorem recordAll_of_due (hdue : s.FlushDue) (h : recordAll calls s = some s₁)
    (hfl : s₁.maybeFlushSyscallbuf = some s₂) :
    ∃ frame, s₂.writer.events = s.writer.events ++ [frame] ∧
      s.writer.rawRecs.length + 1 ≤ frame.memWrites.length ∧
      (frame.memWrites.length = 1 → ∀ call ∈ calls.head?, s.Flushes call) := by
  have hgo {calls : List RecordCall} {s : RecordTask} (hdue : s.FlushDue)
      (hfi : ∀ call ∈ calls.head?, s.Flushes call) (h : recordAll calls s = some s₁) :
      ∃ frame, s₂.writer.events = s.writer.events ++ [frame] ∧
        s.writer.rawRecs.length + 1 ≤ frame.memWrites.length ∧
        (frame.memWrites.length = 1 → ∀ call ∈ calls.head?, s.Flushes call) := by
    obtain ⟨f, hf, hs₂⟩ := recordAll_of_flushes_first hfi h hfl
    obtain ⟨vm, frame, _, hmem, hf⟩ := maybeFlush_of_due hdue hf
    refine ⟨frame, by rw [hs₂, hf, writeRaws_eq], ?_, fun _ => hfi⟩
    rw [hmem, length_append, length_map]
    exact Nat.le_refl _
  induction calls generalizing s with
  | nil => exact hgo hdue (by simp) h
  | cons call calls ih =>
    by_cases hc : s.Flushes call
    · exact hgo hdue (by simpa using hc) h
    obtain ⟨s₀, hr, h⟩ := bind_eq_some_iff.mp h
    obtain ⟨r, _, hs₀⟩ := record_of_not_flushes hc hr
    have hd₀ : s₀.FlushDue := by
      rw [hs₀, flushDue_writeRaws]
      exact hdue
    obtain ⟨frame, he, hlen, _⟩ := ih hd₀ h
    rw [hs₀, writeRaws_eq] at he hlen
    rw [length_append, length_map, length_singleton] at hlen
    exact ⟨frame, he, by omega, fun hone => by omega⟩

theorem read32_eq_zero {t : Tracee} (h : ∀ a, addr ≤ a → a < addr + 4 → t.memory a = 0) :
    t.read32 addr = 0 := by
  have hb (i : Nat) (hi : i < 4) : t.memory (addr + i) = 0 := h _ (by omega) (by omega)
  rw [Tracee.read32, Tracee.bytes, show range 4 = [0, 1, 2, 3] from rfl]
  simp only [map_cons, map_nil, foldr_cons, foldr_nil, hb 0 (by omega),
    hb 1 (by omega), hb 2 (by omega), hb 3 (by omega)]
  rfl

theorem maybeReset_writer (h : s.maybeResetSyscallbuf = some s') :
    ∃ after, s'.writer.events = s.writer.events ++ after ∧ s'.writer.rawData = s.writer.rawData := by
  rw [maybeResetSyscallbuf] at h
  split at h
  · obtain ⟨s₁, hr, h⟩ := bind_eq_some_iff.mp h
    obtain ⟨s₂, hf, h⟩ := bind_eq_some_iff.mp h
    have hs₁ : s₁.writer = s.writer ∧ ¬ s₁.FlushDue := by
      rw [resetSyscallbuf] at hr
      dsimp only at hr
      split at hr
      · next hc =>
        rw [← some.inj hr]
        exact ⟨rfl, fun hdue => hdue.2.1 hc⟩
      next hc =>
      obtain ⟨hl, hr⟩ := ite_none_left_eq_some.mp hr
      rw [← some.inj hr]
      refine ⟨rfl, fun hdue => hdue.2.2.1 (read32_eq_zero ?_)⟩
      intro a h₁ h₂
      exact if_pos (.inr (.inl ⟨h₁, Nat.lt_of_lt_of_le h₂ (Nat.add_le_add_left (by decide) _)⟩))
    rw [maybeFlush_of_not_due hs₁.2 hf] at h
    obtain ⟨frame, _, _, hs'⟩ := writeEvent_some h
    rw [hs', ← hs₁.1]
    exact ⟨[frame], rfl, rfl⟩
  · rw [some.inj h]
    exact ⟨[], (append_nil _).symm, rfl⟩

theorem recordEvent_frame (h : s.recordEvent ev allowReset registers = some s') :
    ∃ s₂, s.maybeFlushSyscallbuf = some s₂ ∧ s'.writer.rawData = s₂.writer.rawData ∧
      ∃ frame after, s'.writer.events = s₂.writer.events ++ frame :: after ∧
        toTraceEvent s₂.state.arch ev = some frame.event ∧
        frame.memWrites = (s₂.writer.rawRecs.map fun r => ⟨r.recTid, r.addr, r.size⟩) := by
  obtain ⟨s₂, hf, h⟩ := bind_eq_some_iff.mp h
  obtain ⟨s₃, hw, h⟩ := bind_eq_some_iff.mp h
  obtain ⟨frame, hev, hmem, hs₃⟩ := writeEvent_some hw
  have ha : ∃ after, s'.writer.events = s₃.writer.events ++ after ∧
      s'.writer.rawData = s₃.writer.rawData := by
    split at h
    · exact maybeReset_writer h
    · rw [some.inj h]
      exact ⟨[], (append_nil _).symm, rfl⟩
  obtain ⟨after, he, hd⟩ := ha
  rw [hs₃] at he hd
  refine ⟨s₂, hf, hd, frame, after, ?_, hev, hmem⟩
  rw [he, append_assoc]
  rfl

theorem memWrites_writeRaws (s : RecordTask) (records : List RawRecord) :
    (s.writeRaws records).writer.rawRecs.map (fun r => (⟨r.recTid, r.addr, r.size⟩ : MemWriteMsg)) =
      (s.writer.rawRecs.map fun r => ⟨r.recTid, r.addr, r.size⟩) ++ records.map s.memWrite := by
  rw [writeRaws_eq, List.map_append, List.map_map]
  rfl

theorem attributed_of_not_due (hdue : ¬ s.FlushDue) (hc : recordAll calls s = some s₁)
    (hev : s₁.recordEvent ev allowReset registers = some s') : Attributed s s₁ s' calls ev := by
  obtain ⟨s₂, hfl, hd, frame, after, heve, he, hmem⟩ := recordEvent_frame hev
  have hs₂ := flush_after_recordAll hdue hc hfl
  constructor
  · refine ⟨s₂, hfl, ⟨[], ?_, fun f hf => (nomatch hf)⟩, frame, after, heve, ?_, ?_⟩
    · rw [hs₂, writeRaws_eq, append_nil]
    · rw [hs₂, writeRaws_eq] at he
      exact he
    · rw [hmem, hs₂, memWrites_writeRaws]
  · rw [hd, hs₂, writeRaws_eq, if_neg hdue, append_nil]

theorem attributed_of_due (hdue : s.FlushDue) (hraw : s.writer.rawRecs = [])
    (hfi : ∀ call ∈ calls.head?, s.Flushes call) (hc : recordAll calls s = some s₁)
    (hev : s₁.recordEvent ev allowReset registers = some s') : Attributed s s₁ s' calls ev := by
  obtain ⟨s₂, hfl, hd, frame, after, heve, he, hmem⟩ := recordEvent_frame hev
  obtain ⟨f, hf, hs₂⟩ := recordAll_of_flushes_first hfi hc hfl
  obtain ⟨vm, flushed, hflu, hb, hf⟩ := maybeFlush_of_due hdue hf
  constructor
  · refine ⟨s₂, hfl, ⟨[flushed], ?_, ?_⟩, frame, after, heve, ?_, ?_⟩
    · rw [hs₂, writeRaws_eq, hf]
    · intro frame' hf'
      rw [mem_singleton.mp hf', hb, hraw]
      exact ⟨hflu, rfl⟩
    · rw [hs₂, writeRaws_eq, hf] at he
      exact he
    · rw [hmem, hs₂, memWrites_writeRaws, hf, hraw]
      rfl
  · rw [hd, hs₂, writeRaws_eq, hf, if_pos hdue]

theorem Attributed.flushes_first (h : Attributed s s₁ s' calls ev) (hdue : s.FlushDue)
    (hc : recordAll calls s = some s₁) :
    s.writer.rawRecs = [] ∧ ∀ call ∈ calls.head?, s.Flushes call := by
  obtain ⟨s₂, hfl, ⟨between, hb, hsi⟩, _⟩ := h.attached
  obtain ⟨frame, he, hlen, hf⟩ := recordAll_of_due hdue hc hfl
  -- the one frame that was flushed has only one record
  have hone : frame.memWrites.length = 1 := by
    rw [hb] at he
    have hmem : frame ∈ between := by
      rw [append_cancel_left he]
      exact mem_singleton.mpr rfl
    rw [(hsi frame hmem).2]
    rfl
  rw [hone] at hlen
  exact ⟨length_eq_zero_iff.mp (by omega), hf hone⟩

/-- The records of the calls go to the frame of the event unless something else is written before the
buffer is flushed. -/
theorem raw_records_attributed_iff (hcalls : recordAll calls s = some s₁)
    (hev : s₁.recordEvent ev allowReset registers = some s') :
    Attributed s s₁ s' calls ev ↔
      (s.FlushDue → s.writer.rawRecs = [] ∧ ∀ call ∈ calls.head?, s.Flushes call) := by
  constructor
  · exact fun h hdue => h.flushes_first hdue hcalls
  · intro h
    by_cases hdue : s.FlushDue
    · exact attributed_of_due hdue (h hdue).1 (h hdue).2 hcalls hev
    · exact attributed_of_not_due hdue hcalls hev

/-- A stopped task with 16 bytes of records in its buffer, none of them flushed. -/
def unflushed : RecordTask where
  recTid := 1
  state := ⟨1, 0, .x86_64⟩
  regs := []
  extraRegs := []
  vm := {}
  tracee := ⟨fun _ => true, fun a => if a = 4096 then 16 else 0⟩
  syscallbufChild := 4096
  mprotectRecords := []
  isRunning := false
  lockedInSyscall := false
  flushedSyscallbuf := false
  flushedNumRecBytes := 0
  delaySyscallbufResetForDesched := false
  delaySyscallbufResetForSeccompTrap := false
  pendingEvents := [.sentinel]
  writer := .initial

theorem raw_records_attributed_iff_remote : ∃ s₁ s',
    recordAll [.recordRemote 8192 4] unflushed = some s₁ ∧
    s₁.recordEvent .sched true none = some s' ∧
    (Attributed unflushed s₁ s' [.recordRemote 8192 4] .sched ↔
      (unflushed.FlushDue → unflushed.writer.rawRecs = [] ∧
        ∀ call ∈ [RecordCall.recordRemote 8192 4].head?, unflushed.Flushes call)) := by
  have hr : ((recordAll [.recordRemote 8192 4] unflushed).bind
      (·.recordEvent .sched true none)).isSome = true := by decide
  obtain ⟨s', hs'⟩ := isSome_iff_exists.mp hr
  obtain ⟨s₁, hs₁, hev⟩ := bind_eq_some_iff.mp hs'
  exact ⟨s₁, s', hs₁, hev, raw_records_attributed_iff hs₁ hev⟩

/-- The record of a read that may fail is written before the flush, and goes to the flush frame. -/
theorem fallible_record_in_flush : ((recordAll [.recordRemoteFallible 8192 4] unflushed).bind
      (·.recordEvent .sched true none)).map
        (fun s => s.writer.events.map fun f => (f.event, f.memWrites)) =
      some [(.syscallbufFlush [], [⟨1, 8192, 4⟩, ⟨1, 4096, 46⟩]), (.sched, []),
        (.syscallbufReset, [])] := by
  decide

end

end Attune.Trace.RecordTask
