import Attune.CompressedJobs

namespace Attune.CompressedWriter

theorem le_foldl_min_iff (f : α → Option Nat) (l : List α) (b c : Nat) :
    b ≤ l.foldl (fun c i => ((f i).map (min c)).getD c) c ↔
      b ≤ c ∧ ∀ i ∈ l, ∀ p, f i = some p → b ≤ p := by
  induction l generalizing c with
  | nil => simp
  | cons a l ih =>
    rw [List.foldl_cons, ih]
    cases hf : f a with
    | none => simp [hf]
    | some p => simp [hf, and_assoc]

theorem mod_ne_of_lt_add {a b S : Nat} (hab : a < b) (hb : b < a + S) : a % S ≠ b % S := by
  intro heq
  have hmod := Nat.sub_mod_eq_zero_of_mod_eq heq.symm
  rw [Nat.mod_eq_of_lt (by omega)] at hmod
  omega

def ProducerPc.pending : ProducerPc → List UInt8
  | .inWrite data | .copying _ _ data => data
  | .update _ (.toWrite data) | .recheck _ (.toWrite data) | .waiting _ (.toWrite data) => data
  | _ => []

def ProducerPc.copied : ProducerPc → Nat
  | .copying copied _ _ => copied
  | _ => 0

def ProducerPc.running : ProducerPc → Bool
  | .waiting _ _ | .joining | .closed => false
  | _ => true

namespace State

variable {n : Nat} {s : State n}

theorem le_completedPos_iff : b ≤ s.completedPos ↔
    b ≤ s.nextThreadPos ∧ ∀ i p, (s.threads i).pos = some p → b ≤ p := by
  rw [completedPos, le_foldl_min_iff]
  simp only [List.mem_finRange, true_implies]

theorem completedPos_le_next : s.completedPos ≤ s.nextThreadPos :=
  (le_completedPos_iff.mp (Nat.le_refl _)).1

theorem completedPos_le_pos (h : (s.threads i).pos = some p) : s.completedPos ≤ p :=
  (le_completedPos_iff.mp (Nat.le_refl _)).2 i p h

def ProducerOk (cfg : Config) (s : State n) : Prop :=
  match s.producer with
  | .copying copied amount data =>
    copied ≤ amount ∧ 0 < amount ∧ amount ≤ data.length ∧
      s.producerReservedWritePos + amount ≤ s.producerReservedUptoPos ∧
      s.producerReservedWritePos % cfg.bufferSize + amount ≤ cfg.bufferSize
  | .update flag next =>
    (next = .toClose → s.calls = []) ∧ ∀ data, next = .toWrite data → flag = .wait
  | .recheck flag next | .waiting flag next =>
    flag = .wait ∧ s.producerReservedPos = s.producerReservedWritePos ∧
      (next = .toClose → s.calls = [])
  | .setClosing | .joining | .closed =>
    s.calls = [] ∧ s.producerReservedPos = s.producerReservedWritePos
  | .ready | .inWrite _ => True

def HasWork (cfg : Config) (s : State n) : Prop :=
  s.nextThreadPos < s.nextThreadEndPos ∧
    (s.closing = true ∨ s.nextThreadPos + cfg.blockSize ≤ s.nextThreadEndPos)

def Finished (s : State n) : Prop := s.closing = true ∧ s.nextThreadPos = s.nextThreadEndPos

/-- Safety: the buffer holds the stream from `completedPos` to what is copied, and the reservation
ends one buffer later. -/
structure Core (cfg : Config) (stream : List UInt8) (s : State n) : Prop where
  jobs : Jobs cfg stream s.threads s.nextThreadPos s.file
  nextLe : s.nextThreadPos ≤ s.nextThreadEndPos
  endEq : s.nextThreadEndPos = s.producerReservedPos
  reservedLe : s.producerReservedPos ≤ s.producerReservedWritePos
  writeLe : s.producerReservedWritePos ≤ s.producerReservedUptoPos
  uptoLe : s.producerReservedUptoPos ≤ s.completedPos + cfg.bufferSize
  writtenLe : s.producerReservedWritePos ≤ stream.length
  rest : stream.drop s.producerReservedWritePos = s.producer.pending ++ s.calls.flatten
  ring : ∀ q, s.completedPos ≤ q → q < s.producerReservedWritePos + s.producer.copied →
    stream[q]? = some (s.buffer (q % cfg.bufferSize))
  producerOk : s.ProducerOk cfg
  closing : s.closing = true ↔ s.producer = .joining ∨ s.producer = .closed
  allDone : s.producer = .closed → ∀ i, (s.threads i).pc = .done
  noError : s.error = false
  noWriteError : s.writeError = false

/-- No wakeup is lost: who waits, waits for something that has not happened yet. -/
structure Waits (cfg : Config) (s : State n) : Prop where
  turn : ∀ i l out, (s.threads i).pc = .waitTurn l out →
    ∃ j, posLt (s.threads j).pos (s.threads i).pos
  work : ∀ i, (s.threads i).pc = .waitWork → ¬ s.HasWork cfg ∧ ¬ s.Finished
  done : ∀ i, (s.threads i).pc = .done → s.Finished
  producer : ∀ flag next, s.producer = .waiting flag next →
    s.completedPos + cfg.bufferSize ≤ s.producerReservedPos

structure Inv (cfg : Config) (stream : List UInt8) (s : State n) : Prop where
  core : s.Core cfg stream
  waits : s.Waits cfg

theorem posLt_none_left : ¬ posLt none q := id

section Threads

variable {i : Fin n} {t : Thread}

theorem completedPos_congr {s' : State n} (hn : s'.nextThreadPos = s.nextThreadPos)
    (hpos : ∀ j, (s'.threads j).pos = (s.threads j).pos) : s'.completedPos = s.completedPos := by
  simp only [completedPos, hn, hpos]

theorem setThread_threads (j : Fin n) :
    (s.setThread i t).threads j = if j = i then t else s.threads j :=
  Function.update_apply s.threads i t j

theorem setThread_pos (hpos : t.pos = (s.threads i).pos) (j : Fin n) :
    ((s.setThread i t).threads j).pos = (s.threads j).pos := by
  rw [setThread_threads]
  split
  · rename_i hji
    rw [hji, hpos]
  · rfl

theorem completedPos_setThread (hpos : t.pos = (s.threads i).pos) :
    (s.setThread i t).completedPos = s.completedPos :=
  completedPos_congr rfl (setThread_pos hpos)

theorem Core.withJobs (h : s.Core cfg stream) (hj : Jobs cfg stream ts next fs)
    (hn : next ≤ s.nextThreadEndPos)
    (hc : s.completedPos ≤ State.completedPos
      { s with threads := ts, nextThreadPos := next, file := fs })
    (hd : s.producer = .closed → ∀ i, (ts i).pc = .done) :
    Core cfg stream { s with threads := ts, nextThreadPos := next, file := fs } where
  __ := h
  jobs := hj
  nextLe := hn
  uptoLe := Nat.le_trans h.uptoLe (Nat.add_le_add_right hc _)
  ring q hlo hhi := h.ring q (Nat.le_trans hc hlo) hhi
  allDone := hd

theorem Core.not_closed (h : s.Core cfg stream) (hpc : (s.threads i).pc = pc) (hne : pc ≠ .done) :
    s.producer ≠ .closed := by
  intro hc
  exact hne (hpc.symm.trans (h.allDone hc i))

theorem Core.setThread (h : s.Core cfg stream) (hpos : t.pos = (s.threads i).pos)
    (hjob : t.job = (s.threads i).job)
    (hl : LocalOk cfg stream (delivered s.file) s.nextThreadPos t)
    (hw : ∀ l out p, t.pc = .writing l out → (s.threads i).pos = some p →
      ∀ j q, (s.threads j).pos = some q → p ≤ q)
    (hd : (s.threads i).pc = .done → t.pc = .done) : (s.setThread i t).Core cfg stream := by
  refine h.withJobs (h.jobs.update hpos hjob hl hw) h.nextLe
    (Nat.le_of_eq (completedPos_setThread hpos).symm) fun hc j => ?_
  have hj := h.allDone hc j
  rw [Function.update_apply]
  split
  · rename_i hji
    exact hd (hji ▸ hj)
  · exact hj

theorem Waits.setThread (h : s.Waits cfg) (hpos : t.pos = (s.threads i).pos)
    (ht : ∀ l out, t.pc = .waitTurn l out → ∃ j, posLt (s.threads j).pos t.pos)
    (hw : t.pc = .waitWork → ¬ s.HasWork cfg ∧ ¬ s.Finished)
    (hd : t.pc = .done → s.Finished) : (s.setThread i t).Waits cfg := by
  refine ⟨?_, ?_, ?_, ?_⟩
  · intro j l out hpc
    simp only [setThread_pos hpos]
    rw [setThread_threads] at hpc
    split at hpc
    · rename_i hji
      rw [hji, ← hpos]
      exact ht l out hpc
    · exact h.turn j l out hpc
  · intro j hpc
    rw [setThread_threads] at hpc
    split at hpc
    · exact hw hpc
    · exact h.work j hpc
  · intro j hpc
    rw [setThread_threads] at hpc
    split at hpc
    · exact hd hpc
    · exact h.done j hpc
  · intro flag next hp
    rw [completedPos_setThread hpos]
    exact h.producer flag next hp

theorem completedPos_dispatch (pc : ThreadPc) (hid : (s.threads i).pos = none)
    (hle : s.nextThreadPos ≤ next) :
    State.completedPos { s.setThread i ⟨some s.nextThreadPos, pc⟩ with nextThreadPos := next } =
      s.completedPos := by
  apply Nat.le_antisymm
  · rw [le_completedPos_iff]
    refine ⟨?_, ?_⟩
    · apply completedPos_le_pos (i := i)
      exact congrArg Thread.pos ((setThread_threads i).trans (if_pos rfl))
    · intro j p hj
      apply completedPos_le_pos (i := j)
      have hji : j ≠ i := by
        intro heq
        rw [heq, hid] at hj
        cases hj
      exact (congrArg Thread.pos ((setThread_threads j).trans (if_neg hji))).trans hj
  · rw [le_completedPos_iff]
    refine ⟨Nat.le_trans completedPos_le_next hle, ?_⟩
    intro j p hj
    change ((s.setThread i _).threads j).pos = some p at hj
    rw [setThread_threads] at hj
    split at hj
    · cases hj
      exact completedPos_le_next
    · exact completedPos_le_pos hj

theorem Core.dispatch (h : s.Core cfg stream) (hpc : (s.threads i).pc = .top)
    (hpos : (s.threads i).pos = none) (hlt : s.nextThreadPos < next)
    (hle : next ≤ s.nextThreadEndPos) :
    Core cfg stream { s.setThread i ⟨some s.nextThreadPos, .compressing (next - s.nextThreadPos) []⟩
      with nextThreadPos := next } := by
  have hco := completedPos_dispatch (.compressing (next - s.nextThreadPos) []) hpos
    (Nat.le_of_lt hlt)
  have hst : next ≤ stream.length :=
    calc next ≤ s.nextThreadEndPos := hle
      _ = s.producerReservedPos := h.endEq
      _ ≤ s.producerReservedWritePos := h.reservedLe
      _ ≤ stream.length := h.writtenLe
  have hid : (s.threads i).job = none := by rw [Thread.job, hpc]
  exact h.withJobs (h.jobs.dispatch hid hlt hst) hle (Nat.le_of_eq hco.symm)
    fun hc => absurd hc (h.not_closed hpc fun hd => by cases hd)

theorem Waits.dispatch (h : s.Waits cfg) (hpos : (s.threads i).pos = none) (hw : s.HasWork cfg)
    (hle : s.nextThreadPos ≤ next) :
    Waits cfg { s.setThread i ⟨some s.nextThreadPos, .compressing length []⟩
      with nextThreadPos := next } := by
  -- a thread that waits for work, or has ended, has found none, so only turns can be waited for
  have hn : ¬ s.Finished := fun hfin => absurd hfin.2 (Nat.ne_of_lt hw.1)
  refine ⟨?_, ?_, ?_, ?_⟩
  · intro j l out hpc
    change ((s.setThread i _).threads j).pc = _ at hpc
    rw [setThread_threads] at hpc
    split at hpc
    · cases hpc
    rename_i hji
    obtain ⟨k, hk⟩ := h.turn j l out hpc
    have hki : k ≠ i := by
      intro heq
      rw [heq, hpos] at hk
      exact posLt_none_left hk
    refine ⟨k, ?_⟩
    change posLt ((s.setThread i _).threads k).pos ((s.setThread i _).threads j).pos
    rw [setThread_threads, setThread_threads, if_neg hki, if_neg hji]
    exact hk
  · intro j hpc
    change ((s.setThread i _).threads j).pc = _ at hpc
    rw [setThread_threads] at hpc
    split at hpc
    · cases hpc
    · exact absurd hw (h.work j hpc).1
  · intro j hpc
    change ((s.setThread i _).threads j).pc = _ at hpc
    rw [setThread_threads] at hpc
    split at hpc
    · cases hpc
    · exact absurd (h.done j hpc) hn
  · intro flag next' hp
    rw [completedPos_dispatch _ hpos hle]
    exact h.producer flag next' hp

theorem Core.write (h : s.Core cfg stream) (hpc : (s.threads i).pc = .writing l out) :
    Core cfg stream { s.setThread i { s.threads i with pc := .finished }
      with file := s.file ++ [⟨l, out⟩] } := by
  have hco : State.completedPos { s.setThread i { s.threads i with pc := .finished }
      with file := s.file ++ [⟨l, out⟩] } = s.completedPos :=
    completedPos_congr rfl (setThread_pos (t := { s.threads i with pc := .finished }) rfl)
  exact h.withJobs (h.jobs.write hpc) h.nextLe (Nat.le_of_eq hco.symm)
    fun hc => absurd hc (h.not_closed hpc fun hd => by cases hd)

theorem completedPos_le_setThread_none :
    s.completedPos ≤ (s.setThread i ⟨none, pc⟩).completedPos := by
  rw [le_completedPos_iff]
  refine ⟨completedPos_le_next, ?_⟩
  intro j p hj
  rw [setThread_threads] at hj
  split at hj
  · cases hj
  · exact completedPos_le_pos hj

theorem Core.idle (h : s.Core cfg stream) (hpc : (s.threads i).pc = .finished) :
    (s.setThread i ⟨none, .top⟩).Core cfg stream :=
  h.withJobs (h.jobs.release hpc) h.nextLe completedPos_le_setThread_none
    fun hc => absurd hc (h.not_closed hpc fun hd => by cases hd)

end Threads

section Broadcast

theorem pending_wakeProducer (p : ProducerPc) : (wakeProducer p).pending = p.pending := by
  cases p with
  | waiting flag next => cases next <;> rfl
  | _ => rfl

theorem copied_wakeProducer (p : ProducerPc) : (wakeProducer p).copied = p.copied := by
  cases p <;> rfl

theorem Core.wakeProducer (h : s.Core cfg stream) :
    Core cfg stream { s with producer := State.wakeProducer s.producer } where
  __ := h
  rest := by
    rw [pending_wakeProducer]
    exact h.rest
  ring := by
    simp only [copied_wakeProducer]
    exact h.ring
  producerOk := by
    have hok := h.producerOk
    rw [ProducerOk] at hok ⊢
    cases hp : s.producer with
    | _ =>
      rw [hp] at hok
      exact hok
  closing := by
    have hc := h.closing
    cases hp : s.producer with
    | _ =>
      rw [hp] at hc
      simpa only [State.wakeProducer, reduceCtorEq, or_false, or_self, or_true, true_or] using hc
  allDone := by
    have hd := h.allDone
    cases hp : s.producer with
    | closed =>
      rw [hp] at hd
      exact hd
    | _ =>
      intro hcl
      cases hcl

theorem wakeThread_done : wakeThread pc = .done ↔ pc = .done := by
  cases pc <;> simp [wakeThread]

theorem Core.broadcast (h : s.Core cfg stream) : s.broadcast.Core cfg stream where
  __ := h.wakeProducer
  jobs := h.jobs.wake
  allDone hc i := wakeThread_done.mpr (h.wakeProducer.allDone hc i)

theorem wakeProducer_ne_waiting : State.wakeProducer p ≠ .waiting flag next := by
  cases p <;> exact ProducerPc.noConfusion

theorem wakeThread_ne_waitTurn : wakeThread pc ≠ .waitTurn l out := by
  cases pc <;> exact ThreadPc.noConfusion

theorem wakeThread_ne_waitWork : wakeThread pc ≠ .waitWork := by
  cases pc <;> exact ThreadPc.noConfusion

theorem Waits.of_broadcast (hd : ∀ i, (s.threads i).pc = .done → s.Finished) :
    s.broadcast.Waits cfg where
  turn i l out hpc := absurd hpc wakeThread_ne_waitTurn
  work i hpc := absurd hpc wakeThread_ne_waitWork
  done i hpc := hd i (wakeThread_done.mp hpc)
  producer flag next hp := absurd hp wakeProducer_ne_waiting

end Broadcast

end State

end Attune.CompressedWriter
