import Attune.CompressedSafety

namespace Attune.CompressedWriter
open ProducerPc List Function

def ThreadPc.rank : ThreadPc → Nat
  | .waitWork | .waitTurn _ _ | .finished | .done => 0
  | .top | .writing _ _ => 1
  | .turn _ _ => 2
  | .compressing length input => length - input.length + 3

def ProducerPc.rank : ProducerPc → Nat
  | .closed => 0
  | .joining | .setClosing | .update _ _ | .waiting _ _ => 1
  | .ready => 2
  | .copying copied amount _ => amount - copied + 1
  | .inWrite data => data.length + 3
  | .recheck _ (.toWrite data) => data.length + 4
  | .recheck _ _ => 3

def Return.broadcasts : Return → Nat
  | .toWrite _ => 3
  | .toReady => 2
  | .toClose => 1

/-- The broadcasts the producer can still send, apart from those for bytes and calls to come. -/
def ProducerPc.broadcasts (reservation : Nat) : ProducerPc → Nat
  | .ready => 2
  | .inWrite _ => if reservation = 0 then 4 else 3
  | .copying _ _ _ => 3
  | .update _ next => next.broadcasts + 1
  | .recheck _ next | .waiting _ next => next.broadcasts
  | .setClosing => 1
  | .joining | .closed => 0

/-- A thread with a position will send a broadcast when it gives it up. -/
def Thread.broadcasts (t : Thread) : Nat := if t.pos.isSome then 1 else 0

theorem sum_update {n : Nat} (f : Thread → Nat) (threads : Fin n → Thread) (i : Fin n) (t : Thread) :
    ∑ j, f (update threads i t j) + f (threads i) = ∑ j, f (threads j) + f t := by
  have hnew := Finset.add_sum_erase Finset.univ (fun j => f (update threads i t j))
    (Finset.mem_univ i)
  have hold := Finset.add_sum_erase Finset.univ (fun j => f (threads j)) (Finset.mem_univ i)
  have hr : ∑ j ∈ Finset.univ.erase i, f (update threads i t j) =
      ∑ j ∈ Finset.univ.erase i, f (threads j) := by
    apply Finset.sum_congr rfl
    intro j hj
    rw [update_of_ne (Finset.ne_of_mem_erase hj)]
  simp only [update_self] at hnew
  omega

namespace State

variable {n : Nat} {s s' : State n} {next : Return}

def Progress (cfg : Config) (s s' : State n) : Prop :=
  producerStep cfg s = some s' ∨ ∃ i, threadStep cfg s i = some s'

def budget (total : Nat) (s : State n) : Nat :=
  2 * (total - s.producerReservedWritePos) + 3 * s.calls.length +
    s.producer.broadcasts (s.producerReservedUptoPos - s.producerReservedWritePos) +
    2 * (total - s.nextThreadPos) + ∑ i, (s.threads i).broadcasts

def work (s : State n) : Nat := s.producer.rank + ∑ i, (s.threads i).pc.rank

def Decreases (total : Nat) (s s' : State n) : Prop :=
  s'.budget total < s.budget total ∨ (s'.budget total ≤ s.budget total ∧ s'.work < s.work)

theorem decreases_setThread {i : Fin n} {t : Thread} (hpos : t.pos = (s.threads i).pos)
    (hr : t.pc.rank < (s.threads i).pc.rank) : Decreases total s (s.setThread i t) := by
  right
  have hsum := sum_update Thread.broadcasts s.threads i t
  have hw := sum_update (fun t => t.pc.rank) s.threads i t
  have hsa : t.broadcasts = (s.threads i).broadcasts := by
    rw [Thread.broadcasts, Thread.broadcasts, hpos]
  simp only [budget, work, setThread]
  omega

theorem budget_broadcast (total : Nat) (s : State n) : s.broadcast.budget total = s.budget total := by
  have hp : ∀ r, (wakeProducer s.producer).broadcasts r = s.producer.broadcasts r := by
    intro r
    cases s.producer <;> rfl
  have ht : ∀ t : Thread, Thread.broadcasts { t with pc := wakeThread t.pc } = t.broadcasts :=
    fun _ => rfl
  simp only [budget, broadcast, hp, ht]

theorem Inv.decreases_threadMove (h : s.Inv cfg stream) (hb : 0 < cfg.blockSize)
    (hm : ThreadMove cfg s i s') : Decreases stream.length s s' := by
  have hl := h.core.jobs.localOk i
  cases hm with
  | dispatch hpc hw hn =>
    left
    have hlt := hw.1
    have hbo : s.nextThreadEndPos ≤ stream.length := by
      rw [h.core.endEq]
      exact Nat.le_trans h.core.reservedLe h.core.writtenLe
    have hsum := sum_update Thread.broadcasts s.threads i
      ⟨some s.nextThreadPos, .compressing (min s.nextThreadEndPos
        (s.nextThreadPos + cfg.blockSize) - s.nextThreadPos) []⟩
    have hone : ∀ pc, Thread.broadcasts ⟨some s.nextThreadPos, pc⟩ = 1 := fun _ => rfl
    rw [hone] at hsum
    subst hn
    simp only [budget, State.setThread]
    omega
  | finish hpc | sleep hpc => exact decreases_setThread rfl (by rw [hpc]; exact Nat.zero_lt_one)
  | read hpc hlt hby =>
    refine decreases_setThread rfl ?_
    rw [hpc]
    simp only [ThreadPc.rank, length_append, length_singleton]
    omega
  | compress hpc hge =>
    refine decreases_setThread rfl ?_
    rw [hpc]
    simp only [ThreadPc.rank]
    omega
  | waitTurn hpc he => exact decreases_setThread rfl (by rw [hpc]; exact Nat.zero_lt_two)
  | takeTurn hpc hf => exact decreases_setThread rfl (by rw [hpc]; exact Nat.one_lt_two)
  | write hpc =>
    have hr : ThreadPc.finished.rank < (s.threads i).pc.rank := by
      rw [hpc]
      exact Nat.zero_lt_one
    have hdec : Decreases stream.length s (s.setThread i { s.threads i with pc := .finished }) :=
      decreases_setThread rfl hr
    simp only [Decreases, budget, work, State.setThread] at hdec ⊢
    exact hdec
  | release hpc =>
    left
    rw [LocalOk, hpc] at hl
    obtain ⟨p, hp, _⟩ := hl
    have hsum := sum_update Thread.broadcasts s.threads i ⟨none, .top⟩
    have hone : (s.threads i).broadcasts = 1 := by
      rw [Thread.broadcasts, hp]
      rfl
    have hz : Thread.broadcasts ⟨none, .top⟩ = 0 := rfl
    rw [hone, hz] at hsum
    rw [State.release, budget_broadcast]
    simp only [budget, State.setThread]
    omega

theorem budget_checkReservation (cfg : Config) (total : Nat) (he : s.error = false) (hw : s.writeError = false)
    (hr : s.producerReservedPos = s.producerReservedWritePos)
    (hf : ∀ data, next = .toWrite data → flag = .wait) :
    (s.checkReservation cfg flag next).budget total +
        s.producer.broadcasts (s.producerReservedUptoPos - s.producerReservedWritePos) =
      s.budget total + next.broadcasts := by
  rw [checkReservation_eq he hw]
  have hn : broadcasts
      (s.completedPos + cfg.bufferSize - s.producerReservedWritePos)
      (if s.producerReservedPos < s.completedPos + cfg.bufferSize ∨ flag = .noWait then
        returnTo next else .waiting flag next) = next.broadcasts := by
    split
    · rename_i hc
      cases next with
      | toWrite data =>
        have hlt : s.producerReservedPos < s.completedPos + cfg.bufferSize := by
          rcases hc with hlt | hno
          · exact hlt
          · rw [hf data rfl] at hno
            cases hno
        simp only [returnTo, broadcasts, Return.broadcasts]
        rw [if_neg (by omega)]
      | toReady | toClose => rfl
    · rfl
  simp only [budget, hn]
  omega

theorem work_checkReservation (he : s.error = false) (hw : s.writeError = false)
    (hp : s.producer = .recheck flag next) : (s.checkReservation cfg flag next).work < s.work := by
  rw [checkReservation_eq he hw]
  have hr : rank
      (if s.producerReservedPos < s.completedPos + cfg.bufferSize ∨ flag = .noWait then
        returnTo next else .waiting flag next) < (recheck flag next).rank := by
    split
    all_goals
      cases next
      all_goals
        simp only [returnTo, rank]
        omega
  simp only [work, hp]
  omega

theorem Inv.decreases_update (h : s.Inv cfg stream) (hp : s.producer = .update flag next) :
    ((broadcast { s with
      nextThreadEndPos := s.producerReservedWritePos
      producerReservedPos := s.producerReservedWritePos }).checkReservation cfg flag next).budget
        total < s.budget total := by
  have hok := h.core.producerOk
  rw [ProducerOk, hp] at hok
  let opened : State n := { s with
    nextThreadEndPos := s.producerReservedWritePos
    producerReservedPos := s.producerReservedWritePos }
  have hb : opened.broadcast.budget total = s.budget total := budget_broadcast total opened
  have hpr : opened.broadcast.producer = .update flag next := by
    change wakeProducer s.producer = _
    rw [hp]
    rfl
  have hc := budget_checkReservation cfg total (s := opened.broadcast) h.core.noError
    h.core.noWriteError rfl hok.2
  rw [hpr, hb] at hc
  change _ + (next.broadcasts + 1) = _ at hc
  change (opened.broadcast.checkReservation cfg flag next).budget total < _
  omega

theorem Inv.decreases_producerMove (h : s.Inv cfg stream) (hm : ProducerMove cfg s s') :
    Decreases stream.length s s' := by
  have hok := h.core.producerOk
  rw [ProducerOk] at hok
  cases hm with
  | call hp hc =>
    left
    simp only [budget, hp, hc, broadcasts, length_cons]
    split <;> omega
  | close hp hc =>
    right
    simp only [budget, work, hp, broadcasts, Return.broadcasts, rank]
    omega
  | reserve hp hd he =>
    right
    simp only [budget, work, hp, he, broadcasts, Return.broadcasts, rank,
      if_true]
    omega
  | startCopy hp hd hr ha =>
    right
    simp only [budget, work, hp, broadcasts, rank]
    rw [if_neg hr]
    omega
  | flush hp =>
    right
    simp only [budget, work, hp, broadcasts, Return.broadcasts, rank]
    split <;> omega
  | back hp =>
    left
    simp only [budget, hp, broadcasts]
    split <;> omega
  | copy hp hlt =>
    right
    simp only [budget, work, hp, broadcasts, rank]
    omega
  | endCopy hp hge =>
    left
    have hw := (h.core.endCopy hp hge).writtenLe
    rw [hp] at hok
    obtain ⟨_, hpos, _⟩ := hok
    simp only at hw
    simp only [budget, hp, broadcasts]
    split <;> omega
  | update hp => exact .inl (h.decreases_update hp)
  | @recheck flag next hp =>
    rw [hp] at hok
    obtain ⟨hwa, hre, _⟩ := hok
    have hf : ∀ data, next = .toWrite data → flag = .wait := fun _ _ => hwa
    have hb := budget_checkReservation cfg stream.length h.core.noError h.core.noWriteError
      hre hf
    rw [hp] at hb
    simp only [broadcasts] at hb
    exact .inr ⟨by omega, work_checkReservation h.core.noError h.core.noWriteError hp⟩
  | setClosing hp =>
    left
    have hb := budget_broadcast stream.length
      { s with closing := true, producer := .joining }
    simp only [budget, broadcast, wakeProducer, hp, broadcasts] at hb ⊢
    omega
  | join hp hdo =>
    right
    simp only [budget, work, hp, broadcasts, rank]
    omega

theorem Inv.decreases (h : s.Inv cfg stream) (hb : 0 < cfg.blockSize)
    (hne : ∀ b, b ≠ [] → cfg.compress b ≠ []) (hst : Progress cfg s s') :
    Decreases stream.length s s' := by
  rcases hst with hst | ⟨i, hst⟩
  · exact h.decreases_producerMove (producerStep_move h.core.noError hst)
  · exact h.decreases_threadMove hb (h.move_of_threadStep hne hst)

theorem Progress.step (h : Progress cfg s s') : Step cfg s s' := by
  rcases h with h | ⟨i, h⟩
  · exact .producer h
  · exact .thread i h

/-- From every state the writer takes only finitely many steps without spurious wakeups. -/
theorem Inv.acc (hb : 0 < cfg.blockSize) (hne : ∀ b, b ≠ [] → cfg.compress b ≠ [])
    (h : s.Inv cfg stream) : Acc (fun s' s => Progress cfg s s') s := by
  -- the induction is on the budget first and on the work within one budget
  induction hm : toLex (s.budget stream.length, s.work) using WellFoundedLT.induction
    generalizing s with
  | ind m ih =>
    subst hm
    refine .intro s fun s' hst => ih _ ?_ (h.step hb hne hst.step) rfl
    rw [Prod.Lex.toLex_lt_toLex']
    rcases h.decreases hb hne hst with hlt | ⟨hle, hlt⟩
    · exact ⟨Nat.le_of_lt hlt, fun heq => absurd heq (Nat.ne_of_lt hlt)⟩
    · exact ⟨hle, fun _ => hlt⟩

theorem not_forever (h : Acc (fun s' s => Progress cfg s s') s) :
    ∀ run : Nat → State n, run 0 = s → ∃ k, ¬ Progress cfg (run k) (run (k + 1)) := by
  induction h with
  | intro s _ ih =>
    intro run hrun
    by_cases hst : Progress cfg s (run 1)
    · obtain ⟨k, hk⟩ := ih (run 1) hst (fun k => run (k + 1)) rfl
      exact ⟨k + 1, hk⟩
    · exact ⟨0, by rw [hrun]; exact hst⟩

theorem threadStep_enabled (cfg : Config) {i : Fin n} (hw : (s.threads i).pc ≠ .waitWork)
    (ht : ∀ l out, (s.threads i).pc ≠ .waitTurn l out) (hd : (s.threads i).pc ≠ .done) :
    ∃ s', threadStep cfg s i = some s' := by
  rw [threadStep]
  cases hpc : (s.threads i).pc with
  | waitWork => exact absurd hpc hw
  | waitTurn l out => exact absurd hpc (ht l out)
  | done => exact absurd hpc hd
  | top | compressing length input | turn length output =>
    simp only
    repeat' split
    all_goals exact ⟨_, rfl⟩
  | writing length output | finished => exact ⟨_, rfl⟩

theorem producerStep_enabled (cfg : Config) (hrun : s.producer.running = true) :
    ∃ s', producerStep cfg s = some s' := by
  rw [producerStep]
  cases hp : s.producer with
  | waiting flag next | joining | closed =>
    rw [hp] at hrun
    cases hrun
  | ready | inWrite data | copying copied amount data =>
    simp only
    repeat' split
    all_goals exact ⟨_, rfl⟩
  | update flag next | recheck flag next | setClosing => exact ⟨_, rfl⟩

theorem exists_first (ha : (s.threads i).pos = some p) :
    ∃ j, (s.threads j).pos ≠ none ∧ ¬ ∃ k, posLt (s.threads k).pos (s.threads j).pos := by
  induction p using Nat.strong_induction_on generalizing i with
  | h p ih =>
    by_cases he : ∃ k, posLt (s.threads k).pos (s.threads i).pos
    · obtain ⟨k, hk⟩ := he
      cases hq : (s.threads k).pos with
      | none =>
        rw [hq] at hk
        exact absurd hk posLt_none_left
      | some q =>
        rw [hq, ha] at hk
        exact ih q hk hq
    · exact ⟨i, by rw [ha]; exact Option.some_ne_none p, he⟩

theorem Inv.progress (h : s.Inv cfg stream) (hb : 0 < cfg.blockSize) (hn : 0 < n)
    (ho : s.producer ≠ .closed) :
    ∃ s', Progress cfg s s' := by
  by_contra hstuck
  have ht : ∀ i, (s.threads i).pc = .waitWork ∨
      (∃ l out, (s.threads i).pc = .waitTurn l out) ∨ (s.threads i).pc = .done := by
    intro i
    by_contra hpc
    simp only [not_or, not_exists] at hpc
    obtain ⟨s', hs'⟩ := threadStep_enabled cfg hpc.1 hpc.2.1 hpc.2.2
    exact hstuck ⟨s', .inr ⟨i, hs'⟩⟩
  have hid : ∀ i, (s.threads i).pos = none := by
    intro i
    cases hpos : (s.threads i).pos with
    | none => rfl
    | some p =>
      -- the earliest thread at work cannot be waiting for its turn
      obtain ⟨j, ha, hf⟩ := exists_first hpos
      have hl := h.core.jobs.localOk j
      rcases ht j with hpc | ⟨l, out, hpc⟩ | hpc
      · rw [LocalOk, hpc] at hl
        exact absurd hl ha
      · exact absurd (h.waits.turn j l out hpc) hf
      · rw [LocalOk, hpc] at hl
        exact absurd hl ha
  have hw : ∀ i, (s.threads i).pc = .waitWork ∨ (s.threads i).pc = .done := by
    intro i
    rcases ht i with hpc | ⟨l, out, hpc⟩ | hpc
    · exact .inl hpc
    · have hl := h.core.jobs.localOk i
      rw [LocalOk, hpc, hid i] at hl
      obtain ⟨p, hp, _⟩ := hl
      cases hp
    · exact .inr hpc
  have hne := h.core.nextLe
  have he := h.core.endEq
  cases hp : s.producer with
  | closed => exact ho hp
  | joining =>
    have hc := h.core.closing.mpr (.inl hp)
    by_cases hall : ∀ i, (s.threads i).pc = .done
    · have hj : ∃ s', producerStep cfg s = some s' := by
        simp only [producerStep, hp, if_pos hall]
        exact ⟨_, rfl⟩
      obtain ⟨s', hs'⟩ := hj
      exact hstuck ⟨s', .inl hs'⟩
    · rw [not_forall] at hall
      obtain ⟨i, hi⟩ := hall
      obtain ⟨hnon, hno⟩ := h.waits.work i ((hw i).resolve_right hi)
      have hge : ¬ s.nextThreadPos < s.nextThreadEndPos := fun hlt => hnon ⟨hlt, .inl hc⟩
      exact hno ⟨hc, by omega⟩
  | waiting flag next =>
    -- the buffer is full, so there is more than a block for the thread that waits for work
    have hfu := h.waits.producer flag next hp
    have hnot : ¬ s.closing = true := by
      intro hc
      rcases h.core.closing.mp hc with heq | heq
      all_goals
        rw [hp] at heq
        cases heq
    have hco : s.nextThreadPos ≤ s.completedPos := by
      rw [le_completedPos_iff]
      refine ⟨Nat.le_refl _, fun i p hpos => ?_⟩
      rw [hid i] at hpos
      cases hpos
    have hi := (hw ⟨0, hn⟩).resolve_right fun hd => hnot (h.waits.done _ hd).1
    have hbl : cfg.blockSize ≤ cfg.bufferSize := Nat.le_mul_of_pos_right _ (Nat.succ_pos _)
    exact (h.waits.work _ hi).1 ⟨by omega, .inr (by omega)⟩
  | ready | inWrite data | copying copied amount data | update flag next | recheck flag next
  | setClosing =>
    obtain ⟨s', hs'⟩ := producerStep_enabled cfg (s := s) (by rw [hp]; rfl)
    exact hstuck ⟨s', .inl hs'⟩

theorem Reachable.completes {calls : List (List UInt8)} {s : State cfg.numThreads}
    (h : Reachable cfg calls s) (hb : 0 < cfg.blockSize) (ht : 0 < cfg.numThreads)
    (hne : ∀ b, b ≠ [] → cfg.compress b ≠ []) :
    ∃ s', Reachable cfg calls s' ∧ s'.producer = .closed := by
  have hacc := (h.inv hb hne).acc hb hne
  induction hacc with
  | intro s _ ih =>
    by_cases hc : s.producer = .closed
    · exact ⟨s, h, hc⟩
    · obtain ⟨s', hst⟩ := (h.inv hb hne).progress hb ht hc
      exact ih s' hst (.step h hst.step)

/-- A byte in the buffer that is not handed out, or that its thread has not come to. -/
def Unread (s : State n) (q : Nat) : Prop :=
  (s.nextThreadPos ≤ q ∧ q < s.producerReservedWritePos + s.producer.copied) ∨
    ∃ i p length input, (s.threads i).pos = some p ∧
      (s.threads i).pc = .compressing length input ∧ p + input.length ≤ q ∧ q < p + length

theorem Inv.unread_bounds (h : s.Inv cfg stream) (hq : s.Unread q) :
    s.completedPos ≤ q ∧ q < s.producerReservedWritePos + s.producer.copied := by
  rcases hq with ⟨hlo, hhi⟩ | ⟨i, p, length, input, hp, hpc, hlo, hhi⟩
  · exact ⟨Nat.le_trans completedPos_le_next hlo, hhi⟩
  have hl := h.core.jobs.localOk i
  rw [LocalOk, hpc] at hl
  obtain ⟨p', hp', ⟨_, _, hne⟩, _⟩ := hl
  cases hp.symm.trans hp'
  have hc := completedPos_le_pos hp
  have hn := h.core.nextLe
  have he := h.core.endEq
  have hr := h.core.reservedLe
  omega

end State

def decompressed (decompress : List UInt8 → List UInt8) (file : List Block) : List UInt8 :=
  (file.map fun block => decompress block.data).flatten

theorem FileOk.decompressed (h : FileOk cfg stream file)
    (hin : ∀ b, decompress (cfg.compress b) = b) :
    CompressedWriter.decompressed decompress file = stream.take (delivered file) ∧
      ∀ block ∈ file, block.uncompressedLength = (decompress block.data).length := by
  obtain ⟨blocks, hf, hfl⟩ := h
  have hmap : file.map (fun block => decompress block.data) = blocks := by
    rw [hf, map_map]
    simp only [comp_def, hin, map_id']
  refine ⟨by rw [CompressedWriter.decompressed, hmap, hfl], ?_⟩
  intro block hb
  rw [hf, mem_map] at hb
  obtain ⟨b, _, rfl⟩ := hb
  simp only [hin]

open State

/-- In every interleaving the file holds the blocks of a beginning of the stream, no unread byte is
overwritten, one thread writes at a time, and the writer gets closed. -/
theorem written_bytes_reach_file (cfg : Config) (decompress : List UInt8 → List UInt8)
    (calls : List (List UInt8)) (s : State cfg.numThreads) (hblock : 0 < cfg.blockSize)
    (hthreads : 0 < cfg.numThreads) (hinvertible : ∀ b, decompress (cfg.compress b) = b)
    (hcompressed : ∀ b, b ≠ [] → cfg.compress b ≠ []) (h : Reachable cfg calls s) :
    (decompressed decompress s.file = calls.flatten.take (delivered s.file) ∧
      ∀ block ∈ s.file, block.uncompressedLength = (decompress block.data).length) ∧
    (s.producer = .closed → decompressed decompress s.file = calls.flatten ∧ s.error = false) ∧
    (∀ copied amount data q, s.producer = .copying copied amount data → copied < amount →
      s.Unread q →
      q % cfg.bufferSize ≠ s.producerReservedWritePos % cfg.bufferSize + copied) ∧
    (∀ i j l l' out out', (s.threads i).pc = .writing l out → (s.threads j).pc = .writing l' out' →
      i = j) ∧
    (s.producer ≠ .closed → ∃ s', Progress cfg s s') ∧
    (∀ run : Nat → State cfg.numThreads, run 0 = s → ∃ k, ¬ Progress cfg (run k) (run (k + 1))) := by
  have hinv := h.inv hblock hcompressed
  have hf := hinv.core.jobs.file.decompressed hinvertible
  refine ⟨hf, ?_, ?_, ?_, hinv.progress hblock hthreads, not_forever (hinv.acc hblock hcompressed)⟩
  · intro hc
    have hall := hinv.delivered_of_closed hthreads hc
    rw [hall, take_length] at hf
    exact ⟨hf.1, hinv.core.noError⟩
  · intro copied amount data q hp hlt hq
    obtain ⟨hlo, hhi⟩ := hinv.unread_bounds hq
    rw [hp] at hhi
    exact hinv.core.overwritten hp hlt hlo hhi
  · intro i j l l' out out' hi hj
    exact hinv.writing_unique hi hj

/-- Two threads, blocks of two bytes, two write calls: the file ends up with the four bytes. -/
theorem written_bytes_reach_file_two_threads :
    ∃ s : State 2, Reachable ⟨2, 2, id⟩ [[1, 2, 3], [4]] s ∧ s.producer = .closed ∧
      decompressed id s.file = [1, 2, 3, 4] := by
  have hco : ∀ b : List UInt8, b ≠ [] → id b ≠ [] := fun _ hb => hb
  have hst : Reachable ⟨2, 2, id⟩ [[1, 2, 3], [4]] (State.initial [[1, 2, 3], [4]]) := .initial
  obtain ⟨s, hs, hc⟩ := hst.completes (by decide) (by decide) hco
  have hf := written_bytes_reach_file ⟨2, 2, id⟩ id [[1, 2, 3], [4]] s (by decide) (by decide)
    (fun _ => rfl) hco hs
  exact ⟨s, hs, hc, (hf.2.1 hc).1⟩

/-- In every interleaving the jobs of the threads are apart, they are exactly the bytes handed out
and not in the file yet, and the bytes that are not completed fit in the buffer. -/
theorem jobs_partition_stream (cfg : Config) (calls : List (List UInt8)) (s : State cfg.numThreads)
    (hblock : 0 < cfg.blockSize) (hcompressed : ∀ b, b ≠ [] → cfg.compress b ≠ [])
    (h : Reachable cfg calls s) :
    (∀ i j p l p' l', i ≠ j → (s.threads i).job = some (p, l) →
      (s.threads j).job = some (p', l') → p + l ≤ p' ∨ p' + l' ≤ p) ∧
    (∀ q, (delivered s.file ≤ q ∧ q < s.nextThreadPos) ↔
      ∃ i p l, (s.threads i).job = some (p, l) ∧ p ≤ q ∧ q < p + l) ∧
    s.producerReservedWritePos + s.producer.copied ≤ s.completedPos + cfg.bufferSize := by
  have hcore := (h.inv hblock hcompressed).core
  refine ⟨hcore.jobs.disjoint, fun q => ⟨fun hq => hcore.jobs.cover q hq.1 hq.2, ?_⟩, ?_⟩
  · rintro ⟨i, p, l, hjob, hlo, hhi⟩
    obtain ⟨-, hlow, hhigh⟩ := (hcore.jobs.localOk i).job hjob
    exact ⟨hlow.trans hlo, hhi.trans_le hhigh⟩
  · have hwrite := hcore.writeLe
    have hupto := hcore.uptoLe
    have hok := hcore.producerOk
    cases hp : s.producer with
    | copying copied amount data =>
      rw [ProducerOk, hp] at hok
      have hcopied : (ProducerPc.copying copied amount data).copied = copied := rfl
      omega
    | _ => exact hwrite.trans hupto

/-- Nothing is in work once the writer is closed. -/
theorem jobs_partition_stream_closed : ∃ s : State 2, Reachable ⟨2, 2, id⟩ [[1, 2, 3], [4]] s ∧
    s.producer = .closed ∧ ∀ q, ¬(delivered s.file ≤ q ∧ q < s.nextThreadPos) := by
  have hco : ∀ b : List UInt8, b ≠ [] → id b ≠ [] := fun _ hb => hb
  have hst : Reachable ⟨2, 2, id⟩ [[1, 2, 3], [4]] (State.initial [[1, 2, 3], [4]]) := .initial
  obtain ⟨s, hs, hc⟩ := hst.completes (by decide) (by decide) hco
  have hp := jobs_partition_stream ⟨2, 2, id⟩ [[1, 2, 3], [4]] s (by decide) hco hs
  refine ⟨s, hs, hc, fun q hq => ?_⟩
  obtain ⟨i, p, l, hjob, -⟩ := (hp.2.1 q).mp hq
  have hdone := (hs.inv (by decide) hco).core.allDone hc i
  rw [Thread.job, hdone] at hjob
  cases hjob

end Attune.CompressedWriter
