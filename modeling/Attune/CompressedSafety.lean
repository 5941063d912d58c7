import Attune.CompressedInvariant

namespace Attune.CompressedWriter.State
open Function

variable {n : Nat} {s s' : State n}

inductive ThreadMove (cfg : Config) (s : State n) (i : Fin n) : State n → Prop where
  | dispatch : (s.threads i).pc = .top → s.HasWork cfg →
    next = min s.nextThreadEndPos (s.nextThreadPos + cfg.blockSize) →
    ThreadMove cfg s i { s.setThread i
      ⟨some s.nextThreadPos, .compressing (next - s.nextThreadPos) []⟩ with nextThreadPos := next }
  | finish : (s.threads i).pc = .top → s.Finished →
    ThreadMove cfg s i (s.setThread i { s.threads i with pc := .done })
  | sleep : (s.threads i).pc = .top → ¬ s.HasWork cfg → ¬ s.Finished →
    ThreadMove cfg s i (s.setThread i { s.threads i with pc := .waitWork })
  | read : (s.threads i).pc = .compressing length input → input.length < length →
    byte = s.buffer (((s.threads i).pos.getD 0 + input.length) % cfg.bufferSize) →
    ThreadMove cfg s i
      (s.setThread i { s.threads i with pc := .compressing length (input ++ [byte]) })
  | compress : (s.threads i).pc = .compressing length input → ¬ input.length < length →
    ThreadMove cfg s i (s.setThread i { s.threads i with pc := .turn length (cfg.compress input) })
  | waitTurn : (s.threads i).pc = .turn length output →
    (∃ j, posLt (s.threads j).pos (s.threads i).pos) →
    ThreadMove cfg s i (s.setThread i { s.threads i with pc := .waitTurn length output })
  | takeTurn : (s.threads i).pc = .turn length output →
    (¬ ∃ j, posLt (s.threads j).pos (s.threads i).pos) →
    ThreadMove cfg s i (s.setThread i { s.threads i with pc := .writing length output })
  | write : (s.threads i).pc = .writing length output →
    ThreadMove cfg s i { s.setThread i { s.threads i with pc := .finished }
      with file := s.file ++ [⟨length, output⟩] }
  | release : (s.threads i).pc = .finished → ThreadMove cfg s i (s.release i)

theorem threadStep_move {i : Fin n} (hw : s.writeError = false)
    (hout : ∀ length output, (s.threads i).pc = .turn length output → output ≠ [])
    (h : threadStep cfg s i = some s') : ThreadMove cfg s i s' := by
  rw [threadStep] at h
  cases hpc : (s.threads i).pc with
  | top =>
    simp only [hpc, hw, true_and, Bool.false_eq_true, false_or] at h
    split at h
    · cases h
      exact .dispatch hpc ‹_› rfl
    · split at h
      · cases h
        exact .finish hpc ‹_›
      · cases h
        exact .sleep hpc ‹_› ‹_›
  | compressing length input =>
    simp only [hpc] at h
    split at h
    · cases h
      exact .read hpc ‹_› rfl
    · cases h
      exact .compress hpc ‹_›
  | turn length output =>
    have he : output.isEmpty = false := by
      rw [List.isEmpty_eq_false_iff]
      exact hout length output hpc
    have her : (s.writeError || output.isEmpty) = s.writeError := by
      rw [he, Bool.or_false]
    simp only [hpc, her] at h
    rw [if_neg (by rw [hw]; exact Bool.false_ne_true)] at h
    split at h
    · cases h
      exact .waitTurn hpc ‹_›
    · cases h
      exact .takeTurn hpc ‹_›
  | writing length output =>
    simp only [hpc] at h
    cases h
    exact .write hpc
  | finished =>
    simp only [hpc] at h
    cases h
    exact .release hpc
  | waitWork | waitTurn length output | done =>
    simp only [hpc, reduceCtorEq] at h

inductive ProducerMove (cfg : Config) (s : State n) : State n → Prop where
  | call : s.producer = .ready → s.calls = data :: rest →
    ProducerMove cfg s { s with producer := .inWrite data, calls := rest }
  | close : s.producer = .ready → s.calls = [] →
    ProducerMove cfg s { s with producer := .update .noWait .toClose }
  | reserve : s.producer = .inWrite data → data ≠ [] →
    s.producerReservedUptoPos - s.producerReservedWritePos = 0 →
    ProducerMove cfg s { s with producer := .update .wait (.toWrite data) }
  | startCopy : s.producer = .inWrite data → data ≠ [] →
    s.producerReservedUptoPos - s.producerReservedWritePos ≠ 0 →
    amount = min (cfg.bufferSize - s.producerReservedWritePos % cfg.bufferSize)
      (min (s.producerReservedUptoPos - s.producerReservedWritePos) data.length) →
    ProducerMove cfg s { s with producer := .copying 0 amount data }
  | flush : s.producer = .inWrite [] →
    ProducerMove cfg s { s with producer := .update .noWait .toReady }
  | back : s.producer = .inWrite [] → ProducerMove cfg s { s with producer := .ready }
  | copy : s.producer = .copying copied amount data → copied < amount →
    ProducerMove cfg s { s with
      buffer := update s.buffer
        (s.producerReservedWritePos % cfg.bufferSize + copied) (data.getD copied 0)
      producer := .copying (copied + 1) amount data }
  | endCopy : s.producer = .copying copied amount data → ¬ copied < amount →
    ProducerMove cfg s { s with
      producerReservedWritePos := s.producerReservedWritePos + amount
      producer := .inWrite (data.drop amount) }
  | update : s.producer = .update flag next →
    ProducerMove cfg s ((broadcast { s with
      nextThreadEndPos := s.producerReservedWritePos
      producerReservedPos := s.producerReservedWritePos }).checkReservation cfg flag next)
  | recheck : s.producer = .recheck flag next →
    ProducerMove cfg s (s.checkReservation cfg flag next)
  | setClosing : s.producer = .setClosing →
    ProducerMove cfg s { broadcast { s with closing := true } with producer := .joining }
  | join : s.producer = .joining → (∀ i, (s.threads i).pc = .done) →
    ProducerMove cfg s { s with error := s.error || s.writeError, producer := .closed }

theorem producerStep_move (he : s.error = false) (h : producerStep cfg s = some s') :
    ProducerMove cfg s s' := by
  rw [producerStep] at h
  cases hp : s.producer with
  | ready =>
    cases hc : s.calls with
    | nil =>
      simp only [hp, hc, Option.some.injEq] at h
      rw [← h, ← hc]
      exact .close hp hc
    | cons data rest =>
      simp only [hp, hc] at h
      cases h
      exact .call hp hc
  | inWrite data =>
    simp only [hp] at h
    split at h
    · rename_i hd
      split at h
      · cases h
        exact .reserve hp hd.2 ‹_›
      · cases h
        exact .startCopy hp hd.2 ‹_› rfl
    · rename_i hd
      have hnil : data = [] := by
        rw [he] at hd
        simpa using hd
      subst hnil
      split at h
      · cases h
        exact .flush hp
      · cases h
        exact .back hp
  | copying copied amount data =>
    simp only [hp] at h
    split at h
    · cases h
      exact .copy hp ‹_›
    · cases h
      exact .endCopy hp ‹_›
  | update flag next =>
    simp only [hp] at h
    cases h
    exact .update hp
  | recheck flag next =>
    simp only [hp] at h
    cases h
    exact .recheck hp
  | setClosing =>
    simp only [hp] at h
    cases h
    exact .setClosing hp
  | joining =>
    simp only [hp] at h
    split at h
    · cases h
      exact .join hp ‹_›
    · cases h
  | waiting flag next | closed =>
    simp only [hp, reduceCtorEq] at h

section Threads

variable {i : Fin n}

section

variable (h : s.Core cfg stream) (hpc : (s.threads i).pc = .compressing length input)
include h hpc

theorem Core.read (hlt : input.length < length) :
    ∃ p, (s.threads i).pos = some p ∧ stream[p + input.length]? =
      some (s.buffer (((s.threads i).pos.getD 0 + input.length) % cfg.bufferSize)) := by
  have hl := h.jobs.localOk i
  rw [LocalOk, hpc] at hl
  obtain ⟨p, hp, ⟨_, _, hhi⟩, _⟩ := hl
  have hc := completedPos_le_pos hp
  have hn := h.nextLe
  have hend := h.endEq
  have hr := h.reservedLe
  refine ⟨p, hp, ?_⟩
  rw [hp, Option.getD_some]
  exact h.ring (p + input.length) (by omega) (by omega)

theorem Core.local_read (hlt : input.length < length)
    (hb : byte = s.buffer (((s.threads i).pos.getD 0 + input.length) % cfg.bufferSize)) :
    LocalOk cfg stream (delivered s.file) s.nextThreadPos
      { s.threads i with pc := .compressing length (input ++ [byte]) } := by
  obtain ⟨p, hp, hget⟩ := h.read hpc hlt
  have hl := h.jobs.localOk i
  rw [LocalOk, hpc] at hl
  obtain ⟨p', hp', hok, _, hin⟩ := hl
  cases hp.symm.trans hp'
  rw [← hb] at hget
  refine ⟨p, hp, hok, ?_, ?_⟩
  · rw [List.length_append, List.length_singleton]
    exact hlt
  · rw [List.length_append, List.length_singleton, slice_succ hget, ← hin]

theorem Core.local_compress (hge : ¬ input.length < length) :
    LocalOk cfg stream (delivered s.file) s.nextThreadPos
      { s.threads i with pc := .turn length (cfg.compress input) } := by
  have hl := h.jobs.localOk i
  rw [LocalOk, hpc] at hl
  obtain ⟨p, hp, hok, hle, hin⟩ := hl
  have hlen : input.length = length := by omega
  rw [hlen] at hin
  exact ⟨p, hp, hok, by rw [hin]⟩

end

theorem Core.output_ne_nil (h : s.Core cfg stream) (hne : ∀ b, b ≠ [] → cfg.compress b ≠ [])
    (hpc : (s.threads i).pc = .turn length output) : output ≠ [] := by
  have hl := h.jobs.localOk i
  rw [LocalOk, hpc] at hl
  obtain ⟨p, _, ⟨hpos, _, hhi⟩, hout⟩ := hl
  have hlen := slice_length (Nat.le_trans hhi h.jobs.nextLe)
  rw [hout]
  apply hne
  intro hnil
  rw [hnil, List.length_nil] at hlen
  omega

theorem le_of_no_posLt (hmin : ¬ ∃ j, posLt (s.threads j).pos (s.threads i).pos)
    (hp : (s.threads i).pos = some p) (hq : (s.threads j).pos = some q) : p ≤ q := by
  rw [← Nat.not_lt]
  intro hlt
  refine hmin ⟨j, ?_⟩
  rw [hp, hq]
  exact hlt

/-- What must hold where a thread writes, waits or ends. -/
def MayBe (cfg : Config) (s : State n) (i : Fin n) : ThreadPc → Prop
  | .writing _ _ => ¬ ∃ j, posLt (s.threads j).pos (s.threads i).pos
  | .waitTurn _ _ => ∃ j, posLt (s.threads j).pos (s.threads i).pos
  | .waitWork => ¬ s.HasWork cfg ∧ ¬ s.Finished
  | .done => s.Finished
  | _ => True

theorem Inv.setThread (h : s.Inv cfg stream) (hpc : (s.threads i).pc = pc₀) (hend : pc₀ ≠ .done)
    (hjob : Thread.job { s.threads i with pc } = Thread.job { s.threads i with pc := pc₀ })
    (hl : LocalOk cfg stream (delivered s.file) s.nextThreadPos { s.threads i with pc })
    (hmay : s.MayBe cfg i pc) : (s.setThread i { s.threads i with pc }).Inv cfg stream := by
  subst hpc
  refine ⟨h.core.setThread rfl hjob hl ?_ fun hd => absurd hd hend,
    h.waits.setThread rfl ?_ ?_ ?_⟩
  · intro l out p hw hp j q hq
    cases hw
    exact le_of_no_posLt hmay hp hq
  all_goals
    intros
    rename_i hw
    cases hw
    exact hmay

theorem Inv.threadMove (h : s.Inv cfg stream) (hb : 0 < cfg.blockSize)
    (hm : ThreadMove cfg s i s') : s'.Inv cfg stream := by
  have hl := h.core.jobs.localOk i
  cases hm with
  | dispatch hpc hwo hn =>
    rw [LocalOk, hpc] at hl
    have hlt := hwo.1
    have hlt' : s.nextThreadPos < min s.nextThreadEndPos (s.nextThreadPos + cfg.blockSize) := by
      omega
    rw [← hn] at hlt'
    exact ⟨h.core.dispatch hpc hl hlt' (by omega),
      h.waits.dispatch hl hwo (Nat.le_of_lt hlt')⟩
  | finish hpc hfin =>
    rw [LocalOk, hpc] at hl
    exact h.setThread hpc (fun hd => by cases hd) rfl hl hfin
  | sleep hpc hwo hfin =>
    rw [LocalOk, hpc] at hl
    exact h.setThread hpc (fun hd => by cases hd) rfl hl ⟨hwo, hfin⟩
  | read hpc hlt hby =>
    exact h.setThread hpc (fun hd => by cases hd) rfl (h.core.local_read hpc hlt hby) trivial
  | compress hpc hge =>
    exact h.setThread hpc (fun hd => by cases hd) rfl (h.core.local_compress hpc hge) trivial
  | waitTurn hpc he =>
    rw [LocalOk, hpc] at hl
    exact h.setThread hpc (fun hd => by cases hd) rfl hl he
  | takeTurn hpc hf =>
    rw [LocalOk, hpc] at hl
    exact h.setThread hpc (fun hd => by cases hd) rfl hl hf
  | write hpc =>
    have hw : (s.setThread i { s.threads i with pc := .finished }).Waits cfg := by
      refine h.waits.setThread rfl ?_ ?_ ?_
      all_goals
        intros
        contradiction
    exact ⟨h.core.write hpc, ⟨hw.turn, hw.work, hw.done, hw.producer⟩⟩
  | release hpc =>
    refine ⟨(h.core.idle hpc).broadcast, Waits.of_broadcast ?_⟩
    intro j hj
    rw [setThread_threads] at hj
    split at hj
    · cases hj
    · exact h.waits.done j hj

end Threads

section Producer

theorem Core.not_closing (h : s.Core cfg stream) (hrun : s.producer.running = true) :
    ¬ s.closing = true := by
  intro hc
  rcases h.closing.mp hc with heq | heq
  all_goals
    rw [heq] at hrun
    cases hrun

theorem running_ne {p : ProducerPc} (hrun : p.running = true) :
    p ≠ .joining ∧ p ≠ .closed ∧ ∀ flag next, p ≠ .waiting flag next := by
  cases p with
  | joining | closed | waiting flag next => cases hrun
  | _ => exact ⟨ProducerPc.noConfusion, ProducerPc.noConfusion, fun _ _ => ProducerPc.noConfusion⟩

theorem Core.closing_iff (h : s.Core cfg stream) (hrun : s.producer.running = true)
    (hr' : ProducerPc.running p = true) : s.closing = true ↔ p = .joining ∨ p = .closed := by
  obtain ⟨hj, hc, -⟩ := running_ne hr'
  exact ⟨fun hs => absurd hs (h.not_closing hrun), fun hs => (hs.elim hj hc).elim⟩

theorem Core.setProducer (h : s.Core cfg stream) (hp : s.producer = p₀) (hold : p₀.copied = 0)
    (hnew : p.copied = 0) (hre : p₀.pending ++ s.calls.flatten = p.pending ++ calls'.flatten)
    (hok : ProducerOk cfg { s with producer := p, calls := calls' })
    (hc : closing' = true ↔ p = .joining ∨ p = .closed)
    (hd : p = .closed → ∀ i, (s.threads i).pc = .done) :
    Core cfg stream { s with producer := p, calls := calls', closing := closing' } where
  __ := h
  rest := by
    rw [h.rest, hp, hre]
  ring := by
    have hr := h.ring
    rw [hp, hold] at hr
    simp only [hnew]
    exact hr
  producerOk := hok
  closing := hc
  allDone := hd

theorem Inv.setProducer (h : s.Inv cfg stream) (hp : s.producer = p₀) (hrun : p₀.running = true)
    (hold : p₀.copied = 0) (hr' : p.running = true) (hnew : p.copied = 0)
    (hr : p₀.pending ++ s.calls.flatten = p.pending ++ calls'.flatten)
    (hok : ProducerOk cfg { s with producer := p, calls := calls' }) :
    Inv cfg stream { s with producer := p, calls := calls' } := by
  subst hp
  obtain ⟨-, hc, hw⟩ := running_ne hr'
  refine ⟨h.core.setProducer rfl hold hnew hr hok (h.core.closing_iff hrun hr')
    fun h => absurd h hc, ⟨h.waits.turn, h.waits.work, h.waits.done, ?_⟩⟩
  intro flag next hp
  exact absurd hp (hw flag next)

theorem pending_returnTo (flag : WaitFlag) (next : Return) :
    (returnTo next).pending = (ProducerPc.update flag next).pending ∧
      (returnTo next).pending = (ProducerPc.recheck flag next).pending := by
  cases next <;> exact ⟨rfl, rfl⟩

theorem running_returnTo (next : Return) : (returnTo next).running = true := by
  cases next <;> rfl

theorem copied_returnTo (next : Return) : (returnTo next).copied = 0 := by
  cases next <;> rfl

theorem checkReservation_eq (he : s.error = false) (hw : s.writeError = false) :
    s.checkReservation cfg flag next =
      { s with
        producerReservedUptoPos := s.completedPos + cfg.bufferSize
        producer := if s.producerReservedPos < s.completedPos + cfg.bufferSize ∨ flag = .noWait then
          returnTo next else .waiting flag next } := by
  rw [checkReservation, if_neg (by rw [he]; exact Bool.false_ne_true),
    if_neg (by rw [hw]; exact Bool.false_ne_true)]
  simp only
  split <;> rfl

theorem Core.extend (h : s.Core cfg stream) :
    Core cfg stream { s with producerReservedUptoPos := s.completedPos + cfg.bufferSize } where
  __ := h
  writeLe := Nat.le_trans h.writeLe h.uptoLe
  uptoLe := Nat.le_refl _
  producerOk := by
    have hok := h.producerOk
    have hle := h.uptoLe
    rw [ProducerOk] at hok ⊢
    cases hp : s.producer with
    | copying copied amount data =>
      rw [hp] at hok
      obtain ⟨h1, h2, h3, h4, h5⟩ := hok
      exact ⟨h1, h2, h3, Nat.le_trans h4 hle, h5⟩
    | _ =>
      rw [hp] at hok
      exact hok

theorem Inv.checkReservation (h : s.Inv cfg stream) (hp : s.producer = p₀)
    (hrun : p₀.running = true) (hco : p₀.copied = 0)
    (hpe : (returnTo next).pending = p₀.pending)
    (hr : s.producerReservedPos = s.producerReservedWritePos)
    (hc : next = .toClose → s.calls = []) :
    (s.checkReservation cfg flag next).Inv cfg stream := by
  subst hp
  have hw := h.waits
  have he : Inv cfg stream
      { s with producerReservedUptoPos := s.completedPos + cfg.bufferSize } :=
    ⟨h.core.extend, ⟨hw.turn, hw.work, hw.done, hw.producer⟩⟩
  rw [checkReservation_eq h.core.noError h.core.noWriteError]
  split
  · refine he.setProducer rfl hrun hco (running_returnTo next) (copied_returnTo next)
      (by rw [hpe]) ?_
    cases next with
    | toWrite data | toReady => trivial
    | toClose => exact ⟨hc rfl, hr⟩
  · rename_i hf
    rw [not_or] at hf
    have hwa : flag = .wait := by
      cases flag with
      | wait => rfl
      | noWait => exact absurd rfl hf.2
    have hpen : s.producer.pending = (ProducerPc.waiting flag next).pending := by
      rw [← hpe]
      cases next <;> rfl
    refine ⟨h.core.extend.setProducer rfl hco rfl (by rw [hpen]) ⟨hwa, hr, hc⟩
      ⟨fun hs => absurd hs (h.core.not_closing hrun), nofun⟩ nofun, ⟨hw.turn, hw.work, hw.done, ?_⟩⟩
    intro _ _ _
    exact Nat.not_lt.mp hf.1

theorem mod_add_of_lt {a c S : Nat} (h : a % S + c < S) : a % S + c = (a + c) % S := by
  rw [← Nat.mod_add_mod, Nat.mod_eq_of_lt h]

theorem startCopy_ok (hS : 0 < cfg.bufferSize) (hd : data ≠ [])
    (hr : s.producerReservedUptoPos - s.producerReservedWritePos ≠ 0)
    (ha : amount = min (cfg.bufferSize - s.producerReservedWritePos % cfg.bufferSize)
      (min (s.producerReservedUptoPos - s.producerReservedWritePos) data.length)) :
    ProducerOk cfg { s with producer := .copying 0 amount data } := by
  have hoff := Nat.mod_lt s.producerReservedWritePos hS
  have hlen := List.length_pos_iff.mpr hd
  simp only [ProducerOk]
  omega

section

variable (h : s.Core cfg stream) (hp : s.producer = .copying copied amount data)
include h hp

theorem Core.overwritten (hlt : copied < amount) (hlo : s.completedPos ≤ q)
    (hhi : q < s.producerReservedWritePos + copied) :
    q % cfg.bufferSize ≠ s.producerReservedWritePos % cfg.bufferSize + copied := by
  have hok := h.producerOk
  rw [ProducerOk, hp] at hok
  obtain ⟨_, _, _, hup, hend⟩ := hok
  have hu := h.uptoLe
  rw [mod_add_of_lt (by omega)]
  exact mod_ne_of_lt_add hhi (by omega)

theorem Core.copy (hlt : copied < amount) : Core cfg stream { s with
      buffer := update s.buffer
        (s.producerReservedWritePos % cfg.bufferSize + copied) (data.getD copied 0)
      producer := .copying (copied + 1) amount data } := by
  have hok := h.producerOk
  have hr := h.rest
  rw [ProducerOk, hp] at hok
  rw [hp] at hr
  obtain ⟨hle, hpos, hlen, hu, hend⟩ := hok
  exact
    { h with
      rest := hr
      producerOk := ⟨hlt, hpos, hlen, hu, hend⟩
      closing := h.closing_iff (by rw [hp]; rfl) rfl
      allDone := fun hcl => by cases hcl
      ring := by
        intro q hlo hhi
        change q < s.producerReservedWritePos + (copied + 1) at hhi
        change stream[q]? = some (update s.buffer _ _ (q % cfg.bufferSize))
        by_cases hq : q < s.producerReservedWritePos + copied
        · rw [update_of_ne (h.overwritten hp hlt hlo hq)]
          refine h.ring q hlo ?_
          rw [hp]
          exact hq
        · have hqeq : q = s.producerReservedWritePos + copied := by omega
          have hc : copied < data.length := by omega
          rw [mod_add_of_lt (by omega), hqeq, update_self, ← List.getElem?_drop, hr]
          change (data ++ s.calls.flatten)[copied]? = _
          rw [List.getElem?_append_left hc, List.getD_eq_getElem?_getD,
            List.getElem?_eq_getElem hc, Option.getD_some] }

theorem Core.endCopy (hge : ¬ copied < amount) : Core cfg stream { s with
      producerReservedWritePos := s.producerReservedWritePos + amount
      producer := .inWrite (data.drop amount) } := by
  have hok := h.producerOk
  have hr := h.rest
  have hri := h.ring
  rw [ProducerOk, hp] at hok
  rw [hp] at hr hri
  obtain ⟨hle, hpos, hlen, hu, hend⟩ := hok
  have hco : copied = amount := by omega
  have hl := congrArg List.length hr
  simp only [ProducerPc.pending, List.length_drop, List.length_append] at hl
  exact
    { h with
      reservedLe := Nat.le_trans h.reservedLe (Nat.le_add_right _ _)
      writeLe := hu
      writtenLe := by
        have hw := h.writtenLe
        change s.producerReservedWritePos + amount ≤ stream.length
        omega
      rest := by
        change stream.drop (s.producerReservedWritePos + amount) = data.drop amount ++ s.calls.flatten
        rw [← List.drop_drop, hr]
        exact List.drop_append_of_le_length hlen
      producerOk := trivial
      closing := h.closing_iff (by rw [hp]; rfl) rfl
      allDone := fun hc => by cases hc
      ring := by
        intro q hlo hhi
        refine hri q hlo ?_
        rw [← hco] at hhi
        exact hhi }

end

theorem Inv.update (h : s.Inv cfg stream) (hp : s.producer = .update flag next) :
    ((broadcast { s with
      nextThreadEndPos := s.producerReservedWritePos
      producerReservedPos := s.producerReservedWritePos }).checkReservation cfg flag next).Inv
        cfg stream := by
  obtain ⟨hc, hw⟩ := h
  have hnot := hc.not_closing (by rw [hp]; rfl)
  have hok := hc.producerOk
  rw [ProducerOk, hp] at hok
  have hn : s.nextThreadPos ≤ s.producerReservedWritePos := by
    have h1 := hc.nextLe
    have h2 := hc.endEq
    have h3 := hc.reservedLe
    omega
  have hc' : Core cfg stream { s with
      nextThreadEndPos := s.producerReservedWritePos
      producerReservedPos := s.producerReservedWritePos } :=
    { hc with
      nextLe := hn
      endEq := rfl
      reservedLe := Nat.le_refl _
      producerOk := by
        rw [ProducerOk, hp]
        exact hok }
  have hpr : wakeProducer s.producer = .update flag next := by rw [hp]; rfl
  refine Inv.checkReservation ⟨hc'.broadcast, Waits.of_broadcast ?_⟩ hpr rfl rfl
    (pending_returnTo flag next).1 rfl hok.1
  intro i hi
  exact absurd (hw.done i hi).1 hnot

theorem Inv.producerMove (h : s.Inv cfg stream) (hS : 0 < cfg.bufferSize)
    (hm : ProducerMove cfg s s') : s'.Inv cfg stream := by
  have hco := h.core
  have hwa := h.waits
  have hok := hco.producerOk
  rw [ProducerOk] at hok
  cases hm with
  | call hp hc =>
    refine h.setProducer hp rfl rfl rfl rfl ?_ trivial
    rw [hc]
    rfl
  | close hp hc =>
    exact h.setProducer hp rfl rfl rfl rfl rfl ⟨fun _ => hc, fun _ hn => by cases hn⟩
  | reserve hp hd hem =>
    exact h.setProducer hp rfl rfl rfl rfl rfl ⟨fun hn => (by cases hn), fun _ _ => rfl⟩
  | startCopy hp hd hr ha =>
    exact h.setProducer hp rfl rfl rfl rfl rfl (startCopy_ok hS hd hr ha)
  | flush hp =>
    exact h.setProducer hp rfl rfl rfl rfl rfl
      ⟨fun hn => (by cases hn), fun _ hn => by cases hn⟩
  | back hp => exact h.setProducer hp rfl rfl rfl rfl rfl trivial
  | copy hp hlt =>
    exact ⟨hco.copy hp hlt, ⟨hwa.turn, hwa.work, hwa.done, fun _ _ hw => by cases hw⟩⟩
  | endCopy hp hge =>
    exact ⟨hco.endCopy hp hge, ⟨hwa.turn, hwa.work, hwa.done, fun _ _ hw => by cases hw⟩⟩
  | update hp => exact h.update hp
  | recheck hp =>
    rw [hp] at hok
    exact h.checkReservation hp rfl rfl (pending_returnTo _ _).2 hok.2.1 hok.2.2
  | setClosing hp =>
    rw [hp] at hok
    have hc' : Core cfg stream { s with closing := true, producer := .joining } :=
      hco.setProducer hp rfl rfl rfl hok ⟨fun _ => .inl rfl, fun _ => rfl⟩ fun hd => by cases hd
    have hnot := hco.not_closing (by rw [hp]; rfl)
    have hw' : (broadcast { s with closing := true, producer := .joining }).Waits cfg :=
      Waits.of_broadcast fun i hi => absurd (hwa.done i hi).1 hnot
    exact ⟨hc'.broadcast, hw'⟩
  | join hp hdo =>
    rw [hp] at hok
    have hc' : Core cfg stream { s with producer := .closed } :=
      hco.setProducer hp rfl rfl rfl hok
        ⟨fun _ => .inr rfl, fun _ => hco.closing.mpr (.inl hp)⟩ fun _ => hdo
    have he : (s.error || s.writeError) = s.error := by rw [hco.noWriteError, Bool.or_false]
    rw [he]
    exact ⟨hc', ⟨hwa.turn, hwa.work, hwa.done, fun _ _ hw => by cases hw⟩⟩

end Producer

theorem Inv.initial (cfg : Config) (calls : List (List UInt8)) :
    (State.initial calls : State n).Inv cfg calls.flatten where
  core :=
    { jobs :=
        { localOk := fun _ => rfl
          disjoint := fun _ _ _ _ _ _ _ hj => by cases hj
          cover := fun _ _ hlt => absurd hlt (Nat.not_lt_zero _)
          writing := fun _ _ _ _ _ _ hpc => by cases hpc
          deliveredLe := Nat.le_refl _
          nextLe := Nat.zero_le _
          file := ⟨[], rfl, rfl⟩ }
      nextLe := Nat.le_refl _
      endEq := rfl
      reservedLe := Nat.le_refl _
      writeLe := Nat.le_refl _
      uptoLe := Nat.zero_le _
      writtenLe := Nat.zero_le _
      rest := rfl
      ring := fun _ _ hlt => absurd hlt (Nat.not_lt_zero _)
      producerOk := trivial
      closing := by simp only [State.initial, reduceCtorEq, or_self, Bool.false_eq_true]
      allDone := fun h => by cases h
      noError := rfl
      noWriteError := rfl }
  waits :=
    { turn := fun _ _ _ h => by cases h
      work := fun _ h => by cases h
      done := fun _ h => by cases h
      producer := fun _ _ h => by cases h }

theorem Inv.move_of_threadStep (h : s.Inv cfg stream) (hne : ∀ b, b ≠ [] → cfg.compress b ≠ [])
    (hst : threadStep cfg s i = some s') : ThreadMove cfg s i s' := by
  refine threadStep_move h.core.noWriteError ?_ hst
  intro length output hpc
  exact h.core.output_ne_nil hne hpc

theorem Inv.step (h : s.Inv cfg stream) (hb : 0 < cfg.blockSize)
    (hne : ∀ b, b ≠ [] → cfg.compress b ≠ []) (hst : Step cfg s s') : s'.Inv cfg stream := by
  cases hst with
  | producer hst =>
    have hS : 0 < cfg.bufferSize := Nat.mul_pos hb (Nat.succ_pos _)
    exact h.producerMove hS (producerStep_move h.core.noError hst)
  | thread i hst =>
    exact h.threadMove hb (h.move_of_threadStep hne hst)
  | spuriousProducer =>
    exact ⟨h.core.wakeProducer, ⟨h.waits.turn, h.waits.work, h.waits.done,
      fun _ _ hw => absurd hw wakeProducer_ne_waiting⟩⟩
  | spuriousThread i =>
    refine ⟨h.core.setThread rfl job_wakeThread (h.core.jobs.localOk i).wakeThread ?_
      wakeThread_done.mpr, h.waits.setThread rfl ?_ ?_ ?_⟩
    · intro l out p hpc hp j q hq
      exact h.core.jobs.writing i j l out p q (wakeThread_writing hpc) hp hq
    · intro l out hpc
      exact absurd hpc wakeThread_ne_waitTurn
    · intro hpc
      exact absurd hpc wakeThread_ne_waitWork
    · intro hpc
      exact h.waits.done i (wakeThread_done.mp hpc)

theorem Reachable.inv {calls : List (List UInt8)} {s : State cfg.numThreads}
    (h : Reachable cfg calls s)
    (hb : 0 < cfg.blockSize) (hne : ∀ b, b ≠ [] → cfg.compress b ≠ []) :
    s.Inv cfg calls.flatten := by
  induction h with
  | initial => exact Inv.initial cfg calls
  | step _ hst ih => exact ih.step hb hne hst

theorem Inv.delivered_of_closed (h : s.Inv cfg stream) (hn : 0 < n) (hc : s.producer = .closed) :
    delivered s.file = stream.length := by
  have hok := h.core.producerOk
  have hr := h.core.rest
  rw [ProducerOk, hc] at hok
  rw [hc, hok.1] at hr
  have hw : stream.length ≤ s.producerReservedWritePos :=
    List.drop_eq_nil_iff.mp hr
  have hd := h.core.allDone hc
  have hfin := (h.waits.done ⟨0, hn⟩ (hd _)).2
  have hend := h.core.endEq
  have hle := h.core.jobs.deliveredLe
  have hwr := h.core.writtenLe
  by_cases hlt : delivered s.file < s.nextThreadPos
  · -- a byte that is ha out and not delivered belongs to a thread, but all threads have ended
    obtain ⟨i, p, l, hjob, _⟩ := h.core.jobs.cover _ (Nat.le_refl _) hlt
    rw [Thread.job, hd i] at hjob
    cases hjob
  · omega

theorem Inv.writing_unique (h : s.Inv cfg stream) (hi : (s.threads i).pc = .writing l out)
    (hj : (s.threads j).pc = .writing l' out') : i = j := by
  have hlo := h.core.jobs.localOk i
  have hloc := h.core.jobs.localOk j
  rw [LocalOk, hi] at hlo
  rw [LocalOk, hj] at hloc
  obtain ⟨p, hp, ⟨hl, _⟩, _⟩ := hlo
  obtain ⟨q, hq, ⟨hl', _⟩, _⟩ := hloc
  have hpq := h.core.jobs.writing i j l out p q hi hp hq
  have hqp := h.core.jobs.writing j i l' out' q p hj hq hp
  by_contra hne
  have hdis := h.core.jobs.disjoint i j p l q l' hne (by rw [Thread.job, hi, hp]; rfl)
    (by rw [Thread.job, hj, hq]; rfl)
  omega

end Attune.CompressedWriter.State
