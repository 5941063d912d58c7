import Attune.CompressedWriter

namespace Attune.CompressedWriter
open Function Option

def slice (stream : List UInt8) (pos length : Nat) : List UInt8 := (stream.drop pos).take length

theorem slice_length (h : pos + length ≤ stream.length) :
    (slice stream pos length).length = length := by
  rw [slice, List.length_take, List.length_drop]
  omega

theorem slice_succ (h : stream[pos + length]? = some b) :
    slice stream pos (length + 1) = slice stream pos length ++ [b] := by
  rw [slice, slice, List.take_add_one, List.getElem?_drop, h]
  rfl

theorem take_append_slice (stream : List UInt8) (pos length : Nat) :
    stream.take pos ++ slice stream pos length = stream.take (pos + length) := by
  rw [slice, List.take_add]

def delivered (file : List Block) : Nat := (file.map Block.uncompressedLength).sum

def Thread.job (t : Thread) : Option (Nat × Nat) :=
  match t.pc with
  | .compressing length _ | .turn length _ | .waitTurn length _ | .writing length _ =>
    t.pos.map (·, length)
  | _ => none

def JobOk (low high pos length : Nat) : Prop := 0 < length ∧ low ≤ pos ∧ pos + length ≤ high

/-- Idle threads have no position, and a thread at work has read, or compressed, bytes of the
stream. -/
def LocalOk (cfg : Config) (stream : List UInt8) (low high : Nat) (t : Thread) : Prop :=
  match t.pc with
  | .top | .waitWork | .done => t.pos = none
  | .finished => ∃ p, t.pos = some p ∧ p < low
  | .compressing length input => ∃ p, t.pos = some p ∧ JobOk low high p length ∧
      input.length ≤ length ∧ input = slice stream p input.length
  | .turn length output | .waitTurn length output | .writing length output =>
    ∃ p, t.pos = some p ∧ JobOk low high p length ∧ output = cfg.compress (slice stream p length)

def FileOk (cfg : Config) (stream : List UInt8) (file : List Block) : Prop :=
  ∃ blocks : List (List UInt8), file = blocks.map (fun b => ⟨b.length, cfg.compress b⟩) ∧
    blocks.flatten = stream.take (delivered file)

/-- The jobs of the threads are exactly the part of the stream between what is delivered and what has
been handed out. -/
structure Jobs (cfg : Config) (stream : List UInt8) (threads : Fin n → Thread) (next : Nat)
    (file : List Block) : Prop where
  localOk : ∀ i, LocalOk cfg stream (delivered file) next (threads i)
  disjoint : ∀ i j p l p' l', i ≠ j → (threads i).job = some (p, l) →
    (threads j).job = some (p', l') → p + l ≤ p' ∨ p' + l' ≤ p
  cover : ∀ q, delivered file ≤ q → q < next →
    ∃ i p l, (threads i).job = some (p, l) ∧ p ≤ q ∧ q < p + l
  writing : ∀ i j l out p q, (threads i).pc = .writing l out → (threads i).pos = some p →
    (threads j).pos = some q → p ≤ q
  deliveredLe : delivered file ≤ next
  nextLe : next ≤ stream.length
  file : FileOk cfg stream file

theorem Thread.job_pos {t : Thread} (h : t.job = some (p, l)) : t.pos = some p := by
  rw [job] at h
  split at h
  all_goals first
    | (obtain ⟨q, hq, heq⟩ := map_eq_some_iff.mp h; cases heq; exact hq)
    | cases h

theorem LocalOk.job (h : LocalOk cfg stream low high t) (hj : t.job = some (p, l)) :
    JobOk low high p l := by
  have hpos := Thread.job_pos hj
  rw [Thread.job, hpos] at hj
  rw [LocalOk] at h
  split at h
  all_goals simp only [*, map_some, some.injEq, Prod.mk.injEq, reduceCtorEq] at hj
  all_goals
    obtain ⟨q, hq, hok, _⟩ := h
    obtain ⟨_, rfl⟩ := hj
    cases hpos.symm.trans hq
    exact hok

theorem LocalOk.mono (h : LocalOk cfg stream low high t) (hlow : low ≤ low') (hh : high ≤ hi')
    (hjob : ∀ p l, t.job = some (p, l) → low' ≤ p) : LocalOk cfg stream low' hi' t := by
  rw [LocalOk] at h ⊢
  rw [Thread.job] at hjob
  split at h
  all_goals simp only [*] at hjob ⊢
  · obtain ⟨p, hp, hlt⟩ := h
    exact ⟨p, hp, Nat.lt_of_lt_of_le hlt hlow⟩
  all_goals
    obtain ⟨p, hp, hok, hr⟩ := h
    exact ⟨p, hp, ⟨hok.1, hjob p _ (by rw [hp]; rfl), Nat.le_trans hok.2.2 hh⟩, hr⟩

theorem job_wakeThread {t : Thread} : Thread.job { t with pc := State.wakeThread t.pc } = t.job := by
  cases hpc : t.pc with
  | _ => simp only [Thread.job, State.wakeThread, hpc]

theorem wakeThread_writing (h : State.wakeThread pc = .writing l out) : pc = .writing l out := by
  cases pc with
  | writing length output => exact h
  | _ => cases h

theorem LocalOk.wakeThread (h : LocalOk cfg stream low high t) :
    LocalOk cfg stream low high { t with pc := State.wakeThread t.pc } := by
  rw [LocalOk] at h ⊢
  cases hpc : t.pc with
  | _ =>
    rw [hpc] at h
    exact h

namespace Jobs

variable {n : Nat} {threads threads' : Fin n → Thread} {next : Nat} {file : List Block}

variable (h : Jobs cfg stream threads next file)
include h

theorem congr
    (hpos : ∀ j, (threads' j).pos = (threads j).pos) (hjob : ∀ j, (threads' j).job = (threads j).job)
    (hl : ∀ j, LocalOk cfg stream (delivered file) next (threads' j))
    (hw : ∀ i l out p, (threads' i).pc = .writing l out → (threads i).pos = some p →
      ∀ j q, (threads j).pos = some q → p ≤ q) : Jobs cfg stream threads' next file where
  localOk := hl
  disjoint i j p l p' l' hne hi hj := by
    rw [hjob] at hi hj
    exact h.disjoint i j p l p' l' hne hi hj
  cover q hlo hhi := by
    obtain ⟨i, p, l, hi, hq⟩ := h.cover q hlo hhi
    exact ⟨i, p, l, by rw [hjob]; exact hi, hq⟩
  writing i j l out p q hpc hi hj := by
    rw [hpos] at hi hj
    exact hw i l out p hpc hi j q hj
  deliveredLe := h.deliveredLe
  nextLe := h.nextLe
  file := h.file

theorem update {i : Fin n} {t : Thread}
    (hpos : t.pos = (threads i).pos) (hjob : t.job = (threads i).job)
    (hl : LocalOk cfg stream (delivered file) next t)
    (hw : ∀ l out p, t.pc = .writing l out → (threads i).pos = some p →
      ∀ j q, (threads j).pos = some q → p ≤ q) :
    Jobs cfg stream (update threads i t) next file := by
  refine h.congr ?_ ?_ ?_ ?_
  all_goals intro j
  all_goals by_cases hji : j = i
  · rw [hji, update_self, hpos]
  · rw [update_of_ne hji]
  · rw [hji, update_self, hjob]
  · rw [update_of_ne hji]
  · rw [hji, update_self]
    exact hl
  · rw [update_of_ne hji]
    exact h.localOk j
  · intro l out p hpc hp
    rw [hji, update_self] at hpc
    exact hw l out p hpc (hji ▸ hp)
  · intro l out p hpc hp k q hq
    rw [update_of_ne hji] at hpc
    exact h.writing j k l out p q hpc hp hq

theorem wake :
    Jobs cfg stream (fun i => { threads i with pc := State.wakeThread (threads i).pc }) next file := by
  refine h.congr (fun _ => rfl) (fun _ => job_wakeThread) (fun j => (h.localOk j).wakeThread) ?_
  intro i l out p hpc hp j q hq
  exact h.writing i j l out p q (wakeThread_writing hpc) hp hq

theorem dispatch {i : Fin n}
    (hid : (threads i).job = none) (hlt : next < next') (hle : next' ≤ stream.length) :
    Jobs cfg stream
      (Function.update threads i ⟨some next, .compressing (next' - next) []⟩) next' file := by
  have hdel := h.deliveredLe
  have hjo : Thread.job ⟨some next, .compressing (next' - next) []⟩ =
      some (next, next' - next) := rfl
  have hb : ∀ j p l, (threads j).job = some (p, l) →
      JobOk (delivered file) next p l := fun j p l hj => (h.localOk j).job hj
  refine ⟨?_, ?_, ?_, ?_, Nat.le_trans hdel (Nat.le_of_lt hlt), hle, h.file⟩
  · intro j
    by_cases hji : j = i
    · rw [hji, update_self]
      exact ⟨next, rfl, ⟨by omega, hdel, by omega⟩, Nat.zero_le _, rfl⟩
    · rw [update_of_ne hji]
      exact (h.localOk j).mono (Nat.le_refl _) (Nat.le_of_lt hlt)
        fun p l hj => (hb j p l hj).2.1
  · intro j k p l p' l' hne hj hk
    by_cases hji : j = i
    · subst hji
      rw [update_self, hjo] at hj
      rw [update_of_ne (Ne.symm hne)] at hk
      cases hj
      have hok := (hb k p' l' hk).2.2
      omega
    · rw [update_of_ne hji] at hj
      by_cases hki : k = i
      · subst hki
        rw [update_self, hjo] at hk
        cases hk
        have hok := (hb j p l hj).2.2
        omega
      · rw [update_of_ne hki] at hk
        exact h.disjoint j k p l p' l' hne hj hk
  · intro q hlo hhi
    by_cases hq : q < next
    · obtain ⟨j, p, l, hj, hpq⟩ := h.cover q hlo hq
      have hji : j ≠ i := by
        intro heq
        rw [heq, hid] at hj
        cases hj
      exact ⟨j, p, l, by rw [update_of_ne hji]; exact hj, hpq⟩
    · exact ⟨i, next, next' - next, by rw [update_self]; rfl, by omega, by omega⟩
  · intro j k l out p q hpc hp hq
    by_cases hji : j = i
    · rw [hji, update_self] at hpc
      cases hpc
    rw [update_of_ne hji] at hpc hp
    by_cases hki : k = i
    · subst hki
      rw [update_self] at hq
      cases hq
      have hj : (threads j).job = some (p, l) := by
        rw [Thread.job, hpc, hp]
        rfl
      have hok := (hb j p l hj).2.2
      omega
    · rw [update_of_ne hki] at hq
      exact h.writing j k l out p q hpc hp hq

theorem writing_pos {i : Fin n}
    (hpc : (threads i).pc = .writing l out) (hp : (threads i).pos = some p) :
    p = delivered file := by
  have hj : (threads i).job = some (p, l) := by
    rw [Thread.job, hpc, hp]
    rfl
  have hok := (h.localOk i).job hj
  obtain ⟨hl, hlo, hhi⟩ := hok
  obtain ⟨j, p', l', hj', hp', hq'⟩ := h.cover (delivered file) (Nat.le_refl _) (by omega)
  have hle := h.writing i j l out p p' hpc hp (Thread.job_pos hj')
  have hlo' := ((h.localOk j).job hj').2.1
  omega

/-- A thread that has no job any more: what it wrote is delivered. -/
theorem retire {i : Fin n} {t : Thread} {file' : List Block} (hjob : t.job = none)
    (hpos : ∀ q, t.pos = some q → (threads i).pos = some q) (hpc : ∀ l out, t.pc ≠ .writing l out)
    (hl : LocalOk cfg stream (delivered file') next t) (hlow : delivered file ≤ delivered file')
    (hm : ∀ p l, (threads i).job = some (p, l) → p + l ≤ delivered file')
    (ha : ∀ j p l, j ≠ i → (threads j).job = some (p, l) → delivered file' ≤ p)
    (hle : delivered file' ≤ next) (hf : FileOk cfg stream file') :
    Jobs cfg stream (Function.update threads i t) next file' := by
  refine ⟨?_, ?_, ?_, ?_, hle, h.nextLe, hf⟩
  · intro j
    by_cases hji : j = i
    · rw [hji, update_self]
      exact hl
    · rw [update_of_ne hji]
      exact (h.localOk j).mono hlow (Nat.le_refl _) fun p l hj => ha j p l hji hj
  · intro j k p l p' l' hne hj hk
    by_cases hji : j = i
    · rw [hji, update_self, hjob] at hj
      cases hj
    by_cases hki : k = i
    · rw [hki, update_self, hjob] at hk
      cases hk
    rw [update_of_ne hji] at hj
    rw [update_of_ne hki] at hk
    exact h.disjoint j k p l p' l' hne hj hk
  · intro q hlo hhi
    obtain ⟨j, p, l, hj, hq⟩ := h.cover q (Nat.le_trans hlow hlo) hhi
    have hji : j ≠ i := by
      rintro rfl
      have hend := hm p l hj
      omega
    exact ⟨j, p, l, by rw [update_of_ne hji]; exact hj, hq⟩
  · intro j k l out p q hj hp hq
    by_cases hji : j = i
    · rw [hji, update_self] at hj
      exact absurd hj (hpc l out)
    rw [update_of_ne hji] at hj hp
    by_cases hki : k = i
    · rw [hki, update_self] at hq
      exact h.writing j i l out p q hj hp (hpos q hq)
    · rw [update_of_ne hki] at hq
      exact h.writing j k l out p q hj hp hq

theorem write {i : Fin n} (hpc : (threads i).pc = .writing l out) :
    Jobs cfg stream (Function.update threads i { threads i with pc := .finished }) next
      (file ++ [⟨l, out⟩]) := by
  have hlo := h.localOk i
  rw [LocalOk, hpc] at hlo
  obtain ⟨p, hp, ⟨hl, _, hhi⟩, hout⟩ := hlo
  have hpd := h.writing_pos hpc hp
  have hdel : delivered (file ++ [⟨l, out⟩]) = delivered file + l := by
    simp only [delivered, List.map_append, List.map_cons, List.map_nil, List.sum_append,
      List.sum_cons, List.sum_nil, Nat.add_zero]
  have hji : (threads i).job = some (p, l) := by
    rw [Thread.job, hpc, hp]
    rfl
  refine h.retire rfl (fun _ => id) nofun ⟨p, hp, by omega⟩ (by omega) ?_ ?_ (by omega) ?_
  · intro p' l' hj
    cases hji.symm.trans hj
    omega
  · intro j p' l' hne hj
    obtain ⟨hl', hlo', _⟩ := (h.localOk j).job hj
    have hdis := h.disjoint i j p l p' l' (Ne.symm hne) hji hj
    omega
  · obtain ⟨blocks, hf, hfl⟩ := h.file
    have hlen : (slice stream p l).length = l :=
      slice_length (Nat.le_trans hhi h.nextLe)
    refine ⟨blocks ++ [slice stream p l], ?_, ?_⟩
    · rw [List.map_append, ← hf, List.map_singleton, hlen, hout]
    · rw [hdel, List.flatten_append, hfl, List.flatten_singleton, hpd, take_append_slice]

theorem release {i : Fin n} (hpc : (threads i).pc = .finished) :
    Jobs cfg stream (Function.update threads i ⟨none, .top⟩) next file := by
  refine h.retire rfl nofun nofun rfl (Nat.le_refl _) ?_ ?_ h.deliveredLe h.file
  · intro p l hj
    rw [Thread.job, hpc] at hj
    cases hj
  · intro j p l _ hj
    exact ((h.localOk j).job hj).2.1

end Jobs

end Attune.CompressedWriter
