import Attune.Scheduler

namespace Attune.Schedule
open List Scheduler Function

theorem setInsert_perm (h : e ∉ l) : (setInsert e l).Perm (e :: l) := by
  induction l with
  | nil => exact .refl _
  | cons a l ih =>
    simp only [mem_cons, not_or] at h
    simp only [setInsert, h.1, ↓reduceIte]
    split
    · exact .refl _
    · exact ((ih h.2).cons a).trans (.swap e a l)

namespace Scheduler

def filed (s : Scheduler) : List Task := s.taskPrioritySet.map Prod.snd ++ s.taskRoundRobinQueue

structure Inv (s : Scheduler) : Prop where
  nodup : s.live.Nodup
  perm : s.filed.Perm s.live
  keyed : ∀ e ∈ s.taskPrioritySet,
    (s.tasks e.2).priority = e.1 ∧ (s.tasks e.2).inRoundRobinQueue = false
  queued : ∀ t ∈ s.taskRoundRobinQueue, (s.tasks t).inRoundRobinQueue = true
  current : ∀ t, s.current = some t → t ∈ s.live
  mapped : ∀ e ∈ s.taskMap, e.2 ∈ s.live ∧ (s.tasks e.2).tid = e.1

theorem inv_new (b : Bool) : Inv (new b) where
  nodup := .nil
  perm := .refl _
  keyed := fun e he => by cases he
  queued := fun t ht => by cases ht
  current := fun t ht => by cases ht
  mapped := fun e he => by cases he

section

variable (h : Inv s)
include h

theorem Inv.mustRun : Inv { s with mustRunTask := m } := { h with }

theorem Inv.setCurrent (ht : t ∈ s.live) : Inv { s with current := some t } :=
  { h with current := fun t' ht' => by cases ht'; exact ht }

theorem Inv.filed_nodup : s.filed.Nodup := h.perm.nodup_iff.mpr h.nodup

theorem Inv.live_of_key (he : e ∈ s.taskPrioritySet) : e.2 ∈ s.live :=
  h.perm.subset (mem_append_left _ (mem_map_of_mem he))

theorem Inv.live_of_queue (ht : t ∈ s.taskRoundRobinQueue) : t ∈ s.live :=
  h.perm.subset (mem_append_right _ ht)

theorem Inv.live_of_findTask (ht : s.findTask tid = some t) :
    t ∈ s.live ∧ (s.tasks t).tid = tid := by
  obtain ⟨l₁, l₂, hl, -⟩ := lookup_eq_some_iff.mp ht
  exact h.mapped (tid, t) (by rw [hl]; exact mem_append_right _ mem_cons_self)

theorem Inv.mem_set (ht : t ∈ s.live) (hf : (s.tasks t).inRoundRobinQueue = false) :
    ((s.tasks t).priority, t) ∈ s.taskPrioritySet := by
  rcases mem_append.mp (h.perm.symm.subset ht) with hm | hm
  · obtain ⟨e, he, rfl⟩ := mem_map.mp hm
    rw [(h.keyed e he).1]
    exact he
  · rw [h.queued t hm] at hf
    cases hf

theorem Inv.mem_queue (ht : t ∈ s.live) (hf : (s.tasks t).inRoundRobinQueue = true) :
    t ∈ s.taskRoundRobinQueue := by
  rcases mem_append.mp (h.perm.symm.subset ht) with hm | hm
  · obtain ⟨e, he, rfl⟩ := mem_map.mp hm
    rw [(h.keyed e he).2] at hf
    cases hf
  · exact hm

theorem Inv.erase_key (he : e ∈ s.taskPrioritySet) :
    (e.2 :: (s.taskPrioritySet.erase e).map Prod.snd ++ s.taskRoundRobinQueue).Perm s.live ∧
      ∀ e' ∈ s.taskPrioritySet.erase e, e'.2 ≠ e.2 := by
  have hp : (s.taskPrioritySet.map Prod.snd).Perm
      (e.2 :: (s.taskPrioritySet.erase e).map Prod.snd) := (perm_cons_erase he).map Prod.snd
  constructor
  · exact (hp.append_right _).symm.trans h.perm
  · have hd := (hp.nodup_iff.mp (nodup_append.mp h.filed_nodup).1)
    intro e' he' hn
    exact (nodup_cons.mp hd).1 (hn ▸ mem_map_of_mem he')

theorem Inv.queue_ne_key (he : e ∈ s.taskPrioritySet) (ht : t ∈ s.taskRoundRobinQueue) :
    e.2 ≠ t := by
  intro hn
  have hf := h.queued t ht
  rw [← hn, (h.keyed e he).2] at hf
  cases hf

end

theorem setTask_same : (setTask s t r).tasks t = r := update_self ..

theorem setTask_other (h : t' ≠ t) : (setTask s t r).tasks t' = s.tasks t' :=
  update_of_ne h ..

section

variable (h : Inv s)
include h

theorem mapped_setTask (hi : r.tid = (s.tasks t).tid) :
    ∀ e ∈ s.taskMap, e.2 ∈ s.live ∧ (update s.tasks t r e.2).tid = e.1 := by
  intro e he
  by_cases ht : e.2 = t
  · rw [ht, update_self, hi, ← ht]
    exact h.mapped e he
  · rw [update_of_ne ht]
    exact h.mapped e he

/-- A change to a task that keeps what the containers depend on, and a map that knows of it. -/
theorem Inv.setTaskMap {map : List (Nat × Task)} (hp : r.priority = (s.tasks t).priority)
    (hq : r.inRoundRobinQueue = (s.tasks t).inRoundRobinQueue)
    (hm : ∀ e ∈ map, e.2 ∈ s.live ∧ (update s.tasks t r e.2).tid = e.1) :
    Inv ({ s with taskMap := map }.setTask t r) := by
  have hs : ∀ t', ((s.setTask t r).tasks t').priority = (s.tasks t').priority ∧
      ((s.setTask t r).tasks t').inRoundRobinQueue = (s.tasks t').inRoundRobinQueue := by
    intro t'
    by_cases ht : t' = t
    · subst ht
      rw [setTask_same]
      exact ⟨hp, hq⟩
    · rw [setTask_other ht]
      exact ⟨rfl, rfl⟩
  exact
    { nodup := h.nodup
      perm := h.perm
      keyed := by
        intro e he
        obtain ⟨hep, heq⟩ := hs e.2
        exact ⟨hep.trans (h.keyed e he).1, heq.trans (h.keyed e he).2⟩
      queued := fun t ht => (hs t).2.trans (h.queued t ht)
      current := h.current
      mapped := hm }

theorem Inv.setTask (hp : r.priority = (s.tasks t).priority)
    (hq : r.inRoundRobinQueue = (s.tasks t).inRoundRobinQueue) (hi : r.tid = (s.tasks t).tid) :
    Inv (s.setTask t r) :=
  h.setTaskMap hp hq (mapped_setTask h hi)

theorem Inv.setUnstable : Inv (s.setUnstable t b) := h.setTask rfl rfl rfl

theorem Inv.setPriority_queued (ht : t ∈ s.taskRoundRobinQueue) : Inv (s.setPriority t value) where
  nodup := h.nodup
  perm := h.perm
  keyed := fun e he => by
    rw [Scheduler.setPriority, setTask_other (h.queue_ne_key he ht)]
    exact h.keyed e he
  queued := fun t' ht' => by
    by_cases hn : t' = t
    · subst hn
      rw [Scheduler.setPriority, setTask_same]
      exact h.queued t' ht
    · rw [Scheduler.setPriority, setTask_other hn]
      exact h.queued t' ht'
  current := h.current
  mapped := mapped_setTask h rfl

theorem Inv.refile (he : ((s.tasks t).priority, t) ∈ s.taskPrioritySet)
    (hv : (s.tasks t).priority ≠ value) :
    Inv { s.setPriority t value with
      taskPrioritySet :=
        setInsert (value, t) (s.taskPrioritySet.erase ((s.tasks t).priority, t)) } := by
  obtain ⟨hp, hne⟩ := h.erase_key he
  have hnew : (value, t) ∉ s.taskPrioritySet.erase ((s.tasks t).priority, t) :=
    fun hm => hne _ hm rfl
  have hi := setInsert_perm hnew
  exact
    { nodup := h.nodup
      perm := ((hi.map Prod.snd).append_right _).trans hp
      keyed := by
        intro e hm
        rcases mem_cons.mp (hi.subset hm) with rfl | hm
        · simp only [setPriority, setTask_same, true_and]
          exact (h.keyed _ he).2
        · simp only [setPriority, setTask_other (hne e hm)]
          exact h.keyed e (mem_of_mem_erase hm)
      queued := by
        intro t' ht'
        simp only [setPriority, setTask_other (h.queue_ne_key he ht').symm]
        exact h.queued t' ht'
      current := h.current
      mapped := mapped_setTask h rfl }

theorem Inv.updateTaskPriorityInternal (ht : t ∈ s.live) :
    Inv (s.updateTaskPriorityInternal t value) := by
  simp only [Scheduler.updateTaskPriorityInternal]
  generalize (if (s.tasks t).stableExit && !s.enableChaos then -9999 else value) = value
  split
  · exact h
  next hv =>
  split
  · next hf => exact h.setPriority_queued (h.mem_queue ht hf)
  · next hf =>
    have he := h.mem_set ht (Bool.eq_false_iff.mpr hf)
    have hi := h.refile he hv
    simp only [Scheduler.setPriority, setTask_same]
    exact hi

theorem Inv.inStableExit (ht : t ∈ s.live) : Inv (s.inStableExit t) :=
  h.updateTaskPriorityInternal ht

theorem Inv.updateTaskPriority (ht : t ∈ s.live) : Inv (s.updateTaskPriority t value) := by
  simp only [Scheduler.updateTaskPriority]
  split
  · exact h
  · exact h.updateTaskPriorityInternal ht

end

theorem updateTaskPriorityInternal_live : (updateTaskPriorityInternal s t value).live = s.live := by
  simp only [updateTaskPriorityInternal]
  generalize (if (s.tasks t).stableExit && !s.enableChaos then -9999 else value) = value
  split
  · rfl
  · split
    · rfl
    · rfl

theorem Inv.foldl_update {l : List Task} (h : Inv s) (hl : ∀ t ∈ l, t ∈ s.live) (f : Task → Int) :
    Inv (l.foldl (fun s t => s.updateTaskPriorityInternal t (f t)) s) := by
  induction l generalizing s with
  | nil => exact h
  | cons t l ih =>
    apply ih (h.updateTaskPriorityInternal (hl t mem_cons_self))
    intro t' ht'
    rw [updateTaskPriorityInternal_live]
    exact hl t' (mem_cons_of_mem t ht')

theorem Inv.maybeResetPriorities (h : Inv s) : Inv (s.maybeResetPriorities random) := by
  cases random with
  | none => exact h
  | some random =>
    simp only [Scheduler.maybeResetPriorities]
    split
    · exact h.foldl_update (fun t ht => h.perm.subset ht) _
    · exact h

theorem Inv.maybePopRoundRobinTask (h : Inv s) : Inv (s.maybePopRoundRobinTask t) := by
  simp only [Scheduler.maybePopRoundRobinTask]
  split
  · exact h
  next front rest hq =>
  split
  · exact h
  next hn =>
  rw [ne_eq, Decidable.not_not] at hn
  subst hn
  have hmem : t ∈ s.taskRoundRobinQueue := by rw [hq]; exact mem_cons_self
  have hnew : ((s.tasks t).priority, t) ∉ s.taskPrioritySet :=
    fun he => h.queue_ne_key he hmem rfl
  have hr : t ∉ rest := by
    have hd := (nodup_append.mp h.filed_nodup).2.1
    rw [hq] at hd
    exact (nodup_cons.mp hd).1
  have hi := setInsert_perm hnew
  simp only [Scheduler.setQueued, setTask_same]
  exact
    { nodup := h.nodup
      perm := by
        apply ((hi.map Prod.snd).append_right rest).trans
        apply perm_middle.symm.trans
        have hp := h.perm
        rw [filed, hq] at hp
        exact hp
      keyed := by
        intro e hm
        rcases mem_cons.mp (hi.subset hm) with rfl | hm
        · simp only [setTask_same, and_self]
        · simp only [setTask_other (h.queue_ne_key hm hmem)]
          exact h.keyed e hm
      queued := by
        intro t' ht'
        have hn : t' ≠ t := fun hn => hr (hn ▸ ht')
        simp only [setTask_other hn]
        exact h.queued t' (by rw [hq]; exact mem_cons_of_mem t ht')
      current := h.current
      mapped := mapped_setTask h rfl }

theorem maybePopRoundRobinTask_fields : (maybePopRoundRobinTask s t).live = s.live ∧
      (maybePopRoundRobinTask s t).current = s.current := by
  simp only [maybePopRoundRobinTask]
  split
  · exact ⟨rfl, rfl⟩
  · split
    · exact ⟨rfl, rfl⟩
    · exact ⟨rfl, rfl⟩

def enqueueAll (s : Scheduler) (ts : List Task) : Scheduler :=
  { s with
    taskRoundRobinQueue := s.taskRoundRobinQueue ++ ts
    tasks := fun x =>
      if x ∈ ts then { s.tasks x with inRoundRobinQueue := true } else s.tasks x }

theorem enqueueAll_nil : enqueueAll s [] = s := by
  simp only [enqueueAll, append_nil, not_mem_nil, ↓reduceIte]

theorem enqueueAll_append : enqueueAll s (ts ++ us) = (enqueueAll s ts).enqueueAll us := by
  simp only [enqueueAll, append_assoc, mem_append]
  congr 1
  funext x
  by_cases ht : x ∈ ts
  · simp only [ht, true_or, ↓reduceIte, ite_self]
  · simp only [ht, false_or, ↓reduceIte]

theorem enqueueAll_singleton : enqueueAll s [t] =
      setQueued { s with taskRoundRobinQueue := s.taskRoundRobinQueue ++ [t] } t true := by
  simp only [enqueueAll, setQueued, setTask, mem_singleton]
  congr 1
  funext x
  by_cases hx : x = t
  · simp only [hx, ↓reduceIte, update_self]
  · simp only [hx, ↓reduceIte, update_of_ne (f := s.tasks) hx]

theorem foldl_enqueueOther {s : Scheduler} {l : List Key}
    (hf : ∀ e ∈ l, (s.tasks e.2).inRoundRobinQueue = false) (hd : (l.map Prod.snd).Nodup) :
    l.foldl (enqueueOther t) s = s.enqueueAll ((l.map Prod.snd).filter (· ≠ t)) := by
  induction l generalizing s with
  | nil => exact enqueueAll_nil.symm
  | cons e l ih =>
    obtain ⟨hn, hd⟩ := nodup_cons.mp hd
    have he := hf e mem_cons_self
    rw [foldl_cons, map_cons]
    by_cases ht : e.2 = t
    · have hs : enqueueOther t s e = s := by
        simp only [enqueueOther, ht, ne_eq, not_true_eq_false, decide_false, Bool.false_and,
          Bool.false_eq_true, ↓reduceIte]
      rw [hs, ih (fun e' he' => hf e' (mem_cons_of_mem e he')) hd,
        filter_cons_of_neg (by simpa using ht)]
    · have hs : enqueueOther t s e = s.enqueueAll [e.2] := by
        rw [enqueueAll_singleton]
        simp only [enqueueOther, ht, he, ne_eq, not_false_eq_true, decide_true, Bool.not_false,
          Bool.and_self, ↓reduceIte]
      rw [hs, ih _ hd, ← enqueueAll_append, filter_cons_of_pos (by simpa using ht)]
      · rfl
      · intro e' he'
        have hne : e'.2 ∉ [e.2] := fun hm =>
          hn (mem_singleton.mp hm ▸ mem_map_of_mem he')
        simp only [enqueueAll, hne, ↓reduceIte]
        exact hf e' (mem_cons_of_mem e he')

variable (h : Inv s)
include h

theorem Inv.enqueueAll (ht : t ∈ s.taskPrioritySet.map Prod.snd) :
    Inv { s.enqueueAll ((s.taskPrioritySet.map Prod.snd).filter (· ≠ t) ++ [t]) with
      taskPrioritySet := [] } := by
  have hd : (s.taskPrioritySet.map Prod.snd).Nodup := (nodup_append.mp h.filed_nodup).1
  have hp : ((s.taskPrioritySet.map Prod.snd).filter (· ≠ t) ++ [t]).Perm
      (s.taskPrioritySet.map Prod.snd) := by
    have he : (s.taskPrioritySet.map Prod.snd).filter (· ≠ t) =
        (s.taskPrioritySet.map Prod.snd).erase t := by
      rw [hd.erase_eq_filter t]
      apply filter_congr
      intro x _
      by_cases hx : x = t
      · subst hx
        simp only [ne_eq, not_true_eq_false, decide_false, bne_self_eq_false]
      · simp only [ne_eq, hx, not_false_eq_true, decide_true, bne_iff_ne.mpr hx]
    rw [he]
    exact (perm_append_singleton _ _).trans (perm_cons_erase ht).symm
  have hq : (s.taskRoundRobinQueue ++
      ((s.taskPrioritySet.map Prod.snd).filter (· ≠ t) ++ [t])).Perm s.live :=
    (hp.append_left _).trans (perm_append_comm.trans h.perm)
  exact
    { nodup := h.nodup
      perm := hq
      keyed := fun e he => by cases he
      queued := by
        intro x hx
        simp only [Scheduler.enqueueAll]
        split
        · rfl
        · next hn => exact h.queued x ((mem_append.mp hx).resolve_right hn)
      current := h.current
      mapped := by
        intro e he
        obtain ⟨hl, hi⟩ := h.mapped e he
        simp only [Scheduler.enqueueAll]
        split
        · exact ⟨hl, hi⟩
        · exact ⟨hl, hi⟩ }

theorem Inv.scheduleOneRoundRobin (hs : s.scheduleOneRoundRobin t = some s') : Inv s' := by
  simp only [Scheduler.scheduleOneRoundRobin] at hs
  split at hs
  · cases hs
  next hc =>
  rw [ne_eq, Decidable.not_not] at hc
  split at hs
  · cases hs
  next hf =>
  have hi := h.maybePopRoundRobinTask (t := t)
  have hl : t ∈ (s.maybePopRoundRobinTask t).live := by
    rw [maybePopRoundRobinTask_fields.1]
    exact h.current t hc
  have hm := hi.mem_set hl (Bool.eq_false_iff.mpr hf)
  have hd := (nodup_append.mp hi.filed_nodup).1
  rw [foldl_enqueueOther (fun e he => (hi.keyed e he).2) hd] at hs
  cases hs
  have hr := hi.enqueueAll (mem_map_of_mem hm)
  rw [enqueueAll_append, enqueueAll_singleton] at hr
  exact hr

theorem Inv.add (ht : t ∉ s.live) (hr : r.inRoundRobinQueue = false) : Inv { s.setTask t r with
      live := t :: s.live
      taskMap := (r.tid, t) :: s.taskMap.filter (·.1 != r.tid)
      taskPrioritySet := setInsert (r.priority, t) s.taskPrioritySet } := by
  have hne : ∀ t' ∈ s.live, t' ≠ t := fun t' ht' hn => ht (hn ▸ ht')
  have hi := setInsert_perm (e := (r.priority, t)) fun he => ht (h.live_of_key he)
  exact
    { nodup := nodup_cons.mpr ⟨ht, h.nodup⟩
      perm := ((hi.map Prod.snd).append_right _).trans (h.perm.cons t)
      keyed := by
        intro e he
        rcases mem_cons.mp (hi.subset he) with rfl | he
        · simp only [setTask_same, hr, and_self]
        · simp only [setTask_other (hne _ (h.live_of_key he))]
          exact h.keyed e he
      queued := by
        intro t' ht'
        simp only [setTask_other (hne _ (h.live_of_queue ht'))]
        exact h.queued t' ht'
      current := fun t' ht' => mem_cons_of_mem t (h.current t' ht')
      mapped := by
        intro e he
        rcases mem_cons.mp he with rfl | he
        · simp only [setTask_same, and_true]
          exact mem_cons_self
        · obtain ⟨hl, hi⟩ := h.mapped e (mem_of_mem_filter he)
          simp only [setTask_other (hne _ hl)]
          exact ⟨mem_cons_of_mem t hl, hi⟩ }

theorem Inv.createTask (ht : t ∉ s.live) : Inv (s.createTask t tid tgid parent random) := by
  simp only [Scheduler.createTask, onCreate]
  split
  · simp only [Scheduler.setPriority, Scheduler.setTask, update_self, update_idem]
    exact h.add ht rfl
  · simp only [Scheduler.setTask, update_self]
    exact h.add ht rfl

theorem Inv.remove {set : List Key} {queue : List Task} (ht : t ∈ s.live)
    (hc : s.current ≠ some t) (hp : (t :: (set.map Prod.snd ++ queue)).Perm s.live)
    (hk : ∀ e ∈ set, e ∈ s.taskPrioritySet) (hq : ∀ x ∈ queue, x ∈ s.taskRoundRobinQueue) :
    Inv { s with
      taskPrioritySet := set
      taskRoundRobinQueue := queue
      live := s.live.erase t
      taskMap := s.taskMap.filter (·.1 != (s.tasks t).tid) } := by
  have hmem : ∀ x ∈ s.live, x ≠ t → x ∈ s.live.erase t := fun x hx hn =>
    (mem_erase_of_ne hn).mpr hx
  exact
    { nodup := h.nodup.erase t
      perm := (hp.trans (perm_cons_erase ht)).cons_inv
      keyed := fun e he => h.keyed e (hk e he)
      queued := fun x hx => h.queued x (hq x hx)
      current := fun x hx => hmem x (h.current x hx) fun hn => hc (hn ▸ hx)
      mapped := by
        intro e he
        obtain ⟨hm, hne⟩ := mem_filter.mp he
        obtain ⟨hl, hi⟩ := h.mapped e hm
        refine ⟨hmem _ hl ?_, hi⟩
        intro hn
        rw [← hn, hi, bne_self_eq_false] at hne
        cases hne }

theorem Inv.erase_queue (ht : t ∈ s.taskRoundRobinQueue) :
    (t :: (s.taskPrioritySet.map Prod.snd ++ s.taskRoundRobinQueue.erase t)).Perm s.live := by
  apply perm_middle.symm.trans
  exact ((perm_cons_erase ht).symm.append_left _).trans h.perm

theorem Inv.destroyTask (ht : t ∈ s.live) : ∃ s', s.destroyTask t = some s' ∧ Inv s' := by
  simp only [Scheduler.destroyTask, onDestroy]
  generalize hs : (if s.current = some t then { s with current := none } else s) = s₀
  have h₀ : Inv s₀ ∧ t ∈ s₀.live ∧ s₀.current ≠ some t := by
    split at hs
    · subst hs
      exact ⟨{ h with current := fun t ht => by cases ht }, ht, by simp⟩
    · next hn =>
      subst hs
      exact ⟨h, ht, hn⟩
  obtain ⟨hi, hl, hc⟩ := h₀
  split
  · next hf =>
    have hm := hi.mem_queue hl hf
    rw [if_pos hm]
    exact ⟨_, rfl, hi.remove hl hc (hi.erase_queue hm) (fun _ he => he)
      fun _ hx => mem_of_mem_erase hx⟩
  · next hf =>
    have hm := hi.mem_set hl (Bool.eq_false_iff.mpr hf)
    exact ⟨_, rfl, hi.remove hl hc (hi.erase_key hm).1 (fun _ he => mem_of_mem_erase he)
      fun _ hx => hx⟩

theorem Inv.reviveTaskForExec (hs : s.reviveTaskForExec recTid oldTid = some (t, s')) :
    Inv s' ∧ t ∈ s'.live := by
  simp only [Scheduler.reviveTaskForExec] at hs
  split at hs
  · cases hs
  next t' hf =>
  obtain ⟨-, hs⟩ := Option.ite_none_left_eq_some.mp hs
  cases hs
  obtain ⟨hl, -⟩ := h.live_of_findTask hf
  have ho : ∀ e ∈ s.taskMap.filter (·.1 != (s.tasks t).tid),
      e.2 ∈ s.live ∧ e.2 ≠ t ∧ (s.tasks e.2).tid = e.1 := by
    intro e he
    obtain ⟨hm, hne⟩ := mem_filter.mp he
    obtain ⟨hl, hi⟩ := h.mapped e hm
    refine ⟨hl, ?_, hi⟩
    intro hn
    rw [← hn, hi, bne_self_eq_false] at hne
    cases hne
  refine ⟨h.setTaskMap rfl rfl ?_, hl⟩
  have hold : ∀ e ∈ s.taskMap.filter (·.1 != (s.tasks t).tid), e.2 ∈ s.live ∧
      (update s.tasks t { s.tasks t with unstable := false, tid := recTid } e.2).tid =
        e.1 := by
    intro e he
    obtain ⟨hl, hn, hi⟩ := ho e he
    rw [update_of_ne hn]
    exact ⟨hl, hi⟩
  intro e he
  split at he
  · exact hold e he
  · rcases mem_cons.mp he with rfl | he
    · exact ⟨hl, by rw [update_self]⟩
    · exact hold e he

end Scheduler

end Attune.Schedule
