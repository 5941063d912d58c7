import Attune.SchedulerInvariant

namespace Attune.Schedule.Scheduler
open List Option

def Looked (s s' : Scheduler) : Prop := ∃ m, s' = { s with mustRunTask := m }

theorem Looked.refl : Looked s s := ⟨s.mustRunTask, rfl⟩

theorem Looked.trans (h : Looked s₁ s₂) (h' : Looked s₂ s₃) : Looked s₁ s₃ := by
  obtain ⟨m, rfl⟩ := h
  obtain ⟨m', rfl⟩ := h'
  exact ⟨m', rfl⟩

theorem Looked.inv (h : Looked s s') (hi : Inv s) : Inv s' := by
  obtain ⟨m, rfl⟩ := h
  exact hi.mustRun

theorem isTaskRunnable_looked (h : isTaskRunnable s probe t = some (p, s')) : Looked s s' := by
  simp only [isTaskRunnable] at h
  split at h
  · cases h
  split at h
  · cases h
    exact .refl
  · split at h <;> cases h
    · exact .refl
    · exact .refl
    · exact ⟨some t, rfl⟩

theorem firstRunnable_looked (h : firstRunnable s probe ts = some (found, s')) :
    Looked s s' ∧ ∀ r, found = some r → r.1 ∈ ts := by
  induction ts generalizing s with
  | nil =>
    cases h
    exact ⟨.refl, fun r hr => by cases hr⟩
  | cons t ts ih =>
    simp only [firstRunnable, bind_eq_bind, bind_eq_some_iff] at h
    obtain ⟨⟨p, s₁⟩, hr, h⟩ := h
    have hl := isTaskRunnable_looked hr
    split at h
    · obtain ⟨hl', hm⟩ := ih h
      exact ⟨hl.trans hl', fun r hr => mem_cons_of_mem t (hm r hr)⟩
    · cases h
      exact ⟨hl, fun r hr => by cases hr; exact mem_cons_self⟩

theorem tryOrder_subset (h : tryOrder s i t priority group = some order) (hx : x ∈ order) :
    x ∈ group := by
  simp only [tryOrder] at h
  split at h
  · cases h
    exact (perm_insertionSort _ group).subset hx
  split at h
  · cases h
    exact hx
  split at h
  · cases h
    exact hx
  split at h
  · cases h
    rcases mem_append.mp hx with hx | hx
    · exact mem_of_mem_drop hx
    · exact mem_of_mem_take hx
  · cases h

theorem findInGroups_looked (h : findInGroups s i t threshold groups = some (found, s')) :
    Looked s s' ∧ ∀ r, found = some r → ∃ e ∈ groups.flatten, e.2 = r.1 := by
  induction groups generalizing s with
  | nil =>
    cases h
    exact ⟨.refl, fun r hr => by cases hr⟩
  | cons g groups ih =>
    cases g with
    | nil => exact ih h
    | cons e g =>
      simp only [findInGroups] at h
      split at h
      · cases h
        exact ⟨.refl, fun r hr => by cases hr⟩
      split at h
      · cases h
      simp only [bind_eq_bind, bind_eq_some_iff] at h
      obtain ⟨order, ho, ⟨found₁, s₁⟩, hf, h⟩ := h
      obtain ⟨hl, hm⟩ := firstRunnable_looked hf
      split at h
      · next r hr =>
        cases h
        refine ⟨hl, fun r' hr' => ?_⟩
        cases hr'
        obtain ⟨e', he', hx⟩ := mem_map.mp (tryOrder_subset ho (hm r hr))
        exact ⟨e', mem_flatten_of_mem mem_cons_self he', hx⟩
      · obtain ⟨hl', hm'⟩ := ih h
        refine ⟨hl.trans hl', fun r hr => ?_⟩
        obtain ⟨e', he', hx⟩ := hm' r hr
        exact ⟨e', by rw [flatten_cons]; exact mem_append_right _ he', hx⟩

theorem Inv.findNextRunnableTask (h : Inv s)
    (hf : s.findNextRunnableTask i t threshold = some (found, s')) :
    Inv s' ∧ s'.tasks = s.tasks ∧ ∀ r, found = some r → r.1 ∈ s'.live := by
  obtain ⟨⟨m, rfl⟩, hm⟩ := findInGroups_looked hf
  refine ⟨h.mustRun, rfl, fun r hr => ?_⟩
  obtain ⟨e, he, hx⟩ := hm r hr
  rw [flatten_splitBy] at he
  rw [← hx]
  exact h.live_of_key he

def Chosen (r : Decision × Scheduler) : Prop :=
  Inv r.2 ∧ ∀ t, r.1 = .select (some t) → t ∈ r.2.live

section

variable {next : Option Task} (h : Inv s)
include h

theorem Inv.needToReschedule (hr : s.needToReschedule i = some r) : Chosen r := by
  simp only [Scheduler.needToReschedule] at hr
  split at hr
  · next next hn =>
    simp only [bind_eq_bind, bind_eq_some_iff] at hr
    obtain ⟨⟨p, s₁⟩, hp, hr⟩ := hr
    obtain ⟨m, rfl⟩ := isTaskRunnable_looked hp
    have hi : Inv { s with mustRunTask := m } := h.mustRun
    split at hr
    · cases hr
      exact ⟨hi.maybePopRoundRobinTask, fun t ht => by cases ht⟩
    · cases hr
      refine ⟨hi, fun t ht => ?_⟩
      cases ht
      exact h.live_of_queue (mem_of_mem_head? hn)
  · simp only [bind_eq_bind, bind_eq_some_iff] at hr
    obtain ⟨⟨found, s₁⟩, hf, hr⟩ := hr
    obtain ⟨hi, -, hm⟩ := h.findNextRunnableTask hf
    split at hr
    · cases hr
      exact ⟨hi, fun t ht => by cases ht⟩
    next found next p he =>
    split at hr
    · cases hr
      exact ⟨hi, fun t ht => by cases ht⟩
    · cases hr
      refine ⟨hi, fun t ht => ?_⟩
      cases ht
      exact hm (next, p) he

theorem Inv.tryCurrent (hr : s.tryCurrent i t = some r) : Chosen r := by
  simp only [Scheduler.tryCurrent] at hr
  split at hr
  · simp only [bind_eq_bind, bind_eq_some_iff] at hr
    obtain ⟨⟨p, s₁⟩, hp, hr⟩ := hr
    have hi := (isTaskRunnable_looked hp).inv h
    split at hr
    · exact hi.maybePopRoundRobinTask.needToReschedule hr
    · cases hr
      exact ⟨hi, fun t ht => by cases ht⟩
  · exact h.maybePopRoundRobinTask.needToReschedule hr

theorem Inv.iterate (hr : s.iterate i = some r) : Chosen r := by
  simp only [Scheduler.iterate] at hr
  split at hr
  · exact h.needToReschedule hr
  split at hr
  · exact h.tryCurrent hr
  split at hr
  · cases hr
  simp only [bind_eq_bind, bind_eq_some_iff] at hr
  obtain ⟨⟨found, s₁⟩, hf, hr⟩ := hr
  obtain ⟨hi, -, hm⟩ := h.findNextRunnableTask hf
  split at hr
  · next found next p he =>
    cases hr
    refine ⟨hi, fun t ht => ?_⟩
    cases ht
    exact hm (next, p) he
  · exact hi.tryCurrent hr

theorem Inv.chooseTask (hr : s.chooseTask is = some r) : Chosen r := by
  induction is generalizing s with
  | nil => cases hr
  | cons i is ih =>
    simp only [Scheduler.chooseTask, bind_eq_bind, bind_eq_some_iff] at hr
    obtain ⟨⟨d, s₁⟩, hi, hr⟩ := hr
    split at hr
    · exact ih (h.iterate hi).1 hr
    · cases hr
      exact h.iterate hi

theorem Inv.clearQueue : Inv s.clearQueue := by
  simp only [Scheduler.clearQueue]
  generalize s.taskRoundRobinQueue = queue
  induction queue generalizing s with
  | nil => exact h
  | cons t queue ih => exact ih h.maybePopRoundRobinTask

theorem Inv.awaited (hr : s.awaited tid exec oldTid = some (next, s')) :
    Inv s' ∧ ∀ t, next = some t → t ∈ s'.live := by
  simp only [Scheduler.awaited] at hr
  split at hr
  · next t hf =>
    cases hr
    exact ⟨h.setUnstable, fun t' ht' => by cases ht'; exact (h.live_of_findTask hf).1⟩
  · simp only [map_eq_some_iff] at hr
    obtain ⟨⟨t, s₁⟩, hr, he⟩ := hr
    cases he
    obtain ⟨hi, hl⟩ := h.reviveTaskForExec hr
    exact ⟨hi, fun t' ht' => by cases ht'; exact hl⟩
  · cases hr
    exact ⟨h, fun t ht => (h.live_of_findTask ht).1⟩

theorem Inv.waitForTask (hr : s.waitForTask ws = some (next, s')) :
    Inv s' ∧ ∀ t, next = some t → t ∈ s'.live := by
  induction ws generalizing s with
  | nil => cases hr
  | cons w ws ih =>
    cases w with
    | interrupted =>
      simp only [Scheduler.waitForTask] at hr
      split at hr
      · cases hr
      · cases hr
        exact ⟨h, fun t ht => by cases ht⟩
    | changed tid exec oldTid exited mayBeBlocked =>
      simp only [Scheduler.waitForTask, bind_eq_bind, bind_eq_some_iff] at hr
      obtain ⟨⟨found, s₁⟩, hf, hr⟩ := hr
      obtain ⟨hi, hl⟩ := h.awaited hf
      split at hr
      · exact ih hi hr
      · next t he =>
        split at hr
        · cases hr
          exact ⟨hi.mustRun, fun t' ht' => by cases ht'; exact hl t he⟩
        · cases hr

end

theorem validateScheduledTask_eq (h : validateScheduledTask s = some s') : s' = s := by
  simp only [validateScheduledTask] at h
  split at h
  · cases h
  · split at h
    · cases h
    · cases h
      rfl

section

variable {next : Option Task} (h : Inv s)
include h

theorem Inv.switchTo (ht : t ∈ s.live) (hs : s.switchTo t = some s') : Inv s' := by
  rw [validateScheduledTask_eq hs]
  exact h.setCurrent ht

theorem Inv.runNext (hn : ∀ t, next = some t → t ∈ s.live)
    (hs : s.runNext next waits = some s') : Inv s' := by
  have hno (hs : s.runNext none waits = some s') : Inv s' := by
    obtain ⟨⟨t, s₁⟩, hr, hs⟩ := bind_eq_some_iff.mp hs
    obtain ⟨hi, hl⟩ := h.clearQueue.waitForTask hr
    cases t with
    | none =>
      cases hs
      exact hi
    | some t => exact hi.switchTo (hl t rfl) hs
  cases next with
  | none => exact hno hs
  | some t =>
    simp only [Scheduler.runNext] at hs
    split at hs
    · exact hno hs
    · exact h.switchTo (hn t rfl) hs

theorem Inv.reschedule (hs : s.reschedule i = some s') : Inv s' := by
  have h₀ : Inv { s with mustRunTask := none } := h.mustRun
  have hi : Inv ({ s with mustRunTask := none }.maybeResetPriorities i.random) :=
    h₀.maybeResetPriorities
  simp only [Scheduler.reschedule] at hs
  split at hs
  · rw [validateScheduledTask_eq hs]
    exact hi
  simp only [bind_eq_bind, bind_eq_some_iff] at hs
  obtain ⟨⟨d, s₁⟩, hd, hs⟩ := hs
  obtain ⟨hi', hl⟩ := hi.chooseTask hd
  split at hs
  · next next he => exact hi'.runNext (fun t ht => hl t (by rw [← ht]; exact he)) hs
  · rw [validateScheduledTask_eq hs]
    exact hi'

theorem Inv.execFromOtherThread (ht : t ∈ s.live)
    (hs : s.step (.execFromOtherThread t oldTid) = some s') : Inv s' := by
  simp only [Scheduler.step, if_pos ht, bind_eq_bind, bind_eq_some_iff] at hs
  obtain ⟨s₁, hd, ⟨t', s₂⟩, hr, hs⟩ := hs
  have hu : Inv (s.setUnstable t true) := h.setUnstable
  obtain ⟨s₁', hd', hi⟩ := hu.destroyTask ht
  rw [hd] at hd'
  cases hd'
  cases hs
  obtain ⟨hi', hl⟩ := hi.reviveTaskForExec hr
  exact hi'.setCurrent hl

theorem Inv.step (hs : s.step op = some s') : Inv s' := by
  cases op with
  | create t tid tgid parent random =>
    simp only [Scheduler.step] at hs
    split at hs
    · cases hs
    · next ht =>
      cases hs
      exact h.createTask ht
  | destroy t =>
    obtain ⟨ht, hs⟩ := ite_none_right_eq_some.mp hs
    obtain ⟨s₁, hd, hi⟩ := h.destroyTask ht
    rw [hs] at hd
    cases hd
    exact hi
  | updateTaskPriority t value =>
    obtain ⟨ht, hs⟩ := ite_none_right_eq_some.mp hs
    cases hs
    exact h.updateTaskPriority ht
  | stableExit t =>
    obtain ⟨ht, hs⟩ := ite_none_right_eq_some.mp hs
    cases hs
    have hi : Inv (s.setTask t { s.tasks t with stableExit := true }) := h.setTask rfl rfl rfl
    exact hi.inStableExit ht
  | markUnstable t =>
    obtain ⟨-, hs⟩ := ite_none_right_eq_some.mp hs
    cases hs
    exact h.setUnstable
  | scheduleOneRoundRobin t =>
    obtain ⟨-, hs⟩ := ite_none_right_eq_some.mp hs
    exact h.scheduleOneRoundRobin hs
  | reschedule i => exact h.reschedule hs
  | execFromOtherThread t oldTid =>
    obtain ⟨ht, -⟩ := ite_none_right_eq_some.mp hs
    exact h.execFromOtherThread ht hs
  | setEnableChaos b =>
    cases hs
    exact { h with }

theorem Inv.run (hs : s.run ops = some s') : Inv s' := by
  induction ops generalizing s with
  | nil =>
    cases hs
    exact h
  | cons op ops ih =>
    obtain ⟨s₁, hop, hs⟩ := bind_eq_some_iff.mp hs
    exact ih (h.step hop) hs

end

/-- A task is in one of the containers, once, where its flag says, and in the set under its
priority. -/
def FiledOnce (s : Scheduler) (t : Task) : Prop :=
  if (s.tasks t).inRoundRobinQueue then
    s.taskRoundRobinQueue.count t = 1 ∧ t ∉ s.taskPrioritySet.map Prod.snd
  else
    t ∉ s.taskRoundRobinQueue ∧ (s.taskPrioritySet.map Prod.snd).count t = 1 ∧
      ((s.tasks t).priority, t) ∈ s.taskPrioritySet

def Absent (s : Scheduler) (t : Task) : Prop :=
  t ∉ s.taskRoundRobinQueue ∧ t ∉ s.taskPrioritySet.map Prod.snd ∧ s.current ≠ some t

theorem Inv.filedOnce (h : Inv s) (ht : t ∈ s.live) : s.FiledOnce t := by
  have hc : s.filed.count t = 1 := by
    rw [h.perm.count_eq]
    exact count_eq_one_of_mem h.nodup ht
  rw [filed, count_append] at hc
  simp only [FiledOnce]
  split
  · next hf =>
    have hq := count_pos_iff.mpr (h.mem_queue ht hf)
    exact ⟨by omega, count_eq_zero.mp (by omega)⟩
  · next hf =>
    have hm := h.mem_set ht (Bool.eq_false_iff.mpr hf)
    have hk : 0 < (s.taskPrioritySet.map Prod.snd).count t :=
      count_pos_iff.mpr (mem_map_of_mem hm)
    exact ⟨count_eq_zero.mp (by omega), by omega, hm⟩

theorem Inv.absent (h : Inv s) (ht : t ∉ s.live) : s.Absent t := by
  refine ⟨fun hq => ht (h.live_of_queue hq), fun hm => ?_, fun hc => ht (h.current t hc)⟩
  exact ht (h.perm.subset (mem_append_left _ hm))

/-- After every run of the scheduler's operations the live tasks are filed once, and a destroyed
task is nowhere. -/
theorem scheduler_run_filed (alwaysSwitch : Bool) (ops : List Op) (s : Scheduler)
    (hs : (new alwaysSwitch).run ops = some s) :
    (∀ t ∈ s.live, s.FiledOnce t) ∧ ∀ t, t ∉ s.live → s.Absent t := by
  have h := (inv_new alwaysSwitch).run hs
  exact ⟨fun t ht => h.filedOnce ht, fun t ht => h.absent ht⟩

def yieldOps : List Op :=
  let i : Iteration := ⟨fun _ => .runnable, id, false, false⟩
  [.create 1 10 10 none false, .create 2 11 10 (some 1) true, .reschedule ⟨none, false, [i], []⟩,
    .scheduleOneRoundRobin 1, .setEnableChaos true,
    .reschedule ⟨some fun _ => true, false, [i], []⟩, .destroy 1]

theorem scheduler_run_filed_yield : ∃ s, (new false).run yieldOps = some s ∧
      (∀ t ∈ s.live, s.FiledOnce t) ∧ ∀ t, t ∉ s.live → s.Absent t :=
  ⟨_, rfl, scheduler_run_filed false yieldOps _ rfl⟩

end Attune.Schedule.Scheduler
