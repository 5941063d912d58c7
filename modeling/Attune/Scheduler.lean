import Mathlib

namespace Attune.Schedule

abbrev Task := Nat

structure RecordTask where
  tid : Nat
  tgid : Nat
  priority : Int
  inRoundRobinQueue : Bool
  stableExit : Bool
  unstable : Bool
  deriving DecidableEq

abbrev Key := Int × Task

def Key.before (a b : Key) : Bool := a.1 < b.1 || (a.1 == b.1 && a.2 < b.2)

def setInsert (e : Key) : List Key → List Key
  | [] => [e]
  | a :: l => if Key.before e a then e :: a :: l else if e = a then a :: l else a :: setInsert e l

/-- The scheduler with its session: `live` tasks, and the session's map from thread ids. -/
structure Scheduler where
  tasks : Task → RecordTask
  live : List Task
  taskMap : List (Nat × Task)
  taskPrioritySet : List Key
  taskRoundRobinQueue : List Task
  current : Option Task
  mustRunTask : Option Task
  enableChaos : Bool
  alwaysSwitch : Bool

namespace Scheduler

def new (alwaysSwitch : Bool) : Scheduler :=
  { tasks := fun _ => ⟨0, 0, 0, false, false, false⟩, live := [], taskMap := [],
    taskPrioritySet := [], taskRoundRobinQueue := [], current := none, mustRunTask := none,
    enableChaos := false, alwaysSwitch }

variable (s : Scheduler)

def setTask (t : Task) (r : RecordTask) : Scheduler :=
  { s with tasks := Function.update s.tasks t r }

def setPriority (t : Task) (value : Int) : Scheduler :=
  s.setTask t { s.tasks t with priority := value }

def setQueued (t : Task) (b : Bool) : Scheduler :=
  s.setTask t { s.tasks t with inRoundRobinQueue := b }

def onCreate (t : Task) (random : Bool) : Scheduler :=
  let s := if s.enableChaos then s.setPriority t random.toInt else s
  { s with taskPrioritySet := setInsert ((s.tasks t).priority, t) s.taskPrioritySet }

/-- Erasing from the queue what is not there is undefined. -/
def onDestroy (t : Task) : Option Scheduler :=
  let s := if s.current = some t then { s with current := none } else s
  if (s.tasks t).inRoundRobinQueue then
    if t ∈ s.taskRoundRobinQueue then
      some { s with taskRoundRobinQueue := s.taskRoundRobinQueue.erase t }
    else none
  else some { s with taskPrioritySet := s.taskPrioritySet.erase ((s.tasks t).priority, t) }

def updateTaskPriorityInternal (t : Task) (value : Int) : Scheduler :=
  let value := if (s.tasks t).stableExit && !s.enableChaos then -9999 else value
  if (s.tasks t).priority = value then s
  else if (s.tasks t).inRoundRobinQueue then s.setPriority t value
  else
    let erased := { s with
      taskPrioritySet := s.taskPrioritySet.erase ((s.tasks t).priority, t) }
    let s := erased.setPriority t value
    { s with taskPrioritySet := setInsert ((s.tasks t).priority, t) s.taskPrioritySet }

def updateTaskPriority (t : Task) (value : Int) : Scheduler :=
  if s.enableChaos then s else s.updateTaskPriorityInternal t value

def inStableExit (t : Task) : Scheduler :=
  s.updateTaskPriorityInternal t (s.tasks t).priority

def getRoundRobinTask : Option Task := s.taskRoundRobinQueue.head?

def maybePopRoundRobinTask (t : Task) : Scheduler :=
  match s.taskRoundRobinQueue with
  | [] => s
  | front :: rest =>
    if t ≠ front then s
    else
      let s := { s with taskRoundRobinQueue := rest }.setQueued t false
      { s with taskPrioritySet := setInsert ((s.tasks t).priority, t) s.taskPrioritySet }

def enqueueOther (t : Task) (s : Scheduler) (e : Key) : Scheduler :=
  if e.2 ≠ t && !(s.tasks e.2).inRoundRobinQueue then
    { s with taskRoundRobinQueue := s.taskRoundRobinQueue ++ [e.2] }.setQueued e.2 true
  else s

def scheduleOneRoundRobin (t : Task) : Option Scheduler :=
  if s.current ≠ some t then none
  else
    let s := s.maybePopRoundRobinTask t
    if (s.tasks t).inRoundRobinQueue then none
    else
      let s := s.taskPrioritySet.foldl (enqueueOther t) s
      some ({ s with
        taskPrioritySet := []
        taskRoundRobinQueue := s.taskRoundRobinQueue ++ [t] }.setQueued t true)

/-- The tasks are listed before any priority changes. -/
def maybeResetPriorities (random : Option (Task → Bool)) : Scheduler :=
  match random with
  | none => s
  | some random =>
    if s.enableChaos then
      (s.taskPrioritySet.map Prod.snd ++ s.taskRoundRobinQueue).foldl
        (fun s t => s.updateTaskPriorityInternal t (random t).toInt) s
    else s

/-- What a look at a task gives: it is blocked, it can run, or it was waited for and must run. -/
inductive Probe where
  | blocked
  | runnable
  | byWaitpid
  deriving DecidableEq

/-- `is_task_runnable`; `none` where the assertion on the task that must run fails. -/
def isTaskRunnable (probe : Task → Probe) (t : Task) : Option (Probe × Scheduler) :=
  if s.mustRunTask.isSome then none
  else if (s.tasks t).unstable then some (.runnable, s)
  else
    match probe t with
    | .blocked => some (.blocked, s)
    | .runnable => some (.runnable, s)
    | .byWaitpid => some (.byWaitpid, { s with mustRunTask := some t })

def firstRunnable (s : Scheduler) (probe : Task → Probe) :
    List Task → Option (Option (Task × Probe) × Scheduler)
  | [] => some (none, s)
  | t :: rest => do
    let (p, s) ← s.isTaskRunnable probe t
    if p = .blocked then s.firstRunnable probe rest else return (some (t, p), s)

/-- What an iteration of `reschedule` meets: answers about tasks, the shuffle, the interval, and
whether the time slice goes on. -/
structure Iteration where
  probe : Task → Probe
  rank : Task → Nat
  inHighPriorityOnlyInterval : Bool
  timesliceLeft : Bool

variable (i : Iteration)

/-- The order in which tasks of one priority are tried: after `t` without chaos; a `t` that is not
in the set is undefined. -/
def tryOrder (t : Option Task) (priority : Int) (group : List Task) : Option (List Task) :=
  if s.enableChaos then some (group.insertionSort fun a b => i.rank a ≤ i.rank b)
  else
    match t with
    | none => some group
    | some t =>
      if priority ≠ (s.tasks t).priority then some group
      else if t ∈ group then
        some (group.drop (group.idxOf t + 1) ++ group.take (group.idxOf t + 1))
      else none

def int32Max : Int := 2147483647

def int32Min : Int := -2147483648

/-- The outer loop of `find_next_runnable_task`, over the groups of one priority. -/
def findInGroups (s : Scheduler) (i : Iteration) (t : Option Task) (threshold : Int) :
    List (List Key) → Option (Option (Task × Probe) × Scheduler)
  | [] => some (none, s)
  | [] :: groups => s.findInGroups i t threshold groups
  | (e :: g) :: groups =>
    if threshold < e.1 then some (none, s)
    else if e.1 = int32Max then none
    else do
      let order ← s.tryOrder i t e.1 ((e :: g).map Prod.snd)
      let (found, s) ← s.firstRunnable i.probe order
      match found with
      | some r => return (some r, s)
      | none => s.findInGroups i t threshold groups

def findNextRunnableTask (t : Option Task) (threshold : Int) :
    Option (Option (Task × Probe) × Scheduler) :=
  s.findInGroups i t threshold (s.taskPrioritySet.splitBy fun a b => a.1 == b.1)

def treatAsHighPriority (t : Task) : Bool :=
  1 < s.taskPrioritySet.length && (s.tasks t).priority == 0

def validateScheduledTask : Option Scheduler :=
  if s.mustRunTask.isSome && s.mustRunTask ≠ s.current then none
  else if s.taskRoundRobinQueue ≠ [] && s.current ≠ s.taskRoundRobinQueue.head? then none
  else some s

/-- What an iteration decides: to go on with the current task, to take another look, or the task to
run next. -/
inductive Decision where
  | carryOn
  | again
  | select (next : Option Task)
  deriving DecidableEq

def needToReschedule : Option (Decision × Scheduler) :=
  match s.getRoundRobinTask with
  | some next => do
    let (p, s) ← s.isTaskRunnable i.probe next
    if p = .blocked then return (.again, s.maybePopRoundRobinTask next)
    else return (.select (some next), s)
  | none => do
    let (found, s) ← s.findNextRunnableTask i s.current int32Max
    match found with
    | none => return (.select none, s)
    | some (next, p) =>
      if !s.treatAsHighPriority next && i.inHighPriorityOnlyInterval && p ≠ .byWaitpid then
        return (.again, s)
      else return (.select (some next), s)

/-- Whether to run the current task again, once no task of higher priority is runnable. -/
def tryCurrent (current : Task) : Option (Decision × Scheduler) :=
  if !(s.tasks current).unstable && !s.alwaysSwitch &&
      (s.getRoundRobinTask = none || s.getRoundRobinTask = some current) &&
      (s.treatAsHighPriority current || !i.inHighPriorityOnlyInterval) && i.timesliceLeft then do
    let (p, s) ← s.isTaskRunnable i.probe current
    if p = .blocked then (s.maybePopRoundRobinTask current).needToReschedule i
    else return (.carryOn, s)
  else (s.maybePopRoundRobinTask current).needToReschedule i

def iterate : Option (Decision × Scheduler) :=
  match s.current with
  | none => s.needToReschedule i
  | some current =>
    match s.getRoundRobinTask with
    | some _ => s.tryCurrent i current
    | none =>
      if (s.tasks current).priority = int32Min then none
      else do
        let (found, s) ← s.findNextRunnableTask i s.current ((s.tasks current).priority - 1)
        match found with
        | some (next, _) => return (.select (some next), s)
        | none => s.tryCurrent i current

def chooseTask (s : Scheduler) : List Iteration → Option (Decision × Scheduler)
  | [] => none
  | i :: rest => do
    let (d, s) ← s.iterate i
    if d = .again then s.chooseTask rest else return (d, s)

def clearQueue : Scheduler :=
  s.taskRoundRobinQueue.foldl (fun s t => s.maybePopRoundRobinTask t) s

inductive Wait where
  | interrupted
  | changed (tid : Nat) (exec : Bool) (oldTid : Nat) (exited mayBeBlocked : Bool)
  deriving DecidableEq

def findTask (tid : Nat) : Option Task := s.taskMap.lookup tid

def setUnstable (t : Task) (b : Bool) : Scheduler :=
  s.setTask t { s.tasks t with unstable := b }

/-- An exec changed the thread id of the task to that of its group. An insertion into the map does
not replace an entry. -/
def reviveTaskForExec (recTid oldTid : Nat) : Option (Task × Scheduler) :=
  match s.findTask oldTid with
  | none => none
  | some t =>
    if recTid ≠ (s.tasks t).tgid then none
    else
      let erased := s.taskMap.filter (·.1 != (s.tasks t).tid)
      let map := if (erased.lookup recTid).isSome then erased else (recTid, t) :: erased
      some (t, { s with taskMap := map }.setTask t
        { s.tasks t with unstable := false, tid := recTid })

def awaited (tid : Nat) (exec : Bool) (oldTid : Nat) : Option (Option Task × Scheduler) :=
  match s.findTask tid, exec with
  | some t, true => some (some t, s.setUnstable t false)
  | none, true => (s.reviveTaskForExec tid oldTid).map fun r => (some r.1, r.2)
  | next, false => some (next, s)

/-- The loop over `waitpid`. No task is chosen when the wait is interrupted. -/
def waitForTask (s : Scheduler) : List Wait → Option (Option Task × Scheduler)
  | [] => none
  | .interrupted :: _ => if s.mustRunTask.isSome then none else some (none, s)
  | .changed tid exec oldTid exited mayBeBlocked :: rest => do
    let (next, s) ← s.awaited tid exec oldTid
    match next with
    | none => s.waitForTask rest
    | some t =>
      if (s.tasks t).unstable || mayBeBlocked || exited then
        return (some t, { s with mustRunTask := some t })
      else none

def switchTo (next : Task) : Option Scheduler :=
  { s with current := some next }.validateScheduledTask

def runNext (next : Option Task) (waits : List Wait) : Option Scheduler := do
  match next with
  | some next =>
    if (s.tasks next).unstable then
      let (t, s) ← s.clearQueue.waitForTask waits
      match t with
      | some t => s.switchTo t
      | none => return s
    else s.switchTo next
  | none =>
    let (t, s) ← s.clearQueue.waitForTask waits
    match t with
    | some t => s.switchTo t
    | none => return s

/-- What a call of `reschedule` meets. `random` are the new priorities when they are due. -/
structure RescheduleInput where
  random : Option (Task → Bool)
  preventSwitch : Bool
  iterations : List Iteration
  waits : List Wait

def reschedule (i : RescheduleInput) : Option Scheduler := do
  let s := { s with mustRunTask := none }.maybeResetPriorities i.random
  if s.current.isSome && i.preventSwitch then s.validateScheduledTask
  else
    let (d, s) ← s.chooseTask i.iterations
    match d with
    | .select next => s.runNext next i.waits
    | _ => s.validateScheduledTask

end Scheduler

inductive Op where
  | create (t : Task) (tid tgid : Nat) (parent : Option Task) (random : Bool)
  | destroy (t : Task)
  | updateTaskPriority (t : Task) (value : Int)
  | stableExit (t : Task)
  | markUnstable (t : Task)
  | scheduleOneRoundRobin (t : Task)
  | reschedule (i : Scheduler.RescheduleInput)
  | execFromOtherThread (t : Task) (oldTid : Nat)
  | setEnableChaos (enableChaos : Bool)

namespace Scheduler

/-- A cloned task has the priority of its parent, the first task has priority 0. -/
def createTask (s : Scheduler) (t : Task) (tid tgid : Nat) (parent : Option Task) (random : Bool) :
    Scheduler :=
  let priority := (parent.map fun p => (s.tasks p).priority).getD 0
  let s := s.setTask t ⟨tid, tgid, priority, false, false, false⟩
  { s with
    live := t :: s.live
    taskMap := (tid, t) :: s.taskMap.filter (·.1 != tid) }.onCreate t random

def destroyTask (s : Scheduler) (t : Task) : Option Scheduler := do
  let s ← s.onDestroy t
  return { s with
    live := s.live.erase t
    taskMap := s.taskMap.filter (·.1 != (s.tasks t).tid) }

/-- An operation on the tasks of the session; a created task is a new object. -/
def step (s : Scheduler) : Op → Option Scheduler
  | .create t tid tgid parent random =>
    if t ∈ s.live then none else some (s.createTask t tid tgid parent random)
  | .destroy t => if t ∈ s.live then s.destroyTask t else none
  | .updateTaskPriority t value => if t ∈ s.live then some (s.updateTaskPriority t value) else none
  | .stableExit t =>
    if t ∈ s.live then some ((s.setTask t { s.tasks t with stableExit := true }).inStableExit t)
    else none
  | .markUnstable t => if t ∈ s.live then some (s.setUnstable t true) else none
  | .scheduleOneRoundRobin t => if t ∈ s.live then s.scheduleOneRoundRobin t else none
  | .reschedule i => s.reschedule i
  | .execFromOtherThread t oldTid =>
    if t ∈ s.live then do
      let s' ← (s.setUnstable t true).destroyTask t
      let (t', s') ← s'.reviveTaskForExec (s.tasks t).tid oldTid
      return { s' with current := some t' }
    else none
  | .setEnableChaos enableChaos => some { s with enableChaos }

def run (s : Scheduler) : List Op → Option Scheduler
  | [] => some s
  | op :: ops => do
    let s ← s.step op
    s.run ops

end Scheduler

end Attune.Schedule
