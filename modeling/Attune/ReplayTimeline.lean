import Mathlib

namespace Attune.Timeline

/-- The time of the trace, the ticks of the current task and the kind of the current replay step. -/
structure MarkKey where
  traceTime : Int
  ticks : Int
  stepKey : Nat
  deriving DecidableEq

def MarkKey.lt (a b : MarkKey) : Bool :=
  if a.traceTime < b.traceTime then true
  else if a.traceTime > b.traceTime then false
  else if a.ticks < b.ticks then true
  else if a.ticks > b.ticks then false
  else decide (a.stepKey < b.stepKey)

theorem MarkKey.lt_iff (a b : MarkKey) : a.lt b = true ↔
    a.traceTime < b.traceTime ∨ a.traceTime = b.traceTime ∧
      (a.ticks < b.ticks ∨ a.ticks = b.ticks ∧ a.stepKey < b.stepKey) := by
  rw [MarkKey.lt]
  split_ifs <;> simp <;> omega

structure ProtoMark (R A : Type) where
  key : MarkKey
  regs : R
  returnAddresses : A
  deriving DecidableEq

structure StepResult where
  next : Nat
  exited : Bool
  singlestepComplete : Bool
  didFastForward : Bool
  signal : Bool
  deriving DecidableEq

/-- A deterministic replay, its states numbered in execution order. A step is a fast-forwarding one
that stops in front of the given registers. -/
structure Execution (R A : Type) where
  last : Nat
  proto : Nat → ProtoMark R A
  hasTask : Nat → Bool
  step : Nat → List R → StepResult
  mono : ∀ p q, p ≤ q → q ≤ last → (proto q).key.lt (proto p).key = false
  identified : ∀ p q, p ≤ last → q ≤ last → proto p = proto q → p = q
  step_le : ∀ p states, p ≤ last → p ≤ (step p states).next ∧ (step p states).next ≤ last
  step_exited : ∀ p states, p ≤ last → (step p states).exited = true → p = last
  step_complete : ∀ p states, p ≤ last → (step p states).exited = false →
    (step p states).singlestepComplete = true → p < (step p states).next
  step_incomplete : ∀ p states, p ≤ last → (step p states).exited = false →
    (step p states).singlestepComplete = false →
      (proto (step p states).next).key ≠ (proto p).key
  step_stops : ∀ p states q, p ≤ last → p < q → q < (step p states).next → (proto q).regs ∉ states

abbrev MarkId := Nat

structure InternalMark (R A : Type) where
  proto : ProtoMark R A
  checkpoint : Option Nat
  checkpointRefcount : Nat
  singlestepToNextMarkNoSignal : Bool
  deriving DecidableEq

/-- A timeline. Marks are numbered as they are made; a mark is its number. -/
structure ReplayTimeline (R A : Type) where
  current : Nat
  currentAtOrAfterMark : Option MarkId
  heap : List (InternalMark R A)
  marks : MarkKey → List MarkId
  marksWithCheckpoints : List (MarkKey × Nat)

namespace ReplayTimeline

variable [DecidableEq R] [DecidableEq A] (E : Execution R A)

def new : ReplayTimeline R A := ⟨0, none, [], fun _ => [], []⟩

def currentMarkKey (t : ReplayTimeline R A) : MarkKey := (E.proto t.current).key

def equalStates (m : InternalMark R A) (p : Nat) : Option Bool :=
  if (E.proto p).key ≠ m.proto.key then some false
  else if E.hasTask p then some (decide (m.proto = E.proto p))
  else none

def findMark (heap : List (InternalMark R A)) (p : Nat) : List MarkId → Option (Option Nat)
  | [] => some none
  | id :: rest => do
    let m ← heap[id]?
    if ← equalStates E m p then some (some 0)
    else
      let found ← findMark heap p rest
      return found.map (· + 1)

def currentMark (t : ReplayTimeline R A) : Option (Option MarkId) := do
  let found ← findMark E t.heap t.current (t.marks (t.currentMarkKey E))
  return found.bind fun i => (t.marks (t.currentMarkKey E))[i]?

def internalMark (p : Nat) : InternalMark R A := ⟨E.proto p, none, 0, false⟩

/-- Remembers that the next mark is one singlestep after the last one. -/
def noteSinglestep (r : StepResult) (newMarks : List (InternalMark R A)) :
    List (InternalMark R A) :=
  if !r.didFastForward && !r.signal then
    newMarks.modify (newMarks.length - 1) fun m => { m with singlestepToNextMarkNoSignal := true }
  else newMarks

def stopBeforeStates (heap : List (InternalMark R A)) (markVector : List MarkId) : List R :=
  markVector.filterMap fun id => (heap[id]?).map fun m => m.proto.regs

section MarkLoop

variable (heap : List (InternalMark R A)) (key : MarkKey) (markVector : List MarkId)

/-- Steps on from `p` to an existing mark or another key: the new marks and where they belong. -/
def markLoop : Nat → Nat → List (InternalMark R A) → Option (List (InternalMark R A) × Nat)
  | 0, _, _ => none
  | fuel + 1, p, newMarks => do
    let r := E.step p (stopBeforeStates heap markVector)
    if (E.proto r.next).key ≠ key ∨ r.exited then return (newMarks, markVector.length)
    else if !r.singlestepComplete then markLoop fuel r.next newMarks
    else
      match ← findMark E heap r.next markVector with
      | some i => return (noteSinglestep r newMarks, i)
      | none => markLoop fuel r.next (noteSinglestep r newMarks ++ [internalMark E r.next])

end MarkLoop

variable (t : ReplayTimeline R A)

def insertMarks (key : MarkKey) (index : Nat)
    (newMarks : List (InternalMark R A)) : ReplayTimeline R A :=
  { t with
    heap := t.heap ++ newMarks
    marks := fun k =>
      if k = key then
        (t.marks key).take index ++ List.range' t.heap.length newMarks.length ++
          (t.marks key).drop index
      else t.marks k }

/-- Adds a mark for the current state, for which there is none. -/
def addMark : Option (ReplayTimeline R A) :=
  let key := t.currentMarkKey E
  let markVector := t.marks key
  let m := internalMark E t.current
  if markVector = [] ∨ markVector.getLast? = t.currentAtOrAfterMark then
    some (t.insertMarks key markVector.length [m])
  else do
    let (newMarks, index) ← markLoop E t.heap key markVector (E.last + 1) t.current [m]
    return t.insertMarks key index newMarks

def mark : Option (MarkId × ReplayTimeline R A) := do
  match ← t.currentMark E with
  | some m => return (m, t)
  | none =>
    let t' ← t.addMark E
    return (t.heap.length, { t' with currentAtOrAfterMark := some t.heap.length })

def firstOf (m1 m2 : MarkId) : List MarkId → Bool
  | [] => false
  | m :: rest => if m = m2 then false else if m = m1 then true else firstOf m1 m2 rest

def lessThan (m1 m2 : MarkId) : Option Bool := do
  let a ← t.heap[m1]?
  let b ← t.heap[m2]?
  if a.proto.key.lt b.proto.key then return true
  else if b.proto.key.lt a.proto.key then return false
  else return firstOf m1 m2 (t.marks a.proto.key)

def updateMark (m : MarkId) (f : InternalMark R A → InternalMark R A) :
    ReplayTimeline R A := { t with heap := t.heap.modify m f }

/-- One more checkpoint with a key; the list is in the order of the keys. -/
def countCheckpoint (key : MarkKey) : List (MarkKey × Nat) → List (MarkKey × Nat)
  | [] => [(key, 1)]
  | e :: l =>
    if e.1 = key then (key, (e.2 + 1) % 2 ^ 32) :: l
    else if key.lt e.1 then (key, 1) :: e :: l
    else e :: countCheckpoint key l

def uncountCheckpoint (key : MarkKey) : List (MarkKey × Nat) → List (MarkKey × Nat)
  | [] => [(key, 2 ^ 32 - 1)]
  | e :: l =>
    if e.1 = key then
      if e.2 = 1 then l else (key, (e.2 + 2 ^ 32 - 1) % 2 ^ 32) :: l
    else if key.lt e.1 then (key, 2 ^ 32 - 1) :: e :: l
    else e :: uncountCheckpoint key l

def addExplicitCheckpoint : Option (MarkId × ReplayTimeline R A) := do
  let (m, t) ← t.mark E
  let im ← t.heap[m]?
  let t :=
    if im.checkpoint.isSome then t
    else
      { t.updateMark m fun im => { im with checkpoint := some t.current } with
        marksWithCheckpoints := countCheckpoint im.proto.key t.marksWithCheckpoints }
  return (m, t.updateMark m fun im =>
    { im with checkpointRefcount := (im.checkpointRefcount + 1) % 2 ^ 32 })

def removeExplicitCheckpoint (m : MarkId) : Option (ReplayTimeline R A) := do
  let im ← t.heap[m]?
  if im.checkpointRefcount = 1 then
    return { t.updateMark m fun im => { im with checkpointRefcount := 0, checkpoint := none } with
      marksWithCheckpoints := uncountCheckpoint im.proto.key t.marksWithCheckpoints }
  else
    return t.updateMark m fun im =>
      { im with checkpointRefcount := (im.checkpointRefcount + 2 ^ 32 - 1) % 2 ^ 32 }

def restore (m : MarkId) (checkpoint : Nat) : ReplayTimeline R A :=
  { t with current := checkpoint, currentAtOrAfterMark := some m }

def firstCheckpoint (t : ReplayTimeline R A) : List MarkId → Option (MarkId × Nat)
  | [] => none
  | m :: rest =>
    match t.heap[m]?.bind InternalMark.checkpoint with
    | some c => some (m, c)
    | none => firstCheckpoint t rest

def seekToBeforeKey (key : MarkKey) : Option (ReplayTimeline R A) :=
  let currentKey := t.currentMarkKey E
  match (t.marksWithCheckpoints.filter fun e => e.1.lt key).getLast? with
  | none =>
    if currentKey.lt key then some t
    else some { t with current := 0, currentAtOrAfterMark := none }
  | some e =>
    if e.1.lt currentKey && currentKey.lt key then some t
    else
      match t.firstCheckpoint (t.marks e.1) with
      | some (m, c) => some (t.restore m c)
      | none => none

/-- The part of the list from a mark on, in the direction in which it is searched. -/
def fromMark (m : MarkId) (l : List MarkId) : List MarkId := l.dropWhile (· ≠ m)

/-- The search for a usable checkpoint at the key of a mark, and otherwise before the key. -/
def seekFromCheckpoint (m : MarkId) : Option (ReplayTimeline R A) := do
  let im ← t.heap[m]?
  match t.firstCheckpoint (fromMark m (t.marks im.proto.key).reverse) with
  | some (m, c) => return t.restore m c
  | none => t.seekToBeforeKey E im.proto.key

def seekUpToMark (m : MarkId) : Option (ReplayTimeline R A) := do
  let im ← t.heap[m]?
  if t.currentMarkKey E = im.proto.key then
    let (cm, t) ← t.mark E
    if ← t.lessThan m cm then t.seekFromCheckpoint E m
    else return t
  else t.seekFromCheckpoint E m

def replayTo (p : Nat) : Option (ReplayTimeline R A) :=
  if t.current ≤ p ∧ p ≤ E.last then some { t with current := p } else none

/-- A replay step, or going back to replay a string instruction that triggered a watchpoint. -/
inductive Move where
  | replay (p : Nat)
  | back (key : MarkKey)
  deriving DecidableEq

def move : Move → Option (ReplayTimeline R A)
  | .replay p => t.replayTo E p
  | .back key => t.seekToBeforeKey E key

def seekToMark (m : MarkId) (moves : List Move) : Option (ReplayTimeline R A) := do
  let t ← t.seekUpToMark E m
  let t ← moves.foldlM (move E) t
  if (← t.currentMark E) = some m then return { t with currentAtOrAfterMark := some m }
  else none

/-- What can be asked of a timeline. A reverse operation is a sequence of these. -/
inductive Operation where
  | mark
  | addExplicitCheckpoint
  | removeExplicitCheckpoint (m : MarkId)
  | seekToBeforeKey (key : MarkKey)
  | seekUpToMark (m : MarkId)
  | seekToMark (m : MarkId) (moves : List Move)
  | replay (p : Nat)
  deriving DecidableEq

def perform : Operation → Option (ReplayTimeline R A)
  | .mark => (t.mark E).map Prod.snd
  | .addExplicitCheckpoint => (t.addExplicitCheckpoint E).map Prod.snd
  | .removeExplicitCheckpoint m => t.removeExplicitCheckpoint m
  | .seekToBeforeKey key => t.seekToBeforeKey E key
  | .seekUpToMark m => t.seekUpToMark E m
  | .seekToMark m moves => t.seekToMark E m moves
  | .replay p => t.replayTo E p

def run (operations : List Operation) : Option (ReplayTimeline R A) :=
  operations.foldlM (perform E) t

end ReplayTimeline

end Attune.Timeline
