import Mathlib

namespace Attune.CompressedWriter
open Function

structure Config where
  blockSize : Nat
  numThreads : Nat
  compress : List UInt8 → List UInt8

namespace Config

def bufferSize (cfg : Config) : Nat := cfg.blockSize * (cfg.numThreads + 2)

end Config

structure Block where
  uncompressedLength : Nat
  data : List UInt8
  deriving DecidableEq

/-- Where a compressor thread is; a section under the mutex is one step. `turn` checks whether it is
this thread's turn to write. -/
inductive ThreadPc where
  | top
  | waitWork
  | compressing (length : Nat) (input : List UInt8)
  | turn (length : Nat) (output : List UInt8)
  | waitTurn (length : Nat) (output : List UInt8)
  | writing (length : Nat) (output : List UInt8)
  | finished
  | done
  deriving DecidableEq

/-- A thread with its entry of `thread_pos`, where `none` is `UINT64_MAX`. -/
structure Thread where
  pos : Option Nat
  pc : ThreadPc
  deriving DecidableEq

inductive Return where
  | toWrite (data : List UInt8)
  | toReady
  | toClose
  deriving DecidableEq

inductive WaitFlag where
  | wait
  | noWait
  deriving DecidableEq

/-- Where the producer is. `copying` has copied the first bytes of an amount. -/
inductive ProducerPc where
  | ready
  | inWrite (data : List UInt8)
  | copying (copied amount : Nat) (data : List UInt8)
  | update (flag : WaitFlag) (next : Return)
  | recheck (flag : WaitFlag) (next : Return)
  | waiting (flag : WaitFlag) (next : Return)
  | setClosing
  | joining
  | closed
  deriving DecidableEq

/-- The writer with `n` threads; `calls` are the write calls still to be made before `close`. -/
structure State (n : Nat) where
  buffer : Nat → UInt8
  threads : Fin n → Thread
  nextThreadPos : Nat
  nextThreadEndPos : Nat
  closing : Bool
  writeError : Bool
  producerReservedPos : Nat
  producerReservedWritePos : Nat
  producerReservedUptoPos : Nat
  error : Bool
  producer : ProducerPc
  calls : List (List UInt8)
  file : List Block

namespace State

variable {n : Nat}

def initial (calls : List (List UInt8)) : State n where
  buffer _ := 0
  threads _ := ⟨none, .top⟩
  nextThreadPos := 0
  nextThreadEndPos := 0
  closing := false
  writeError := false
  producerReservedPos := 0
  producerReservedWritePos := 0
  producerReservedUptoPos := 0
  error := false
  producer := .ready
  calls := calls
  file := []

def completedPos (s : State n) : Nat :=
  (List.finRange n).foldl (fun c i => ((s.threads i).pos.map (min c)).getD c) s.nextThreadPos

def wakeThread : ThreadPc → ThreadPc
  | .waitWork => .top
  | .waitTurn length output => .turn length output
  | pc => pc

def wakeProducer : ProducerPc → ProducerPc
  | .waiting flag next => .recheck flag next
  | pc => pc

def broadcast (s : State n) : State n :=
  { s with
    threads := fun i => { s.threads i with pc := wakeThread (s.threads i).pc }
    producer := wakeProducer s.producer }

def returnTo : Return → ProducerPc
  | .toWrite data => .inWrite data
  | .toReady => .ready
  | .toClose => .setClosing

def checkReservation (cfg : Config) (s : State n) (flag : WaitFlag) (next : Return) : State n :=
  if s.error then { s with producer := returnTo next }
  else if s.writeError then { s with error := true, producer := returnTo next }
  else
    let s := { s with producerReservedUptoPos := s.completedPos + cfg.bufferSize }
    if s.producerReservedPos < s.producerReservedUptoPos ∨ flag = .noWait then
      { s with producer := returnTo next }
    else { s with producer := .waiting flag next }

def producerStep (cfg : Config) (s : State n) : Option (State n) :=
  match s.producer with
  | .ready =>
    match s.calls with
    | data :: calls => some { s with producer := .inWrite data, calls }
    | [] => some { s with producer := .update .noWait .toClose }
  | .inWrite data =>
    if s.error = false ∧ data ≠ [] then
      let reservationSize := s.producerReservedUptoPos - s.producerReservedWritePos
      if reservationSize = 0 then some { s with producer := .update .wait (.toWrite data) }
      else
        let bufOffset := s.producerReservedWritePos % cfg.bufferSize
        let amount := min (cfg.bufferSize - bufOffset) (min reservationSize data.length)
        some { s with producer := .copying 0 amount data }
    else if s.error = false ∧
        s.producerReservedWritePos - s.producerReservedPos ≥ cfg.bufferSize / 2 then
      some { s with producer := .update .noWait .toReady }
    else some { s with producer := .ready }
  | .copying copied amount data =>
    if copied < amount then
      let index := s.producerReservedWritePos % cfg.bufferSize + copied
      some { s with
        buffer := update s.buffer index (data.getD copied 0)
        producer := .copying (copied + 1) amount data }
    else
      some { s with
        producerReservedWritePos := s.producerReservedWritePos + amount
        producer := .inWrite (data.drop amount) }
  | .update flag next =>
    let s := { s with
      nextThreadEndPos := s.producerReservedWritePos
      producerReservedPos := s.producerReservedWritePos }
    some (s.broadcast.checkReservation cfg flag next)
  | .recheck flag next => some (s.checkReservation cfg flag next)
  | .waiting _ _ => none
  | .setClosing => some { broadcast { s with closing := true } with producer := .joining }
  | .joining =>
    if ∀ i, (s.threads i).pc = .done then
      some { s with error := s.error || s.writeError, producer := .closed }
    else none
  | .closed => none

/-- The order of `thread_pos` entries, the idle ones being last. -/
def posLt : Option Nat → Option Nat → Prop
  | some p, some q => p < q
  | some _, none => True
  | none, _ => False

instance : (p q : Option Nat) → Decidable (posLt p q)
  | some p, some q => inferInstanceAs (Decidable (p < q))
  | some _, none => .isTrue trivial
  | none, _ => .isFalse id

def setThread (s : State n) (i : Fin n) (t : Thread) : State n :=
  { s with threads := update s.threads i t }

def release (s : State n) (i : Fin n) : State n := (s.setThread i ⟨none, .top⟩).broadcast

def threadStep (cfg : Config) (s : State n) (i : Fin n) : Option (State n) :=
  let t := s.threads i
  match t.pc with
  | .top =>
    if s.writeError = false ∧ s.nextThreadPos < s.nextThreadEndPos ∧
        (s.closing = true ∨ s.nextThreadPos + cfg.blockSize ≤ s.nextThreadEndPos) then
      let next := min s.nextThreadEndPos (s.nextThreadPos + cfg.blockSize)
      some { s.setThread i ⟨some s.nextThreadPos, .compressing (next - s.nextThreadPos) []⟩ with
        nextThreadPos := next }
    else if s.closing = true ∧
        (s.writeError = true ∨ s.nextThreadPos = s.nextThreadEndPos) then
      some (s.setThread i { t with pc := .done })
    else some (s.setThread i { t with pc := .waitWork })
  | .compressing length input =>
    if input.length < length then
      let byte := s.buffer ((t.pos.getD 0 + input.length) % cfg.bufferSize)
      some (s.setThread i { t with pc := .compressing length (input ++ [byte]) })
    else some (s.setThread i { t with pc := .turn length (cfg.compress input) })
  | .turn length output =>
    let s := { s with writeError := s.writeError || output.isEmpty }
    if s.writeError then some (s.release i)
    else if ∃ j, posLt (s.threads j).pos t.pos then
      some (s.setThread i { t with pc := .waitTurn length output })
    else some (s.setThread i { t with pc := .writing length output })
  | .writing length output =>
    some { s.setThread i { t with pc := .finished } with file := s.file ++ [⟨length, output⟩] }
  | .finished => some (s.release i)
  | .waitWork | .waitTurn _ _ | .done => none

/-- A wait may also return without a broadcast. -/
inductive Step (cfg : Config) : State n → State n → Prop where
  | producer : producerStep cfg s = some s' → Step cfg s s'
  | thread (i : Fin n) : threadStep cfg s i = some s' → Step cfg s s'
  | spuriousProducer : Step cfg s { s with producer := wakeProducer s.producer }
  | spuriousThread (i : Fin n) :
    Step cfg s (s.setThread i { s.threads i with pc := wakeThread (s.threads i).pc })

inductive Reachable (cfg : Config) (calls : List (List UInt8)) : State cfg.numThreads → Prop where
  | initial : Reachable cfg calls (initial calls)
  | step : Reachable cfg calls s → Step cfg s s' → Reachable cfg calls s'

end State

end Attune.CompressedWriter
