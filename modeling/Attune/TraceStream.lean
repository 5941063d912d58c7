import Attune.TraceMmaps

namespace Attune.Trace

structure RawDataMetadata where
  addr : Nat
  size : Nat
  recTid : Int
  deriving DecidableEq

structure MemWriteMsg where
  tid : Int
  addr : Nat
  size : Nat
  deriving DecidableEq

/-- The messages of the `events` substream; registers that are not stored are empty. -/
structure FrameMsg where
  tid : Int
  ticks : Int
  memWrites : List MemWriteMsg
  arch : ArchMsg
  registers : List UInt8
  extraRegisters : List UInt8
  event : EventMsg
  deriving DecidableEq

inductive TaskEventKind where
  | clone (parentTid ownNsTid cloneFlags : Int)
  | exec (fileName : List Char) (cmdLine : List (List Char)) (exeBase : Nat)
  | exit (exitStatus : Int)
  deriving DecidableEq

structure TraceTaskEvent where
  tid : Int
  kind : TaskEventKind
  deriving DecidableEq

structure TaskMsg where
  frameTime : Nat
  event : TraceTaskEvent
  deriving DecidableEq

structure TaskState where
  tid : Int
  ticks : Int
  arch : SupportedArch
  deriving DecidableEq

structure Writer where
  globalTime : Nat
  rawRecs : List RawDataMetadata
  filesAssumedImmutable : ImmutableFiles
  mmapCount : Nat
  events : List FrameMsg
  rawData : List UInt8
  mmaps : List MMapMsg
  tasks : List TaskMsg
  deriving DecidableEq

inductive RecordInTrace where
  | dontRecordInTrace
  | recordInTrace
  deriving DecidableEq

namespace Writer

def initial : Writer := ⟨1, [], [], 0, [], [], [], []⟩

variable (w : Writer)

def writeFrame (t : TaskState) (ev : Event) (registers extraRegisters : List UInt8) :
    Option Writer := do
  let memWrites := w.rawRecs.map fun r => ⟨r.recTid, r.addr, r.size⟩
  let event ← toTraceEvent t.arch ev
  let frame : FrameMsg :=
    ⟨t.tid, t.ticks, memWrites, toTraceArch t.arch, registers, extraRegisters, event⟩
  return { w with rawRecs := [], events := w.events ++ [frame], globalTime := w.globalTime + 1 }

def writeRaw (recTid : Int) (data : List UInt8) (addr : Nat) : Writer :=
  { w with
    rawRecs := w.rawRecs ++ [⟨addr, data.length, recTid⟩]
    rawData := w.rawData ++ data }

def writeMappedRegion (c : RegionCall) : RecordInTrace × Writer :=
  let (source, files) := chooseSource w.filesAssumedImmutable w.mmapCount c
  let record := if source = .trace then .recordInTrace else .dontRecordInTrace
  (record, { w with
    filesAssumedImmutable := files
    mmapCount := w.mmapCount + 1
    mmaps := w.mmaps ++ [c.message w.globalTime source] })

def writeTaskEvent (event : TraceTaskEvent) : Writer :=
  { w with tasks := w.tasks ++ [⟨w.globalTime, event⟩] }

end Writer

inductive WriteCall where
  | raw (recTid : Int) (data : List UInt8) (addr : Nat)
  | mappedRegion (c : RegionCall)
  | taskEvent (event : TraceTaskEvent)
  | frame (t : TaskState) (ev : Event) (registers extraRegisters : List UInt8)
  deriving DecidableEq

def Writer.call (w : Writer) : WriteCall → Option Writer
  | .raw recTid data addr => some (w.writeRaw recTid data addr)
  | .mappedRegion c => some (w.writeMappedRegion c).2
  | .taskEvent event => some (w.writeTaskEvent event)
  | .frame t ev registers extraRegisters => w.writeFrame t ev registers extraRegisters

/-- A recording; `none` when a call ends the recorder. -/
def Writer.run : List WriteCall → Writer → Option Writer
  | [], w => some w
  | c :: calls, w => do
    let w ← w.call c
    run calls w

structure TraceFrame where
  time : Nat
  tid : Int
  ticks : Int
  arch : SupportedArch
  regs : List UInt8
  extraRegs : List UInt8
  ev : Event
  deriving DecidableEq

structure RawData where
  data : List UInt8
  addr : Nat
  recTid : Int
  deriving DecidableEq

structure Reader where
  globalTime : Nat
  rawRecs : List RawDataMetadata
  events : MessageStream FrameMsg
  rawData : List UInt8
  mmaps : MessageStream MMapMsg
  tasks : MessageStream TaskMsg
  deriving DecidableEq

/-- Where a trace is read, and which extra register data can be used there. -/
structure Environment extends TraceDir where
  xsaveOk : SupportedArch → List UInt8 → Bool

namespace Reader

/-- The reader of a finished recording. The time is 0, so that it matches after the first frame. -/
def openTrace (w : Writer) : Reader :=
  ⟨0, [], .ofList w.events, w.rawData, .ofList w.mmaps, .ofList w.tasks⟩

def readFrame (env : Environment) (r : Reader) : Option (TraceFrame × Reader) := do
  let (frame, events) ← r.events.next
  let globalTime := r.globalTime + 1
  -- the list is built in reverse, so that records are taken from its end
  let rawRecs ← frame.memWrites.reverse.mapM fun w => do
    let tid ← i32ToTid w.tid
    return (⟨w.addr, w.size, tid⟩ : RawDataMetadata)
  let tid ← i32ToTid frame.tid
  if frame.ticks < 0 then none
  else
    let arch := fromTraceArch frame.arch
    if frame.extraRegisters ≠ [] ∧ env.xsaveOk arch frame.extraRegisters = false then none
    else
      let ev ← fromTraceEvent frame.event
      return (⟨globalTime, tid, frame.ticks, arch, frame.registers, frame.extraRegisters, ev⟩,
        { r with globalTime, rawRecs, events })

def readBytes (size : Nat) (stream : List UInt8) : List UInt8 × List UInt8 :=
  (stream.take size ++ List.replicate (size - stream.length) 0, stream.drop size)

def readRawDataForFrame (r : Reader) : Option RawData × Reader :=
  match r.rawRecs.getLast? with
  | none => (none, r)
  | some rec =>
    let (data, rawData) := readBytes rec.size r.rawData
    (some ⟨data, rec.addr, rec.recTid⟩, { r with rawRecs := r.rawRecs.dropLast, rawData })

def readRawDataMetadataForFrame (r : Reader) : Option RawDataMetadata × Reader :=
  match r.rawRecs.getLast? with
  | none => (none, r)
  | some rec =>
    (some rec, { r with rawRecs := r.rawRecs.dropLast, rawData := r.rawData.drop rec.size })

def readTaskEventKind : TaskEventKind → Option TaskEventKind
  | .clone parentTid ownNsTid cloneFlags => do
    let parentTid ← i32ToTid parentTid
    let ownNsTid ← i32ToTid ownNsTid
    return .clone parentTid ownNsTid cloneFlags
  | .exec fileName cmdLine exeBase => do
    let fileName ← dataToStr fileName
    let cmdLine ← cmdLine.mapM dataToStr
    return .exec fileName cmdLine exeBase
  | .exit exitStatus => some (.exit exitStatus)

/-- `read_task_event`; the event is `none` at the end of the trace. -/
def readTaskEvent (r : Reader) : Option (Option (Nat × TraceTaskEvent) × Reader) :=
  if r.tasks.atEnd then some (none, r)
  else do
    let (m, tasks) ← r.tasks.next
    let tid ← i32ToTid m.event.tid
    let kind ← readTaskEventKind m.event.kind
    return (some (m.frameTime, ⟨tid, kind⟩), { r with tasks })

end Reader

inductive ReadOp where
  | frame
  | raw
  | rawMetadata
  | region (validate : ValidateSourceFile)
  | task
  deriving DecidableEq

inductive ReadResult where
  | frame (frame : TraceFrame)
  | raw (data : Option RawData)
  | rawMetadata (metadata : Option RawDataMetadata)
  | region (region : Option MappedRegion)
  | task (event : Option (Nat × TraceTaskEvent))
  deriving DecidableEq

namespace Reader

def op (env : Environment) (r : Reader) : ReadOp → Option (ReadResult × Reader)
  | .frame => do
    let (frame, r) ← r.readFrame env
    return (.frame frame, r)
  | .raw =>
    let (data, r) := r.readRawDataForFrame
    some (.raw data, r)
  | .rawMetadata =>
    let (metadata, r) := r.readRawDataMetadataForFrame
    some (.rawMetadata metadata, r)
  | .region validate => do
    let (region, mmaps) ←
      readMappedRegion env.toTraceDir r.globalTime validate .currentTimeOnly r.mmaps
    return (.region region, { r with mmaps })
  | .task => do
    let (event, r) ← r.readTaskEvent
    return (.task event, r)

def run (env : Environment) : List ReadOp → Reader → Option (List ReadResult)
  | [], _ => some []
  | o :: ops, r => do
    let (result, r) ← r.op env o
    let results ← run env ops r
    return result :: results

end Reader

end Attune.Trace
