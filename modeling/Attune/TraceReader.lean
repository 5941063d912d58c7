import Attune.CompressedReader

namespace Attune.Trace

structure CpuidRecord where
  eaxIn : Nat
  ecxIn : Nat
  eax : Nat
  ebx : Nat
  ecx : Nat
  edx : Nat
  deriving DecidableEq

inductive TicksSemantics where
  | retiredConditionalBranches
  | takenBranches
  deriving DecidableEq

/-- What the reader calls: the decompressor, the unpacking of messages, the check of extra
registers, and `stat`. -/
structure Library where
  decompress : Decompress
  frame : Unpack (FrameMsg × Nat)
  mmap : Unpack MMapMsg
  task : Unpack TaskMsg
  xsaveOk : List CpuidRecord → SupportedArch → List UInt8 → Bool
  statOk : List Char → Bool

/-- A `TraceReader` with its four substreams. A field that no constructor wrote is `none`, as is a
null `uuid_`. -/
structure TraceReader where
  dir : List Char
  globalTime : Nat
  bindToCpu : Int
  events : CompressedReader
  rawData : CompressedReader
  mmaps : CompressedReader
  tasks : CompressedReader
  usesCpuidFaulting : Bool
  cpuidRecords : List CpuidRecord
  rawRecs : List RawDataMetadata
  xcr0 : Nat
  ticksSemantics : Option TicksSemantics
  monotonicTime : Option Nat
  uuid : Option (List UInt8)
  deriving DecidableEq

inductive ReaderOp where
  | readFrame
  | peekFrame
  | readRawData
  | readRawDataMetadata
  | readMappedRegion (validate : ValidateSourceFile) (timeConstraint : TimeConstraint)
  | readTaskEvent
  | rewind
  | atEnd
  | good
  | time
  | dir
  | boundToCpu
  | setBoundCpu (cpu : Int)
  | cpuidRecords
  | usesCpuidFaulting
  | xcr0
  | uuid
  | ticksSemantics
  | recordingTime
  | uncompressedBytes
  | compressedBytes
  deriving DecidableEq

inductive Answer where
  | unit
  | bool (b : Bool)
  | number (n : Int)
  | bytes (bytes : List UInt8)
  | text (text : List Char)
  | records (records : List CpuidRecord)
  | semantics (semantics : TicksSemantics)
  | read (result : ReadResult)
  | peeked (frame : Option TraceFrame)
  deriving DecidableEq

/-- The frame that a message describes, with its raw records in reverse. -/
def FrameMsg.decode (xsaveOk : SupportedArch → List UInt8 → Bool) (globalTime : Nat)
    (frame : FrameMsg) : Option (TraceFrame × List RawDataMetadata) := do
  let rawRecs ← frame.memWrites.reverse.mapM fun w => do
    let tid ← i32ToTid w.tid
    return (⟨w.addr, w.size, tid⟩ : RawDataMetadata)
  let tid ← i32ToTid frame.tid
  if frame.ticks < 0 then none
  else
    let arch := fromTraceArch frame.arch
    if frame.extraRegisters ≠ [] ∧ xsaveOk arch frame.extraRegisters = false then none
    else
      let ev ← fromTraceEvent frame.event
      return (⟨globalTime, tid, frame.ticks, arch, frame.registers, frame.extraRegisters, ev⟩,
        rawRecs)

namespace TraceReader

/-- The constructor that opens a trace, given what it finds in the header. -/
def openTrace (files : Files) (isOpen : Nat → Bool) (dir : List Char) (bindToCpu : Int)
    (usesCpuidFaulting : Bool) (cpuidRecords : List CpuidRecord) (xcr0 : Nat)
    (ticksSemantics : TicksSemantics) (uuid : List UInt8) : TraceReader :=
  { dir, globalTime := 0, bindToCpu
    events := .openFile files 0 (isOpen 0)
    rawData := .openFile files 1 (isOpen 1)
    mmaps := .openFile files 2 (isOpen 2)
    tasks := .openFile files 3 (isOpen 3)
    usesCpuidFaulting, cpuidRecords, rawRecs := [], xcr0
    ticksSemantics := some ticksSemantics, monotonicTime := none, uuid := some uuid }

def copy (other : TraceReader) : TraceReader :=
  { dir := other.dir
    globalTime := other.globalTime
    bindToCpu := other.bindToCpu
    events := other.events.copy
    rawData := other.rawData.copy
    mmaps := other.mmaps.copy
    tasks := other.tasks.copy
    usesCpuidFaulting := other.usesCpuidFaulting
    cpuidRecords := other.cpuidRecords
    rawRecs := other.rawRecs
    xcr0 := other.xcr0
    ticksSemantics := none
    monotonicTime := none
    uuid := none }

section
variable (lib : Library) (files : Files) (r : TraceReader)

def readFrame : Option (TraceFrame × TraceReader) := do
  let ((msg, monotonicSec), events) ← lib.frame.run lib.decompress files r.events
  let globalTime := r.globalTime + 1
  let (frame, rawRecs) ← msg.decode (lib.xsaveOk r.cpuidRecords) globalTime
  return (frame, { r with events, globalTime, rawRecs, monotonicTime := some monotonicSec })

def peekFrame : Option (Option TraceFrame × TraceReader) := do
  let saved := { r with events := r.events.saveState }
  if saved.events.atEnd then return (none, { saved with events := saved.events.restoreState })
  else
    let (frame, r') ← saved.readFrame lib files
    return (some frame, { r' with events := r'.events.restoreState, globalTime := r.globalTime })

/-- What cannot be read of the data stays zero. -/
def readRawDataForFrame : Option RawData × TraceReader :=
  match r.rawRecs.getLast? with
  | none => (none, r)
  | some rec =>
    let ((_, bytes), rawData) := r.rawData.read lib.decompress files rec.size
    let data := bytes ++ List.replicate (rec.size - bytes.length) 0
    (some ⟨data, rec.addr, rec.recTid⟩, { r with rawRecs := r.rawRecs.dropLast, rawData })

def readRawDataMetadataForFrame : Option RawDataMetadata × TraceReader :=
  match r.rawRecs.getLast? with
  | none => (none, r)
  | some rec =>
    let (_, rawData) := r.rawData.skip lib.decompress files rec.size
    (some rec, { r with rawRecs := r.rawRecs.dropLast, rawData })

def readMappedRegion (validate : ValidateSourceFile)
    (timeConstraint : TimeConstraint) : Option (Option MappedRegion × TraceReader) :=
  if r.mmaps.atEnd then some (none, r)
  else
    match timeConstraint with
    | .currentTimeOnly => do
      let (m, mmaps) ← lib.mmap.run lib.decompress files r.mmaps.saveState
      if m.frameTime ≠ r.globalTime then some (none, { r with mmaps := mmaps.restoreState })
      else
        let region ← m.region ⟨r.dir, lib.statOk⟩ validate
        some (some region, { r with mmaps := mmaps.discardState })
    | .anyTime => do
      let (m, mmaps) ← lib.mmap.run lib.decompress files r.mmaps
      let region ← m.region ⟨r.dir, lib.statOk⟩ validate
      some (some region, { r with mmaps })

def readTaskEvent : Option (Option (Nat × TraceTaskEvent) × TraceReader) :=
  if r.tasks.atEnd then some (none, r)
  else do
    let (m, tasks) ← lib.task.run lib.decompress files r.tasks
    let tid ← i32ToTid m.event.tid
    let kind ← Reader.readTaskEventKind m.event.kind
    return (some (m.frameTime, ⟨tid, kind⟩), { r with tasks })

end

def rewind (r : TraceReader) : TraceReader :=
  { r with
    events := r.events.rewind
    rawData := r.rawData.rewind
    mmaps := r.mmaps.rewind
    tasks := r.tasks.rewind
    globalTime := 0 }

def good (r : TraceReader) : Bool :=
  !r.events.error && !r.rawData.error && !r.mmaps.error && !r.tasks.error

def cpuidGetxsave : Nat := 0x0D

/-- Traces that did not store the register have the bits that the processor supports. -/
def xcr0Value (r : TraceReader) : Nat :=
  if r.xcr0 ≠ 0 then r.xcr0
  else
    match r.cpuidRecords.find? fun rec =>
        rec.eaxIn == cpuidGetxsave && (rec.ecxIn == 0 || rec.ecxIn == 0xFFFFFFFF) with
    | none => 3
    | some rec => rec.edx * 2 ^ 32 + rec.eax

def uncompressedBytes (files : Files) (r : TraceReader) : Nat :=
  r.events.uncompressedBytes files + r.rawData.uncompressedBytes files +
    r.mmaps.uncompressedBytes files + r.tasks.uncompressedBytes files

def compressedBytes (files : Files) (r : TraceReader) : Nat × Files :=
  let (e, files) := r.events.compressedBytes files
  let (d, files) := r.rawData.compressedBytes files
  let (m, files) := r.mmaps.compressedBytes files
  let (t, files) := r.tasks.compressedBytes files
  (e + d + m + t, files)

/-- The answer and the reader after it; `none` when the program ends or lacks a value. -/
def answer (lib : Library) (files : Files) (r : TraceReader) :
    ReaderOp → Option (Answer × TraceReader)
  | .readFrame => (r.readFrame lib files).map fun x => (.read (.frame x.1), x.2)
  | .peekFrame => (r.peekFrame lib files).map fun x => (.peeked x.1, x.2)
  | .readRawData =>
    let x := r.readRawDataForFrame lib files
    some (.read (.raw x.1), x.2)
  | .readRawDataMetadata =>
    let x := r.readRawDataMetadataForFrame lib files
    some (.read (.rawMetadata x.1), x.2)
  | .readMappedRegion validate timeConstraint =>
    (r.readMappedRegion lib files validate timeConstraint).map fun x => (.read (.region x.1), x.2)
  | .readTaskEvent => (r.readTaskEvent lib files).map fun x => (.read (.task x.1), x.2)
  | .rewind => some (.unit, r.rewind)
  | .atEnd => some (.bool r.events.atEnd, r)
  | .good => some (.bool r.good, r)
  | .time => some (.number r.globalTime, r)
  | .dir => some (.text r.dir, r)
  | .boundToCpu => some (.number r.bindToCpu, r)
  | .setBoundCpu cpu => some (.unit, { r with bindToCpu := cpu })
  | .cpuidRecords => some (.records r.cpuidRecords, r)
  | .usesCpuidFaulting => some (.bool r.usesCpuidFaulting, r)
  | .xcr0 => some (.number r.xcr0Value, r)
  | .uuid => r.uuid.map fun uuid => (.bytes uuid, r)
  | .ticksSemantics => r.ticksSemantics.map fun semantics => (.semantics semantics, r)
  | .recordingTime => r.monotonicTime.map fun time => (.number time, r)
  | .uncompressedBytes => some (.number (r.uncompressedBytes files), r)
  | .compressedBytes => some (.number (r.compressedBytes files).1, r)

/-- Only the sizes of the files are asked for in a way that moves positions. -/
def filesAfter (files : Files) (r : TraceReader) : ReaderOp → Files
  | .compressedBytes => (r.compressedBytes files).2
  | _ => files

def run (lib : Library) (files : Files) (r : TraceReader) : List ReaderOp → Option (List Answer)
  | [] => some []
  | op :: ops => do
    let (a, r') ← r.answer lib files op
    let rest ← run lib (r.filesAfter files op) r' ops
    return a :: rest

end TraceReader

inductive Which where
  | original
  | copied
  deriving DecidableEq

def opsOf (which : Which) (ops : List (Which × ReaderOp)) : List ReaderOp :=
  (ops.filter (·.1 = which)).map Prod.snd

def runBoth (lib : Library) (files : Files) (r c : TraceReader) :
    List (Which × ReaderOp) → Option (List Answer × List Answer)
  | [] => some ([], [])
  | (.original, op) :: ops => do
    let (a, r') ← r.answer lib files op
    let rest ← runBoth lib (r.filesAfter files op) r' c ops
    return (a :: rest.1, rest.2)
  | (.copied, op) :: ops => do
    let (a, c') ← c.answer lib files op
    let rest ← runBoth lib (c.filesAfter files op) r c' ops
    return (rest.1, a :: rest.2)

end Attune.Trace
