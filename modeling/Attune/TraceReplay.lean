import Attune.TraceStream

namespace Attune.Trace

structure RawRecord where
  recTid : Int
  data : List UInt8
  addr : Nat
  deriving DecidableEq

structure RegionRecord where
  call : RegionCall
  source : SourceMsg
  deriving DecidableEq

structure FrameRecord where
  time : Nat
  task : TaskState
  ev : Event
  registers : List UInt8
  extraRegisters : List UInt8
  raws : List RawRecord
  regions : List RegionRecord
  deriving DecidableEq

/-- What a sequence of calls records: the finished frames, and what belongs to the next one. -/
structure Recording where
  frames : List FrameRecord
  raws : List RawRecord
  regions : List RegionRecord
  tasks : List (Nat × TraceTaskEvent)
  files : ImmutableFiles
  mmapCount : Nat
  deriving DecidableEq

namespace Recording

def initial : Recording := ⟨[], [], [], [], [], 0⟩

def time (tape : Recording) : Nat := tape.frames.length + 1

def add (tape : Recording) : WriteCall → Recording
  | .raw recTid data addr => { tape with raws := tape.raws ++ [⟨recTid, data, addr⟩] }
  | .mappedRegion c =>
    let (source, files) := chooseSource tape.files tape.mmapCount c
    { tape with
      regions := tape.regions ++ [⟨c, source⟩]
      files := files
      mmapCount := tape.mmapCount + 1 }
  | .taskEvent event => { tape with tasks := tape.tasks ++ [(tape.time, event)] }
  | .frame t ev registers extraRegisters =>
    { tape with
      frames := tape.frames ++
        [⟨tape.time, t, ev, registers, extraRegisters, tape.raws, tape.regions⟩]
      raws := []
      regions := [] }

def ofCalls (calls : List WriteCall) : Recording := calls.foldl add initial

end Recording

def RegionRecord.data (place : TraceDir) (time : Nat) (g : RegionRecord) : MappedData :=
  match g.source with
  | .zero => ⟨time, .sourceZero, [], 0, uint64Of g.call.stat.size⟩
  | .trace => ⟨time, .sourceTrace, [], 0, uint64Of g.call.stat.size⟩
  | .file name => ⟨time, .sourceFile, place.resolve name, g.call.km.offset,
      uint64Of g.call.stat.size⟩

def RegionRecord.seen (place : TraceDir) (time : Nat) (g : RegionRecord) : MappedRegion :=
  ⟨g.call.km, g.data place time, g.call.extraFds, g.call.skipMonitoringMappedFd⟩

/-- With validation the source file has to be there when the trace is read. -/
def RegionRecord.available (place : TraceDir) (validate : ValidateSourceFile) (g : RegionRecord) :
    Bool :=
  match g.source, validate with
  | .file name, .validate => place.statOk (place.resolve name)
  | _, _ => true

/-- A recording that is being read: the frames to come, and what is left of the current one. -/
structure Playback where
  time : Nat
  frames : List FrameRecord
  raws : List RawRecord
  regions : List RegionRecord
  tasks : List (Nat × TraceTaskEvent)
  deriving DecidableEq

def FrameRecord.seen (f : FrameRecord) : TraceFrame :=
  ⟨f.time, f.task.tid, f.task.ticks, f.task.arch, f.registers, f.extraRegisters,
    f.ev.recorded f.task.arch⟩

namespace Playback

def ofRecording (tape : Recording) : Playback := ⟨0, tape.frames, [], [], tape.tasks⟩

/-- Reading at the level of the recording; a frame may be read once the one before is drained. -/
def op (env : Environment) (p : Playback) : ReadOp → Option (ReadResult × Playback)
  | .frame =>
    match p.frames, p.raws, p.regions with
    | f :: fs, [], [] => some (.frame f.seen, ⟨f.time, fs, f.raws, f.regions, p.tasks⟩)
    | _, _, _ => none
  | .raw =>
    match p.raws with
    | [] => some (.raw none, p)
    | r :: rs => some (.raw (some ⟨r.data, r.addr, r.recTid⟩), { p with raws := rs })
  | .rawMetadata =>
    match p.raws with
    | [] => some (.rawMetadata none, p)
    | r :: rs => some (.rawMetadata (some ⟨r.addr, r.data.length, r.recTid⟩), { p with raws := rs })
  | .region validate =>
    match p.regions with
    | [] => some (.region none, p)
    | g :: gs =>
      if g.available env.toTraceDir validate then
        some (.region (some (g.seen env.toTraceDir p.time)), { p with regions := gs })
      else none
  | .task =>
    match p.tasks with
    | [] => some (.task none, p)
    | event :: ts => some (.task (some event), { p with tasks := ts })

def run (env : Environment) : List ReadOp → Playback → Option (List ReadResult)
  | [], _ => some []
  | o :: ops, p => do
    let (result, p) ← p.op env o
    let results ← run env ops p
    return result :: results

end Playback

end Attune.Trace
