import Attune.KernelMapping
import Attune.TraceEvent

namespace Attune.Trace

structure MessageStream (α : Type) where
  rest : List α
  saved : Option (List α)
  deriving DecidableEq

namespace MessageStream

def ofList (messages : List α) : MessageStream α := ⟨messages, none⟩

variable (s : MessageStream α)

def atEnd : Bool := s.rest.isEmpty

def saveState : MessageStream α := { s with saved := some s.rest }

def restoreState : MessageStream α := ⟨s.saved.getD s.rest, none⟩

def discardState : MessageStream α := { s with saved := none }

def next : Option (α × MessageStream α) :=
  match s.rest with
  | [] => none
  | m :: rest => some (m, { s with rest })

end MessageStream

/-- An unsigned 64-bit value stored in a field of type `Int64`, and back. -/
def int64Of (n : Nat) : Int := (BitVec.ofNat 64 n).toInt

def uint64Of (i : Int) : Nat := (BitVec.ofInt 64 i).toNat

def protExec : BitVec 32 := 0x4

structure Stat where
  dev : Nat
  ino : Nat
  mode : Nat
  uid : Nat
  gid : Nat
  size : Int
  mtime : Int
  deriving DecidableEq

structure TraceRemoteFd where
  tid : Int
  fd : Int
  deriving DecidableEq

inductive SourceMsg where
  | zero
  | trace
  | file (backingFileName : List Char)
  deriving DecidableEq

structure MMapMsg where
  frameTime : Nat
  start : Nat
  end_ : Nat
  fsname : List Char
  device : Nat
  inode : Nat
  prot : BitVec 32
  flags : BitVec 32
  fileOffsetBytes : Int
  statMode : Nat
  statUid : Nat
  statGid : Nat
  statSize : Int
  statMTime : Int
  source : SourceMsg
  extraFds : List TraceRemoteFd
  skipMonitoringMappedFd : Bool
  deriving DecidableEq

inductive MappingOrigin where
  | syscallMapping
  | remapMapping
  | execMapping
  | patchMapping
  | rrBufferMapping
  deriving DecidableEq

/-- The system's answers during one `write_mapped_region`: the name that opens, whether to copy, and
which clone, copy or link succeeds. -/
structure FileResponses where
  processFileName : List Char
  shouldCopy : Bool
  privateCloned : Bool
  copied : Bool
  cloned : Bool
  linked : Bool
  deriving DecidableEq

structure RegionCall where
  km : KernelMapping
  stat : Stat
  extraFds : List TraceRemoteFd
  origin : MappingOrigin
  skipMonitoringMappedFd : Bool
  responses : FileResponses
  deriving DecidableEq

def startsWith (s text : List Char) : Bool := text.isPrefixOf s

def baseFileName (name : List Char) : List Char := (name.reverse.takeWhile (· != '/')).reverse

def traceFileName (kind : String) (mmapCount : Nat) (name : List Char) : List Char :=
  kind.toList ++ Nat.toDigits 10 mmapCount ++ '_' :: baseFileName name

/-- Files already mapped without being copied, with the name that was assumed to be immutable. -/
abbrev ImmutableFiles := List ((Nat × Nat) × List Char)

def chooseSource (files : ImmutableFiles) (mmapCount : Nat) (c : RegionCall) :
    SourceMsg × ImmutableFiles :=
  let r := c.responses
  if c.origin = .remapMapping ∨ c.origin = .patchMapping ∨ c.origin = .rrBufferMapping then
    (.zero, files)
  else if startsWith c.km.fsname "/SYSV".toList then (.trace, files)
  else if c.origin = .syscallMapping ∧
      (c.km.inode = 0 ∨ c.km.fsname = "/dev/zero (deleted)".toList) then (.zero, files)
  else if !startsWith c.km.fsname "/".toList then (.trace, files)
  else
    match files.lookup (c.stat.dev, c.stat.ino) with
    | some name => (.file name, files)
    | none =>
      if c.km.flags &&& mapPrivate ≠ 0 ∧ r.privateCloned then
        (.file (traceFileName "mmap_clone_" mmapCount r.processFileName), files)
      else if r.shouldCopy then
        if c.km.prot &&& protExec ≠ 0 ∧ r.copied ∧ c.km.flags &&& mapShared = 0 then
          (.file (traceFileName "mmap_copy_" mmapCount r.processFileName), files)
        else (.trace, files)
      else if r.cloned then
        (.file (traceFileName "mmap_clone_" mmapCount r.processFileName), files)
      else
        let name := if r.linked then traceFileName "mmap_hardlink_" mmapCount r.processFileName
          else c.km.fsname
        (.file name, ((c.stat.dev, c.stat.ino), name) :: files)

def RegionCall.message (c : RegionCall) (globalTime : Nat) (source : SourceMsg) : MMapMsg where
  frameTime := globalTime
  start := c.km.start
  end_ := c.km.end_
  fsname := c.km.fsname
  device := c.km.device
  inode := c.km.inode
  prot := c.km.prot
  flags := c.km.flags
  fileOffsetBytes := int64Of c.km.offset
  statMode := c.stat.mode
  statUid := c.stat.uid
  statGid := c.stat.gid
  statSize := c.stat.size
  statMTime := c.stat.mtime
  source := source
  extraFds := c.extraFds
  skipMonitoringMappedFd := c.skipMonitoringMappedFd

inductive MappedDataSource where
  | sourceTrace
  | sourceFile
  | sourceZero
  deriving DecidableEq

structure MappedData where
  time : Nat
  source : MappedDataSource
  fileName : List Char
  dataOffsetBytes : Nat
  fileSizeBytes : Nat
  deriving DecidableEq

structure MappedRegion where
  km : KernelMapping
  data : MappedData
  extraFds : List TraceRemoteFd
  skipMonitoringMappedFd : Bool
  deriving DecidableEq

inductive ValidateSourceFile where
  | validate
  | dontValidate
  deriving DecidableEq

inductive TimeConstraint where
  | currentTimeOnly
  | anyTime
  deriving DecidableEq

/-- The trace directory and the files that `stat` finds while the trace is read. -/
structure TraceDir where
  dir : List Char
  statOk : List Char → Bool

variable (place : TraceDir)

def TraceDir.resolve (name : List Char) : List Char :=
  if name.head? = some '/' then name else place.dir ++ '/' :: name

/-- Validation needs the original file, unless the trace has a clone or a copy of it or no record of
its attributes. -/
def MMapMsg.needsStat (m : MMapMsg) (name : List Char) (validate : ValidateSourceFile) : Bool :=
  !startsWith name "mmap_clone_".toList && !startsWith name "mmap_copy_".toList &&
    decide (validate = .validate) &&
    (m.statMode != 0 || m.statUid != 0 || m.statGid != 0 || m.statMTime != 0)

/-- The part of `read_mapped_region` that fills in where the data comes from. -/
def MMapMsg.mappedData (validate : ValidateSourceFile) (m : MMapMsg) : Option MappedData :=
  if m.frameTime = 0 then none
  else
    match m.source with
    | .zero => some ⟨m.frameTime, .sourceZero, [], 0, uint64Of m.statSize⟩
    | .trace => some ⟨m.frameTime, .sourceTrace, [], 0, uint64Of m.statSize⟩
    | .file backing => do
      let name ← dataToStr backing
      let backingFileName := place.resolve name
      if m.statSize < 0 then none
      else if m.needsStat name validate && !place.statOk backingFileName then none
      else if m.fileOffsetBytes < 0 then none
      else some ⟨m.frameTime, .sourceFile, backingFileName, uint64Of m.fileOffsetBytes,
        uint64Of m.statSize⟩

def MMapMsg.region (validate : ValidateSourceFile) (m : MMapMsg) : Option MappedRegion := do
  let data ← m.mappedData place validate
  let fsname ← dataToStr m.fsname
  return ⟨KernelMapping.new m.start m.end_ fsname m.device m.inode m.prot m.flags
    (uint64Of m.fileOffsetBytes), data, m.extraFds, m.skipMonitoringMappedFd⟩

/-- `read_mapped_region`; the region is `none` when none was found. -/
def readMappedRegion (globalTime : Nat) (validate : ValidateSourceFile)
    (timeConstraint : TimeConstraint) (mmaps : MessageStream MMapMsg) :
    Option (Option MappedRegion × MessageStream MMapMsg) :=
  if mmaps.atEnd then some (none, mmaps)
  else
    match timeConstraint with
    | .currentTimeOnly => do
      let (m, mmaps) ← mmaps.saveState.next
      if m.frameTime ≠ globalTime then some (none, mmaps.restoreState)
      else
        let region ← m.region place validate
        some (some region, mmaps.discardState)
    | .anyTime => do
      let (m, mmaps) ← mmaps.next
      let region ← m.region place validate
      some (some region, mmaps)

end Attune.Trace
