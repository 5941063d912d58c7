import Attune.OrderedMap
import Attune.TraceMmaps

namespace Attune.Pack
open Trace OrderedMap List

abbrev FileName := List Char

local instance : LawfulBEq FileName := inferInstance

abbrev Contents := List (Fin 256)

abbrev FileHash := List (Fin 256)

structure System where
  cpus : Nat
  blake2b : Contents → FileHash
  cpus_pos : 0 < cpus

/-- A trace directory and the files outside. Its `mmaps` messages are kept apart; other files
directly in it are the entries. -/
structure TraceFiles where
  dir : FileName
  mmaps : List MMapMsg
  entries : List (FileName × Contents)
  outside : FileName → Option Contents
  absolute : dir.head? = some '/'
  distinct : (entries.map Prod.fst).Nodup
  apart : "mmaps".toList ∉ entries.map Prod.fst

namespace TraceFiles

variable (t : TraceFiles)

def entryName (path : FileName) : Option FileName :=
  let name := path.drop (t.dir.length + 1)
  if startsWith path (t.dir ++ ['/']) && !name.contains '/' then some name else none

def read (path : FileName) : Option Contents :=
  match t.entryName path with
  | some name => t.entries.lookup name
  | none => t.outside path

/-- Opening with `O_CREAT | O_EXCL`; an existing file is the only reason to fail. -/
def create (name : FileName) : Option TraceFiles :=
  if h : name = "mmaps".toList ∨ name ∈ t.entries.map Prod.fst then none
  else some { t with
    entries := t.entries ++ [(name, [])]
    distinct := by
      rw [map_append, nodup_append]
      refine ⟨t.distinct, nodup_singleton _, ?_⟩
      rintro a ha b hb rfl
      have hname : a = name := mem_singleton.mp hb
      exact h (.inr (hname ▸ ha))
    apart := by
      rw [map_append, mem_append]
      rintro (ha | ha)
      · exact t.apart ha
      · exact h (.inl (mem_singleton.mp ha).symm) }

def writeEntry (name : FileName) (contents : Contents) (e : FileName × Contents) :
    FileName × Contents := if e.1 = name then (e.1, contents) else e

theorem map_fst_writeEntry (name : FileName) (contents : Contents)
    (l : List (FileName × Contents)) :
    (l.map (writeEntry name contents)).map Prod.fst = l.map Prod.fst := by
  rw [map_map]
  apply map_congr_left
  intro e _
  simp only [Function.comp_apply, writeEntry]
  split <;> rfl

def write (name : FileName) (contents : Contents) : TraceFiles :=
  { t with
    entries := t.entries.map (writeEntry name contents)
    distinct := by
      rw [map_fst_writeEntry]
      exact t.distinct
    apart := by
      rw [map_fst_writeEntry]
      exact t.apart }

def unlink (name : FileName) : Option TraceFiles :=
  if name ∈ t.entries.map Prod.fst then some { t with
    entries := t.entries.filter fun e => e.1 != name
    distinct := t.distinct.sublist (filter_sublist.map _)
    apart := fun h => t.apart ((filter_sublist.map _).subset h) }
  else none

/-- What a `TraceReader` opened on the directory sees. -/
def place : TraceDir := ⟨t.dir, fun path => (t.read path).isSome⟩

def readLoop (place : TraceDir) : Nat → MessageStream MMapMsg → Option (List MappedRegion)
  | 0, _ => none
  | fuel + 1, mmaps => do
    let (found, mmaps) ← readMappedRegion place 1 .validate .anyTime mmaps
    match found with
    | none => some []
    | some region => (region :: ·) <$> readLoop place fuel mmaps

def readMappedRegions : Option (List MappedRegion) :=
  readLoop t.place (t.mmaps.length + 1) (.ofList t.mmaps)

end TraceFiles

structure FileInfo where
  hash : FileHash
  size : Nat
  isHardlink : Bool
  deriving DecidableEq

def hardlinkName (component : FileName) : Bool := startsWith component "mmap_hardlink_".toList

def isHardlink (name : FileName) : Bool := name.contains '/' && hardlinkName (baseFileName name)

def processFile (sys : System) (t : TraceFiles) (data : MappedData) : Option FileInfo := do
  let contents ← t.read data.fileName
  if contents.length ≠ data.fileSizeBytes then none
  else some ⟨sys.blake2b contents, contents.length, isHardlink data.fileName⟩

/-- `unique`, with the element kept last in front. -/
def uniqueFrom (eq : α → α → Bool) (a : α) : List α → List α
  | [] => [a]
  | b :: l => if eq a b then uniqueFrom eq a l else a :: uniqueFrom eq b l

def unique (eq : α → α → Bool) : List α → List α
  | [] => []
  | a :: l => uniqueFrom eq a l

def threadFiles (sys : System) (files : List MappedData) : List (List MappedData) :=
  let useCpus := min files.length (min 20 sys.cpus)
  (range useCpus).map fun i =>
    (files.zipIdx.filter fun f => f.2 % useCpus = i).map Prod.fst

/-- The mapped files, sorted by name without duplicates and then by decreasing offset. -/
def mappedFiles (regions : List MappedRegion) : List MappedData :=
  let files := (regions.map (·.data)).filter (·.source = .sourceFile)
  let files := files.insertionSort fun d1 d2 => ¬ d2.fileName < d1.fileName
  let files := unique (fun d1 d2 => d1.fileName == d2.fileName) files
  files.insertionSort fun d1 d2 => d2.dataOffsetBytes ≤ d1.dataOffsetBytes

def gatherFileInfo (sys : System) (t : TraceFiles) : Option (List (FileName × FileInfo)) := do
  let regions ← t.readMappedRegions
  let results ← (threadFiles sys (mappedFiles regions)).mapM fun files =>
    files.mapM fun data => (processFile sys t data).map fun info => (data.fileName, info)
  return results.flatten.foldl (fun fileInfo f => assign less f.1 f.2 fileInfo) []

def isInTraceDir (fileName traceDir : FileName) : Bool := startsWith fileName traceDir

def copiedComponent (fileName : FileName) : FileName :=
  let component := baseFileName fileName
  if hardlinkName component then
    match (component.drop 14).dropWhile (· != '_') with
    | '_' :: rest => rest
    | rest => rest
  else component

def packName (nameIndex : Nat) (component : FileName) : FileName :=
  "mmap_pack_".toList ++ Nat.toDigits 10 nameIndex ++ '_' :: component

def createNew (component : FileName) (t : TraceFiles) :
    Nat → Nat → Option (FileName × TraceFiles × Nat)
  | 0, _ => none
  | fuel + 1, nameIndex =>
    match t.create (packName nameIndex component) with
    | some t' => some (packName nameIndex component, t', nameIndex + 1)
    | none => createNew component t fuel (nameIndex + 1)

def copyIntoTrace (t : TraceFiles) (fileName : FileName) (nameIndex : Nat) :
    Option (FileName × TraceFiles × Nat) := do
  let (newName, t', nameIndex) ←
    createNew (copiedComponent fileName) t (t.entries.length + 1) nameIndex
  let contents ← t'.read fileName
  return (t.dir ++ '/' :: newName, t'.write newName contents, nameIndex)

section Canonical

variable (fileInfo : List (FileName × FileInfo)) (traceDir : FileName)

/-- A file that can stay where it is. Every name asked for has an entry. -/
def staysInTrace (name : FileName) : Bool :=
  (get name fileInfo).any fun info => !info.isHardlink && isInTraceDir name traceDir

def chooseName (hashToName : List (FileHash × FileName)) (p : FileName × FileInfo) :
    List (FileHash × FileName) :=
  match get p.2.hash hashToName with
  | some existing =>
    if staysInTrace fileInfo traceDir existing then hashToName
    else assign less p.2.hash p.1 hashToName
  | none => assign less p.2.hash p.1 hashToName

def chooseNames : List (FileHash × FileName) := fileInfo.foldl (chooseName fileInfo traceDir) []

/-- The second loop, which copies the chosen files that cannot stay where they are. -/
def copyChosen : List (FileHash × FileName) → TraceFiles → Nat →
    Option (List (FileHash × FileName) × TraceFiles)
  | [], t, _ => some ([], t)
  | (hash, name) :: rest, t, nameIndex =>
    if staysInTrace fileInfo traceDir name then do
      let (rest, t) ← copyChosen rest t nameIndex
      return ((hash, name) :: rest, t)
    else do
      let (newName, t, nameIndex) ← copyIntoTrace t name nameIndex
      let (rest, t) ← copyChosen rest t nameIndex
      return ((hash, newName) :: rest, t)

def afterLastSlash (name : FileName) : Option FileName :=
  if name.contains '/' then some (baseFileName name) else none

def mapFile (hashToName : List (FileHash × FileName)) (fileMap : List (FileName × FileName))
    (p : FileName × FileInfo) : Option (List (FileName × FileName)) := do
  let name ← get p.2.hash hashToName
  if !isInTraceDir name traceDir then none
  else
    let relative ← afterLastSlash name
    return assign less p.1 relative fileMap

end Canonical

/-- For each mapped file the trace file to use instead, and the directory with the copies. -/
def computeCanonicalMmappedFiles (sys : System) (t : TraceFiles) :
    Option (List (FileName × FileName) × TraceFiles) := do
  let fileInfo ← gatherFileInfo sys t
  let (hashToName, t') ← copyChosen fileInfo t.dir (chooseNames fileInfo t.dir) t 0
  let fileMap ← fileInfo.foldlM (mapFile t.dir hashToName) []
  return (fileMap, t')

/-- The message that is stored for a region: only the size is left of the attributes of the file. -/
def writeMappedRegionToAlternativeStream (r : MappedRegion) : MMapMsg where
  frameTime := r.data.time
  start := r.km.start
  end_ := r.km.end_
  fsname := r.km.fsname
  device := r.km.device
  inode := r.km.inode
  prot := r.km.prot
  flags := r.km.flags
  fileOffsetBytes := int64Of r.km.offset
  statMode := 0
  statUid := 0
  statGid := 0
  statSize := int64Of r.data.fileSizeBytes
  statMTime := 0
  source :=
    match r.data.source with
    | .sourceZero => .zero
    | .sourceTrace => .trace
    | .sourceFile => .file r.data.fileName
  extraFds := r.extraFds
  skipMonitoringMappedFd := r.skipMonitoringMappedFd

variable (fileMap : List (FileName × FileName))

def renameRegion (r : MappedRegion) : Option MappedRegion :=
  if r.data.source = .sourceFile then do
    let name ← get r.data.fileName fileMap
    return { r with data := { r.data with fileName := name } }
  else some r

/-- The new stream is written to `pack_mmaps`, which must not exist, and takes the place of
`mmaps`. -/
def rewriteMmaps (t : TraceFiles) : Option TraceFiles := do
  let regions ← t.readMappedRegions
  let renamed ← regions.mapM (renameRegion fileMap)
  if "pack_mmaps".toList ∈ t.entries.map Prod.fst then none
  else return { t with mmaps := renamed.map writeMappedRegionToAlternativeStream }

def deleteUnnecessaryFiles (t : TraceFiles) : Option TraceFiles :=
  let retain := fileMap.map Prod.snd
  let names := (t.entries.map Prod.fst).filter fun name =>
    startsWith name "mmap_".toList && !retain.contains name
  names.foldlM TraceFiles.unlink t

def pack (sys : System) (t : TraceFiles) : Option TraceFiles := do
  let (fileMap, t) ← computeCanonicalMmappedFiles sys t
  let t ← rewriteMmaps fileMap t
  deleteUnnecessaryFiles fileMap t

end Attune.Pack
