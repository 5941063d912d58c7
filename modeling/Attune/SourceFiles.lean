import Attune.DwarfReader

namespace Attune.DebugInfo
open Attune.Memory

inductive LineHeader
  | dwarf2
  | dwarf4
  deriving DecidableEq

namespace LineHeader

def size (f : Format) : LineHeader → Nat
  | .dwarf2 => f.preamble + 2 + f.offset + 5
  | .dwarf4 => f.preamble + 2 + f.offset + 6

def opcodeBaseAt (f : Format) : LineHeader → Nat
  | .dwarf2 => f.preamble + 2 + f.offset + 4
  | .dwarf4 => f.preamble + 2 + f.offset + 5

end LineHeader

/-- A null directory is the one of the compilation. -/
structure DwarfLineNumberTable where
  directories : List (Option Nat)
  fileNames : List (Nat × Option Nat)
  deriving DecidableEq

def skipUlebs (m : Bytes) : Nat → DwarfSpan → Except Fault (DwarfSpan × Bool)
  | 0, s => .ok (s, true)
  | n + 1, s => do
    let (v, s) ← readUleb m s
    let (s, ok) ← skipUlebs m n s
    return (s, v.isSome && ok)

/-- The names up to an empty one. The test looks at the pointer to the flag, so an unterminated name
is a null dereference. -/
def readDirectories (m : Bytes) : Nat → DwarfSpan → Except Fault (List Nat × DwarfSpan)
  | 0, _ => .error .endless
  | fuel + 1, s => do
    let (dir, s) ← readNullTerminatedString m s
    let c ← deref m dir 0 1
    if c = 0 then return ([], s)
    else do
      let (dirs, s) ← readDirectories m fuel s
      return (dir.getD 0 :: dirs, s)

def readFileNames (m : Bytes) (n : Nat) : Nat → DwarfSpan → Except Fault (List (Nat × Option Nat) × Bool)
  | 0, _ => .error .endless
  | fuel + 1, s => do
    let (file, s) ← readNullTerminatedString m s
    let c ← deref m file 0 1
    if c = 0 then return ([], true)
    else do
      let (dir, s) ← readUleb m s
      if n ≤ dir.getD 0 then return ([], false)
      else do
        let (s, ok) ← skipUlebs m 2 s
        let (files, okRest) ← readFileNames m n fuel s
        return ((dir.getD 0, file) :: files, dir.isSome && ok && okRest)

variable (m : Bytes)

def initLines (f : Format) (h : LineHeader) (s : DwarfSpan) :
    Except Fault (DwarfLineNumberTable × Bool) := do
  let (p, s) := s.read (h.size f)
  let opcodeBase ← deref m p (h.opcodeBaseAt f) 1
  let (s, ok) ← skipUlebs m (opcodeBase - 1) s
  let (dirs, s) ← readDirectories m (s.size + 1) s
  let (files, okFiles) ← readFileNames m (dirs.length + 1) (s.size + 1) s
  return (⟨none :: dirs.map some, (0, none) :: files⟩, ok && okFiles)

def DwarfLineNumberTable.new (s : DwarfSpan) : Except Fault (DwarfLineNumberTable × Bool) := do
  let (word, _) ← readValue m s 4
  let f := formatOf word
  let (p, _) := s.read (LineHeader.dwarf2.size f)
  let version ← deref m p f.preamble 2
  if 2 ≤ version ∧ version ≤ 3 then initLines m f .dwarf2 s
  else if version = 4 then initLines m f .dwarf4 s
  else return (⟨[], []⟩, false)

def loadText : Option Nat → Except Fault (Option Bytes)
  | none => .ok none
  | some p => do return some (← textAt (m.drop p))

def slash : UInt8 := 0x2f

def appendName (s : Bytes) : Option Bytes → Bytes
  | none => s
  | some name =>
    if s ≠ [] ∧ s.getLast? ≠ some slash then s ++ [slash] ++ name else s ++ name

/-- The names from the last absolute one on, joined; all of them under the root if none is. -/
def joinNames (names : List (Option Bytes)) : Bytes :=
  let absolute : Option Bytes → Bool := fun name => (name.bind List.head?) == some slash
  match (names.reverse.findIdx? absolute) with
  | some i => (names.drop (names.length - 1 - i)).foldl appendName []
  | none => names.foldl appendName [slash]

variable (secs : Sections) (dir : Bytes)

/-- The file name is in the section that is given with it. -/
def resolveFileName (compDir relDir : Option Nat) (m : Bytes)
    (fileName : Nat) : Except Fault Bytes := do
  let compDir ← loadText secs.str compDir
  let relDir ← loadText secs.line relDir
  let fileName ← textAt (m.drop fileName)
  return joinNames [some dir, compDir, relDir, some fileName]

def resolveFile (compDir : Option Nat) (lines : DwarfLineNumberTable)
    (file : Nat × Option Nat) : Except Fault (List Bytes) :=
  match file.2 with
  | none => .ok []
  | some p =>
    match lines.directories[file.1]? with
    | none => .error .outOfBounds
    | some relDir => do return [← resolveFileName secs dir compDir relDir secs.line p]

def resolveName (compDir : Option Nat) : Option Nat → Except Fault (List Bytes)
  | none => .ok []
  | some p => do return [← resolveFileName secs dir compDir none secs.str p]

def whole : DwarfSpan := ⟨0, m.length⟩

def sourceNames (die : DwarfDIE) : Except Fault (List Bytes) := do
  let (compDir, ok) ← die.stringAttr secs.info secs.str dwAtCompDir (whole secs.str)
  if !ok then return []
  else do
    let (name, ok) ← die.stringAttr secs.info secs.str dwAtName (whole secs.str)
    if !ok then return []
    else do
      let names ← resolveName secs dir compDir name
      let (stmtList, ok) ← die.lineptrAttr secs.info dwAtStmtList
      if stmtList < 0 ∨ !ok then return names
      else do
        let (lines, ok) ←
          DwarfLineNumberTable.new secs.line ((whole secs.line).subspan stmtList.toNat)
        if !ok then return names
        else do
          let files ← lines.fileNames.mapM (resolveFile secs dir compDir lines)
          return names ++ files.flatten

/-- One turn of the loop over the units. It is the last one if the state after it is `none`. -/
def visit (st : UnitState) : Except Fault (List Bytes × Option UnitState) := do
  let cu ← next secs st
  if !cu.ok then return ([], none)
  else match cu.die with
    | none => .error .null
    | some die => do
      let names ← sourceNames secs dir die
      return (names, if cu.state.debugInfo.empty then none else some cu.state)

def visitLoop (secs : Sections) (dir : Bytes) : Nat → UnitState → Except Fault (List Bytes)
  | 0, _ => .error .endless
  | fuel + 1, st => do
    let (names, st) ← visit secs dir st
    match st with
    | none => return names
    | some st => return names ++ (← visitLoop secs dir fuel st)

def startState : UnitState := ⟨whole secs.info, ⟨whole secs.abbrevs, []⟩⟩

/-- The names in the order in which they are inserted into the set. -/
def listSourceFiles : Except Fault (Bool × List Bytes) :=
  if secs.info = [] ∨ secs.abbrevs = [] ∨ secs.str = [] ∨ secs.line = [] then .ok (false, [])
  else do return (true, ← visitLoop secs dir (secs.info.length + 1) (startState secs))

end Attune.DebugInfo
