import Attune.CuNames
import Attune.DwarfRequired
import Attune.MuplayPatch

namespace Attune.Preprocessor
open Attune.Dwarf Attune.Patch

abbrev Path := List Char

inductive ModificationType where
  | inserted
  | deleted
  deriving DecidableEq

structure Summary where
  patchSrcFile : Path
  dwarfSrcFile : Path
  exePath : Path
  modificationList : List LineModification
  modificationType : ModificationType
  deriving DecidableEq

/-- The executables as the DWARF library shows them: the units of a file in order, and the texts that
its DIEs name. -/
structure Build where
  units : Path → List CuEntry
  strings : Path → Nat → List Char

abbrev PatchedFile := Path × FileLines

namespace Build

/-- The unit is looked for by its name; there is `FATAL` when no unit has it. -/
def getLineModification (b : Build) (srcFileName elfFilePath : Path) (lineNum : Int) :
    Option LineModification :=
  match findDwarfDie srcFileName (b.units elfFilePath) with
  | some u =>
    (Dwarf.getLineModification (b.strings elfFilePath) elfFilePath u.tree u.table lineNum).toOption
  | none => none

def getSummary (b : Build) (patchSrcFile dwarfSrcFile elfFilePath : Path) (lineNumbers : List Int)
    (type : ModificationType) : Option Summary := do
  let modificationList ← lineNumbers.mapM (b.getLineModification dwarfSrcFile elfFilePath)
  return ⟨patchSrcFile, dwarfSrcFile, elfFilePath, modificationList, type⟩

def findAssociatedPaths (b : Build) (srcFile : Path) : List Path → Path × Path
  | [] => ([], [])
  | path :: exePaths =>
    let dwarfPath := findCuName srcFile (b.units path)
    if dwarfPath ≠ [] then (path, dwarfPath) else b.findAssociatedPaths srcFile exePaths

def loadSummary (b : Build) (origExePath modExePath : Path) (f : PatchedFile) :
    Option (List Summary) :=
  let origDwarfSrcFile := findCuName f.1 (b.units origExePath)
  let modDwarfSrcFile := findCuName f.1 (b.units modExePath)
  if origDwarfSrcFile ≠ [] ∧ modDwarfSrcFile ≠ [] then do
    let delSummary ← b.getSummary f.1 origDwarfSrcFile origExePath f.2.del .deleted
    let insSummary ← b.getSummary f.1 modDwarfSrcFile modExePath f.2.ins .inserted
    return [insSummary, delSummary]
  else some []

def loadSummaries (b : Build) (files : List PatchedFile) (origExePath modExePath : Path) :
    Option (List Summary) := do
  let res ← files.mapM (b.loadSummary origExePath modExePath)
  return res.flatten

end Build

structure MuplayPreprocessor where
  summaries : List Summary
  executableMappings : List (Path × Path)
  deriving DecidableEq

/-- `std::map::insert` leaves a key that is there as it is. -/
def insertMapping (mappings : List (Path × Path)) (modExePath origExePath : Path) :
    List (Path × Path) :=
  if (mappings.lookup modExePath).isSome then mappings
  else mappings ++ [(modExePath, origExePath)]

section
variable (b : Build) (files : List PatchedFile) (oldExePaths modExePaths : List Path)

/-- One round of the loop of `init`. `substr` throws for a name of less than two characters. -/
def initFile (mp : MuplayPreprocessor) (f : PatchedFile) : Option MuplayPreprocessor :=
  if f.1.length < 2 then none
  else if f.1.drop (f.1.length - 2) = ".h".toList then some mp
  else if f.1.drop (f.1.length - 2) ≠ ".c".toList then some mp
  else
    let origExePath := (b.findAssociatedPaths f.1 oldExePaths).1
    let modExePath := (b.findAssociatedPaths f.1 modExePaths).1
    if origExePath = [] ∨ modExePath = [] then some mp
    else do
      let tmpSummaries ← b.loadSummaries files origExePath modExePath
      return ⟨mp.summaries ++ tmpSummaries,
        insertMapping mp.executableMappings modExePath origExePath⟩

def init : Option MuplayPreprocessor :=
  files.foldlM (initFile b files oldExePaths modExePaths) ⟨[], []⟩

end

def IsC (src : Path) : Prop := src.drop (src.length - 2) = ".c".toList

def Build.Found (b : Build) (src exe : Path) : Prop := findCuName src (b.units exe) ≠ []

instance : Decidable (IsC src) := inferInstanceAs (Decidable (_ = _))

instance (b : Build) : Decidable (b.Found src exe) := inferInstanceAs (Decidable (_ ≠ _))

namespace Summary

def key (s : Summary) : Path × Path × ModificationType :=
  (s.patchSrcFile, s.exePath, s.modificationType)

def linenos (s : Summary) : List Int := s.modificationList.map fun r => (r.lineno : Int)

end Summary

section
variable (b : Build) (files : List PatchedFile) (olds mods : List Path)

/-- One entry for each key, and for a `.c` file in an original and a modified executable the two
with its lines. -/
structure Summarised (ss : List Summary) : Prop where
  unique : (ss.map Summary.key).Nodup
  inserted : ∀ f ∈ files, IsC f.1 → ∀ o ∈ olds, ∀ m ∈ mods, b.Found f.1 o → b.Found f.1 m →
    ∃ s, ss.filter (·.key = (f.1, m, .inserted)) = [s] ∧ s.linenos = f.2.ins
  deleted : ∀ f ∈ files, IsC f.1 → ∀ o ∈ olds, ∀ m ∈ mods, b.Found f.1 o → b.Found f.1 m →
    ∃ s, ss.filter (·.key = (f.1, o, .deleted)) = [s] ∧ s.linenos = f.2.del

def FirstWith (src : Path) (exes : List Path) (exe : Path) : Prop :=
  ∃ before after, exes = before ++ exe :: after ∧ b.Found src exe ∧ ∀ x ∈ before, ¬ b.Found src x

/-- A `.c` file and the first original and modified executables that have it. -/
structure Starts (f : PatchedFile) (o m : Path) : Prop where
  file : f ∈ files ∧ IsC f.1
  orig : FirstWith b f.1 olds o ∧ o ≠ []
  modified : FirstWith b f.1 mods m ∧ m ≠ []

def Returns (src exe : Path) (n : Int) : Prop :=
  (b.getLineModification (findCuName src (b.units exe)) exe n).isSome

/-- The number that the reader gives a line is its own. -/
def Kept (exe : Path) (n : Int) : Prop := (0 ≤ n ∧ n < 2 ^ 64) ∧ ¬ (exe = curlPath ∧ n = 276)

structure LoadsApart : Prop where
  names : ∀ f ∈ files, 2 ≤ f.1.length
  returns : ∀ f o m, Starts b files olds mods f o m → ∀ g ∈ files, b.Found g.1 o → b.Found g.1 m →
    (∀ n ∈ g.2.del, Returns b g.1 o n) ∧ ∀ n ∈ g.2.ins, Returns b g.1 m n
  once : ∀ f o m f' o' m', Starts b files olds mods f o m → Starts b files olds mods f' o' m' →
    f ≠ f' → ∀ g ∈ files, b.Found g.1 o → b.Found g.1 m → b.Found g.1 o' → b.Found g.1 m' →
    o ≠ o' ∧ m ≠ m'
  inserted : ∀ g ∈ files, IsC g.1 → ∀ o ∈ olds, ∀ m ∈ mods, b.Found g.1 o → b.Found g.1 m →
    (∃ f o', Starts b files olds mods f o' m ∧ b.Found g.1 o') ∧ ∀ n ∈ g.2.ins, Kept m n
  deleted : ∀ g ∈ files, IsC g.1 → ∀ o ∈ olds, ∀ m ∈ mods, b.Found g.1 o → b.Found g.1 m →
    (∃ f m', Starts b files olds mods f o m' ∧ b.Found g.1 m') ∧ ∀ n ∈ g.2.del, Kept o n

end

end Attune.Preprocessor
