import Attune.KernelMapping

namespace Attune.Patch

abbrev Line := List Char

def isSpace (c : Char) : Bool := c == ' ' || (9 ≤ c.toNat && c.toNat ≤ 13)

/-- The words that repeated extraction into a string gives; the second argument is the word begun. -/
def words : Line → Line → List Line
  | [], word => if word.isEmpty then [] else [word]
  | c :: s, word =>
    if isSpace c then if word.isEmpty then words s [] else word :: words s []
    else words s (word ++ [c])

def intMax : Nat := 2147483647

def digitValue (c : Char) : Nat := c.toNat - '0'.toNat

/-- A character outside numbers: white space is skipped, four `@` end the loop, a digit begins a
number. -/
def scanChar (next : Nat → Option Nat → List Int) (count : Nat) (c : Char) : List Int :=
  if isSpace c then next count none
  else if 3 < count then []
  else if c = '@' then next (count + 1) none
  else if c.isDigit then next count (some (digitValue c))
  else next count none

/-- The numbers `get_line_num` collects, after `count` `@`; one that does not fit in an `int` ends
the stream. -/
def scanNumbers : Line → Nat → Option Nat → List Int
  | [], _, none => []
  | [], _, some n => [min n intMax]
  | c :: s, count, none => scanChar (scanNumbers s) count c
  | c :: s, count, some n =>
    if c.isDigit then scanNumbers s count (some (n * 10 + digitValue c))
    else if intMax < n then [intMax]
    else n :: scanChar (scanNumbers s) count c

/-- Start and length in the old and the new file; with fewer than four numbers the read is out of
bounds. -/
def getLineNum (s : Line) : Option ((Int × Int) × (Int × Int)) :=
  match scanNumbers s 0 none with
  | del0 :: del1 :: ins0 :: ins1 :: _ => some ((del0, del1), (ins0, ins1))
  | _ => none

structure Hunk where
  fileName : Line
  delLine : Int × Int
  insLine : Int × Int
  diffCode : List Line
  insertionLines : List Int
  deletionLines : List Int
  deriving DecidableEq

def Hunk.empty : Hunk := ⟨[], (-1, -1), (-1, -1), [], [], []⟩

structure GenState where
  insOffset : Nat
  delOffset : Nat
  insertionLines : List Int
  deletionLines : List Int
  delSize : Nat
  insSize : Nat
  deriving DecidableEq

def genLine (hk : Hunk) (g : GenState) (line : Line) : GenState :=
  match line.head? with
  | some '-' =>
    { g with
      deletionLines := g.deletionLines ++ [hk.delLine.1 + g.delOffset]
      delOffset := g.delOffset + 1
      delSize := g.delSize + 1 }
  | some '+' =>
    { g with
      insertionLines := g.insertionLines ++ [hk.insLine.1 + g.insOffset]
      insOffset := g.insOffset + 1
      insSize := g.insSize + 1 }
  | _ => { g with delOffset := g.delOffset + 1, insOffset := g.insOffset + 1 }

/-- A hunk without deletions gets a deleted line 0, one with deletions only an inserted line 0. -/
def hkGenLineNum (hk : Hunk) : Hunk :=
  let g := hk.diffCode.foldl (genLine hk) ⟨0, 0, hk.insertionLines, hk.deletionLines, 0, 0⟩
  if g.delSize = 0 then
    { hk with insertionLines := g.insertionLines, deletionLines := g.deletionLines ++ [0] }
  else if g.insSize = 0 then
    { hk with insertionLines := g.insertionLines ++ [0], deletionLines := g.deletionLines }
  else { hk with insertionLines := g.insertionLines, deletionLines := g.deletionLines }

def hkWhetherGetNumber (hk : Hunk) : Bool := !(hk.delLine == (-1, -1) && hk.insLine == (-1, -1))

structure FileLines where
  ins : List Int
  del : List Int
  deriving DecidableEq

/-- The names of the changed files, the hunks and the current hunk. -/
structure MuplayPatch where
  hdFileName : List Line
  hunks : List Hunk
  currenthk : Hunk
  fileToLines : List (Line × FileLines)
  deriving DecidableEq

namespace MuplayPatch

def new : MuplayPatch := ⟨[], [], .empty, []⟩

variable (pt : MuplayPatch)

def addHunkVec : MuplayPatch := { pt with hunks := pt.hunks ++ [pt.currenthk] }

def whetherHunkFinish : MuplayPatch :=
  if hkWhetherGetNumber pt.currenthk then
    addHunkVec { pt with currenthk := hkGenLineNum pt.currenthk }
  else pt

def getHunkContent (name s : Line) : Option MuplayPatch := do
  let (del, ins) ← getLineNum s
  return { pt with currenthk := { Hunk.empty with fileName := name, delLine := del, insLine := ins } }

def getHunkCode (s : Line) : MuplayPatch :=
  if hkWhetherGetNumber pt.currenthk then
    { pt with currenthk := { pt.currenthk with diffCode := pt.currenthk.diffCode ++ [s] } }
  else pt

def lines (name : Line) : FileLines := (pt.fileToLines.lookup name).getD ⟨[], []⟩

variable (entries : List (Line × FileLines))

def setLines (name : Line) (value : FileLines) : List (Line × FileLines) :=
  (name, value) :: entries.filter (·.1 != name)

def addModLines (hk : Hunk) : List (Line × FileLines) :=
  match entries.lookup hk.fileName with
  | none => setLines entries hk.fileName ⟨hk.insertionLines, hk.deletionLines⟩
  | some old =>
    setLines entries hk.fileName ⟨old.ins ++ hk.insertionLines, old.del ++ hk.deletionLines⟩

def getAllModLinesForFiles : MuplayPatch :=
  { pt with fileToLines := pt.hunks.foldl addModLines pt.fileToLines }

end MuplayPatch

def mismatch : Line → Line → Nat
  | c :: a, d :: b => if c = d then mismatch a b + 1 else 0
  | _, _ => 0

/-- The last position of a character at or before the given one. -/
def rfind (c : Char) (s : Line) (pos : Nat) : Option Nat :=
  (List.range (pos + 1)).reverse.find? fun i => s[i]? == some c

/-- The ending of the first name from the last slash that is not in front of the first difference. -/
def getFileName (a b : Line) : Line :=
  match rfind '/' a.reverse (mismatch a.reverse b.reverse) with
  | none => []
  | some found => (a.reverse.take (found + 1)).reverse

/-- The loop of `read_hunk`. The line after a header is read without a look at it, and is empty at
the end of the file. -/
def readLines (name : Line) : List Line → MuplayPatch → Option MuplayPatch
  | [], pt => some pt
  | [s], pt =>
    if "@@".toList.isPrefixOf s then do
      let pt ← pt.whetherHunkFinish.getHunkContent name s
      return pt.getHunkCode []
    else some (pt.getHunkCode s)
  | s :: s' :: rest, pt =>
    if "@@".toList.isPrefixOf s then do
      let pt ← pt.whetherHunkFinish.getHunkContent name s
      readLines name rest (pt.getHunkCode s')
    else readLines name (s' :: rest) (pt.getHunkCode s)

def readHunk (hunkFile : List Line) (name : Line) (pt : MuplayPatch) : Option MuplayPatch := do
  let pt ← readLines name hunkFile { pt with currenthk := .empty }
  return MuplayPatch.addHunkVec { pt with currenthk := hkGenLineNum pt.currenthk }

/-- The file name of a line that mentions `diff --git`. Words that are missing are left over from the
line before. -/
def gitName (old new s : Line) : Line × Line :=
  ((words s [])[2]?.getD old, (words s [])[3]?.getD new)

def gitNames (old new : Line) : List Line → List Line
  | [] => []
  | s :: rest =>
    if (findText "diff --git".toList s).isSome then
      let (old, new) := gitName old new s
      getFileName old new :: gitNames old new rest
    else gitNames old new rest

/-- The hunks of the files from the `i`-th on; `filterdiff i` is the output for `--files=i`. -/
def readHunks (filterdiff : Nat → List Line) : Nat → List Line → MuplayPatch → Option MuplayPatch
  | _, [], pt => some pt
  | i, name :: names, pt => do
    let pt ← readHunk (filterdiff i) name pt
    readHunks filterdiff (i + 1) names pt

def readFile (filterdiff : Nat → List Line) (patchFile : List Line) : Option MuplayPatch := do
  let names := gitNames [] [] patchFile
  let pt ← readHunks filterdiff 1 names { MuplayPatch.new with hdFileName := names }
  return pt.getAllModLinesForFiles

end Attune.Patch
