import Attune.MuplayPatch

namespace Attune.Patch

inductive LineKind where
  | context
  | deletion
  | insertion
  | noNewline
  deriving DecidableEq

structure DiffLine where
  kind : LineKind
  text : Line
  deriving DecidableEq

def DiffLine.render (l : DiffLine) : Line :=
  match l.kind with
  | .context => ' ' :: l.text
  | .deletion => '-' :: l.text
  | .insertion => '+' :: l.text
  | .noNewline => "\\ No newline at end of file".toList

/-- The numbers of the lines of a kind, counted from `n` over the kinds that `counts` holds of. -/
def lineNumbers (kind : LineKind) (counts : LineKind → Bool) : Nat → List DiffLine → List Nat
  | _, [] => []
  | n, l :: body =>
    let rest := lineNumbers kind counts (n + (counts l.kind).toNat) body
    if l.kind = kind then n :: rest else rest

def LineKind.inOld : LineKind → Bool
  | .context => true
  | .deletion => true
  | .insertion => false
  | .noNewline => false

def LineKind.inNew : LineKind → Bool
  | .context => true
  | .deletion => false
  | .insertion => true
  | .noNewline => false

/-- A hunk; a length of 1 may be left out of its header. -/
structure DiffHunk where
  oldStart : Nat
  oldCount : Option Nat
  newStart : Nat
  newCount : Option Nat
  heading : Line
  body : List DiffLine
  deriving DecidableEq

def decimal (n : Nat) : Line := Nat.toDigits 10 n

def renderRange (start : Nat) : Option Nat → Line
  | none => decimal start
  | some count => decimal start ++ ',' :: decimal count

namespace DiffHunk

def header (h : DiffHunk) : Line :=
  "@@ -".toList ++ (renderRange h.oldStart h.oldCount ++ (" +".toList ++
    (renderRange h.newStart h.newCount ++ (" @@".toList ++ h.heading))))

def lines (h : DiffHunk) : List Line := h.header :: h.body.map DiffLine.render

def deleted (h : DiffHunk) : List Nat :=
  lineNumbers .deletion LineKind.inOld h.oldStart h.body

def inserted (h : DiffHunk) : List Nat :=
  lineNumbers .insertion LineKind.inNew h.newStart h.body

def Has (h : DiffHunk) (kind : LineKind) : Prop := ∃ l ∈ h.body, l.kind = kind

instance (h : DiffHunk) (kind : LineKind) : Decidable (h.Has kind) :=
  inferInstanceAs (Decidable (∃ l ∈ h.body, l.kind = kind))

/-- Of every unified diff: a hunk has a line, lines count from 1, and numbers fit in an `int`. -/
structure WellFormed (h : DiffHunk) : Prop where
  body : h.body ≠ []
  oldStart : h.Has .deletion → 1 ≤ h.oldStart
  newStart : h.Has .insertion → 1 ≤ h.newStart
  oldFits : h.oldStart ≤ intMax ∧ h.oldCount.getD 1 ≤ intMax
  newFits : h.newStart ≤ intMax ∧ h.newCount.getD 1 ≤ intMax

end DiffHunk

/-- The section of a file: the names of its `diff --git` line, the lines to the first hunk, the
hunks. -/
structure DiffFile where
  oldName : Line
  newName : Line
  headers : List Line
  hunks : List DiffHunk
  deriving DecidableEq

namespace DiffFile

variable (f : DiffFile)

def gitLine : Line := "diff --git ".toList ++ (f.oldName ++ ' ' :: f.newName)

def otherLines : List Line := f.headers ++ f.hunks.flatMap DiffHunk.lines

def lines : List Line := f.gitLine :: f.otherLines

def name : Line := getFileName f.oldName f.newName

def deleted (f : DiffFile) : List Nat := f.hunks.flatMap DiffHunk.deleted

def inserted (f : DiffFile) : List Nat := f.hunks.flatMap DiffHunk.inserted

def wordsName : Line :=
  getFileName ((words f.gitLine [])[2]?.getD []) ((words f.gitLine [])[3]?.getD [])

structure WellFormed (f : DiffFile) : Prop where
  oldName : ∃ c ∈ f.oldName.head?, isSpace c = false
  newName : ∃ c ∈ f.newName.head?, isSpace c = false
  headers : ∀ l ∈ f.headers, "@@".toList.isPrefixOf l = false
  hunks : ∀ h ∈ f.hunks, h.WellFormed

end DiffFile

structure Diff where
  preamble : List Line
  files : List DiffFile
  deriving DecidableEq

namespace Diff

variable (d : Diff)

def text : List Line := d.preamble ++ d.files.flatMap DiffFile.lines

def filterdiff (i : Nat) : List Line :=
  match d.files[i - 1]? with
  | some f => f.lines
  | none => []

/-- The numbers of the files with a name, where the names are given with the files. -/
def numbersAs (names : List Line) (files : List DiffFile) (numbers : DiffFile → List Nat)
    (name : Line) : List Nat :=
  ((names.zip files).filter (·.1 = name)).flatMap fun e => numbers e.2

def names : List Line := d.files.map DiffFile.name

def wordsNames : List Line := d.files.map DiffFile.wordsName

def deletedIn (name : Line) : List Nat := numbersAs d.names d.files DiffFile.deleted name

def insertedIn (name : Line) : List Nat :=
  numbersAs d.names d.files DiffFile.inserted name

def WellFormed (d : Diff) : Prop := ∀ f ∈ d.files, f.WellFormed

/-- The patch is read, and every file has exactly its inserted and its deleted lines. -/
def ReadExactly : Prop :=
  ∃ pt, readFile d.filterdiff d.text = some pt ∧ ∀ name,
    (pt.lines name).ins = (d.insertedIn name).map Int.ofNat ∧
    (pt.lines name).del = (d.deletedIn name).map Int.ofNat

end Diff

/-- No line of the kind comes after a missing newline was marked. -/
def MarkersLast (kind : LineKind) : List DiffLine → Prop
  | [] => True
  | l :: body => (l.kind = .noNewline → ∀ m ∈ body, m.kind ≠ kind) ∧ MarkersLast kind body

structure Diff.Readable (d : Diff) : Prop where
  gitLines : ∀ l ∈ d.preamble ++ d.files.flatMap DiffFile.otherLines,
    findText "diff --git".toList l = none
  hunks : ∀ f ∈ d.files, f.hunks ≠ []
  counts : ∀ f ∈ d.files, ∀ h ∈ f.hunks, h.oldCount.isSome ∧ h.newCount.isSome
  both : ∀ f ∈ d.files, ∀ h ∈ f.hunks, h.Has .deletion ∧ h.Has .insertion
  markers : ∀ f ∈ d.files, ∀ h ∈ f.hunks,
    MarkersLast .deletion h.body ∧ MarkersLast .insertion h.body
  names : ∀ name, Diff.numbersAs d.wordsNames d.files DiffFile.inserted name = d.insertedIn name ∧
    Diff.numbersAs d.wordsNames d.files DiffFile.deleted name = d.deletedIn name

end Attune.Patch
