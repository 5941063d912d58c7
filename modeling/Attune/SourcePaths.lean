import Attune.FileTree

namespace Attune.Sources
open Files

abbrev Path := List Char

local instance : LawfulBEq Path := inferInstance

def rfindSlash (s : Path) : Option Nat :=
  (s.reverse.findIdx? (· == '/')).map (s.length - 1 - ·)

def findSlash (s : Path) (pos : Nat) : Option Nat :=
  ((s.drop pos).findIdx? (· == '/')).map (pos + ·)

def parentDir (s : Path) : Path :=
  match rfindSlash s with
  | none => []
  | some p => if p > 0 then s.take p else s

def isComponent : Path → Path → Bool
  | p, [] => p.head? == some '/' || p.isEmpty
  | [], _ :: _ => false
  | ch :: p, d :: component => ch == d && isComponent p component

/-- The loop of `normalize_file_name` from position `i`; the text before `out` is the result. A
store past the end is undefined. -/
def normalizeLoop (sLen : Nat) : Nat → Path → Nat → Nat → Option Path
  | 0, _, _, _ => none
  | fuel + 1, s, i, out =>
    if i < sLen then
      let copy :=
        match s[i]? with
        | some ch =>
          if out < s.length then normalizeLoop sLen fuel (s.set out ch) (i + 1) (out + 1) else none
        | none => none
      if s[i]? = some '/' then
        if s[i + 1]? = some '/' then normalizeLoop sLen fuel s (i + 1) out
        else if isComponent (s.drop (i + 1)) dot then normalizeLoop sLen fuel s (i + 2) out
        else if isComponent (s.drop (i + 1)) dotdot then
          -- With nothing in front the search starts from the end of the text.
          match rfindSlash (if out = 0 then s else s.take out) with
          | some p => normalizeLoop sLen fuel s (i + 3) p
          | none => copy
        else copy
      else copy
    else some (s.take out)

def normalizeFileName (s : Path) : Option Path := normalizeLoop s.length (s.length + 1) s 0 0

structure Symlink where
  from_ : Path
  to_ : Path
  deriving DecidableEq

structure Resolved where
  resolvedDirs : List (Path × Path)
  symlinks : List Symlink
  vcsDirs : List Path
  deriving DecidableEq

namespace Resolved

def empty : Resolved := ⟨[], [], []⟩

def insertDir (t : Resolved) (dir path : Path) : Resolved :=
  match t.resolvedDirs.lookup dir with
  | some _ => t
  | none => { t with resolvedDirs := (dir, path) :: t.resolvedDirs }

def pushSymlink (t : Resolved) (from_ to_ : Path) : Resolved :=
  { t with symlinks := t.symlinks ++ [⟨from_, to_⟩] }

def insertVcsDir (t : Resolved) (dir : Path) : Resolved :=
  if dir ∈ t.vcsDirs then t else { t with vcsDirs := dir :: t.vcsDirs }

end Resolved

def hasSubdir (fs : FileTree) (base suffix : Path) : Bool := fs.exists_ (base ++ suffix)

def checkVcsRoot (fs : FileTree) (path : Path) (t : Resolved) : Resolved :=
  if hasSubdir fs path "/.git".toList || hasSubdir fs path "/.hg".toList then
    t.insertVcsDir (path ++ ['/'])
  else t

/-- The first loop: the prefix to start from, what it resolves to, and the rest; without a slash an
impossible resize. -/
def findBase (t : Resolved) (path : Path) : Nat → Path → Option (Path × Path × Path)
  | 0, _ => none
  | fuel + 1, base =>
    match rfindSlash base with
    | none => none
    | some 0 => some ([], [], path)
    | some (p + 1) =>
      match t.resolvedDirs.lookup (base.take p) with
      | some resolvedBase => some (base.take p, resolvedBase, path.drop (p + 1))
      | none => findBase t path fuel (base.take p)

def linkTarget (base buf : Path) : Path :=
  if buf.head? ≠ some '/' then
    let target := parentDir base
    (if target.length > 1 then target ++ ['/'] else target) ++ buf
  else buf

def rememberDir (fs : FileTree) (resolvedBase base resolved : Path) (t : Resolved) : Resolved :=
  ((checkVcsRoot fs resolved t).insertDir resolvedBase resolved).insertDir base resolved

def appendPart (resolvedBase part : Path) : Option Path :=
  if part = '/' :: dot ∨ part = '/' :: dotdot then normalizeFileName (resolvedBase ++ part)
  else some (resolvedBase ++ part)

section Loop

variable (fs : FileTree) (resolve : Path → Bool → Resolved → Option (Path × Resolved))

/-- Makes a path resolved whose last component may be a link, or finds that there is no such path. -/
def resolveBase (base resolvedBase : Path) (baseIsFile last : Bool) (t : Resolved) :
    Option (Option Path × Resolved) :=
  match t.resolvedDirs.lookup resolvedBase with
  | some cached => some (some cached, if last then t else t.insertDir base cached)
  | none =>
    match fs.readlink resolvedBase with
    | .ok buf => do
      let (resolved, t) ← resolve (linkTarget base buf) baseIsFile t
      let t := t.pushSymlink resolvedBase resolved
      return (some resolved, if baseIsFile then t else rememberDir fs resolvedBase base resolved t)
    | .error .invalid =>
      some (some resolvedBase,
        if baseIsFile then t else rememberDir fs resolvedBase base resolvedBase t)
    | .error .loop => none
    | .error _ => some (none, t)

/-- The second loop, over the components of `rest` from the slash at `p`. -/
def resolveLoop (isFile : Bool) (rest : Path) :
    Nat → Nat → Path → Path → Resolved → Option (Path × Resolved)
  | 0, _, _, _, _ => none
  | fuel + 1, p, base, resolvedBase, t => do
    let next := findSlash rest (p + 1)
    let part := (rest.take (next.getD rest.length)).drop p
    let base := base ++ part
    let resolvedBase ← appendPart resolvedBase part
    match ← resolveBase fs resolve base resolvedBase (next.isNone && isFile) next.isNone t with
    | (none, t) => return ([], t)
    | (some resolved, t) =>
      match next with
      | none => return (resolved, t)
      | some next => resolveLoop isFile rest fuel next base resolved t

end Loop

/-- The fuel bounds the depth of the recursion. -/
def resolveSymlinks (fs : FileTree) : Nat → Path → Bool → Resolved → Option (Path × Resolved)
  | 0, _, _, _ => none
  | fuel + 1, path, isFile, t => do
    let (base, resolvedBase, rest) ← findBase t path (path.length + 1) path
    resolveLoop fs (resolveSymlinks fs fuel) isFile rest (rest.length + 1) 0 base resolvedBase t

def resolveAll (fs : FileTree) (fuel : Nat) : List (Path × Bool) → Resolved →
    Option (List Path × Resolved)
  | [], t => some ([], t)
  | (path, isFile) :: calls, t => do
    let (resolved, t) ← resolveSymlinks fs fuel path isFile t
    let (answers, t) ← resolveAll fs fuel calls t
    return (resolved :: answers, t)

end Attune.Sources
