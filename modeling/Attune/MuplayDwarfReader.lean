import Mathlib

namespace Attune.Dwarf

inductive Tag where
  | compileUnit
  | subprogram
  | other (code : Nat)
  deriving DecidableEq

structure Die where
  tag : Tag
  lowPc : Option Nat
  highPc : Option Nat
  name : Option Nat
  deriving DecidableEq

inductive DieTree where
  | node (die : Die) (children : List DieTree)

def DieTree.die : DieTree → Die
  | .node die _ => die

def DieTree.children : DieTree → List DieTree
  | .node _ children => children

/-- A DIE in its place: the siblings that come after it are known. -/
structure Handle where
  tree : DieTree
  siblings : List DieTree

def dwarfSiblingof (h : Handle) : Option Handle :=
  match h.siblings with
  | [] => none
  | t :: ts => some ⟨t, ts⟩

def dwarfChild (h : Handle) : Option Handle :=
  match h.tree.children with
  | [] => none
  | t :: ts => some ⟨t, ts⟩

structure FuncInfo where
  funcName : List Char
  lowPc : Nat
  funcSize : Nat
  deriving DecidableEq

structure LineModification where
  lineno : Nat
  lineAddresses : List Nat
  modifiedFunctions : List FuncInfo
  deriving DecidableEq

/-- Why there is no result: an empty queue, a variable that was never set, `FATAL` for a negative
line. -/
inductive Stop where
  | emptyQueue
  | indeterminate
  | negativeLine
  | outOfFuel
  deriving DecidableEq

structure Vars where
  lowPc : Option Nat
  funcSize : Option Nat
  funcName : Option Nat
  funcNames : List Nat
  functions : List FuncInfo
  deriving DecidableEq

def Vars.init : Vars := ⟨none, none, none, [], []⟩

def covers (low size addr : Nat) : Bool := low ≤ addr && addr < (low + size) % 2 ^ 64

section
-- the text at an address of a name
variable (strings : Nat → List Char)

/-- One round over the line's addresses; an attribute the DIE lacks leaves the variable as it was.
-/
def checkAddress (d : Die) (v : Vars) (addr : Nat) : Except Stop Vars :=
  match d.lowPc.or v.lowPc, d.highPc.or v.funcSize with
  | some low, some size =>
    if covers low size addr then
      match d.name.or v.funcName with
      | some name =>
        if name ∈ v.funcNames then .ok ⟨some low, some size, some name, v.funcNames, v.functions⟩
        else .ok ⟨some low, some size, some name, v.funcNames ++ [name],
          v.functions ++ [⟨strings name, low, size⟩]⟩
      | none => .error .indeterminate
    else .ok ⟨some low, some size, v.funcName, v.funcNames, v.functions⟩
  | _, _ => .error .indeterminate

def visit (addrs : List Nat) (v : Vars) (d : Die) : Except Stop Vars :=
  if d.tag = .subprogram then addrs.foldlM (checkAddress strings d) v else .ok v

structure Loop where
  die : Handle
  queue : List Handle
  sibTrue : Bool
  chiTrue : Bool
  vars : Vars

def Loop.goesOn (s : Loop) : Bool := s.sibTrue || !s.queue.isEmpty || s.chiTrue

def Loop.body (addrs : List Nat) (s : Loop) : Except Stop Loop := do
  let vars ← visit strings addrs s.vars s.die.tree.die
  let child := dwarfChild s.die
  let queue := s.queue ++ child.toList
  match dwarfSiblingof s.die with
  | some sibling => return ⟨sibling, queue, true, child.isSome, vars⟩
  | none =>
    match queue with
    | die :: queue => return ⟨die, queue, false, child.isSome, vars⟩
    | [] => throw .emptyQueue

def Loop.run (addrs : List Nat) : Nat → Loop → Except Stop Loop
  | 0, s => if s.goesOn then .error .outOfFuel else .ok s
  | fuel + 1, s => if s.goesOn then do run addrs fuel (← s.body strings addrs) else .ok s

mutual

def DieTree.size : DieTree → Nat
  | .node _ children => 1 + forestSize children

def forestSize : List DieTree → Nat
  | [] => 0
  | t :: ts => t.size + forestSize ts

end

abbrev LineRow := Nat × Nat

def lineAddresses (table : Option (List LineRow)) (line : Int) : List Nat :=
  ((table.getD []).filter fun row => (row.1 : Int) = line).map Prod.snd

def curlPath : List Char :=
  "/tmp/tests/curl-5-integration/obj-files/curl-buggy-5-obj/bin/curl".toList

/-- `get_line_modification` from where the unit has been found. -/
def getLineModification (elfFilePath : List Char) (unit : DieTree) (table : Option (List LineRow))
    (lineNum : Int) : Except Stop LineModification := do
  let lineNum := if elfFilePath = curlPath ∧ lineNum = 276 then 274 else lineNum
  if table.getD [] ≠ [] ∧ lineNum < 0 then throw .negativeLine
  let addrs := lineAddresses table lineNum
  let s ← Loop.run strings addrs unit.size ⟨⟨unit, []⟩, [], true, true, .init⟩
  return ⟨(lineNum % 2 ^ 64).toNat, addrs, s.vars.functions⟩

end

end Attune.Dwarf
