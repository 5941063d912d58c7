import Attune.MuplayDwarfReader

namespace Attune.Muplay

abbrev Name := List Char

structure FunctionMapping where
  funcName : Name
  originalAddress : Nat
  modifiedAddress : Nat
  breakpointStatus : Bool
  deriving DecidableEq

def FunctionMapping.isEntryPoint (fm : FunctionMapping) : Bool := fm.funcName == "_start".toList

abbrev FuncMappings := List FunctionMapping

namespace FuncMappings

/-- A mapping with a name that is in the set already is not inserted. -/
def insert (fm : FunctionMapping) : FuncMappings → FuncMappings
  | [] => [fm]
  | x :: xs =>
    if fm.funcName < x.funcName then fm :: x :: xs
    else if fm.funcName = x.funcName then x :: xs
    else x :: insert fm xs

variable (l : FuncMappings)

def findByAddress (address : Nat) : Option FunctionMapping :=
  l.find? fun fm => fm.originalAddress == address || fm.modifiedAddress == address

def modify (f : FunctionMapping → FunctionMapping) (name : Name) (l : FuncMappings) : FuncMappings :=
  l.map fun fm => if fm.funcName = name then f fm else fm

def updateModFuncPosition (name : Name) (address : Nat) : FuncMappings :=
  l.modify (fun fm => { fm with modifiedAddress := address }) name

/-- Null when no mapping has the original address. -/
def getModifiedFuncAddr (origAddr : Nat) : Nat :=
  match l.find? fun fm => fm.originalAddress == origAddr with
  | some fm => fm.modifiedAddress
  | none => 0

def needsBreakpoint (fm : FunctionMapping) : Bool := !fm.breakpointStatus && !fm.isEntryPoint

def setFunctionBreakpoints : FuncMappings :=
  l.map fun fm => if needsBreakpoint fm then { fm with breakpointStatus := true } else fm

def modFunctionBpsExist : Bool :=
  l.any fun fm => fm.breakpointStatus && !fm.isEntryPoint

end FuncMappings

def beforeIp (ip : Nat) : Nat := (ip + (2 ^ 64 - 1)) % 2 ^ 64

def FuncMappings.atModifiedFuncBp (l : FuncMappings) (ip : Nat) : Bool :=
  l.any fun fm => beforeIp ip == fm.originalAddress && fm.breakpointStatus && !fm.isEntryPoint

/-- The manager, with the user breakpoints of the task, one entry for each time one was added. -/
structure Manager where
  hasSetEntryBp : Bool
  doneModifiedLoad : Bool
  funcMappings : FuncMappings
  initialEntryPoint : Nat
  breakpoints : List Nat
  deriving DecidableEq

namespace Manager

def new : Manager := ⟨false, false, [], 0, []⟩

variable (m : Manager)

def shouldSetEntryBp (doneInitialExec : Bool) : Bool :=
  doneInitialExec && !m.hasSetEntryBp

def atEntryPoint (ip : Nat) : Bool := ip == (m.initialEntryPoint + 1) % 2 ^ 64

def shouldLoadModifiedCode (doneInitialExec : Bool) (ip : Nat) : Bool :=
  doneInitialExec && m.hasSetEntryBp && !m.doneModifiedLoad && m.atEntryPoint ip

def shouldJumpToModifiedCode (ip : Nat) : Bool :=
  m.doneModifiedLoad && m.funcMappings.modFunctionBpsExist && m.funcMappings.atModifiedFuncBp ip

/-- The arguments are the entry point in the executable and where the executable is mapped. -/
def putEntryBp (entryPoint baseAddr : Nat) : Manager :=
  let entry := (entryPoint + baseAddr) % 2 ^ 64
  { m with
    initialEntryPoint := entry
    breakpoints := entry :: m.breakpoints
    funcMappings := m.funcMappings.insert ⟨"_start".toList, entry, entry, true⟩
    hasSetEntryBp := true }

/-- The source uses the mapping it finds without a check. -/
def removeBreakpoint (address : Nat) : Option Manager := do
  let fm ← m.funcMappings.findByAddress address
  return { m with
    breakpoints := m.breakpoints.erase address
    funcMappings := m.funcMappings.modify (fun fm => { fm with breakpointStatus := false })
      fm.funcName }

def setFunctionBreakpoints (m : Manager) : Manager :=
  { m with
    breakpoints := ((m.funcMappings.filter FuncMappings.needsBreakpoint).map
      FunctionMapping.originalAddress).reverse ++ m.breakpoints
    funcMappings := m.funcMappings.setFunctionBreakpoints }

end Manager

end Attune.Muplay
