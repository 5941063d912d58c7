import Attune.MuplayManager

namespace Attune.Muplay

inductive ModificationType where
  | inserted
  | deleted
  deriving DecidableEq

structure Summary where
  exePath : Name
  modificationList : List Dwarf.LineModification
  modificationType : ModificationType
  deriving DecidableEq

def insertName (name : Name) : List Name → List Name
  | [] => [name]
  | x :: xs =>
    if name < x then name :: x :: xs else if name = x then x :: xs else x :: insertName name xs

def Summary.getModifiedFuncNames (s : Summary) : List Name :=
  (s.modificationList.flatMap fun m => m.modifiedFunctions.map Dwarf.FuncInfo.funcName).foldl
    (fun names name => insertName name names) []

/-- The rewriting library: what it has parsed, and the sizes of what it finds by name. -/
structure Egalito (Conductor : Type) where
  initial : Conductor
  parse : Conductor → Name → Conductor
  findFunction : Conductor → Name → Option Nat
  findPLTTrampoline : Conductor → Name → Option Nat

structure Helper (Conductor : Type) where
  parsedPaths : List Name
  conductor : Conductor

/-- What loading depends on besides the summaries: the library, its allocator of slots, the original
binaries, the memory map and `mmap`. -/
structure LoadEnv (Conductor : Type) where
  egalito : Egalito Conductor
  allocate : Nat → Nat → List Nat → Nat → Option Nat
  executableMappings : Name → Option Name
  symbol : Name → Name → Option Nat
  findModuleBase : Name → Nat
  findLowestBaseAddress : Nat → Nat
  mmap : Nat → Nat → Option Nat
  symbolsToResolve : List Name

structure Region where
  start : Nat
  size : Nat
  deriving DecidableEq

section
variable {Conductor : Type} (env : LoadEnv Conductor)

def Helper.new : Helper Conductor := ⟨[], env.egalito.initial⟩

def Helper.safeParse (h : Helper Conductor) (path : Name) : Helper Conductor :=
  if path ∈ h.parsedPaths then h
  else ⟨path :: h.parsedPaths, env.egalito.parse h.conductor path⟩

/-- The mapping of a function that the original binary has a symbol for. -/
def linkFunction (oldPath : Name) (l : FuncMappings) (name : Name) : FuncMappings :=
  match env.symbol oldPath name with
  | none => l
  | some offset => l.insert ⟨name, (offset + env.findModuleBase oldPath) % 2 ^ 64, 0, false⟩

def linkModFunctions (s : Summary) (l : FuncMappings) : Option FuncMappings := do
  let oldPath ← env.executableMappings s.exePath
  if oldPath = [] then none
  else return s.getModifiedFuncNames.foldl (linkFunction env oldPath) l

def visitAllBinaries : List Summary → FuncMappings → Option FuncMappings
  | [], l => some l
  | s :: summaries, l =>
    match s.modificationType with
    | .deleted => visitAllBinaries summaries l
    | .inserted => do visitAllBinaries summaries (← linkModFunctions env s l)

/-- The sizes and names that the first loop of `load_quilted_code` collects. -/
structure Collected (Conductor : Type) where
  totalSize : Nat
  pltEntryNames : List Name
  allModifiedFuncNames : List Name
  helper : Helper Conductor

/-- `none` is the return from the middle of the loop. -/
def collect : List Summary → Collected Conductor → Option (Collected Conductor)
  | [], c => some c
  | s :: summaries, c =>
    match s.modificationType with
    | .deleted => collect summaries c
    | .inserted =>
      let helper := c.helper.safeParse env s.exePath
      let names := s.getModifiedFuncNames
      if names = [] then none
      else
        collect summaries {
          totalSize := c.totalSize +
            ((names.filterMap (env.egalito.findFunction helper.conductor)).sum +
              (env.symbolsToResolve.filterMap
                (env.egalito.findPLTTrampoline helper.conductor)).sum)
          pltEntryNames := c.pltEntryNames ++ env.symbolsToResolve.filter
            fun name => (env.egalito.findPLTTrampoline helper.conductor name).isSome
          allModifiedFuncNames := c.allModifiedFuncNames ++ names.filter
            fun name => (env.egalito.findFunction helper.conductor name).isSome
          helper }

def placeTrampolines (conductor : Conductor) (base total : Nat) :
    List Name → List Nat → Option (List Nat)
  | [], granted => some granted
  | name :: names, granted =>
    match env.egalito.findPLTTrampoline conductor name with
    | none => placeTrampolines conductor base total names granted
    | some size => do
      let _ ← env.allocate base total granted size
      placeTrampolines conductor base total names (granted ++ [size])

def placeFunctions (conductor : Conductor) (base total : Nat) :
    List Name → List Nat → FuncMappings → Option FuncMappings
  | [], _, l => some l
  | name :: names, granted, l =>
    match env.egalito.findFunction conductor name with
    | none => placeFunctions conductor base total names granted l
    | some size => do
      let address ← env.allocate base total granted size
      placeFunctions conductor base total names (granted ++ [size])
        (l.updateModFuncPosition name address)

/-- The mappings and the region that was mapped into the task, if the loading got that far. -/
def loadQuiltedCode (summaries : List Summary) (l : FuncMappings) :
    Option (FuncMappings × Option Region) :=
  match collect env summaries ⟨0, [], [], Helper.new env⟩ with
  | none => some (l, none)
  | some c => do
    let base := env.findLowestBaseAddress c.totalSize
    let granted ← placeTrampolines env c.helper.conductor base c.totalSize c.pltEntryNames []
    let l ← placeFunctions env c.helper.conductor base c.totalSize c.allModifiedFuncNames granted l
    let start ← env.mmap base c.totalSize
    if start = 0 then none else return (l, some ⟨start, c.totalSize⟩)

def loadModifiedCode (summaries : List Summary) (l : FuncMappings) :
    Option (FuncMappings × Option Region) := do
  loadQuiltedCode env summaries (← visitAllBinaries env summaries l)

end

end Attune.Muplay
