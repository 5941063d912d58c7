import Attune.QuiltedCode

namespace Attune.Muplay

inductive MuplayStatus where
  | continue
  | exited
  deriving DecidableEq

/-- What a step does that can be seen from outside. A breakpoint is set and cleared for a function. -/
inductive Action where
  | putEntryBp (address : Nat)
  | loadModifiedCode (ip : Nat)
  | setBreakpoint (name : Name) (address : Nat)
  | clearBreakpoint (name : Name)
  | jumpToModifiedCode (address : Nat)
  | replayStep
  | diversionStep
  deriving DecidableEq

structure Session where
  manager : Manager
  hasDiverged : Bool
  deriving DecidableEq

def Session.new : Session := ⟨.new, false⟩

/-- What a step finds: the replay's state, the task, the binaries to load from, and what replaying
gives. -/
structure StepInput (Conductor : Type) where
  doneInitialExec : Bool
  ip : Nat
  entryPoint : Nat
  baseAddr : Nat
  env : LoadEnv Conductor
  summaries : List Summary
  replayExited : Bool
  diversionExited : Bool

def clearActions (l : FuncMappings) (address : Nat) : List Action :=
  ((l.findByAddress address).map fun fm => .clearBreakpoint fm.funcName).toList

def setActions (l : FuncMappings) : List Action :=
  (l.filter FuncMappings.needsBreakpoint).map fun fm => .setBreakpoint fm.funcName fm.originalAddress

section
variable {Conductor : Type} (i : StepInput Conductor)

/-- Loading the modified code, with what follows it in the step; `none` where the program ends. -/
def loadStep (s : Session) : List Action × Option Session :=
  match loadModifiedCode i.env i.summaries s.manager.funcMappings with
  | none => ([.loadModifiedCode i.ip], none)
  | some (l, _) =>
    let m := { s.manager with funcMappings := l }
    match m.removeBreakpoint m.initialEntryPoint with
    | none => ([.loadModifiedCode i.ip], none)
    | some m' =>
      (.loadModifiedCode i.ip :: clearActions l m.initialEntryPoint ++ setActions m'.funcMappings,
        some { s with manager := { m' with doneModifiedLoad := true }.setFunctionBreakpoints })

def jumpStep (s : Session) : List Action × Option Session :=
  let address := beforeIp i.ip
  if s.manager.funcMappings.getModifiedFuncAddr address = 0 then ([], none)
  else
    match s.manager.removeBreakpoint address with
    | none => ([], none)
    | some m =>
      (.jumpToModifiedCode address :: clearActions s.manager.funcMappings address,
        some { s with manager := m, hasDiverged := true })

def goOn (s : Session) : List Action × Option (Session × MuplayStatus) :=
  if s.hasDiverged then
    ([.diversionStep], some (s, if i.diversionExited then .exited else .continue))
  else ([.replayStep], some (s, if i.replayExited then .exited else .continue))

def andThen (r : List Action × Option Session)
    (f : Session → List Action × Option (Session × MuplayStatus)) :
    List Action × Option (Session × MuplayStatus) :=
  match r.2 with
  | none => (r.1, none)
  | some s => (r.1 ++ (f s).1, (f s).2)

def muplayStep (metadataMode : Bool) (i : StepInput Conductor) (s : Session) :
    List Action × Option (Session × MuplayStatus) :=
  if s.manager.shouldSetEntryBp i.doneInitialExec then
    let m := s.manager.putEntryBp i.entryPoint i.baseAddr
    andThen ([.putEntryBp m.initialEntryPoint], some { s with manager := m }) (goOn i)
  else if s.manager.shouldLoadModifiedCode i.doneInitialExec i.ip then
    andThen (loadStep i s) fun s => if metadataMode then ([], some (s, .exited)) else goOn i s
  else if s.manager.shouldJumpToModifiedCode i.ip then andThen (jumpStep i s) (goOn i)
  else goOn i s

/-- The actions of a run, whatever is called after which result, up to where the program ends. -/
def muplayRun (metadataMode : Bool) : List (StepInput Conductor) → Session → List Action
  | [], _ => []
  | i :: inputs, s =>
    match muplayStep metadataMode i s with
    | (actions, none) => actions
    | (actions, some (s', _)) => actions ++ muplayRun metadataMode inputs s'

end

/-- The breakpoint for a function was set at the address and not cleared since. -/
def Carries (history : List Action) (name : Name) (address : Nat) : Prop :=
  ∃ before after, history = before ++ .setBreakpoint name address :: after ∧
    .clearBreakpoint name ∉ after

def Allowed (history : List Action) : Action → Prop
  | .putEntryBp _ => ∀ address, .putEntryBp address ∉ history
  | .loadModifiedCode ip => (∀ ip', .loadModifiedCode ip' ∉ history) ∧
      ∃ address, .putEntryBp address ∈ history ∧ ip = (address + 1) % 2 ^ 64
  | .setBreakpoint _ _ => ∃ ip, .loadModifiedCode ip ∈ history
  | .clearBreakpoint _ => True
  | .jumpToModifiedCode address => (∃ ip, .loadModifiedCode ip ∈ history) ∧
      ∃ name, name ≠ "_start".toList ∧ Carries history name address
  | .replayStep => ∀ address, .jumpToModifiedCode address ∉ history
  | .diversionStep => True

def Disciplined (history : List Action) : Prop :=
  ∀ before a after, history = before ++ a :: after → Allowed before a

end Attune.Muplay
