import Attune.DwarfSpan

namespace Attune.DebugInfo
open Attune.Memory

structure DwarfAbbrevAttribute where
  name : Nat
  form : Nat
  constant : DwarfSpan
  deriving DecidableEq

structure DwarfAbbrev where
  attributes : List DwarfAbbrevAttribute
  tag : Nat
  children : Nat
  deriving DecidableEq

def nullAbbrev : DwarfAbbrev := ⟨[], 0, 0⟩

def enum (n : Nat) : Nat := n % 2 ^ 32

def dwTagCompileUnit : Nat := 0x11

def dwAtName : Nat := 0x03
def dwAtStmtList : Nat := 0x10
def dwAtCompDir : Nat := 0x1b

def dwFormAddr : Nat := 0x01
def dwFormData2 : Nat := 0x05
def dwFormData4 : Nat := 0x06
def dwFormData8 : Nat := 0x07
def dwFormData1 : Nat := 0x0b
def dwFormFlag : Nat := 0x0c
def dwFormStrp : Nat := 0x0e
def dwFormIndirect : Nat := 0x16
def dwFormSecOffset : Nat := 0x17
def dwFormFlagPresent : Nat := 0x19
def dwFormImplicitConst : Nat := 0x21

def readConstant (m : Bytes) (form : Nat) (s : DwarfSpan) :
    Except Fault (DwarfSpan × DwarfSpan × Bool) :=
  if form = dwFormImplicitConst then do
    let (constant, s') ← readLebRef m s
    return (constant.getD s, s', constant.isSome)
  else .ok (.null, s, true)

/-- The inner loop of `DwarfAbbrevSet::lookup`; the flag tells whether every read went well. -/
def readAttributes (m : Bytes) : Nat → DwarfSpan →
    Except Fault (List DwarfAbbrevAttribute × DwarfSpan × Bool)
  | 0, _ => .error .endless
  | fuel + 1, s => do
    let (name, s) ← readUleb m s
    let (form, s) ← readUleb m s
    let ok := name.isSome && form.isSome
    let name := name.getD 0
    let form := enum (form.getD 0)
    if name = 0 ∧ form = 0 then return ([], s, ok)
    else do
      let (constant, s, okConstant) ← readConstant m form s
      let (attributes, s, okRest) ← readAttributes m fuel s
      return (⟨name, form, constant⟩ :: attributes, s, ok && okConstant && okRest)

def readAbbrev (m : Bytes) (s : DwarfSpan) :
    Except Fault (Nat × DwarfAbbrev × DwarfSpan × Bool) := do
  let (code, s) ← readUleb m s
  let (tag, s) ← readUleb m s
  let (children, s) ← readValue m s 1
  let (attributes, s, ok) ← readAttributes m (s.size + 1) s
  return (code.getD 0, ⟨attributes, enum (tag.getD 0), children.getD 0⟩, s,
    code.isSome && tag.isSome && children.isSome && ok)

structure DwarfAbbrevSet where
  abbrevs : List (Nat × DwarfAbbrev)
  remainingSpan : DwarfSpan
  deriving DecidableEq

/-- An insertion leaves an entry that is there as it is. -/
def insertNew [BEq κ] (entries : List (κ × α)) (key : κ) (value : α) : List (κ × α) :=
  if (entries.lookup key).isSome then entries else (key, value) :: entries

/-- The outer loop of the lookup; null without such a code, or if the table cannot be read up to it.
-/
def lookupLoop (m : Bytes) (code : Nat) : Nat → DwarfAbbrevSet →
    Except Fault (Option DwarfAbbrev × DwarfAbbrevSet)
  | 0, _ => .error .endless
  | fuel + 1, set =>
    if set.remainingSpan.empty then .ok (none, set)
    else do
      let (abbrevCode, entry, s, ok) ← readAbbrev m set.remainingSpan
      if !ok then return (none, { set with remainingSpan := s })
      else
        let set := ⟨insertNew set.abbrevs abbrevCode entry, s⟩
        if code = abbrevCode then return (some entry, set) else lookupLoop m code fuel set

def DwarfAbbrevSet.lookup (m : Bytes) (set : DwarfAbbrevSet) (code : Nat) :
    Except Fault (Option DwarfAbbrev × DwarfAbbrevSet) :=
  match set.abbrevs.lookup code with
  | some entry => .ok (some entry, set)
  | none => lookupLoop m code (set.remainingSpan.size + 1) set

structure DwarfAbbrevs where
  debugAbbrev : DwarfSpan
  abbrevs : List (Nat × DwarfAbbrevSet)
  deriving DecidableEq

def DwarfAbbrevs.lookup (t : DwarfAbbrevs) (offset : Nat) : DwarfAbbrevSet :=
  (t.abbrevs.lookup offset).getD ⟨[], t.debugAbbrev.subspan offset⟩

def DwarfAbbrevs.update (t : DwarfAbbrevs) (offset : Nat) (set : DwarfAbbrevSet) : DwarfAbbrevs :=
  { t with abbrevs := (offset, set) :: t.abbrevs.filter (·.1 != offset) }

structure DwarfDIE where
  pointer : Option DwarfAbbrev
  attrSpan : DwarfSpan
  addressSize : Nat
  dwarfSize : Nat
  deriving DecidableEq

/-- A failed read of the code gives zero, and the flag's pointer is tested instead of the flag. -/
def DwarfDIE.new (info abbrevs : Bytes) (span : DwarfSpan) (set : DwarfAbbrevSet)
    (dwarfSize addressSize : Nat) : Except Fault (DwarfDIE × DwarfAbbrevSet × Bool) := do
  let (code, span) ← readUleb info span
  if code.getD 0 = 0 then
    return (⟨some nullAbbrev, .null, addressSize, dwarfSize⟩, set, code.isSome)
  else do
    let (found, set) ← set.lookup abbrevs (code.getD 0)
    match found with
    | none => return (⟨none, .null, addressSize, dwarfSize⟩, set, false)
    | some a => return (⟨some a, span, addressSize, dwarfSize⟩, set, true)

def DwarfDIE.target (die : DwarfDIE) : Except Fault DwarfAbbrev :=
  match die.pointer with
  | none => .error .null
  | some a => .ok a

def DwarfDIE.tag (die : DwarfDIE) : Except Fault Nat := do return (← die.target).tag

def DwarfDIE.fixedSize (die : DwarfDIE) (form : Nat) : Option Nat :=
  if form = dwFormAddr then some die.addressSize
  else if form = dwFormData1 then some 1
  else if form = dwFormData2 then some 2
  else if form = dwFormData4 then some 4
  else if form = dwFormData8 then some 8
  else if form = dwFormFlag then some 1
  else if form = dwFormStrp then some die.dwarfSize
  else if form = dwFormSecOffset then some die.dwarfSize
  else if form = dwFormFlagPresent then some 0
  else if form = dwFormImplicitConst then some 0
  else none

/-- `none` where the source returns zero and clears the flag. A form that cannot be read counts as
form zero. -/
def DwarfDIE.formSize (info : Bytes) (die : DwarfDIE) (form : Nat) (s : DwarfSpan) :
    Except Fault (Option Nat × DwarfSpan) :=
  if form = dwFormIndirect then do
    let (form, s) ← readUleb info s
    return (die.fixedSize (enum (form.getD 0)), s)
  else .ok (die.fixedSize form, s)

structure Found where
  span : DwarfSpan
  form : Option Nat
  ok : Bool
  deriving DecidableEq

/-- The loop of `find_attribute`. A form of unknown size clears the flag and is passed over. -/
def DwarfDIE.findIn (info : Bytes) (die : DwarfDIE) (attr : Nat) :
    List DwarfAbbrevAttribute → DwarfSpan → Except Fault Found
  | [], _ => .ok ⟨.null, none, true⟩
  | a :: rest, s => do
    let (size, s) ← die.formSize info a.form s
    let (value, s) := s.consume (size.getD 0)
    if a.name = attr then
      return ⟨if a.form = dwFormImplicitConst then a.constant else value, some a.form, size.isSome⟩
    else do
      let found ← die.findIn info attr rest s
      return { found with ok := size.isSome && found.ok }

def DwarfDIE.findAttribute (info : Bytes) (die : DwarfDIE) (attr : Nat) : Except Fault Found := do
  let a ← die.target
  die.findIn info attr a.attributes die.attrSpan

def decodeUnsignedLoop (m : Bytes) : Nat → Nat → Nat → Nat → Except Fault (Option Nat)
  | 0, _, _, ret => .ok (some ret)
  | n + 1, start, shift, ret =>
    if 64 ≤ shift then .ok none
    else do
      let b ← load m start 1
      decodeUnsignedLoop m n (start + 1) (shift + 8) (ret ||| shiftInt b shift)

/-- `none` where the source returns zero and clears the flag. -/
def decodeUnsignedLiteral (m : Bytes) (s : DwarfSpan) : Except Fault (Option Nat) :=
  decodeUnsignedLoop m s.size s.start 0 0

/-- A form that was never set is not used. -/
def Found.getForm (f : Found) : Except Fault Nat :=
  match f.form with
  | none => .error .uninitialised
  | some form => .ok form

def isLineptrForm (form : Nat) : Bool :=
  form == dwFormData1 || form == dwFormData2 || form == dwFormData4 || form == dwFormData8 ||
    form == dwFormSecOffset

def decodeLineptr (info : Bytes) (s : DwarfSpan) (form : Nat) : Except Fault (Int × Bool) :=
  if isLineptrForm form then do
    let v ← decodeUnsignedLiteral info s
    if 2 ^ 63 ≤ v.getD 0 then return (0, false) else return (v.getD 0, v.isSome)
  else .ok (0, false)

/-- The pointer to the text, and the flag. The test after the offset is one of the pointer to the
flag. -/
def decodeString (info str : Bytes) (s : DwarfSpan) (form : Nat) (debugStr : DwarfSpan) :
    Except Fault (Option Nat × Bool) :=
  if form = dwFormStrp then do
    let offset ← decodeUnsignedLiteral info s
    let (p, _) ← readNullTerminatedString str (debugStr.subspan (offset.getD 0))
    return (p, offset.isSome && p.isSome)
  else .ok (none, false)

def DwarfDIE.lineptrAttr (info : Bytes) (die : DwarfDIE) (attr : Nat) :
    Except Fault (Int × Bool) := do
  let found ← die.findAttribute info attr
  if found.span.empty then return (-1, found.ok)
  else do
    let (v, ok) ← decodeLineptr info found.span (← found.getForm)
    return (v, found.ok && ok)

def DwarfDIE.stringAttr (info str : Bytes) (die : DwarfDIE) (attr : Nat) (debugStr : DwarfSpan) :
    Except Fault (Option Nat × Bool) := do
  let found ← die.findAttribute info attr
  if found.span.empty then return (none, found.ok)
  else do
    let (p, ok) ← decodeString info str found.span (← found.getForm) debugStr
    return (p, found.ok && ok)

inductive Format
  | dwarf32
  | dwarf64
  deriving DecidableEq

namespace Format

def preamble : Format → Nat
  | .dwarf32 => 4
  | .dwarf64 => 12

def offset : Format → Nat
  | .dwarf32 => 4
  | .dwarf64 => 8

def lengthAt : Format → Nat
  | .dwarf32 => 0
  | .dwarf64 => 4

end Format

def formatOf (word : Option Nat) : Format := if word.getD 0 = 0xFFFFFFFF then .dwarf64 else .dwarf32

inductive UnitHeader
  | dwarf4
  | dwarf5
  deriving DecidableEq

namespace UnitHeader

def size (f : Format) : UnitHeader → Nat
  | .dwarf4 => f.preamble + 3 + f.offset
  | .dwarf5 => f.preamble + 4 + f.offset

def abbrevAt (f : Format) : UnitHeader → Nat
  | .dwarf4 => f.preamble + 2
  | .dwarf5 => f.preamble + 4

def addressSizeAt (f : Format) : UnitHeader → Nat
  | .dwarf4 => f.preamble + 2 + f.offset
  | .dwarf5 => f.preamble + 3

end UnitHeader

structure UnitState where
  debugInfo : DwarfSpan
  abbrevs : DwarfAbbrevs
  deriving DecidableEq

structure Sections where
  info : Bytes
  abbrevs : Bytes
  str : Bytes
  line : Bytes
  deriving DecidableEq

/-- A compilation unit holds a null pointer until its entry is made. The flag tells whether `next`
went well. -/
structure CompilationUnit where
  die : Option DwarfDIE
  state : UnitState
  ok : Bool
  deriving DecidableEq

variable (secs : Sections)

def initUnit (f : Format) (h : UnitHeader) (st : UnitState) : Except Fault CompilationUnit := do
  let (p, span) := st.debugInfo.read (h.size f)
  let length ← deref secs.info p f.lengthAt f.offset
  if 2 ^ 64 - 13 ≤ length then return ⟨none, st, false⟩
  else do
    let info := (st.debugInfo.consume (length + f.preamble)).2
    let offset ← deref secs.info p (h.abbrevAt f) f.offset
    let addressSize ← deref secs.info p (h.addressSizeAt f) 1
    let (die, set, ok) ←
      DwarfDIE.new secs.info secs.abbrevs span (st.abbrevs.lookup offset) f.offset addressSize
    let tag ← die.tag
    return ⟨some die, ⟨info, st.abbrevs.update offset set⟩, ok && tag == dwTagCompileUnit⟩

def initSize (f : Format) (st : UnitState) : Except Fault CompilationUnit := do
  let (p, _) := st.debugInfo.read (UnitHeader.dwarf4.size f)
  let version ← deref secs.info p f.preamble 2
  if 2 ≤ version ∧ version ≤ 4 then initUnit secs f .dwarf4 st
  else if version = 5 then initUnit secs f .dwarf5 st
  else return ⟨none, st, false⟩

/-- A first word that cannot be read clears the flag, and the header after it cannot be read either. -/
def next (st : UnitState) : Except Fault CompilationUnit := do
  let (word, _) ← readValue secs.info st.debugInfo 4
  let cu ← initSize secs (formatOf word) st
  return { cu with ok := word.isSome && cu.ok }

end Attune.DebugInfo
