import Attune.AddressSpaceCalls

namespace Attune

namespace AddressSpace

def heapArgs (prot : BitVec 32) : MapArgs :=
  { prot, flags := mapAnonymous ||| mapPrivate, offsetBytes := 0, fsname := "[heap]".toList }

inductive Call where
  | map (addr numBytes : Nat) (args : MapArgs)
  | unmap (addr numBytes : Nat)
  | protect (addr numBytes : Nat) (prot : BitVec 32)
  | remap (oldAddr oldNumBytes newAddr newNumBytes : Nat)
  | brk (addr : Nat) (prot : BitVec 32)
  deriving DecidableEq

def step (s : AddressSpace) : Call → Option AddressSpace
  | .map addr numBytes args => s.map addr numBytes args
  | .unmap addr numBytes => s.unmap addr numBytes
  | .protect addr numBytes prot => s.protect addr numBytes prot
  | .remap oldAddr oldNumBytes newAddr newNumBytes =>
    s.remap oldAddr oldNumBytes newAddr newNumBytes
  | .brk addr prot => s.brk addr prot

def run : List Call → AddressSpace → Option AddressSpace
  | [], s => some s
  | c :: calls, s => (s.step c).bind (run calls)

end AddressSpace

/-- The reference: what every page number is mapped to, and the break. -/
structure PageTable where
  pages : Nat → Option PageAttr
  brkEnd : Nat

namespace PageTable

def pageCount (numBytes : Nat) : Nat := (numBytes + (pageSize - 1)) / pageSize

def advance (a : PageAttr) (distance : Nat) : PageAttr :=
  { a with offset := a.offset.map fun o => (o + distance) % 2 ^ 64 }

/-- Gives the pages from `first` new contents and leaves all others alone. -/
def overwrite (t : Nat → Option PageAttr) (first count : Nat) (new : Nat → Option PageAttr) :
    Nat → Option PageAttr :=
  fun n => if first ≤ n ∧ n < first + count then new (n - first) else t n

def InRun (t : Nat → Option PageAttr) (first n : Nat) : Prop :=
  ∀ k, k ≤ n → first ≤ k → (t k).isSome = true

instance : Decidable (InRun t first n) := inferInstanceAs (Decidable (∀ k, k ≤ n → _))

def step (t : PageTable) : AddressSpace.Call → PageTable
  | .map addr numBytes args =>
    { t with pages := overwrite t.pages (addr / pageSize) (pageCount numBytes)
                fun i => some (args.attr (i * pageSize)) }
  | .unmap addr numBytes =>
    { t with pages := overwrite t.pages (addr / pageSize) (pageCount numBytes) fun _ => none }
  | .protect addr numBytes prot =>
    { t with pages := fun n =>
        if addr / pageSize ≤ n ∧ n < addr / pageSize + pageCount numBytes ∧
            InRun t.pages (addr / pageSize) n then
          (t.pages n).map fun a => { a with prot := prot &&& protReadWriteExec }
        else t.pages n }
  | .remap oldAddr oldNumBytes newAddr newNumBytes =>
    let first := oldAddr / pageSize
    let removed := overwrite t.pages first (pageCount oldNumBytes) fun _ => none
    { t with pages := overwrite removed (newAddr / pageSize) (pageCount newNumBytes) fun i =>
                if i < pageCount oldNumBytes then t.pages (first + i)
                else (t.pages first).map (advance · (i * pageSize)) }
  | .brk addr prot =>
    let old := pageCount t.brkEnd
    let new := pageCount addr
    { pages :=
        if old < new then overwrite t.pages old (new - old) fun i =>
          some ((AddressSpace.heapArgs prot).attr (i * pageSize))
        else overwrite t.pages new (old - new) fun _ => none
      brkEnd := addr }

def run : List AddressSpace.Call → PageTable → PageTable
  | [], t => t
  | c :: calls, t => run calls (t.step c)

end PageTable

def FitsRange (addr numBytes : Nat) : Prop :=
  addr % pageSize = 0 ∧ addr + PageTable.pageCount numBytes * pageSize < 2 ^ 64

namespace AddressSpace

/-- Callers promise page-aligned ranges that do not wrap, no `PROT_GROWSDOWN`, and remaps inside one
mapping. -/
def Valid (s : AddressSpace) : Call → Prop
  | .map addr numBytes _ => FitsRange addr numBytes
  | .unmap addr numBytes => FitsRange addr numBytes
  | .protect addr numBytes prot => FitsRange addr numBytes ∧ prot &&& protGrowsdown = 0
  | .remap oldAddr oldNumBytes newAddr newNumBytes =>
    FitsRange oldAddr oldNumBytes ∧ FitsRange newAddr newNumBytes ∧
      ∃ e ∈ s.mem, e.1.start ≤ oldAddr ∧ oldAddr < e.1.end_ ∧
        oldAddr + PageTable.pageCount oldNumBytes * pageSize ≤ e.1.end_
  | .brk addr _ => addr + pageSize ≤ 2 ^ 64

def ValidRun : List Call → AddressSpace → Prop
  | [], _ => True
  | c :: calls, s => s.Valid c ∧ ∀ s', s.step c = some s' → ValidRun calls s'

instance : Decidable (FitsRange addr numBytes) := inferInstanceAs (Decidable (_ ∧ _))

instance decidableValid (s : AddressSpace) : (c : Call) → Decidable (s.Valid c)
  | .map addr numBytes _ => inferInstanceAs (Decidable (FitsRange addr numBytes))
  | .unmap addr numBytes => inferInstanceAs (Decidable (FitsRange addr numBytes))
  | .protect .. => inferInstanceAs (Decidable (_ ∧ _))
  | .remap .. => inferInstanceAs (Decidable (_ ∧ _ ∧ ∃ e ∈ s.mem, _))
  | .brk addr _ => inferInstanceAs (Decidable (addr + pageSize ≤ 2 ^ 64))

instance decidableValidRun : (calls : List Call) → (s : AddressSpace) → Decidable (ValidRun calls s)
  | [], _ => .isTrue trivial
  | c :: calls, s =>
    match hs : s.step c with
    | none => decidable_of_iff (s.Valid c)
        ⟨fun h => ⟨h, fun _ h' => nomatch hs.symm.trans h'⟩, fun h => h.1⟩
    | some s' =>
      have := decidableValidRun calls s'
      decidable_of_iff (s.Valid c ∧ ValidRun calls s')
        ⟨fun h => ⟨h.1, fun _ h' => Option.some.inj (hs.symm.trans h') ▸ h.2⟩,
          fun h => ⟨h.1, h.2 s' hs⟩⟩

/-- Only `map` brings resources into the address space. -/
def Call.NoResources : Call → Prop
  | .map _ _ args => args.NoResources
  | _ => True

end AddressSpace

end Attune
