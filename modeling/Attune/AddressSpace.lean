import Attune.OrderedMap
import Attune.KernelMapping

namespace Attune
open OrderedMap MemoryRange

abbrev MemoryMap := List (MemoryRange × Mapping)

abbrev RangeSet := List (MemoryRange × Unit)

/-- The part that tracks mappings. `released` logs the tracer's own `munmap` calls, which are taken
to succeed. -/
structure AddressSpace where
  mem : MemoryMap := []
  monitoredMem : List Nat := []
  dontFork : RangeSet := []
  brkEnd : Nat := 0
  vdsoStartAddr : Nat := 0
  released : List (Nat × Nat) := []
  deriving DecidableEq

def removeRange (ranges : RangeSet) (range : MemoryRange) : RangeSet :=
  let tail := lowerBound less range ranges
  let hit := tail.takeWhile fun e => decide (e.1.start < range.end_)
  let rest := tail.dropWhile fun e => decide (e.1.start < range.end_)
  match hit.head?, hit.getLast? with
  | some (startRange, _), some (endRange, _) =>
    let ranges := below less range ranges ++ rest
    let ranges := if startRange.start < range.start then
      insert less ⟨startRange.start, range.start⟩ () ranges else ranges
    if range.end_ < endRange.end_ then
      insert less ⟨range.end_, endRange.end_⟩ () ranges
    else ranges
  | _, _ => ranges

def addRange (ranges : RangeSet) (range : MemoryRange) : RangeSet :=
  insert less range () (removeRange ranges range)

inductive IterateHow where
  | iterateDefault
  | iterateContiguous
  deriving DecidableEq

/-- The loop of `for_each_in_range` over a state that holds the map; `last` is `last_unmapped_end`.
-/
def forEachLoop (mem : σ → MemoryMap) (f : σ → Mapping → MemoryRange → σ) (how : IterateHow)
    (regionStart regionEnd : Nat) : Nat → σ → Nat → Option σ
  | 0, _, _ => none
  | fuel + 1, s, last =>
    if last < regionEnd then
      let rem : MemoryRange := ⟨last, regionEnd⟩
      match lowerBound comparator rem (mem s) with
      | [] => some s
      | (range, m) :: _ =>
        if rem.end_ ≤ range.start then some s
        else if how = .iterateContiguous ∧
            ¬ (range.start < regionStart ∨ rem.start = range.start) then some s
        else forEachLoop mem f how regionStart regionEnd fuel (f s m rem) range.end_
    else some s

def forEachInRange (mem : σ → MemoryMap) (f : σ → Mapping → MemoryRange → σ) (how : IterateHow)
    (s : σ) (addr numBytes : Nat) : Option σ :=
  let regionStart := floorPageSize addr
  let regionEnd := ceilPageSize (ptrAdd addr numBytes)
  forEachLoop mem f how regionStart regionEnd ((mem s).length + 1) s regionStart

/-- The walk down of `coalesce_around`: the first entry of the run and those left below, nearest
first. -/
def coalesceLeft (next : MemoryRange × Mapping) :
    MemoryMap → Option ((MemoryRange × Mapping) × MemoryMap)
  | [] => some (next, [])
  | first :: lower =>
    if !isCoalescable first.2 next.2 then some (next, first :: lower)
    else if assertCoalesceable first.2 next.2 then coalesceLeft first lower
    else none

def coalesceRight (prev : MemoryRange × Mapping) :
    MemoryMap → Option ((MemoryRange × Mapping) × MemoryMap)
  | [] => some (prev, [])
  | last :: higher =>
    if !isCoalescable prev.2 last.2 then some (prev, last :: higher)
    else if assertCoalesceable prev.2 last.2 then coalesceRight last higher
    else none

namespace AddressSpace

variable (s : AddressSpace)

def removeFromMap (range : MemoryRange) : AddressSpace :=
  { s with
    mem := erase comparator range s.mem
    monitoredMem := s.monitoredMem.filter (· ≠ range.start) }

def addToMap (m : Mapping) : AddressSpace :=
  { s with
    mem := assign comparator m.map.toMemoryRange m s.mem
    monitoredMem :=
      if m.monitored.isSome then m.map.start :: s.monitoredMem else s.monitoredMem }

/-- Merges the entry a key finds with its neighbours; `none` where the end is dereferenced. -/
def coalesceAround (key : MemoryRange) : Option AddressSpace :=
  match lowerBound comparator key s.mem with
  | [] => none
  | it :: higher =>
    if comparator key it.1 then none
    else do
      let (first, below) ←
        coalesceLeft it (below comparator key s.mem).reverse
      let (last, above) ← coalesceRight it higher
      if first.1 = last.1 then some s
      else
        let newM : Mapping :=
          { map := first.2.map.extend last.1.end_
            recordedMap := first.2.recordedMap.extend last.1.end_
            emuFile := first.2.emuFile
            localAddr := first.2.localAddr
            flags := first.2.flags }
        some { s with mem := insert comparator newM.map.toMemoryRange newM
                        (below.reverse ++ above) }

def mapAndCoalesce (m recordedMap : KernelMapping) (emuFile : Option Nat)
    (localAddr : Nat) (monitored : Option Nat) : Option AddressSpace :=
  coalesceAround
    { s with
      monitoredMem := if monitored.isSome then m.start :: s.monitoredMem else s.monitoredMem
      mem := insert comparator m.toMemoryRange
        { map := m, recordedMap, emuFile, localAddr, monitored } s.mem }
    m.toMemoryRange

end AddressSpace

end Attune
