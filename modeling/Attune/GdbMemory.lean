import Attune.BreakpointUpdate

namespace Attune.Breakpoints
open OrderedMap List

/-- What a memory request reads of its task. -/
structure StackTop where
  sp : Nat
  wordSize : Nat
  inPatchStubs : Bool
  deriving DecidableEq

/-- A `memset` to zero on a vector, with no defined result past its end. -/
def zeroWord (result : List UInt8) (offset size : Nat) : Option (List UInt8) :=
  if offset + size ≤ result.length then some (memcpy result offset (replicate size 0)) else none

def maybeInterceptMemRequest (t : StackTop) (addr len : Nat) (result : List UInt8) :
    Option (List UInt8) :=
  if addr ≤ t.sp ∧ ptrAdd t.sp t.wordSize ≤ ptrAdd addr len ∧ t.inPatchStubs = true then
    zeroWord result (t.sp - addr) t.wordSize
  else some result

/-- The largest size of a vector of bytes. -/
def maxSize : Nat := 2 ^ 63 - 1

variable (s : AddressSpace)

/-- The reply to a request of which `nread` bytes could be read; `none` when a vector of that length
cannot be had, or for a write past the end of the reply. -/
def AddressSpace.getMem (t : StackTop) (addr len nread : Nat) : Option (List UInt8) :=
  if len ≤ maxSize then
    maybeInterceptMemRequest t addr len
      (s.replaceBreakpointsWithOriginalValues (s.readMem addr nread) nread addr)
  else none

def StackTop.Hides (t : StackTop) (addr nread a : Nat) : Prop :=
  t.inPatchStubs = true ∧ (addr ≤ t.sp ∧ t.sp + t.wordSize ≤ addr + nread) ∧
    t.sp ≤ a ∧ a < t.sp + t.wordSize

instance (t : StackTop) (addr nread a : Nat) : Decidable (t.Hides addr nread a) :=
  inferInstanceAs (Decidable (_ ∧ _))

/-- The original bytes, but for the word at the top of the stack of a patch stub. -/
def AddressSpace.expectedReply (t : StackTop) (addr nread : Nat) : List UInt8 :=
  (range nread).map fun i =>
    if t.Hides addr nread (addr + i) then 0 else s.original (addr + i)

theorem zeroWord_map (g : Nat → UInt8) (h : offset + size ≤ n) :
    zeroWord ((range n).map g) offset size =
      some ((range n).map fun i => if offset ≤ i ∧ i < offset + size then 0 else g i) := by
  rw [zeroWord, length_map, length_range, if_pos h]
  congr 1
  apply ext_getElem
  · simp only [memcpy, length_append, length_take, length_drop, length_map, length_range,
      length_replicate]
    omega
  · intro i hi hi'
    rw [getElem_map, getElem_range]
    simp only [memcpy, getElem_append, getElem_take, getElem_drop, getElem_map, getElem_range,
      getElem_replicate, length_append, length_take, length_map, length_range, length_replicate]
    rw [length_map, length_range] at hi'
    split
    · split
      · rw [if_neg (by omega)]
      · rw [if_pos (by omega)]
    · rw [if_neg (by omega)]
      congr 1
      omega

/-- The reply is right unless the word is in the request and not in what could be read. -/
theorem getMem_iff (hs : Sorted s.breakpoints)
    (hb : ∀ e ∈ s.breakpoints, e.1 + 1 < 2 ^ 64) (t : StackTop) (addr len nread : Nat)
    (haddr : addr < 2 ^ 64) (hread : nread = 0 ∨ addr + nread ≤ 2 ^ 63) (hlen : nread ≤ len) :
    s.getMem t addr len nread = some (s.expectedReply t addr nread) ↔
      len ≤ maxSize ∧ (t.inPatchStubs = true → addr ≤ t.sp →
        ptrAdd t.sp t.wordSize ≤ ptrAdd addr len → t.sp + t.wordSize ≤ addr + nread) := by
  have hend : addr + nread < 2 ^ 64 := by omega
  simp only [AddressSpace.getMem, AddressSpace.masked_original hs hb hend, maybeInterceptMemRequest]
  constructor
  · intro h
    split at h
    · next hmax =>
      refine ⟨hmax, fun hst hle hch => ?_⟩
      rw [if_pos ⟨hle, hch, hst⟩, zeroWord] at h
      split at h
      · next hin =>
        rw [length_map, length_range] at hin
        omega
      · cases h
    · cases h
  · rintro ⟨hmax, hin⟩
    rw [if_pos hmax]
    split
    · next hc =>
      have hw := hin hc.2.2 hc.1 hc.2.1
      rw [zeroWord_map _ (by omega), AddressSpace.expectedReply]
      congr 1
      apply map_congr_left
      intro i _
      have hi : t.sp - addr ≤ i ∧ i < t.sp - addr + t.wordSize ↔ t.Hides addr nread (addr + i) := by
        obtain ⟨hle, -, hst⟩ := hc
        simp only [StackTop.Hides, hst, hle, hw, true_and]
        omega
      simp only [hi]
    · next hc =>
      rw [AddressSpace.expectedReply]
      congr 1
      apply map_congr_left
      intro i hi
      rw [if_neg]
      rintro ⟨hst, hw, -⟩
      have hpos : addr + nread ≤ 2 ^ 63 := hread.resolve_left (Nat.ne_zero_of_lt (mem_range.mp hi))
      rw [maxSize] at hmax
      apply hc
      rw [ptrAdd_eq (by omega), ptrAdd_eq (by omega)]
      exact ⟨hw.1, by omega, hst⟩

def stackOnly : AddressSpace := ⟨[1], fun _ => 7, []⟩

theorem getMem_iff_stub : stackOnly.getMem ⟨4096, 8, true⟩ 4088 24 24 =
      some (stackOnly.expectedReply ⟨4096, 8, true⟩ 4088 24) :=
  (getMem_iff stackOnly .nil nofun ⟨4096, 8, true⟩ 4088 24 24 (by decide) (by decide)
    (by decide)).mpr ⟨by decide, fun _ _ _ => by decide⟩

/-- The page after the stack pointer's cannot be read, and the word is zeroed past the reply. -/
theorem getMem_past_reply :
    Sorted stackOnly.breakpoints ∧ stackOnly.getMem ⟨4096, 8, true⟩ 4088 24 8 = none ∧
      stackOnly.expectedReply ⟨4096, 8, true⟩ 4088 8 = replicate 8 7 :=
  ⟨.nil, rfl, rfl⟩

end Attune.Breakpoints
