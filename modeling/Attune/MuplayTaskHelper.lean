import Attune.MemoryGaps
import Attune.MuplayManager
import Attune.TraceMmaps

namespace Attune.Muplay
open Trace List OrderedMappings Option

section LowestBase

variable (size : Nat)

def hasRoom (prev km : KernelMapping) : Bool :=
  !(space prev km).slt 0#32 && decide (size < (space prev km).toNat)

def lowestBaseFrom : KernelMapping → List KernelMapping → Nat
  | prev, [] => prev.end_
  | prev, km :: rest => if hasRoom size prev km then prev.end_ else lowestBaseFrom km rest

/-- Without any mapping the end of the empty one is returned. -/
def findLowestBaseAddress : List KernelMapping → Nat
  | [] => 0
  | km :: rest => lowestBaseFrom size km rest

/-- The lowest end of a mapping that is followed by enough unmapped memory; after the last mapping
any size is accepted. -/
structure LowestBase (m : OrderedMappings) (a : Nat) : Prop where
  isEnd : ∃ km ∈ m.mappings, km.end_ = a
  unmapped : ∀ km ∈ m.mappings, a + size ≤ km.start ∨ km.end_ ≤ a
  lowest : ∀ p ∈ neighbours m.mappings, size ≤ gap p → a ≤ p.1.end_

/-- The first gap that is large enough also looks so by the low 32 bits of its length. -/
def FirstFitSeen (m : OrderedMappings) : Prop :=
  ∀ p, (neighbours m.mappings).find? (fun p => size ≤ gap p) = some p →
    size < gap p % 2 ^ 32 ∧ gap p % 2 ^ 32 < 2 ^ 31

variable {size} {m : OrderedMappings}

theorem hasRoom_iff (hp : p ∈ neighbours m.mappings) :
    hasRoom size p.1 p.2 = true ↔ size < gap p % 2 ^ 32 ∧ gap p % 2 ^ 32 < 2 ^ 31 := by
  have hsp := space_toNat hp
  have hsi : (space p.1 p.2).slt 0#32 = decide (2 ^ 31 ≤ (space p.1 p.2).toNat) := by
    rw [BitVec.slt_zero_eq_msb, BitVec.msb_eq_decide]
  rw [hasRoom, hsi, hsp, Bool.and_eq_true, Bool.not_eq_true', decide_eq_false_iff_not,
    decide_eq_true_eq, Nat.not_le, and_comm]

theorem lowestBaseFrom_eq (prev : KernelMapping) (rest : List KernelMapping) :
    lowestBaseFrom size prev rest =
      match (neighbours (prev :: rest)).find? (fun p => hasRoom size p.1 p.2) with
      | some p => p.1.end_
      | none => (rest.getLastD prev).end_ := by
  induction rest generalizing prev with
  | nil => rfl
  | cons km rest ih =>
    rw [neighbours_cons, find?_cons, lowestBaseFrom]
    cases hr : hasRoom size prev km with
    | true => rfl
    | false =>
      rw [if_neg Bool.false_ne_true, ih, getLastD_cons]

theorem findLowestBaseAddress_eq (hl : l.getLast? = some last) : findLowestBaseAddress size l =
      match (neighbours l).find? (fun p => hasRoom size p.1 p.2) with
      | some p => p.1.end_
      | none => last.end_ := by
  cases l with
  | nil => cases hl
  | cons km rest =>
    have hl' : rest.getLastD km = last := by
      rw [getLast?_cons, some.injEq] at hl
      rw [getLastD_eq_getLast?, hl]
    rw [findLowestBaseAddress, lowestBaseFrom_eq, hl']

theorem fits_of_hasRoom (hp : p ∈ neighbours m.mappings)
    (hr : hasRoom size p.1 p.2 = true) : size ≤ gap p := by
  have hlt := ((hasRoom_iff hp).mp hr).1
  have hmod := Nat.mod_le (gap p) (2 ^ 32)
  omega

theorem exists_find? {l : List α} (f : α → Bool) (hp : p ∈ l) (hf : f p = true) :
    ∃ q, l.find? f = some q :=
  isSome_iff_exists.mp (find?_isSome.mpr ⟨p, hp, hf⟩)

theorem find?_first {l : List (KernelMapping × KernelMapping)}
    (hl : l.Pairwise fun p q => p.1.end_ < q.1.end_) (hf : l.find? f = some p) (hq : q ∈ l)
    (hfq : f q = true) : q = p ∨ p.1.end_ < q.1.end_ := by
  obtain ⟨_, A, B, rfl, hA⟩ := find?_eq_some_iff_append.mp hf
  rcases mem_append.mp hq with h | h
  · have hno := hA q h
    rw [hfq] at hno
    cases hno
  · rcases mem_cons.mp h with rfl | h
    · exact .inl rfl
    · exact .inr ((pairwise_cons.mp (pairwise_append.mp hl).2.1).1 q h)

theorem findLowestBaseAddress_unmapped (size : Nat) (hl : m.mappings.getLast? = some last) :
    (∃ km ∈ m.mappings, km.end_ = findLowestBaseAddress size m.mappings) ∧
      ∀ km ∈ m.mappings, findLowestBaseAddress size m.mappings + size ≤ km.start ∨
        km.end_ ≤ findLowestBaseAddress size m.mappings := by
  rw [findLowestBaseAddress_eq hl]
  split
  · next p hf =>
    have hp := mem_of_find?_eq_some hf
    have hr := find?_some hf
    have hfit := fits_of_hasRoom hp hr
    have hord := neighbours_ordered hp
    refine ⟨⟨p.1, (mem_of_mem_neighbours hp).1, rfl⟩, ?_⟩
    intro km hkm
    rcases around_neighbours hp hkm with hb | ha
    · exact .inr hb
    · rw [gap] at hfit
      exact .inl (by omega)
  · refine ⟨⟨last, mem_of_getLast? hl, rfl⟩, ?_⟩
    intro km hkm
    exact .inr (end_le_last hl hkm)

theorem lowest_base_iff (m : OrderedMappings) (size : Nat) (hm : m.mappings ≠ []) :
    LowestBase size m (findLowestBaseAddress size m.mappings) ↔ FirstFitSeen size m := by
  have hl := getLast?_eq_some_getLast hm
  obtain ⟨hend, hu⟩ := findLowestBaseAddress_unmapped size hl
  have hinc := m.neighbours_increase
  constructor
  · intro h p hf
    have hp := mem_of_find?_eq_some hf
    have hd := find?_some hf
    have hfit : size ≤ gap p := of_decide_eq_true hd
    have hle := h.lowest p hp hfit
    rw [← hasRoom_iff hp]
    rw [findLowestBaseAddress_eq hl] at hle
    split at hle
    · next q hro =>
      -- the pair with room also fits, so it is the first one that fits or comes after it
      have hq := mem_of_find?_eq_some hro
      have hqr := find?_some hro
      have hqf := fits_of_hasRoom hq hqr
      rcases find?_first hinc hf hq (decide_eq_true hqf) with rfl | hlt
      · exact hqr
      · omega
    · have hlt := neighbour_end_lt_last hl hp
      omega
  · intro h
    refine ⟨hend, hu, ?_⟩
    intro p hp hfit
    obtain ⟨q, hf⟩ := exists_find? (fun p => decide (size ≤ gap p)) hp (decide_eq_true hfit)
    have hq := mem_of_find?_eq_some hf
    have hro : hasRoom size q.1 q.2 = true := (hasRoom_iff hq).mpr (h q hf)
    have hqp : q.1.end_ ≤ p.1.end_ := by
      rcases find?_first hinc hf hp (decide_eq_true hfit) with rfl | hlt
      · exact le_rfl
      · exact Nat.le_of_lt hlt
    have hex : ∃ r, (neighbours m.mappings).find? (fun p => hasRoom size p.1 p.2) = some r :=
      exists_find? _ hq hro
    obtain ⟨r, hr⟩ := hex
    rw [findLowestBaseAddress_eq hl, hr]
    rcases find?_first hinc hr hq hro with rfl | hlt
    · exact hqp
    · exact Nat.le_of_lt (Nat.lt_of_lt_of_le hlt hqp)

def twoPages (distance : Nat) (h : distance < 2 ^ 63) : OrderedMappings where
  mappings := [⟨⟨4096, 8192⟩, [], 0, 0, 0, mapPrivate, 0⟩,
    ⟨⟨8192 + distance, 12288 + distance⟩, [], 0, 0, 0, mapPrivate, 0⟩]
  inhabited := by simp
  fits := by
    simp only [mem_cons, not_mem_nil, or_false, forall_eq_or_imp, forall_eq]
    omega
  ordered := by simp

theorem lowest_base_two_pages : (twoPages 8192 (by decide)).mappings ≠ [] ∧
      LowestBase 4096 (twoPages 8192 (by decide))
        (findLowestBaseAddress 4096 (twoPages 8192 (by decide)).mappings) := by
  have hne : (twoPages 8192 (by decide)).mappings ≠ [] := cons_ne_nil _ _
  refine ⟨hne, (lowest_base_iff _ 4096 hne).mpr ?_⟩
  intro p hf
  obtain rfl := some.inj hf
  decide

/-- A gap of exactly the size and a gap of four gigabytes are passed over. -/
theorem lowest_base_missed :
    (findLowestBaseAddress 8192 (twoPages 8192 (by decide)).mappings = 20480 ∧
      ¬ LowestBase 8192 (twoPages 8192 (by decide)) 20480) ∧
    findLowestBaseAddress 4096 (twoPages (2 ^ 32) (by decide)).mappings = 12288 + 2 ^ 32 ∧
      ¬ LowestBase 4096 (twoPages (2 ^ 32) (by decide)) (12288 + 2 ^ 32) := by
  refine ⟨⟨by decide, ?_⟩, by decide, ?_⟩
  · intro h
    have hle := h.lowest _ mem_cons_self (by decide)
    exact absurd hle (by decide)
  · intro h
    have hle := h.lowest _ mem_cons_self (by decide)
    exact absurd hle (by decide)

end LowestBase

section Modules

def getFilename (path : Name) : Name :=
  if path.getLast? = some '/' then if path.all (· == '/') then ['/'] else ['.']
  else baseFileName path

variable (modulePath : Name) (flags : BitVec 32)

def isModule (km : KernelMapping) : Bool := km.fsname == modulePath && km.prot == flags

/-- The mapping has the permissions, and the name of its file contains that of the module's. -/
def resemblesModule (km : KernelMapping) : Bool :=
  decide (getFilename modulePath <:+: getFilename km.fsname) && km.prot == flags

/-- The loop over the mappings, which is the same in both functions. -/
def moduleStart : List KernelMapping → Nat
  | [] => 0
  | km :: rest =>
    if isModule modulePath flags km then km.start
    else if resemblesModule modulePath flags km then km.start
    else moduleStart rest

def protReadExec : BitVec 32 := 0x5

def findModuleBase (kms : List KernelMapping) : Nat := moduleStart modulePath protReadExec kms

def findModuleOffset (kms : List KernelMapping) : Nat := moduleStart modulePath flags kms

/-- The address is that of the first mapping of the module, and null when no file name contains the
module's. -/
structure LocatesModule (kms : List KernelMapping) (a : Nat) : Prop where
  found : ∀ km, kms.find? (isModule modulePath flags) = some km → a = km.start
  absent : (∀ km ∈ kms, ¬ getFilename modulePath <:+: getFilename km.fsname) → a = 0

/-- Before the first mapping of the module no mapping resembles it, unless it starts there too. -/
def NoLookalikeBefore (kms : List KernelMapping) : Prop :=
  ∀ A km B, kms = A ++ km :: B → isModule modulePath flags km = true →
    (∀ x ∈ A, isModule modulePath flags x = false) →
    ∀ x, A.find? (resemblesModule modulePath flags) = some x → x.start = km.start

variable {modulePath flags}

theorem resemblesModule_of_isModule (h : isModule modulePath flags km = true) :
    resemblesModule modulePath flags km = true := by
  rw [isModule, Bool.and_eq_true, beq_iff_eq] at h
  have hn : getFilename modulePath <:+: getFilename km.fsname := by
    rw [h.1]
  rw [resemblesModule, h.2, Bool.and_true, decide_eq_true hn]

theorem moduleStart_eq (kms : List KernelMapping) : moduleStart modulePath flags kms =
      match kms.find? (resemblesModule modulePath flags) with
      | some km => km.start
      | none => 0 := by
  induction kms with
  | nil => rfl
  | cons km rest ih =>
    rw [moduleStart, find?_cons]
    cases hm : isModule modulePath flags km with
    | true =>
      rw [if_pos rfl, resemblesModule_of_isModule hm]
    | false =>
      rw [if_neg Bool.false_ne_true]
      cases resemblesModule modulePath flags km with
      | true => rfl
      | false => exact ih

theorem moduleStart_absent (h : ∀ km ∈ kms, ¬ getFilename modulePath <:+: getFilename km.fsname) :
    moduleStart modulePath flags kms = 0 := by
  have hn : kms.find? (resemblesModule modulePath flags) = none := by
    rw [find?_eq_none]
    intro km hkm hres
    rw [resemblesModule, Bool.and_eq_true, decide_eq_true_eq] at hres
    exact h km hkm hres.1
  rw [moduleStart_eq, hn]

theorem locatesModule_iff (kms : List KernelMapping) :
    LocatesModule modulePath flags kms (moduleStart modulePath flags kms) ↔
      NoLookalikeBefore modulePath flags kms := by
  constructor
  · rintro ⟨hf, _⟩ A km B rfl hkm hA x hx
    have hfi : (A ++ km :: B).find? (isModule modulePath flags) = some km :=
      find?_eq_some_iff_append.mpr ⟨hkm, A, B, rfl, fun a ha => by rw [hA a ha]; rfl⟩
    rw [← hf km hfi, moduleStart_eq, find?_append, hx]
    rfl
  · intro h
    refine ⟨?_, moduleStart_absent⟩
    intro km hfi
    obtain ⟨hkm, A, B, rfl, hA⟩ := find?_eq_some_iff_append.mp hfi
    have hA' : ∀ x ∈ A, isModule modulePath flags x = false := fun x hx => by
      rw [← Bool.not_eq_true', hA x hx]
    rw [moduleStart_eq, find?_append, find?_cons, resemblesModule_of_isModule hkm]
    cases hx : A.find? (resemblesModule modulePath flags) with
    | some x => exact h A km B rfl hkm hA' x hx
    | none => rfl

end Modules

end Attune.Muplay
