import Attune.MemoryMapWalk
import Attune.DontFork

namespace Attune
open List OrderedMap

/-- The mappings from an iterator of `maps_starting_at` on, which looks its pointer up again. -/
def mapsFrom (mem : MemoryMap) (ptr : Nat) : MemoryMap :=
  lowerBound MemoryRange.comparator ⟨ptr, ptr⟩ mem

/-- Whether the loop stops at a mapping that ends at `last`, by the mappings behind it. -/
def stopsAt (rest : MemoryMap) (last requiredSpace : Nat) : Bool :=
  match rest with
  | [] => decide (ptrAdd last requiredSpace ≥ last)
  | next :: _ => decide (ptrAdd last requiredSpace ≤ next.1.start)

/-- The loop of `find_free_memory`; `none` where the end of the map is dereferenced. -/
def findFreeLoop (mem : MemoryMap) (requiredSpace : Nat) : Nat → Nat → Option Nat
  | 0, _ => none
  | fuel + 1, ptr =>
    match mapsFrom mem ptr with
    | [] => none
    | current :: _ =>
      let last := current.1.end_
      if stopsAt (mapsFrom mem last) last requiredSpace then some last
      else findFreeLoop mem requiredSpace fuel last

def findFreeMemory (mem : MemoryMap) (requiredSpace after : Nat) : Option Nat :=
  findFreeLoop mem requiredSpace (mem.length + 1) after

def Unmapped (mem : MemoryMap) (addr n : Nat) : Prop :=
  ∀ e ∈ mem, MemoryRange.intersects ⟨addr, addr + n⟩ e.1 = false

/-- The range of the size from the address on is free and ends in the address space. -/
structure FreeAfter (mem : MemoryMap) (requiredSpace after addr : Nat) : Prop where
  after : after ≤ addr
  noWrap : addr + requiredSpace ≤ 2 ^ 64
  unmapped : Unmapped mem addr requiredSpace

theorem intersects_eq_false {a b : MemoryRange} :
    a.intersects b = false ↔ min a.end_ b.end_ ≤ max a.start b.start := by
  rw [MemoryRange.intersects, decide_eq_false_iff_not, Nat.not_lt]

theorem comparator_empty (r : MemoryRange) (ptr : Nat) :
    MemoryRange.comparator r ⟨ptr, ptr⟩ = decide (r.start < ptr) := by
  rw [MemoryRange.comparator, intersects_eq_false.mpr (by dsimp only; omega), Bool.not_false,
    Bool.true_and]

section
variable {mem A l : MemoryMap} {e : MemoryRange × Mapping}

/-- An iterator sees the mappings that start at its pointer or later, not one that the pointer is
in. -/
theorem mapsFrom_split (h : WellFormed mem) (ptr : Nat) : ∃ A, mem = A ++ mapsFrom mem ptr ∧
    (∀ a ∈ A, a.1.start < ptr) ∧ ∀ b ∈ mapsFrom mem ptr, ptr ≤ b.1.start := by
  refine ⟨_, (below_append_lowerBound _ _ mem).symm, fun a ha => ?_, fun b hb => ?_⟩
  · have hl := mem_takeWhile_imp ha
    rw [comparator_empty] at hl
    exact of_decide_eq_true hl
  · have hnot := dropWhile_not ?_ b hb
    · rw [comparator_empty] at hnot
      exact Nat.le_of_not_lt (of_decide_eq_false hnot)
    · refine h.ordered.imp_of_mem fun ha _ hab hb => ?_
      have hne := (h.entries _ ha).nonempty
      rw [comparator_empty, decide_eq_true_eq] at hb ⊢
      simp only [pages] at hab
      omega

section

variable (h : WellFormed (A ++ e :: l))
include h

theorem mapsFrom_next : mapsFrom (A ++ e :: l) e.1.end_ = l := by
  have hne := (h.right.entries e mem_cons_self).nonempty
  have hA : ∀ a ∈ A ++ [e], MemoryRange.comparator a.1 ⟨e.1.end_, e.1.end_⟩ = true := by
    intro a ha
    rw [comparator_empty, decide_eq_true_eq]
    rcases mem_append.mp ha with ha | ha
    · have hle := h.between ha mem_cons_self
      have hna := (h.left.entries a ha).nonempty
      omega
    · rw [mem_singleton.mp ha]
      exact hne
  rw [mapsFrom, append_cons, lowerBound_append hA]
  apply lowerBound_eq
  intro b hb
  rw [comparator_empty]
  exact decide_eq_false (Nat.not_lt.mpr ((pairwise_cons.mp h.right.ordered).1 b hb))

theorem unmapped_iff : Unmapped (A ++ e :: l) e.1.end_ n ↔ ∀ b ∈ l, e.1.end_ + n ≤ b.1.start := by
  constructor
  · intro hf b hb
    have hmem : b ∈ A ++ e :: l := mem_append_right A (mem_cons_of_mem e hb)
    have hc := intersects_eq_false.mp (hf b hmem)
    have hle := (pairwise_cons.mp h.right.ordered).1 b hb
    have hne := (h.entries b hmem).nonempty
    simp only [pages] at hle
    dsimp only at hc
    omega
  · intro hr b hb
    rw [intersects_eq_false]
    dsimp only
    rcases mem_append.mp hb with ha | hb
    · have hle := h.between ha mem_cons_self
      have hne := (h.right.entries e mem_cons_self).nonempty
      omega
    · rcases mem_cons.mp hb with rfl | hb
      · omega
      · have hle := hr b hb
        omega

/-- Where a later mapping is followed by enough space, stopping at this one means that the sum has not
wrapped around. -/
theorem stopsAt_spec :
    ((∀ b ∈ l, e.1.end_ + n ≤ b.1.start) → e.1.end_ + n < 2 ^ 64 → stopsAt l e.1.end_ n = true) ∧
    (stopsAt l e.1.end_ n = true →
      (e.1.end_ + n ≤ 2 ^ 64 ∧ ∀ b ∈ l, e.1.end_ + n ≤ b.1.start) ∨
        (∃ b ∈ l, b.1.end_ + n < 2 ^ 64) →
      e.1.end_ + n < 2 ^ 64 ∧ ∀ b ∈ l, e.1.end_ + n ≤ b.1.start) := by
  have hne := (h.right.entries e mem_cons_self).nonempty
  obtain ⟨hle, hord⟩ := pairwise_cons.mp h.right.ordered
  simp only [pages] at hle hord
  cases l with
  | nil =>
    simp only [stopsAt, decide_eq_true_eq, not_mem_nil, false_and, exists_false, or_false,
      false_imp_iff, implies_true, and_true]
    rw [ptrAdd]
    omega
  | cons x l =>
    have hx := h.right.entries x (by simp)
    have hbo := hx.bound
    have hnx := hx.nonempty
    have hlex := hle x mem_cons_self
    have hl := (pairwise_cons.mp hord).1
    have he : ∀ b ∈ x :: l, e.1.end_ ≤ b.1.end_ := by
      intro b hb
      have hb' := (h.right.entries b (mem_cons_of_mem e hb)).nonempty
      have hle' := hle b hb
      omega
    have hall : (∀ b ∈ x :: l, e.1.end_ + n ≤ b.1.start) ↔ e.1.end_ + n ≤ x.1.start := by
      refine ⟨fun hb => hb x mem_cons_self, fun hb b hmem => ?_⟩
      rcases mem_cons.mp hmem with rfl | hmem
      · exact hb
      · have hle' := hl b hmem
        omega
    rw [hall]
    simp only [stopsAt, decide_eq_true_eq]
    rw [ptrAdd]
    refine ⟨by omega, fun hst hor => ?_⟩
    have hsum : e.1.end_ + n < 2 ^ 64 := by
      rcases hor with hf | ⟨b, hb, hsum⟩
      · omega
      · have hend := he b hb
        omega
    omega

end

theorem findFreeLoop_iff (h : WellFormed (A ++ l)) (hptr : mapsFrom (A ++ l) ptr = l)
    (hfu : l.length < fuel) :
    (∃ r, findFreeLoop (A ++ l) n fuel ptr = some r ∧ r + n ≤ 2 ^ 64 ∧ Unmapped (A ++ l) r n) ↔
      ∃ e ∈ l, e.1.end_ + n < 2 ^ 64 ∧ Unmapped (A ++ l) e.1.end_ n := by
  induction l generalizing A ptr fuel with
  | nil =>
    cases fuel with
    | zero => exact absurd hfu (Nat.not_lt_zero _)
    | succ fuel =>
      rw [findFreeLoop, hptr]
      simp
  | cons e l ih =>
    cases fuel with
    | zero => exact absurd hfu (Nat.not_lt_zero _)
    | succ fuel =>
      obtain ⟨hst, hsto⟩ := stopsAt_spec (n := n) h
      have hn := mapsFrom_next h
      rw [findFreeLoop, hptr]
      dsimp only
      rw [hn]
      have hh := unmapped_iff (n := n) h
      rw [append_cons] at h hn hh ⊢
      have hre := ih h hn (Nat.lt_of_succ_lt_succ hfu)
      split
      · next hs =>
        constructor
        · rintro ⟨r, hr, hle, hf⟩
          cases hr
          have hg := hsto hs (.inl ⟨hle, hh.mp hf⟩)
          exact ⟨e, mem_cons_self, hg.1, hf⟩
        · rintro ⟨b, hb, hlt, hf⟩
          have hg : e.1.end_ + n < 2 ^ 64 ∧ ∀ b ∈ l, e.1.end_ + n ≤ b.1.start := by
            rcases mem_cons.mp hb with rfl | hb
            · exact ⟨hlt, hh.mp hf⟩
            · exact hsto hs (.inr ⟨b, hb, hlt⟩)
          exact ⟨_, rfl, Nat.le_of_lt hg.1, hh.mpr hg.2⟩
      · next hs =>
        rw [hre]
        simp only [mem_cons, exists_eq_or_imp]
        refine ⟨.inr, fun hor => hor.resolve_left fun hfi => ?_⟩
        exact hs (hst (hh.mp hfi.2) hfi.1)

theorem le_findFreeLoop (h : WellFormed mem) (hr : findFreeLoop mem n fuel ptr = some r) :
    ptr ≤ r := by
  induction fuel generalizing ptr with
  | zero => cases hr
  | succ fuel ih =>
    obtain ⟨_, _, _, hf⟩ := mapsFrom_split h ptr
    rw [findFreeLoop] at hr
    split at hr
    · cases hr
    next e l hl =>
    have hmem : e ∈ mapsFrom mem ptr := by rw [hl]; exact mem_cons_self
    have hle := hf e hmem
    have hne := (h.entries e (dropWhile_sublist _ |>.subset hmem)).nonempty
    dsimp only at hr
    split at hr
    · cases hr
      omega
    · have hla := ih hr
      omega

/-- A free range is found exactly when there is enough space behind a mapping that starts at `after`
or later. -/
theorem find_free_memory_iff (mem : MemoryMap) (requiredSpace after : Nat) (h : WellFormed mem) :
    (∃ addr, findFreeMemory mem requiredSpace after = some addr ∧
        FreeAfter mem requiredSpace after addr) ↔
      ∃ e ∈ mem, after ≤ e.1.start ∧ e.1.end_ + requiredSpace < 2 ^ 64 ∧
        Unmapped mem e.1.end_ requiredSpace := by
  obtain ⟨A, hmem, hA, hfr⟩ := mapsFrom_split h after
  have hlen : (mapsFrom mem after).length < mem.length + 1 := by
    have hle : mem.length = A.length + (mapsFrom mem after).length := by
      rw [← length_append, ← hmem]
    omega
  have hl := findFreeLoop_iff (n := requiredSpace) (hmem ▸ h)
    (congrArg (mapsFrom · after) hmem.symm) hlen
  rw [← hmem] at hl
  constructor
  · rintro ⟨r, hr, hf⟩
    obtain ⟨e, he, hfi⟩ := hl.mp ⟨r, hr, hf.noWrap, hf.unmapped⟩
    exact ⟨e, dropWhile_sublist _ |>.subset he, hfr e he, hfi⟩
  · rintro ⟨e, he, hst, hfi⟩
    rw [hmem] at he
    have he := (mem_append.mp he).resolve_left fun ha => Nat.not_lt.mpr hst (hA e ha)
    obtain ⟨r, hr, hle, hf⟩ := hl.mpr ⟨e, he, hfi⟩
    exact ⟨r, hr, le_findFreeLoop h hr, hle, hf⟩

end

def mappedPages (start end_ : Nat) (flags : BitVec 32) : MemoryRange × Mapping :=
  let m : KernelMapping := ⟨⟨start, end_⟩, [], 0, 0, 3, flags, 0⟩
  (m.toMemoryRange, { map := m, recordedMap := m })

theorem wellFormed_onePage : WellFormed [mappedPages 0x10000 0x11000 mapPrivate] :=
  .singleton ⟨rfl, by decide, by decide, by decide, by decide, by decide⟩

theorem find_free_memory_iff_page : WellFormed [mappedPages 0x10000 0x11000 mapPrivate] ∧
    ((∃ addr, findFreeMemory [mappedPages 0x10000 0x11000 mapPrivate] 0x1000 0 = some addr ∧
        FreeAfter [mappedPages 0x10000 0x11000 mapPrivate] 0x1000 0 addr) ↔
      ∃ e ∈ [mappedPages 0x10000 0x11000 mapPrivate], 0 ≤ e.1.start ∧ e.1.end_ + 0x1000 < 2 ^ 64 ∧
        Unmapped [mappedPages 0x10000 0x11000 mapPrivate] e.1.end_ 0x1000) :=
  ⟨wellFormed_onePage, find_free_memory_iff _ _ _ wellFormed_onePage⟩

/-- With no mapping at the address or behind it the end of the map is dereferenced. -/
theorem find_free_memory_past_last : WellFormed [mappedPages 0x10000 0x11000 mapPrivate] ∧
    findFreeMemory [mappedPages 0x10000 0x11000 mapPrivate] 0x1000 0x20000 = none :=
  ⟨wellFormed_onePage, by decide⟩

/-- A stack counts with the size that it may grow to at least. -/
def adjustRangeForStackGrowth (km : KernelMapping) : MemoryRange :=
  if km.flags &&& mapGrowsdown ≠ 0 then ⟨min km.start (ptrSub km.end_ 0x800000), km.end_⟩
  else km.toMemoryRange

/-- The random choices of one attempt: a number or the index of a mapping to start from, and the
direction. -/
structure ChaosDraw where
  start : Nat ⊕ Nat
  up : Bool
  deriving DecidableEq

structure ChaosParams where
  mem : MemoryMap
  len : Nat
  limit : Nat
  exclusions : List MemoryRange

namespace ChaosParams

variable (c : ChaosParams)

def startAddr : Nat ⊕ Nat → Option Nat
  | .inl r => some (floorPageSize (r % c.limit))
  | .inr i => c.mem[i % c.mem.length]?.map fun e => e.1.start

/-- The loop that moves the address out of the way of mappings; `none` while it goes on. -/
def moveLoop (up : Bool) : Nat → Nat → Option Nat
  | 0, _ => none
  | fuel + 1, addr =>
    match mapsFrom c.mem addr with
    | [] => some addr
    | e :: _ =>
      let range := adjustRangeForStackGrowth e.2.map
      if range.start ≥ ptrAdd addr c.len then some addr
      else moveLoop up fuel (if up then range.end_ else ptrSub range.start c.len)

def accepts (addr : Nat) : Bool :=
  !(addr ≥ c.limit || ptrAdd addr (ceilPageSize c.len) ≥ c.limit ||
    c.exclusions.any (MemoryRange.intersects ⟨addr, ptrAdd addr (ceilPageSize c.len)⟩))

/-- `chaos_mode_find_free_memory`, with the random choices of its attempts. -/
def chaosModeFindFreeMemory (fuel : Nat) : List ChaosDraw → Option Nat
  | [] => none
  | d :: draws =>
    match c.startAddr d.start with
    | none => none
    | some start =>
      match c.moveLoop d.up fuel start with
      | none => none
      | some addr => if c.accepts addr then some addr else chaosModeFindFreeMemory fuel draws

/-- The rounded range is below the limit and free, also of what stacks may grow to. -/
structure FreeChaos (addr : Nat) : Prop where
  below : addr + ceilPageSize c.len < c.limit
  unmapped : ∀ e ∈ c.mem, MemoryRange.intersects ⟨addr, addr + ceilPageSize c.len⟩
    (adjustRangeForStackGrowth e.2.map) = false
  allowed : ∀ x ∈ c.exclusions, MemoryRange.intersects ⟨addr, addr + ceilPageSize c.len⟩ x = false

def Outside (addr : Nat) : Prop := ∀ e ∈ c.mem, ¬(e.1.start < addr ∧ addr < e.1.end_)

/-- Whole pages are asked for, and stacks keep clear of the mappings below them. -/
structure Spaced : Prop where
  wellFormed : WellFormed c.mem
  limit : c.limit ≤ 2 ^ 47
  pages : c.len % pageSize = 0
  len : c.len ≤ c.limit
  ordered : c.mem.Pairwise fun a b => a.1.end_ ≤ (adjustRangeForStackGrowth b.2.map).start

/-- A random start is not inside a mapping, and neither is what a move down leads to. -/
structure Steers (d : ChaosDraw) : Prop where
  start : ∀ r, d.start = .inl r → c.Outside (floorPageSize (r % c.limit))
  down : d.up = false → ∀ e ∈ c.mem, c.len ≤ (adjustRangeForStackGrowth e.2.map).start →
    c.Outside ((adjustRangeForStackGrowth e.2.map).start - c.len)

variable {c : ChaosParams} {e : MemoryRange × Mapping}

theorem adjustRange_spec (h : EntryOk e) : (adjustRangeForStackGrowth e.2.map).end_ = e.1.end_ ∧
    (adjustRangeForStackGrowth e.2.map).start ≤ e.1.start := by
  rw [adjustRangeForStackGrowth, h.key]
  split
  · exact ⟨rfl, Nat.min_le_left _ _⟩
  · exact ⟨rfl, Nat.le_refl _⟩

theorem outside_bounds (h : WellFormed c.mem) (he : e ∈ c.mem) :
    c.Outside e.1.start ∧ c.Outside e.1.end_ := by
  have ha : ∀ x ∈ c.mem, x.1.end_ ≤ e.1.start ∨ x = e ∨ e.1.end_ ≤ x.1.start := by
    intro x hx
    obtain ⟨A, B, hmem⟩ := append_of_mem he
    rw [hmem] at h hx
    rcases mem_append.mp hx with hA | hx
    · exact .inl (h.between hA mem_cons_self)
    · rcases mem_cons.mp hx with heq | hB
      · exact .inr (.inl heq)
      · exact .inr (.inr ((pairwise_cons.mp h.right.ordered).1 x hB))
  have hne := (h.entries e he).nonempty
  constructor
  · intro x hx hin
    rcases ha x hx with hle | rfl | hle <;> omega
  · intro x hx hin
    rcases ha x hx with hle | rfl | hle <;> omega

theorem Spaced.moved {d : ChaosDraw} (h : c.Spaced) (hd : c.Steers d) (he : e ∈ c.mem) :
    let addr := if d.up then (adjustRangeForStackGrowth e.2.map).end_
      else ptrSub (adjustRangeForStackGrowth e.2.map).start c.len
    c.Outside addr ∨ c.limit ≤ addr := by
  obtain ⟨hend, hst⟩ := adjustRange_spec (h.wellFormed.entries e he)
  have hne := (h.wellFormed.entries e he).nonempty
  have hb := (h.wellFormed.entries e he).bound
  cases hup : d.up with
  | true =>
    dsimp only
    rw [if_pos rfl, hend]
    exact .inl (outside_bounds h.wellFormed he).2
  | false =>
    dsimp only
    rw [if_neg Bool.false_ne_true]
    have hl := h.limit
    have hlen := h.len
    by_cases hf : c.len ≤ (adjustRangeForStackGrowth e.2.map).start
    · rw [ptrSub_eq hf (by omega)]
      exact .inl (hd.down hup e he hf)
    · rw [ptrSub]
      exact .inr (by omega)

theorem Spaced.moveLoop {d : ChaosDraw} (h : c.Spaced) (hd : c.Steers d)
    (hst : c.Outside start ∨ c.limit ≤ start) (hm : c.moveLoop d.up fuel start = some addr) :
    (c.Outside addr ∨ c.limit ≤ addr) ∧ (addr < c.limit → ∀ b ∈ mapsFrom c.mem addr,
      addr + c.len ≤ (adjustRangeForStackGrowth b.2.map).start) := by
  induction fuel generalizing start with
  | zero => cases hm
  | succ fuel ih =>
    obtain ⟨A, hmem, -, -⟩ := mapsFrom_split h.wellFormed start
    rw [ChaosParams.moveLoop] at hm
    split at hm
    · next hnil =>
      cases hm
      rw [hnil]
      exact ⟨hst, fun _ _ hb => nomatch hb⟩
    · next e l hl =>
      rw [hl] at hmem
      have he : e ∈ c.mem := by rw [hmem]; simp
      dsimp only at hm
      split at hm
      · next hf =>
        cases hm
        refine ⟨hst, fun hlt b hb => ?_⟩
        have hli := h.limit
        have hlen := h.len
        rw [ptrAdd_eq (by omega)] at hf
        rw [hl] at hb
        rcases mem_cons.mp hb with rfl | hb
        · exact hf
        have ho := h.ordered
        rw [hmem] at ho
        have hn := (pairwise_cons.mp (pairwise_append.mp ho).2.1).1 b hb
        have hadj := adjustRange_spec (h.wellFormed.entries e he)
        have hne := (h.wellFormed.entries e he).nonempty
        omega
      · exact ih (h.moved hd he) hm

theorem Spaced.free {d : ChaosDraw} (h : c.Spaced) (hd : c.Steers d)
    (hst : c.startAddr d.start = some start) (hm : c.moveLoop d.up fuel start = some addr)
    (hac : c.accepts addr = true) : c.FreeChaos addr := by
  have hl := h.limit
  have hlen := h.len
  have ho : c.Outside start ∨ c.limit ≤ start := by
    refine .inl ?_
    cases hs : d.start with
    | inl r =>
      rw [hs] at hst
      cases hst
      exact hd.start r hs
    | inr i =>
      rw [hs] at hst
      obtain ⟨e, he, rfl⟩ := Option.map_eq_some_iff.mp hst
      exact (outside_bounds h.wellFormed (mem_of_getElem? he)).1
  have hc : ceilPageSize c.len = c.len := ceilPageSize_aligned h.pages (by omega)
  simp only [accepts, hc, Bool.not_eq_true', Bool.or_eq_false_iff, decide_eq_false_iff_not,
    Nat.not_le, any_eq_false] at hac
  obtain ⟨⟨hbe, hsum⟩, hal⟩ := hac
  rw [ptrAdd_eq (by omega)] at hsum hal
  obtain ⟨hout, hf⟩ := h.moveLoop hd ho hm
  obtain ⟨A, hmem, hA, -⟩ := mapsFrom_split h.wellFormed addr
  refine ⟨by rw [hc]; exact hsum, fun e he => ?_, fun x hx => ?_⟩
  · have hadj := adjustRange_spec (h.wellFormed.entries e he)
    rw [hc, intersects_eq_false]
    dsimp only
    rw [hmem] at he
    rcases mem_append.mp he with ha | hb
    · have hlt := hA e ha
      have hin := hout.resolve_right (by omega) e (by rw [hmem]; exact he)
      omega
    · have hle := hf hbe e hb
      omega
  · rw [hc]
    exact Bool.eq_false_iff.mpr (hal x hx)

def onePage : ChaosParams := ⟨[mappedPages 0x10000 0x11000 mapPrivate], 0x1000, 2 ^ 47, []⟩

end ChaosParams

section AlwaysFree
open DontFork

section

variable (ranges : RangeSet)

def fromAddress (addr : Nat) : RangeSet :=
  lowerBound MemoryRange.comparator ⟨addr, ptrAdd addr 1⟩ ranges

def beforeAddress (addr : Nat) : RangeSet :=
  below MemoryRange.comparator ⟨addr, ptrAdd addr 1⟩ ranges

def splitAtAddress (addr : Nat) : RangeSet :=
  match fromAddress ranges addr with
  | [] => ranges
  | it :: rest =>
    if (it.1.start ≤ addr ∧ addr < it.1.end_) ∧ it.1.start ≠ addr then
      insert MemoryRange.comparator ⟨addr, it.1.end_⟩ ()
        (insert MemoryRange.comparator ⟨it.1.start, addr⟩ ()
          (beforeAddress ranges addr ++ rest))
    else ranges

def deleteRange (r : MemoryRange) : RangeSet :=
  let ranges := splitAtAddress (splitAtAddress ranges r.start) r.end_
  beforeAddress ranges r.start ++ fromAddress ranges r.end_

end

def addressableMin : Nat := 64 * 1024
def addressableMax : Nat := 1 <<< 47

def rrPage : MemoryRange := ⟨0x70000000, 0x70000000 + 4096⟩

def alwaysFreeAddressSpace (regions : List MemoryRange) : RangeSet :=
  deleteRange (regions.foldl deleteRange [(⟨addressableMin, addressableMax⟩, ())]) rrPage

structure PageRange (r : MemoryRange) : Prop where
  ordered : r.start ≤ r.end_
  start : r.start % pageSize = 0
  end_ : r.end_ % pageSize = 0
  bound : r.end_ < 2 ^ 64

variable {ranges : RangeSet} {regions : List MemoryRange} {addr : Nat}

theorem fromAddress_split (h : InOrder ranges) (hbo : addr + 1 < 2 ^ 64) :
    ranges = beforeAddress ranges addr ++ fromAddress ranges addr ∧
      (∀ a ∈ beforeAddress ranges addr, a.1.end_ ≤ addr) ∧
      ∀ b ∈ fromAddress ranges addr, addr < b.1.end_ := by
  have hkey : (⟨addr, ptrAdd addr 1⟩ : MemoryRange).start < ptrAdd addr 1 := by
    rw [ptrAdd_eq hbo]
    exact Nat.lt_succ_self addr
  have hall := (below_append_lowerBound MemoryRange.comparator ⟨addr, ptrAdd addr 1⟩
    ranges).symm
  refine ⟨hall, fun a ha => ?_, fun b hb => ?_⟩
  · have hmem : a ∈ ranges := takeWhile_subset _ ha
    have hl := mem_takeWhile_imp ha
    rw [comparator_eq (h.nonempty a hmem) hkey] at hl
    exact of_decide_eq_true hl
  · have hmem : b ∈ ranges := dropWhile_subset _ hb
    have hnot := dropWhile_not ?_ b hb
    · rw [comparator_eq (h.nonempty b hmem) hkey] at hnot
      exact Nat.lt_of_not_le (of_decide_eq_false hnot)
    · refine h.ordered.imp_of_mem fun {x y} hx hy hxy hl => ?_
      have hne := h.nonempty y hy
      rw [comparator_eq (h.nonempty _ ‹_›) hkey, decide_eq_true_eq] at hl ⊢
      dsimp only at hl ⊢
      omega

/-- The same addresses are covered by ranges inside the old ones, none of them over the address. -/
structure CutAt (ranges : RangeSet) (addr : Nat) (cut : RangeSet) : Prop where
  inOrder : InOrder cut
  inside : ∀ x ∈ cut, ∃ e ∈ ranges, e.1.start ≤ x.1.start ∧ x.1.end_ ≤ e.1.end_
  apart : ∀ x ∈ cut, x.1.end_ ≤ addr ∨ addr ≤ x.1.start
  covers : ∀ p, Covers cut p ↔ Covers ranges p

theorem CutAt.halves (h : InOrder (A ++ it :: B)) (hlo : it.1.start < addr)
    (hhi : addr < it.1.end_) : CutAt (A ++ it :: B) addr
      (A ++ (⟨it.1.start, addr⟩, ()) :: (⟨addr, it.1.end_⟩, ()) :: B) := by
  have hA : ∀ a ∈ A, a.1.end_ ≤ it.1.start := fun a ha => h.between ha mem_cons_self
  have hB : ∀ b ∈ B, it.1.end_ ≤ b.1.start := fun b hb => h.right.start_lt hb
  have hit : it ∈ A ++ it :: B := mem_append_right A mem_cons_self
  have hc : ∀ x ∈ A ++ (⟨it.1.start, addr⟩, ()) :: (⟨addr, it.1.end_⟩, ()) :: B,
      x ∈ A ∨ x = (⟨it.1.start, addr⟩, ()) ∨ x = (⟨addr, it.1.end_⟩, ()) ∨ x ∈ B := by
    intro x hx
    simpa only [mem_append, mem_cons] using hx
  constructor
  · constructor
    · intro x hx
      rcases hc x hx with hx | rfl | rfl | hx
      · exact h.left.nonempty x hx
      · exact hlo
      · exact hhi
      · exact h.nonempty x (mem_append_right A (mem_cons_of_mem it hx))
    · have hord := h.ordered
      simp only [pairwise_append, pairwise_cons, mem_cons, forall_eq_or_imp] at hord ⊢
      refine ⟨hord.1, ⟨⟨Nat.le_refl addr, fun b hb => ?_⟩, hord.2.1⟩, fun a ha => ?_⟩
      · exact Nat.le_trans (Nat.le_of_lt hhi) (hB b hb)
      · obtain ⟨hit, hb⟩ := hord.2.2 a ha
        exact ⟨hit, Nat.le_trans hit (Nat.le_of_lt hlo), hb⟩
  · intro x hx
    rcases hc x hx with hx | rfl | rfl | hx
    · exact ⟨x, mem_append_left _ hx, Nat.le_refl _, Nat.le_refl _⟩
    · exact ⟨it, hit, Nat.le_refl _, Nat.le_of_lt hhi⟩
    · exact ⟨it, hit, Nat.le_of_lt hlo, Nat.le_refl _⟩
    · exact ⟨x, mem_append_right A (mem_cons_of_mem it hx), Nat.le_refl _, Nat.le_refl _⟩
  · intro x hx
    rcases hc x hx with hx | rfl | rfl | hx
    · exact .inl (Nat.le_trans (hA x hx) (Nat.le_of_lt hlo))
    · exact .inl (Nat.le_refl addr)
    · exact .inr (Nat.le_refl addr)
    · exact .inr (Nat.le_trans (Nat.le_of_lt hhi) (hB x hx))
  · intro p
    simp only [Covers, mem_append, mem_cons, or_and_right, exists_or, exists_eq_left]
    have hj : (it.1.start ≤ p ∧ p < addr) ∨ (addr ≤ p ∧ p < it.1.end_) ↔
        it.1.start ≤ p ∧ p < it.1.end_ := by omega
    rw [← or_assoc (a := it.1.start ≤ p ∧ p < addr), hj]

theorem splitAtAddress_cutAt (h : InOrder ranges) (hbo : addr + 1 < 2 ^ 64) :
    CutAt ranges addr (splitAtAddress ranges addr) := by
  obtain ⟨hall, hbe, hf⟩ := fromAddress_split h hbo
  have hsel : ∀ x ∈ ranges, ∃ e ∈ ranges, e.1.start ≤ x.1.start ∧ x.1.end_ ≤ e.1.end_ :=
    fun x hx => ⟨x, hx, Nat.le_refl _, Nat.le_refl _⟩
  rw [splitAtAddress]
  generalize beforeAddress ranges addr = A at *
  cases hit : fromAddress ranges addr with
  | nil =>
    rw [hit, append_nil] at hall
    exact ⟨h, hsel, fun x hx => .inl (hbe x (hall ▸ hx)), fun _ => Iff.rfl⟩
  | cons it rest =>
    rw [hit] at hall hf
    subst hall
    have hr : ∀ b ∈ rest, it.1.end_ ≤ b.1.start := fun b hb => h.right.start_lt hb
    dsimp only
    split
    · next hin =>
      have hlo : it.1.start < addr := Nat.lt_of_le_of_ne hin.1.1 hin.2
      have hA : ∀ a ∈ A, a.1.start < a.1.end_ ∧ a.1.end_ ≤ it.1.start :=
        fun a ha => ⟨h.left.nonempty a ha, h.between ha mem_cons_self⟩
      have hB : ∀ b ∈ rest, b.1.start < b.1.end_ ∧ it.1.end_ ≤ b.1.start :=
        fun b hb => ⟨h.right.nonempty b (mem_cons_of_mem it hb), hr b hb⟩
      have hA' : ∀ a ∈ A ++ [(⟨it.1.start, addr⟩, ())], a.1.start < a.1.end_ ∧ a.1.end_ ≤ addr := by
        rw [forall_mem_append, forall_mem_singleton]
        exact ⟨fun a ha => ⟨(hA a ha).1, Nat.le_trans (hA a ha).2 (Nat.le_of_lt hlo)⟩, hlo,
          Nat.le_refl addr⟩
      have hB' : ∀ b ∈ rest, b.1.start < b.1.end_ ∧ addr ≤ b.1.start :=
        fun b hb => ⟨(hB b hb).1, Nat.le_trans (Nat.le_of_lt hin.1.2) (hB b hb).2⟩
      obtain ⟨h1, h2, h3⟩ := gap_comparator (k := ⟨it.1.start, addr⟩) hA hB' hlo
      obtain ⟨h1', h2', h3'⟩ := gap_comparator (k := ⟨addr, it.1.end_⟩) hA' hB hin.1.2
      have hse := insert_gap () h1' h2' h3'
      rw [← append_cons, ← append_cons] at hse
      rw [insert_gap () h1 h2 h3, hse]
      exact .halves h hlo hin.1.2
    · next hout =>
      refine ⟨h, hsel, fun x hx => ?_, fun _ => Iff.rfl⟩
      have hlt := hf it mem_cons_self
      rcases mem_append.mp hx with hx | hx
      · exact .inl (hbe x hx)
      · rcases mem_cons.mp hx with rfl | hx
        · omega
        · have := hr x hx
          omega

theorem deleteRange_spec (h : InOrder ranges) (hr : PageRange r) : InOrder (deleteRange ranges r) ∧
      ∀ p, Covers (deleteRange ranges r) p ↔ Covers ranges p ∧ ¬(r.start ≤ p ∧ p < r.end_) := by
  obtain ⟨hle, hst, hend, hbo⟩ := hr
  simp only [pageSize] at hst hend
  have hlow : r.start + 1 < 2 ^ 64 := by omega
  have hh : r.end_ + 1 < 2 ^ 64 := by omega
  have hf := splitAtAddress_cutAt h hlow
  have hse := splitAtAddress_cutAt hf.inOrder hh
  rw [deleteRange]
  obtain ⟨cut, hcut⟩ : ∃ cut, cut = splitAtAddress (splitAtAddress ranges r.start) r.end_ := ⟨_, rfl⟩
  rw [← hcut] at hse ⊢
  have hord := hse.inOrder
  obtain ⟨hall, hbe, hfr⟩ := fromAddress_split hord hlow
  obtain ⟨ha', hb', hf'⟩ := fromAddress_split hord hh
  have hl : ∀ b ∈ fromAddress cut r.end_, r.end_ ≤ b.1.start := by
    intro b hb
    have hmem : b ∈ cut := dropWhile_subset _ hb
    have := hse.apart b hmem
    have := hf' b hb
    omega
  constructor
  · apply InOrder.append
    · rw [hall] at hord
      exact hord.left
    · rw [ha'] at hord
      exact hord.right
    · intro a ha b hb
      exact Nat.le_trans (hbe a ha) (Nat.le_trans hle (hl b hb))
  · intro p
    rw [covers_append, ← hf.covers, ← hse.covers]
    constructor
    · rintro (⟨e, he, hin⟩ | ⟨e, he, hin⟩)
      · have := hbe e he
        exact ⟨⟨e, takeWhile_subset _ he, hin⟩, by omega⟩
      · have := hl e he
        exact ⟨⟨e, dropWhile_subset _ he, hin⟩, by omega⟩
    · rintro ⟨⟨e, he, hlo, hhi⟩, hout⟩
      obtain ⟨e₀, he₀, hlo₀, hhi₀⟩ := hse.inside e he
      have hap := hf.apart e₀ he₀
      by_cases hp : p < r.start
      · refine .inl ⟨e, ?_, hlo, hhi⟩
        rw [hall] at he
        rcases mem_append.mp he with he | he
        · exact he
        · have := hfr e he
          omega
      · refine .inr ⟨e, ?_, hlo, hhi⟩
        rw [ha'] at he
        rcases mem_append.mp he with he | he
        · have := hb' e he
          omega
        · exact he

theorem foldl_deleteRange_spec (h : InOrder ranges) (hr : ∀ r ∈ regions, PageRange r) :
    InOrder (regions.foldl deleteRange ranges) ∧
      ∀ p, Covers (regions.foldl deleteRange ranges) p ↔
        Covers ranges p ∧ ∀ r ∈ regions, ¬(r.start ≤ p ∧ p < r.end_) := by
  induction regions generalizing ranges with
  | nil => exact ⟨h, fun p => (and_iff_left nofun).symm⟩
  | cons r regions ih =>
    obtain ⟨hord, hc⟩ := deleteRange_spec h (hr r mem_cons_self)
    obtain ⟨ho', hc'⟩ := ih hord fun r' hr' => hr r' (mem_cons_of_mem r hr')
    refine ⟨ho', fun p => ?_⟩
    rw [foldl_cons, hc', hc, forall_mem_cons, and_assoc]

theorem always_free_exact (regions : List MemoryRange) (h : ∀ r ∈ regions, PageRange r) :
    InOrder (alwaysFreeAddressSpace regions) ∧
    ∀ p, Covers (alwaysFreeAddressSpace regions) p ↔
      (addressableMin ≤ p ∧ p < addressableMax) ∧
        (∀ r ∈ regions, ¬(r.start ≤ p ∧ p < r.end_)) ∧ ¬(rrPage.start ≤ p ∧ p < rrPage.end_) := by
  have hall : InOrder [(⟨addressableMin, addressableMax⟩, ())] := .singleton (by decide)
  obtain ⟨hord, hc⟩ := foldl_deleteRange_spec hall h
  have hp : PageRange rrPage := ⟨by decide, by decide, by decide, by decide⟩
  obtain ⟨ho', hc'⟩ := deleteRange_spec hord hp
  refine ⟨ho', fun p => ?_⟩
  rw [alwaysFreeAddressSpace, hc', hc, and_assoc]
  simp only [Covers, mem_singleton, exists_eq_left]

theorem always_free_exact_overlapping :
    InOrder (alwaysFreeAddressSpace [⟨0x10000, 0x30000⟩, ⟨0x20000, 0x40000⟩]) :=
  (always_free_exact _ (by
    intro r hr
    rcases mem_pair.mp hr with rfl | rfl
    · exact ⟨by decide, by decide, by decide, by decide⟩
    · exact ⟨by decide, by decide, by decide, by decide⟩)).1

end AlwaysFree

end Attune
