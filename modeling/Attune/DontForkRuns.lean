import Attune.DontFork
import Attune.AddressSpaceFrames
import Attune.AddressSpaceClone
import Attune.PageTableRefinement

namespace Attune.DontFork
open Segments Bool OrderedMap MemoryRange

inductive Call where
  | dontFork (addr numBytes : Nat)
  | doFork (addr numBytes : Nat)
  | map (addr numBytes : Nat) (args : AddressSpace.MapArgs)
  | unmap (addr numBytes : Nat)
  deriving DecidableEq

namespace Call

def addr : Call → Nat
  | dontFork addr _ | doFork addr _ | map addr _ _ | unmap addr _ => addr

def numBytes : Call → Nat
  | dontFork _ n | doFork _ n | map _ n _ | unmap _ n => n

def toMapCall : Call → MapCall
  | dontFork addr n => .madvise addr n madvDontfork
  | doFork addr n => .madvise addr n madvDofork
  | map addr n args => .map addr n args
  | unmap addr n => .unmap addr n

def marks : Call → Bool
  | dontFork .. => true
  | _ => false

def range (c : Call) : MemoryRange := ⟨c.addr, ptrAdd c.addr (ceilPageSize c.numBytes)⟩

def mark (c : Call) (marked : Nat → Bool) (n : Nat) : Bool :=
  if c.addr / pageSize ≤ n ∧ n < c.addr / pageSize + PageTable.pageCount c.numBytes then c.marks
  else marked n

def edit (c : Call) (ranges : RangeSet) : RangeSet :=
  match c with
  | dontFork .. => addRange ranges c.range
  | doFork .. => removeRange ranges c.range
  | map .. | unmap .. => if ceilPageSize c.numBytes = 0 then ranges else removeRange ranges c.range

end Call

variable {s s' : AddressSpace} {marked : Nat → Bool} {c : Call}

theorem call_dontFork (h : s.call c.toMapCall = some s') : s'.dontFork = c.edit s.dontFork := by
  cases c with
  | dontFork addr n | doFork addr n =>
    cases h
    rfl
  | map addr n args => exact AddressSpace.map_dontFork h
  | unmap addr n => exact AddressSpace.unmap_dontFork h

/-- The ranges stand for the marked pages, and a forked child is left without these pages. -/
structure Tracks (s : AddressSpace) (marked : Nat → Bool) : Prop where
  nonempty : ∀ e ∈ s.dontFork, e.1.start < e.1.end_
  disjoint : s.dontFork.Pairwise fun a b => a.1.end_ ≤ b.1.start
  marks : ∀ n, marked n = true ↔ Covers s.dontFork (n * pageSize)
  forked : ∀ child : AddressSpace, WellFormed child.mem →
    ∃ child', s.didForkInto child = some child' ∧ ∀ n, pages.view child'.mem (n * pageSize) =
      if marked n then none else pages.view child.mem (n * pageSize)

theorem Tracks.inOrder (h : Tracks s marked) : InOrder s.dontFork := ⟨h.nonempty, h.disjoint⟩

def PagesOnly (ranges : RangeSet) : Prop :=
  ∀ e ∈ ranges, e.1.start % pageSize = 0 ∧ e.1.end_ % pageSize = 0 ∧ e.1.end_ < 2 ^ 64

section Fork

theorem didForkInto_spec {ranges : RangeSet} (h : InOrder ranges) (hp : PagesOnly ranges)
    {child : AddressSpace} (hwf : WellFormed child.mem) :
    ∃ child', ranges.foldlM (fun child r => child.unmap r.1.start r.1.size) child = some child' ∧
      ∀ p, (Covers ranges p → pages.view child'.mem p = none) ∧
        (¬Covers ranges p → pages.view child'.mem p = pages.view child.mem p) := by
  induction ranges generalizing child with
  | nil => exact ⟨child, rfl, fun p => ⟨fun ⟨e, he, _⟩ => absurd he List.not_mem_nil, fun _ => rfl⟩⟩
  | cons e ranges ih =>
    obtain ⟨hst, hend, hb⟩ := hp e List.mem_cons_self
    have hne := h.nonempty e List.mem_cons_self
    have hsi : e.1.size = e.1.end_ - e.1.start := ptrSub_eq (Nat.le_of_lt hne) hb
    have hmod : e.1.size % pageSize = 0 := by
      rw [hsi]
      simp only [pageSize] at *
      omega
    have hce : ceilPageSize e.1.size = e.1.size :=
      ceilPageSize_aligned hmod (by rw [hsi]; omega)
    have hsum : e.1.start + e.1.size = e.1.end_ := by omega
    let child₀ : AddressSpace := { child with
      dontFork := removeRange child.dontFork ⟨e.1.start, ptrAdd e.1.start e.1.size⟩ }
    have hk : Keeps False child.brkEnd child₀ := ⟨rfl, False.elim⟩
    obtain ⟨child₁, hu, hwf₁, _, hv⟩ :=
      AddressSpace.unmapInternal_spec (s := child₀) hwf hk hst hmod (by omega)
    obtain ⟨child', hre, hc⟩ := ih (InOrder.right (A := [e]) h)
      (fun x hx => hp x (List.mem_cons_of_mem e hx)) hwf₁
    have hca : child.unmap e.1.start e.1.size = some child₁ := by
      rw [AddressSpace.unmap, hce, if_neg (by omega)]
      exact hu
    refine ⟨child', ?_, fun p => ?_⟩
    · rw [List.foldlM_cons, hca]
      exact hre
    · rw [hsum] at hv
      have hco : Covers (e :: ranges) p ↔ (e.1.start ≤ p ∧ p < e.1.end_) ∨ Covers ranges p := by
        rw [← List.singleton_append, covers_append]
        simp [Covers]
      rw [hco]
      obtain ⟨hin, hout⟩ := hc p
      constructor
      · rintro (he | hr)
        · by_cases hr : Covers ranges p
          · exact hin hr
          · rw [hout hr, hv p, if_pos he]
        · exact hin hr
      · intro hno
        obtain ⟨he, hr⟩ := not_or.mp hno
        rw [hout hr, hv p, if_neg he]

theorem tracks_of (h : InOrder s.dontFork) (hp : PagesOnly s.dontFork)
    (hm : ∀ n, marked n = true ↔ Covers s.dontFork (n * pageSize)) : Tracks s marked where
  nonempty := h.nonempty
  disjoint := h.ordered
  marks := hm
  forked child hwf := by
    obtain ⟨child', hf, hv⟩ := didForkInto_spec h hp hwf
    refine ⟨child', hf, fun n => ?_⟩
    obtain ⟨hin, hout⟩ := hv (n * pageSize)
    split
    · next hn =>
      exact hin ((hm n).mp hn)
    · next hn =>
      exact hout fun hc => hn ((hm n).mpr hc)

end Fork

section Step

variable {ranges : RangeSet}

/-- A call that misses no range it overlaps, and marks no empty range. -/
def CleanCall (ranges : RangeSet) (c : Call) : Prop :=
  (c.marks = true → ceilPageSize c.numBytes ≠ 0) ∧
    (ceilPageSize c.numBytes ≠ 0 → Clean ranges c.range)

instance : Decidable (Clean ranges range) := inferInstanceAs (Decidable (∀ e ∈ ranges, _ → _))

instance : Decidable (CleanCall ranges c) := inferInstanceAs (Decidable (_ ∧ _))

theorem range_eq (hfit : FitsRange c.addr c.numBytes) :
    c.range = ⟨c.addr, c.addr + ceilPageSize c.numBytes⟩ := by
  rw [Call.range, ptrAdd_eq (PageTable.FitsRange.ceil hfit).2.2.2]

theorem page_in_range (hfit : FitsRange c.addr c.numBytes) :
    c.addr / pageSize ≤ n ∧ n < c.addr / pageSize + PageTable.pageCount c.numBytes ↔
      c.range.start ≤ n * pageSize ∧ n * pageSize < c.range.end_ := by
  obtain ⟨ha, _, hc, _⟩ := PageTable.FitsRange.ceil hfit
  rw [range_eq hfit, hc]
  exact (PageTable.page_mem_iff ha).symm

theorem mark_eq (marked : Nat → Bool) (hfit : FitsRange c.addr c.numBytes) (n : Nat) :
    c.mark marked n = if c.range.start ≤ n * pageSize ∧ n * pageSize < c.range.end_ then c.marks
      else marked n := by
  rw [Call.mark]
  simp only [page_in_range hfit]

theorem range_pages (hfit : FitsRange c.addr c.numBytes) :
    c.range.start % pageSize = 0 ∧ c.range.end_ % pageSize = 0 ∧ c.range.end_ < 2 ^ 64 := by
  obtain ⟨ha, _, hc, hb⟩ := PageTable.FitsRange.ceil hfit
  rw [range_eq hfit]
  refine ⟨ha, ?_, hb⟩
  dsimp only
  rw [hc, Nat.add_mul_mod_self_right]
  exact ha

theorem range_nonempty (hfit : FitsRange c.addr c.numBytes) (hn : ceilPageSize c.numBytes ≠ 0) :
    c.range.start < c.range.end_ := by
  rw [range_eq hfit]
  dsimp only
  omega

theorem removeRange_empty (h : InOrder ranges) (hr : range.start = range.end_) :
    removeRange ranges range = ranges := by
  have hhit : ((lowerBound less range ranges).takeWhile fun e =>
      decide (e.1.start < range.end_)) = [] := by
    cases hl : lowerBound less range ranges with
    | nil => rfl
    | cons e rest =>
      have hle := (not_less_eq _ _).mp (lowerBound_not_less h range e
        (by rw [hl]; exact List.mem_cons_self))
      rw [List.takeWhile_cons, if_neg]
      rw [decide_eq_true_eq]
      omega
  rw [removeRange]
  dsimp only
  rw [hhit]
  rfl

theorem PagesOnly.rest (h : PagesOnly ranges) (hsp : Split ranges range A H T)
    (hr : range.end_ % pageSize = 0) : PagesOnly A ∧ PagesOnly (upperRest H range ++ T) := by
  have hmem : ∀ e, e ∈ A ∨ e ∈ H ∨ e ∈ T →
      e.1.start % pageSize = 0 ∧ e.1.end_ % pageSize = 0 ∧ e.1.end_ < 2 ^ 64 := by
    intro e he
    apply h e
    rw [hsp.eq]
    simpa using he
  refine ⟨fun e he => hmem e (Or.inl he), fun x hx => ?_⟩
  rcases List.mem_append.mp hx with hx | hx
  · obtain ⟨e, he, _, rfl⟩ := mem_upperRest hx
    exact ⟨hr, (hmem e (Or.inr (Or.inl (List.mem_of_getLast? he)))).2⟩
  · exact hmem x (Or.inr (Or.inr hx))

theorem PagesOnly.append (hA : PagesOnly A) (hB : PagesOnly B) : PagesOnly (A ++ B) :=
  List.forall_mem_append.mpr ⟨hA, hB⟩

theorem PagesOnly.removeRange (h : PagesOnly ranges) (ho : InOrder ranges)
    (hr : range.start < range.end_) (hra : range.end_ % pageSize = 0) :
    PagesOnly (removeRange ranges range) := by
  obtain ⟨A, H, T, hsp, heq⟩ := removeRange_spec ho hr
  obtain ⟨hA, hre⟩ := h.rest hsp hra
  rw [heq]
  exact hA.append hre

theorem PagesOnly.addRange (h : PagesOnly ranges) (ho : InOrder ranges)
    (hr : range.start < range.end_)
    (hra : range.start % pageSize = 0 ∧ range.end_ % pageSize = 0 ∧ range.end_ < 2 ^ 64) :
    PagesOnly (addRange ranges range) := by
  obtain ⟨A, H, T, hsp, -, heq⟩ := addRange_spec ho hr
  obtain ⟨hA, hre⟩ := h.rest hsp hra.2.1
  rw [heq]
  refine hA.append (.append ?_ hre)
  intro e he
  rw [List.mem_singleton.mp he]
  exact hra

theorem edit_marks (hm : c.marks = true) : c.edit ranges = addRange ranges c.range := by
  cases c with
  | dontFork addr n => rfl
  | _ => cases hm

theorem edit_unmarks (hm : c.marks = false) (hn : ceilPageSize c.numBytes ≠ 0) :
    c.edit ranges = removeRange ranges c.range := by
  cases c with
  | dontFork addr n => cases hm
  | doFork addr n => rfl
  | map addr n args | unmap addr n => exact if_neg hn

section

variable (h : InOrder ranges)
include h

theorem edit_nothing (hfit : FitsRange c.addr c.numBytes)
    (hm : c.marks = false) (hn : ceilPageSize c.numBytes = 0) : c.edit ranges = ranges := by
  cases c with
  | dontFork addr n => cases hm
  | doFork addr n =>
    apply removeRange_empty h
    rw [range_eq hfit, hn, Nat.add_zero]
  | map addr n args | unmap addr n => exact if_pos hn

theorem edit_clean (hp : PagesOnly ranges)
    (hma : ∀ n, marked n = true ↔ Covers ranges (n * pageSize))
    (hfit : FitsRange c.addr c.numBytes) (hc : CleanCall ranges c) :
    InOrder (c.edit ranges) ∧ PagesOnly (c.edit ranges) ∧
      ∀ n, c.mark marked n = true ↔ Covers (c.edit ranges) (n * pageSize) := by
  have hra := range_pages hfit
  have hmar := mark_eq marked hfit
  by_cases hn : ceilPageSize c.numBytes = 0
  · have hm : c.marks = false := by
      rw [← not_eq_true]
      exact fun hm => hc.1 hm hn
    rw [edit_nothing h hfit hm hn]
    refine ⟨h, hp, fun n => ?_⟩
    rw [hmar n, if_neg, hma n]
    rw [range_eq hfit, hn]
    dsimp only
    omega
  · have hr := range_nonempty hfit hn
    cases hm : c.marks with
    | true =>
      obtain ⟨ho, hco⟩ := addRange_clean h hr (hc.2 hn)
      rw [edit_marks hm]
      refine ⟨ho, hp.addRange h hr hra, fun n => ?_⟩
      rw [hmar n, hm, hco, ← hma n]
      split
      · next hin => simp [hin]
      · next hout => simp [hout]
    | false =>
      obtain ⟨ho, hco⟩ := removeRange_clean h hr (hc.2 hn)
      rw [edit_unmarks hm hn]
      refine ⟨ho, hp.removeRange h hr hra.2.1, fun n => ?_⟩
      rw [hmar n, hm, hco, ← hma n]
      split
      · next hin => simp [hin]
      · next hout => simp [hout]

theorem exists_mem_insert (k : MemoryRange) :
    ∃ x ∈ insert less k () ranges, x.1 = k := by
  rw [OrderedMap.insert]
  split
  · next e hf =>
    rw [find] at hf
    cases hl : lowerBound less k ranges with
    | nil =>
      rw [hl] at hf
      cases hf
    | cons e' rest =>
      rw [hl] at hf
      dsimp only at hf
      split at hf
      · cases hf
      next hle =>
      cases hf
      have he : e ∈ lowerBound less k ranges := by
        rw [hl]
        exact List.mem_cons_self
      have h1 := (not_less_eq _ _).mp (lowerBound_not_less h k e he)
      have h2 := (not_less_eq _ _).mp (eq_false_iff.mpr hle)
      refine ⟨e, mem_of_mem_lowerBound he, ?_⟩
      obtain ⟨⟨start, end_⟩, _⟩ := e
      rw [mk.injEq]
      dsimp only at h1 h2
      omega
  · exact ⟨(k, ()), by simp, rfl⟩

theorem edit_empty (hfit : FitsRange c.addr c.numBytes) (hm : c.marks = true)
    (hn : ceilPageSize c.numBytes = 0) : ¬InOrder (c.edit ranges) := by
  have he : c.range.start = c.range.end_ := by
    rw [range_eq hfit, hn, Nat.add_zero]
  rw [edit_marks hm, addRange, removeRange_empty h he]
  intro hnew
  obtain ⟨x, hx, heq⟩ := exists_mem_insert h c.range
  have := hnew.nonempty x hx
  rw [heq] at this
  omega

end

theorem edit_missed (marked : Nat → Bool) (h : InOrder ranges) (hp : PagesOnly ranges)
    (hfit : FitsRange c.addr c.numBytes) (hn : ceilPageSize c.numBytes ≠ 0)
    (hu : ¬Clean ranges c.range) :
    ¬(InOrder (c.edit ranges) ∧
      ∀ n, c.mark marked n = true ↔ Covers (c.edit ranges) (n * pageSize)) := by
  rintro ⟨hnew, hc⟩
  have hr := range_nonempty hfit hn
  apply hu
  intro e he hl
  rw [← not_eq_true]
  intro hin
  simp only [intersects, decide_eq_true_eq] at hin
  cases hm : c.marks with
  | true =>
    obtain ⟨A, H, T, hsp, -, heq⟩ := addRange_spec h hr
    rw [edit_marks hm, heq] at hnew
    have hle : e.1.end_ ≤ c.range.start :=
      hnew.between (hsp.mem_below hr he hl) List.mem_cons_self
    omega
  | false =>
    obtain ⟨A, H, T, hsp, heq⟩ := removeRange_spec h hr
    rw [edit_unmarks hm hn, heq] at hc
    have hsta := List.mem_append_left (upperRest H c.range ++ T) (hsp.mem_below hr he hl)
    -- the first common address is that of a page
    obtain ⟨hst, _, _⟩ := hp e he
    obtain ⟨hs', _, _⟩ := range_pages hfit
    have ha : max e.1.start c.range.start % pageSize = 0 := by
      simp only [pageSize] at *
      omega
    have hpa := PageTable.div_mul_page ha
    have hma := (hc (max e.1.start c.range.start / pageSize)).mpr
      ⟨e, hsta, by omega, by omega⟩
    rw [mark_eq marked hfit, hpa, if_pos (by omega), hm] at hma
    cases hma

end Step

section Runs

def TracksRun : List Call → AddressSpace → (Nat → Bool) → Prop
  | [], s, marked => Tracks s marked
  | c :: calls, s, marked => Tracks s marked ∧
    match s.call c.toMapCall with
    | none => True
    | some s' => TracksRun calls s' (c.mark marked)

def CleanRun : List Call → AddressSpace → Prop
  | [], _ => True
  | c :: calls, s =>
    match s.call c.toMapCall with
    | none => True
    | some s' => CleanCall s.dontFork c ∧ CleanRun calls s'

theorem step_iff (ht : Tracks s marked) (hp : PagesOnly s.dontFork)
    (hfit : FitsRange c.addr c.numBytes) (hca : s.call c.toMapCall = some s') :
    (Tracks s' (c.mark marked) ↔ CleanCall s.dontFork c) ∧
      (CleanCall s.dontFork c → PagesOnly s'.dontFork) := by
  have he := call_dontFork hca
  have hc : CleanCall s.dontFork c → Tracks s' (c.mark marked) ∧ PagesOnly s'.dontFork := by
    intro hc
    obtain ⟨ho, hp', hco⟩ := edit_clean ht.inOrder hp ht.marks hfit hc
    rw [← he] at ho hp' hco
    exact ⟨tracks_of ho hp' hco, hp'⟩
  refine ⟨⟨fun ht' => ⟨fun hm hn => ?_, fun hn => ?_⟩, fun h => (hc h).1⟩, fun h => (hc h).2⟩
  · apply edit_empty ht.inOrder hfit hm hn
    rw [← he]
    exact ht'.inOrder
  · by_contra hunclean
    apply edit_missed marked ht.inOrder hp hfit hn hunclean
    rw [← he]
    exact ⟨ht'.inOrder, ht'.marks⟩

/-- Over a whole run, the ranges stand for the marked pages exactly when every call is clean. -/
theorem run_iff (ht : Tracks s marked) (hp : PagesOnly s.dontFork) {calls : List Call}
    (hfit : ∀ c ∈ calls, FitsRange c.addr c.numBytes) :
    TracksRun calls s marked ↔ CleanRun calls s := by
  induction calls generalizing s marked with
  | nil => exact ⟨fun _ => trivial, fun _ => ht⟩
  | cons c calls ih =>
    rw [TracksRun, CleanRun]
    cases hca : s.call c.toMapCall with
    | none => exact ⟨fun _ => trivial, fun _ => ⟨ht, trivial⟩⟩
    | some s' =>
      obtain ⟨hiff, hk⟩ := step_iff ht hp (hfit c List.mem_cons_self) hca
      have hf' := fun c hc => hfit c (List.mem_cons_of_mem _ hc)
      constructor
      · rintro ⟨_, hrun⟩
        have ht' : Tracks s' (c.mark marked) := by
          cases calls with
          | nil => exact hrun
          | cons => exact hrun.1
        have hcl := hiff.mp ht'
        exact ⟨hcl, (ih ht' (hk hcl) hf').mp hrun⟩
      · rintro ⟨hcl, hrun⟩
        exact ⟨ht, (ih (hiff.mpr hcl) (hk hcl) hf').mpr hrun⟩

theorem dont_fork_tracks_iff (calls : List Call) (hfit : ∀ c ∈ calls, FitsRange c.addr c.numBytes) :
    TracksRun calls {} (fun _ => false) ↔ CleanRun calls {} := by
  apply run_iff _ _ hfit
  · exact tracks_of .nil (fun _ he => absurd he List.not_mem_nil) (by simp [Covers])
  · exact fun _ he => absurd he List.not_mem_nil

instance decidableCleanRun : (calls : List Call) → (s : AddressSpace) → Decidable (CleanRun calls s)
  | [], _ => .isTrue trivial
  | c :: calls, s =>
    match h : s.call c.toMapCall with
    | none => decidable_of_iff True (by rw [CleanRun, h])
    | some s' =>
      have := decidableCleanRun calls s'
      decidable_of_iff (CleanCall s.dontFork c ∧ CleanRun calls s') (by rw [CleanRun, h])

/-- A removal that begins before the marked range. -/
theorem dont_fork_tracks_iff_lower :
    TracksRun [.dontFork 0x10000 0x3000, .unmap 0xf000 0x3000, .doFork 0x12000 0x800] {}
      (fun _ => false) :=
  (dont_fork_tracks_iff _ (by decide)).mpr (by decide +kernel)

/-- A removal from the middle of the marked range has no effect. -/
theorem marked_page_kept :
    ((({} : AddressSpace).call (Call.dontFork 0x10000 0x3000).toMapCall).bind fun s =>
      s.call (Call.doFork 0x11000 0x1000).toMapCall).map (fun s => s.dontFork.map Prod.fst) =
      some [⟨0x10000, 0x13000⟩] ∧
    (Call.doFork 0x11000 0x1000).mark ((Call.dontFork 0x10000 0x3000).mark fun _ => false) 0x11 =
      false := by
  decide

end Runs

end Attune.DontFork
