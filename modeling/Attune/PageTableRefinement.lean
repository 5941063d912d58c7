import Attune.PageTable

namespace Attune
open Segments Option PageTable

namespace AddressSpace

variable {s : AddressSpace} {v : Nat → Option PageAttr} {e : MemoryRange × Mapping}

theorem attrAt_moved {m : KernelMapping} (hf : m.flags &&& mapFlagsMask = m.flags)
    (hlo : m.start ≤ oldAddr) (hb : oldAddr < 2 ^ 64) (hp : newAddr ≤ p) :
    ((m.subrange oldAddr oldEnd).setRange newAddr newEnd).attrAt p =
      m.attrAt (oldAddr + (p - newAddr)) := by
  have hsub : ptrSub oldAddr m.start = oldAddr - m.start := ptrSub_eq hlo hb
  simp only [KernelMapping.attrAt, KernelMapping.setRange, KernelMapping.subrange,
    KernelMapping.new, KernelMapping.isRealDevice, hf, hsub]
  by_cases hr : 0 < m.device
  · have hoff : ((m.offset + (oldAddr - m.start)) % 2 ^ 64 % 2 ^ 64 + (p - newAddr)) % 2 ^ 64 =
        (m.offset + (oldAddr + (p - newAddr) - m.start)) % 2 ^ 64 := by omega
    simp only [hr, decide_true, ↓reduceIte, hoff]
  · simp only [hr, decide_false, Bool.false_eq_true, ↓reduceIte]

theorem remap_good (h : Good noResources b v s) (hold : oldAddr % pageSize = 0)
    (hol : oldN + pageSize ≤ 2 ^ 64) (hnew : newAddr % pageSize = 0)
    (hnewN : newN + pageSize ≤ 2 ^ 64) (hn : newAddr + ceilPageSize newN < 2 ^ 64)
    (he : e ∈ s.mem) (hlo : e.1.start ≤ oldAddr) (hhi : oldAddr < e.1.end_)
    (hend : oldAddr + ceilPageSize oldN ≤ e.1.end_) :
    Outcome noResources b (fun p =>
      if newAddr ≤ p ∧ p < newAddr + ceilPageSize newN then
        some (e.2.map.attrAt (oldAddr + (p - newAddr)))
      else if oldAddr ≤ p ∧ p < oldAddr + ceilPageSize oldN then none
      else v p) (s.remap oldAddr oldN newAddr newN) := by
  have hok := h.wellFormed.entries e he
  have hb := hok.bound
  have ho : oldAddr + ceilPageSize oldN < 2 ^ 64 := by omega
  have hkey : e.2.map.start = e.1.start := by rw [hok.key]
  simp only [remap, mappingOf_eq h.wellFormed hold he hlo hhi, bind_eq_bind,
    bind_some, ptrAdd_eq ho, ptrAdd_eq hn]
  apply (unmapInternal_good h hold (ceilPageSize_spec hol).1 ho).bind
  intro s1 h1
  split
  · next hz =>
    apply Good.outcome
    refine ⟨h1.wellFormed, h1.keeps, ?_⟩
    intro p
    have hc : ceilPageSize newN = 0 := by rw [hz]; rfl
    rw [h1.view p, hc, if_neg (by omega : ¬ (newAddr ≤ p ∧ p < newAddr + 0))]
  next hne =>
  obtain ⟨ha, hle, _⟩ := ceilPageSize_spec hnewN
  have hnewEnd : (newAddr + ceilPageSize newN) % pageSize = 0 := by
    simp only [pageSize] at *
    omega
  have h1' : Good noResources b
      (fun p => if oldAddr ≤ p ∧ p < oldAddr + ceilPageSize oldN then none else v p)
      { s1 with dontFork := remapDontFork s1.dontFork ⟨oldAddr, oldAddr + ceilPageSize oldN⟩
                  ⟨newAddr, newAddr + ceilPageSize newN⟩ } := h1.congr rfl rfl
  apply (unmapInternal_good h1' hnew ha hn).bind
  intro s2 h2
  refine (mapAndCoalesce_good h2 ⟨rfl, ?_, hnew, hnewEnd, hn, KernelMapping.mask_idem _⟩
    (fun p hp => if_pos hp) ?_).view_congr ?_
  · show newAddr < newAddr + ceilPageSize newN
    omega
  · intro hno
    exact ⟨(h.keeps.plain hno e he).emuFile, rfl, rfl⟩
  · intro p
    show (if newAddr ≤ p ∧ p < newAddr + ceilPageSize newN then _ else _) =
      if newAddr ≤ p ∧ p < newAddr + ceilPageSize newN then
        some (e.2.map.attrAt (oldAddr + (p - newAddr))) else _
    split
    · next hp => exact congrArg some (attrAt_moved hok.tracked (hkey ▸ hlo) (by omega) hp.1)
    · rfl

theorem setBrk_good (h : Good noResources b v s) :
    Outcome noResources addr v (some { s with brkEnd := addr }) :=
  Good.outcome ⟨h.wellFormed, ⟨rfl, h.keeps.plain⟩, h.view⟩

theorem brk_good (h : Good noResources b v s) (hb : b + pageSize ≤ 2 ^ 64)
    (haddr : addr + pageSize ≤ 2 ^ 64) :
    Outcome noResources addr (fun p =>
      if ceilPageSize b ≤ p ∧ p < ceilPageSize addr then
        some ((heapArgs prot).attr (p - ceilPageSize b))
      else if ceilPageSize addr ≤ p ∧ p < ceilPageSize b then none
      else v p) (s.brk addr prot) := by
  obtain ⟨hbA, hbLe, hbLt⟩ := ceilPageSize_spec hb
  obtain ⟨ha, haLe, haLt⟩ := ceilPageSize_spec haddr
  have hbT := ceilPageSize_top hb
  have haT := ceilPageSize_top haddr
  simp only [brk, h.keeps.brkEnd]
  by_cases hg : ceilPageSize b < ceilPageSize addr
  · have hsiz : ptrSub (ceilPageSize addr) (ceilPageSize b) =
        ceilPageSize addr - ceilPageSize b := ptrSub_eq (Nat.le_of_lt hg) (by omega)
    have hsi : (ceilPageSize addr - ceilPageSize b) % pageSize = 0 := by
      simp only [pageSize] at *
      omega
    have hc : ceilPageSize (ceilPageSize addr - ceilPageSize b) =
        ceilPageSize addr - ceilPageSize b := ceilPageSize_aligned hsi (by omega)
    rw [if_pos hg, hsiz]
    apply ((map_good (a := heapArgs prot) (n := ceilPageSize addr - ceilPageSize b) h hbA
      (by omega) (by rw [hc]; omega) fun _ => ⟨rfl, rfl, rfl⟩).view_congr ?_).bind
        fun _ => setBrk_good
    intro p
    rw [hc, Nat.add_sub_cancel' (Nat.le_of_lt hg)]
    split
    · rfl
    · rw [if_neg (by omega)]
  · have hle := Nat.le_of_not_lt hg
    have hsiz : ptrSub (ceilPageSize b) (ceilPageSize addr) =
        ceilPageSize b - ceilPageSize addr := ptrSub_eq hle (by omega)
    have hsi : (ceilPageSize b - ceilPageSize addr) % pageSize = 0 := by
      simp only [pageSize] at *
      omega
    have hc : ceilPageSize (ceilPageSize b - ceilPageSize addr) =
        ceilPageSize b - ceilPageSize addr := ceilPageSize_aligned hsi (by omega)
    rw [if_neg hg, hsiz]
    apply ((unmap_good (n := ceilPageSize b - ceilPageSize addr) h ha (by omega)
      (by rw [hc]; omega)).view_congr ?_).bind fun _ => setBrk_good
    intro p
    rw [hc, Nat.add_sub_cancel' hle, if_neg (by omega : ¬ (ceilPageSize b ≤ p ∧
      p < ceilPageSize addr))]

end AddressSpace

namespace PageTable

variable {v t f g : Nat → Option PageAttr}

theorem FitsRange.ceil (h : FitsRange addr n) :
    addr % pageSize = 0 ∧ n + pageSize ≤ 2 ^ 64 ∧ ceilPageSize n = pageCount n * pageSize ∧
      addr + ceilPageSize n < 2 ^ 64 := by
  obtain ⟨ha, hb⟩ := h
  simp only [ceilPageSize, floorPageSize, pageCount, pageSize] at *
  omega

theorem FitsRange.region (h : FitsRange addr n) : addr + n + pageSize ≤ 2 ^ 64 ∧
    ceilPageSize (addr + n) = addr + pageCount n * pageSize := by
  obtain ⟨ha, hb⟩ := h
  simp only [ceilPageSize, floorPageSize, pageCount, pageSize] at *
  omega

theorem ceilPageSize_eq (h : a + pageSize ≤ 2 ^ 64) : ceilPageSize a = pageCount a * pageSize := by
  simp only [ceilPageSize, floorPageSize, pageCount, pageSize] at *
  omega

theorem div_mul_page (h : a % pageSize = 0) : a / pageSize * pageSize = a := by
  simp only [pageSize] at *
  omega

theorem le_page_iff (h : a % pageSize = 0) : a ≤ n * pageSize ↔ a / pageSize ≤ n := by
  simp only [pageSize] at *
  omega

theorem page_mem_iff (haddr : addr % pageSize = 0) :
    addr ≤ n * pageSize ∧ n * pageSize < addr + count * pageSize ↔
      addr / pageSize ≤ n ∧ n < addr / pageSize + count := by
  simp only [pageSize] at *
  omega

theorem page_distance (haddr : addr % pageSize = 0) (h : addr / pageSize ≤ n) :
    n * pageSize - addr = (n - addr / pageSize) * pageSize := by
  simp only [pageSize] at *
  omega

variable (hv : ∀ n, v (n * pageSize) = t n) (haddr : addr % pageSize = 0)
include hv haddr

theorem overwrite_pages (hf : ∀ i, i < count → f (addr + i * pageSize) = g i) (n : Nat) :
    (if addr ≤ n * pageSize ∧ n * pageSize < addr + count * pageSize then f (n * pageSize)
      else v (n * pageSize)) = overwrite t (addr / pageSize) count g n := by
  rw [overwrite]
  by_cases hn : addr / pageSize ≤ n ∧ n < addr / pageSize + count
  · have ha' : n * pageSize = addr + (n - addr / pageSize) * pageSize := by
      have hle := ((page_mem_iff haddr).mpr hn).1
      rw [← page_distance haddr hn.1]
      omega
    rw [if_pos ((page_mem_iff haddr).mpr hn), if_pos hn, ha']
    exact hf _ (by omega)
  · rw [if_neg (fun h => hn ((page_mem_iff haddr).mp h)), if_neg hn, hv n]

theorem inRun_iff (h : AddressSpace.RunEnd v addr regionEnd stop)
    (hend : n * pageSize < regionEnd) : InRun t (addr / pageSize) n ↔ n * pageSize < stop := by
  have hle := h.le
  have hst := div_mul_page h.aligned
  constructor
  · intro hrun
    by_contra hge
    have hl : stop / pageSize ≤ n := by
      rw [← le_page_iff h.aligned]
      exact Nat.le_of_not_lt hge
    have hf : addr / pageSize ≤ stop / pageSize := Nat.div_le_div_right hle
    have hso := hrun (stop / pageSize) hl hf
    rw [← hv, hst, h.gap (Nat.lt_of_le_of_lt (Nat.le_of_not_lt hge) hend)] at hso
    cases hso
  · intro hlt k hk hf
    rw [← hv]
    exact h.mapped _ ((le_page_iff haddr).mpr hf)
      (Nat.lt_of_le_of_lt (Nat.mul_le_mul_right pageSize hk) hlt)

end PageTable

structure Represents (noResources : Prop) (s : AddressSpace) (t : PageTable) : Prop where
  good : Good noResources t.brkEnd (pages.view s.mem) s
  pages : ∀ n, pages.view s.mem (n * pageSize) = t.pages n
  brkBound : t.brkEnd + pageSize ≤ 2 ^ 64

/-- A call that matches the reference when it returns, and returns when no resources are around. -/
structure Matches (noResources : Prop) (r : Option AddressSpace) (t : PageTable) : Prop where
  result : ∀ s', r = some s' → Represents noResources s' t
  returns : noResources → r.isSome = true

theorem Outcome.matches (h : Outcome noResources t.brkEnd v r)
    (hv : ∀ n, v (n * pageSize) = t.pages n) (hb : t.brkEnd + pageSize ≤ 2 ^ 64) :
    Matches noResources r t where
  result s' hs' := by
    obtain ⟨hwf, hk, hvi⟩ := h.result s' hs'
    exact ⟨⟨hwf, hk, fun _ => rfl⟩, fun n => (hvi _).trans (hv n), hb⟩
  returns := h.returns

namespace Represents

variable {s : AddressSpace} {t : PageTable}

section

variable (h : Represents noResources s t) (hfit : FitsRange addr n)
include h hfit

theorem map (ha : noResources → a.NoResources) :
    Matches noResources (s.map addr n a) (t.step (.map addr n a)) := by
  obtain ⟨haddr, hn, hc, hb⟩ := PageTable.FitsRange.ceil hfit
  refine (AddressSpace.map_good h.good haddr hn hb ha).matches (t := t.step (.map addr n a)) ?_ h.brkBound
  intro k
  rw [hc]
  refine overwrite_pages (f := fun p => some (a.attr (p - addr)))
    (g := fun i => some (a.attr (i * pageSize))) h.pages haddr ?_ k
  intro i _
  rw [Nat.add_sub_cancel_left]

theorem unmap : Matches noResources (s.unmap addr n) (t.step (.unmap addr n)) := by
  obtain ⟨haddr, hn, hc, hb⟩ := PageTable.FitsRange.ceil hfit
  refine (AddressSpace.unmap_good h.good haddr hn hb).matches (t := t.step (.unmap addr n)) ?_ h.brkBound
  intro k
  rw [hc]
  exact overwrite_pages (f := fun _ => none) (g := fun _ => none) h.pages haddr
    (fun _ _ => rfl) k

theorem protect (hg : prot &&& protGrowsdown = 0) :
    Matches noResources (s.protect addr n prot) (t.step (.protect addr n prot)) := by
  obtain ⟨hb, hend⟩ := PageTable.FitsRange.region hfit
  have haddr := hfit.1
  obtain ⟨stop, hst, hout⟩ := AddressSpace.protect_good h.good hg haddr hb
  refine hout.matches (t := t.step (.protect addr n prot)) ?_ h.brkBound
  intro k
  rw [hend] at hst ⊢
  have hr : addr ≤ k * pageSize ∧ k * pageSize < addr + pageCount n * pageSize ↔
    addr / pageSize ≤ k ∧ k < addr / pageSize + pageCount n :=
      page_mem_iff haddr
  simp only [step]
  by_cases hk : addr ≤ k * pageSize ∧ k * pageSize < addr + pageCount n * pageSize
  · have hrun := inRun_iff h.pages haddr hst hk.2
    obtain ⟨hlo, hhi⟩ := hr.mp hk
    simp only [hk.1, hk.2, hlo, hhi, true_and, hrun, h.pages k]
  · have hk' : ¬ (addr / pageSize ≤ k ∧ k < addr / pageSize + pageCount n) :=
      fun hh => hk (hr.mpr hh)
    rw [if_neg fun hh => hk ⟨hh.1, hh.2.1⟩, if_neg fun hh => hk' ⟨hh.1, hh.2.1⟩, h.pages k]

end

theorem attrAt_advance {m : KernelMapping} (hlo : m.start ≤ a) :
    PageTable.advance (m.attrAt a) d = m.attrAt (a + d) := by
  simp only [advance, KernelMapping.attrAt]
  cases m.isRealDevice with
  | false => rfl
  | true =>
    have hoff : ((m.offset + (a - m.start)) % 2 ^ 64 + d) % 2 ^ 64 =
        (m.offset + (a + d - m.start)) % 2 ^ 64 := by omega
    simp only [↓reduceIte, map_some, hoff]

variable (h : Represents noResources s t)
include h

theorem remap (hold : FitsRange oldAddr oldN)
    (hnew : FitsRange newAddr newN) (he : e ∈ s.mem) (hlo : e.1.start ≤ oldAddr)
    (hhi : oldAddr < e.1.end_) (hend : oldAddr + PageTable.pageCount oldN * pageSize ≤ e.1.end_) :
    Matches noResources (s.remap oldAddr oldN newAddr newN)
      (t.step (.remap oldAddr oldN newAddr newN)) := by
  obtain ⟨ho, holdN, hol, _⟩ := PageTable.FitsRange.ceil hold
  obtain ⟨hn, hnewN, hnewCeil, hne⟩ := PageTable.FitsRange.ceil hnew
  have hkey := (h.good.wellFormed.entries e he).key
  have hst : e.2.map.start = e.1.start := by rw [hkey]
  have hvi : ∀ p, e.1.start ≤ p → p < e.1.end_ →
      Attune.pages.view s.mem p = some (e.2.map.attrAt p) :=
    fun p h1 h2 => h.good.wellFormed.ordered.view_of_mem he ⟨h1, h2⟩
  refine (AddressSpace.remap_good h.good ho holdN hn hnewN hne he hlo hhi
    (by rw [hol]; exact hend)).matches (t := t.step (.remap oldAddr oldN newAddr newN)) ?_
    h.brkBound
  intro k
  rw [hol, hnewCeil]
  refine overwrite_pages
    (v := fun p => if oldAddr ≤ p ∧ p < oldAddr + pageCount oldN * pageSize then none
      else Attune.pages.view s.mem p)
    (f := fun p => some (e.2.map.attrAt (oldAddr + (p - newAddr))))
    (g := fun i => if i < pageCount oldN then t.pages (oldAddr / pageSize + i)
      else (t.pages (oldAddr / pageSize)).map (advance · (i * pageSize)))
    (overwrite_pages (f := fun _ => none) (g := fun _ => none) h.pages ho
      fun _ _ => rfl) hn ?_ k
  intro i _
  have hdiv := div_mul_page ho
  rw [Nat.add_sub_cancel_left]
  split
  · next hi =>
    have hmul : i * pageSize < pageCount oldN * pageSize :=
      Nat.mul_lt_mul_of_pos_right hi (by decide)
    rw [← h.pages, Nat.add_mul, hdiv, hvi _ (by omega) (by omega)]
  · rw [← h.pages, hdiv, hvi _ hlo hhi, map_some, attrAt_advance (by omega)]

theorem brk (haddr : addr + pageSize ≤ 2 ^ 64) :
    Matches noResources (s.brk addr prot) (t.step (.brk addr prot)) := by
  refine (AddressSpace.brk_good h.good h.brkBound haddr).matches (t := t.step (.brk addr prot)) ?_
    haddr
  intro k
  obtain ⟨old, hold⟩ : ∃ old, old = pageCount t.brkEnd := ⟨_, rfl⟩
  obtain ⟨new, hnew⟩ : ∃ new, new = pageCount addr := ⟨_, rfl⟩
  have hpos : 0 < pageSize := by decide
  have hdiv : ∀ a, a * pageSize / pageSize = a := fun a => Nat.mul_div_cancel a hpos
  simp only [step, ceilPageSize_eq h.brkBound, ceilPageSize_eq haddr,
    ← hold, ← hnew]
  by_cases hlt : old < new
  · have hsum : old * pageSize + (new - old) * pageSize = new * pageSize := by
      rw [← Nat.add_mul, Nat.add_sub_cancel' (Nat.le_of_lt hlt)]
    have ho := overwrite_pages
      (f := fun p => some ((AddressSpace.heapArgs prot).attr (p - old * pageSize)))
      (g := fun i => some ((AddressSpace.heapArgs prot).attr (i * pageSize))) h.pages
      (Nat.mul_mod_left old pageSize)
      (fun i (_ : i < new - old) => by rw [Nat.add_sub_cancel_left]) k
    rw [hsum, hdiv] at ho
    have hmul : old * pageSize < new * pageSize := Nat.mul_lt_mul_of_pos_right hlt hpos
    rw [if_pos hlt, ← ho, if_neg (by omega : ¬ (new * pageSize ≤ k * pageSize ∧
      k * pageSize < old * pageSize))]
  · have hle := Nat.le_of_not_lt hlt
    have hsum : new * pageSize + (old - new) * pageSize = old * pageSize := by
      rw [← Nat.add_mul, Nat.add_sub_cancel' hle]
    have ho := overwrite_pages (f := fun _ => none) (g := fun _ => none) h.pages
      (Nat.mul_mod_left new pageSize) (fun i (_ : i < old - new) => rfl) k
    rw [hsum, hdiv] at ho
    have hmul : new * pageSize ≤ old * pageSize := Nat.mul_le_mul_right pageSize hle
    rw [if_neg hlt, ← ho, if_neg (by omega : ¬ (old * pageSize ≤ k * pageSize ∧
      k * pageSize < new * pageSize))]

theorem step (hv : s.Valid c)
    (hno : noResources → c.NoResources) : Matches noResources (s.step c) (t.step c) := by
  cases c with
  | map addr n a => exact h.map hv hno
  | unmap addr n => exact h.unmap hv
  | protect addr n prot => exact h.protect hv.1 hv.2
  | remap oldAddr oldN newAddr newN =>
    obtain ⟨hold, hnew, e, he, hlo, hhi, hend⟩ := hv
    exact h.remap hold hnew he hlo hhi hend
  | brk addr prot => exact h.brk hv

theorem run (hv : AddressSpace.ValidRun calls s) (hno : noResources → ∀ c ∈ calls, c.NoResources) :
    Matches noResources (AddressSpace.run calls s) (t.run calls) := by
  induction calls generalizing s t with
  | nil => exact ⟨fun s' hs' => some.inj hs' ▸ h, fun _ => rfl⟩
  | cons c calls ih =>
    have hst := h.step hv.1 fun hp => hno hp c List.mem_cons_self
    have hr : ∀ s', s.step c = some s' →
        Matches noResources (AddressSpace.run calls s') (run calls (t.step c)) :=
      fun s' hs' => ih (hst.result s' hs') (hv.2 s' hs')
        fun hp d hd => hno hp d (List.mem_cons_of_mem c hd)
    refine ⟨?_, ?_⟩
    · intro s' hs'
      obtain ⟨s1, h1, h2⟩ := bind_eq_some_iff.mp hs'
      exact (hr s1 h1).result s' h2
    · intro hp
      obtain ⟨s1, h1⟩ := isSome_iff_exists.mp (hst.returns hp)
      rw [AddressSpace.run, h1]
      exact (hr s1 h1).returns hp

end Represents

/-- Address spaces that started empty show every page as the page-by-page reference does; calls
return unless resources are attached. -/
theorem mappings_refine_page_table (calls : List AddressSpace.Call)
    (hv : AddressSpace.ValidRun calls {}) :
    (∀ s, AddressSpace.run calls {} = some s →
      WellFormed s.mem ∧
      ∀ n, n * pageSize < 2 ^ 64 →
        (s.mappingOf (n * pageSize)).map (fun m => m.map.attrAt (n * pageSize)) =
          (PageTable.run calls ⟨fun _ => none, 0⟩).pages n) ∧
    ((∀ c ∈ calls, c.NoResources) → (AddressSpace.run calls {}).isSome = true) := by
  have hin : Represents (∀ c ∈ calls, c.NoResources) {} ⟨fun _ => none, 0⟩ := by
    refine ⟨⟨WellFormed.nil, ⟨rfl, fun _ x hx => absurd hx List.not_mem_nil⟩, fun _ => rfl⟩,
      fun _ => rfl, by decide⟩
  have hrun := hin.run hv id
  refine ⟨?_, hrun.returns⟩
  intro s hs
  have hres := hrun.result s hs
  refine ⟨hres.good.wellFormed, ?_⟩
  intro n hn
  rw [AddressSpace.mappingOf_view hres.good.wellFormed (Nat.mul_mod_left n pageSize) hn,
    hres.pages n]

/-- A file mapping is split, its second page moved and grown, the copy cut again, and the break set.
-/
def splitAndMove : List AddressSpace.Call :=
  [.map 0x10000 0x3000 { prot := 3, flags := mapPrivate, offsetBytes := 0x5000,
                         fsname := "/lib/libc.so".toList, device := 8, inode := 77 },
   .protect 0x11000 0x1000 1, .remap 0x11000 0x1000 0x30000 0x3000, .unmap 0x31000 0x1000,
   .brk 0x1800 3]

theorem mappings_refine_page_table_split_and_move :
    ∃ s, AddressSpace.run splitAndMove {} = some s ∧ WellFormed s.mem ∧
      (s.mappingOf (0x32 * pageSize)).map (fun m => m.map.attrAt (0x32 * pageSize)) =
        some ⟨1, mapPrivate, 8, 77, some 0x8000⟩ := by
  obtain ⟨hr, hre⟩ := mappings_refine_page_table splitAndMove (by decide +kernel)
  obtain ⟨s, hs⟩ := isSome_iff_exists.mp (hre (by
    intro c hc
    simp only [splitAndMove, List.mem_cons, List.not_mem_nil, or_false] at hc
    obtain rfl | rfl | rfl | rfl | rfl := hc
    · exact ⟨rfl, rfl, rfl⟩
    all_goals trivial))
  obtain ⟨hwf, hp⟩ := hr s hs
  refine ⟨s, hs, hwf, ?_⟩
  rw [hp 0x32 (by decide)]
  decide +kernel

/-- What an address space shows of a page. -/
def AddressSpace.pageAt (s : AddressSpace) (n : Nat) : Option PageAttr :=
  (s.mappingOf (n * pageSize)).map fun m => m.map.attrAt (n * pageSize)

theorem Represents.pageAt (h : Represents noResources s t) (hn : n * pageSize < 2 ^ 64) :
    s.pageAt n = t.pages n := by
  rw [AddressSpace.pageAt, AddressSpace.mappingOf_view h.good.wellFormed
    (Nat.mul_mod_left n pageSize) hn, h.pages n]

/-- After any calls, a range that is moved to unmapped pages and back is as it was, file offsets
included. -/
theorem remap_back (calls : List AddressSpace.Call) (hv : AddressSpace.ValidRun calls {})
    (hno : ∀ c ∈ calls, c.NoResources) (s : AddressSpace) (hs : AddressSpace.run calls {} = some s)
    (old new size : Nat)
    (hfree : ∀ i < pageCount size, s.pageAt (new / pageSize + i) = none)
    (hvalid : s.ValidRun [.remap old size new size, .remap new size old size]) :
    ∃ s', AddressSpace.run [.remap old size new size, .remap new size old size] s = some s' ∧
      ∀ n, n * pageSize < 2 ^ 64 → s'.pageAt n = s.pageAt n := by
  have hin : Represents True {} ⟨fun _ => none, 0⟩ :=
    ⟨⟨WellFormed.nil, ⟨rfl, fun _ x hx => absurd hx List.not_mem_nil⟩, fun _ => rfl⟩,
      fun _ => rfl, by decide⟩
  have h := (hin.run hv fun _ => hno).result s hs
  have hm := h.run hvalid fun _ => by simp [AddressSpace.Call.NoResources]
  obtain ⟨s', hs'⟩ := isSome_iff_exists.mp (hm.returns trivial)
  refine ⟨s', hs', fun n hn => ?_⟩
  rw [(hm.result s' hs').pageAt hn, h.pageAt hn]
  simp only [PageTable.run, PageTable.step, overwrite]
  by_cases ho : old / pageSize ≤ n ∧ n < old / pageSize + pageCount size
  · have hlt : n - old / pageSize < pageCount size := by omega
    simp [ho, hlt]
  simp only [ho, if_false]
  by_cases hm : new / pageSize ≤ n ∧ n < new / pageSize + pageCount size
  · have hz := hfree (n - new / pageSize) (by omega)
    rw [Nat.add_sub_cancel' hm.1, h.pageAt hn] at hz
    rw [if_pos hm, hz]
  · simp only [hm, if_false]

/-- The middle one of three pages. -/
theorem remap_back_middle : ∃ s s',
    AddressSpace.run [.map 0x10000 0x3000 (AddressSpace.heapArgs 3)] {} = some s ∧
    AddressSpace.run [.remap 0x11000 0x1000 0x30000 0x1000, .remap 0x30000 0x1000 0x11000 0x1000] s =
      some s' ∧ ∀ n, n * pageSize < 2 ^ 64 → s'.pageAt n = s.pageAt n := by
  obtain ⟨s', h⟩ := remap_back [.map 0x10000 0x3000 (AddressSpace.heapArgs 3)] (by decide +kernel)
    (by simp [AddressSpace.Call.NoResources, AddressSpace.MapArgs.NoResources, AddressSpace.heapArgs])
    _ rfl 0x11000 0x30000 0x1000 (by decide +kernel) (by decide +kernel)
  exact ⟨_, s', rfl, h⟩

end Attune
