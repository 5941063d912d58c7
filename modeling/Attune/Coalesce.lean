import Attune.AddressSpaceSpec

namespace Attune
open Segments List Option OrderedMap KernelMapping

theorem isAdjacentMapping_true {l r : KernelMapping}
    (h : isAdjacentMapping l r .respectHeap = true) :
    l.end_ = r.start ∧ l.flags = r.flags ∧ l.prot = r.prot ∧ l.device = r.device ∧
      l.inode = r.inode ∧ (0 < l.device → (l.offset + l.size) % 2 ^ 64 = r.offset) := by
  simp only [isAdjacentMapping] at h
  split at h
  · cases h
  next hend =>
  split at h
  · cases h
  next hf =>
  split at h
  · cases h
  split at h
  · cases h
  next hdev =>
  split at h
  · cases h
  next hoff =>
  simp only [not_or, ne_eq, Decidable.not_not] at hend hf hdev
  obtain ⟨hxor, hp⟩ := hf
  have hm : (0xFFFFFFFF : BitVec 32) = BitVec.allOnes 32 := rfl
  rw [hm, BitVec.and_allOnes] at hxor
  refine ⟨hend, BitVec.xor_eq_zero_iff.mp hxor, hp, hdev.1, hdev.2, ?_⟩
  intro hr
  by_contra hne
  exact hoff ⟨decide_eq_true hr, hne⟩

theorem isCoalescable_true {l r : Mapping} (h : isCoalescable l r = true) :
    isAdjacentMapping l.map r.map .respectHeap = true ∧ l.flags = r.flags := by
  simp only [isCoalescable] at h
  split at h
  · cases h
  · next hadj =>
    simp only [Bool.or_eq_true, Bool.not_eq_true', not_or, Bool.not_eq_false] at hadj
    exact ⟨hadj.1, eq_of_beq h⟩

theorem isCoalescable_recorded {l r : Mapping} (h : isCoalescable l r = true) :
    isAdjacentMapping l.recordedMap r.recordedMap .respectHeap = true := by
  simp only [isCoalescable] at h
  split at h
  · cases h
  · next hadj =>
    simp only [Bool.or_eq_true, Bool.not_eq_true', not_or, Bool.not_eq_false] at hadj
    exact hadj.2

theorem joined_of_isCoalescable (hx : EntryOk x) (hy : EntryOk y)
    (h : isCoalescable x.2 y.2 = true) : pages.Joined x y := by
  obtain ⟨hend, hf, hpr, hdev, hin, hoff⟩ :=
    isAdjacentMapping_true (isCoalescable_true h).1
  have hxne := hx.nonempty
  have hxb := hx.bound
  rw [hx.key] at hxne hxb
  refine ⟨?_, ?_⟩
  · show x.1.end_ = y.1.start
    rw [hx.key, hy.key]
    exact hend
  · intro p hp
    change y.1.start ≤ p at hp
    rw [hy.key] at hp
    show x.2.map.attrAt p = y.2.map.attrAt p
    simp only [attrAt, isRealDevice, hf, hpr, hdev, hin]
    by_cases hr : 0 < y.2.map.device
    · have hsi : x.2.map.size = x.2.map.end_ - x.2.map.start :=
        ptrSub_eq (Nat.le_of_lt hxne) hxb
      have hn := hoff (hdev ▸ hr)
      rw [hsi] at hn
      have heq : (x.2.map.offset + (p - x.2.map.start)) % 2 ^ 64 =
          (y.2.map.offset + (p - y.2.map.start)) % 2 ^ 64 := by
        omega
      simp only [hr, decide_true, ↓reduceIte, heq]
    · simp only [hr, decide_false, Bool.false_eq_true, ↓reduceIte]

def Coalescable (x y : MemoryRange × Mapping) : Prop := isCoalescable x.2 y.2 = true

def Mergeable (x y : MemoryRange × Mapping) : Prop :=
  Coalescable x y ∧ assertCoalesceable x.2 y.2 = true

variable {next prev : MemoryRange × Mapping}

theorem coalesceLeft_spec (h : coalesceLeft next lower = some (first, rest)) :
    ∃ C T, lower = C ++ rest ∧ C.reverse ++ [next] = first :: T ∧
      (first :: T).IsChain Mergeable ∧ ∀ y ∈ rest.head?, ¬Coalescable y first := by
  induction lower generalizing next with
  | nil =>
    cases h
    exact ⟨[], [], rfl, rfl, .singleton _, nofun⟩
  | cons x lower ih =>
    rw [coalesceLeft] at h
    split at h
    · next ha =>
      cases h
      refine ⟨[], [], rfl, rfl, .singleton _, ?_⟩
      intro y hy
      cases hy
      simpa only [Coalescable, Bool.not_eq_true', Bool.not_eq_true] using ha
    next hj =>
    split at h
    · next has =>
      obtain ⟨C, T, rfl, hl, hc, hst⟩ := ih h
      have hx : Coalescable x next := by
        simpa only [Coalescable, Bool.not_eq_true', Bool.not_eq_false] using hj
      refine ⟨x :: C, T ++ [next], rfl, ?_, ?_, hst⟩
      · rw [reverse_cons, hl, cons_append]
      · rw [← cons_append, ← hl]
        rw [← hl] at hc
        rw [append_assoc]
        exact isChain_split.mpr ⟨hc, isChain_pair.mpr ⟨hx, has⟩⟩
    · cases h

theorem coalesceRight_spec (h : coalesceRight prev hig = some (last, rest)) :
    ∃ D, hig = D ++ rest ∧ (prev :: D).IsChain Mergeable ∧
      last = (prev :: D).getLast (cons_ne_nil prev D) ∧
      ∀ y ∈ rest.head?, ¬Coalescable last y := by
  induction hig generalizing prev with
  | nil =>
    cases h
    exact ⟨[], rfl, .singleton _, rfl, nofun⟩
  | cons x hig ih =>
    rw [coalesceRight] at h
    split at h
    · next ha =>
      cases h
      refine ⟨[], rfl, .singleton _, rfl, ?_⟩
      intro y hy
      cases hy
      simpa only [Coalescable, Bool.not_eq_true', Bool.not_eq_true] using ha
    next hj =>
    split at h
    · next has =>
      obtain ⟨D, rfl, hc, hl, hst⟩ := ih h
      have hx : Coalescable prev x := by
        simpa only [Coalescable, Bool.not_eq_true', Bool.not_eq_false] using hj
      refine ⟨x :: D, rfl, isChain_cons_cons.mpr ⟨⟨hx, has⟩, hc⟩, ?_, hst⟩
      rw [getLast_cons (cons_ne_nil x D)]
      exact hl
    · cases h

theorem Plain.assertCoalesceable {x y : Mapping} (hx : Plain x) (hy : Plain y)
    (h : isCoalescable x y = true) : assertCoalesceable x y = true := by
  simp only [Attune.assertCoalesceable, hx.emuFile, hy.emuFile, hx.localAddr, hy.localAddr,
    hx.monitored, hy.monitored, (isCoalescable_true h).2, decide_true, and_self, Bool.true_or,
    Bool.and_self, isNone_none]

def Asserts (mem : MemoryMap) : Prop :=
  ∀ x ∈ mem, ∀ y ∈ mem, isCoalescable x.2 y.2 = true → assertCoalesceable x.2 y.2 = true

theorem Asserts.mono (h : Asserts mem) (hsub : mem' ⊆ mem) : Asserts mem' :=
  fun x hx y hy => h x (hsub hx) y (hsub hy)

theorem Asserts.of_plain (h : ∀ x ∈ mem, Plain x.2) : Asserts mem :=
  fun x hx y hy => (h x hx).assertCoalesceable (h y hy)

theorem coalesceLeft_isSome (h : Asserts (next :: lower)) :
    (coalesceLeft next lower).isSome = true := by
  induction lower generalizing next with
  | nil => rfl
  | cons x lower ih =>
    rw [coalesceLeft]
    split
    · rfl
    · next hj =>
      have hc : isCoalescable x.2 next.2 = true := by
        simpa only [Bool.not_eq_true', Bool.not_eq_false] using hj
      rw [if_pos (h x (mem_cons_of_mem next mem_cons_self) next mem_cons_self hc)]
      exact ih (h.mono (subset_cons_self next _))

theorem coalesceRight_isSome (h : Asserts (prev :: hig)) :
    (coalesceRight prev hig).isSome = true := by
  induction hig generalizing prev with
  | nil => rfl
  | cons x hig ih =>
    rw [coalesceRight]
    split
    · rfl
    · next hj =>
      have hc : isCoalescable prev.2 x.2 = true := by
        simpa only [Bool.not_eq_true', Bool.not_eq_false] using hj
      rw [if_pos (h prev mem_cons_self x (mem_cons_of_mem prev mem_cons_self) hc)]
      exact ih (h.mono (subset_cons_self prev _))

theorem WellFormed.isChain_joined (h : WellFormed l) (hc : l.IsChain Coalescable) :
    l.IsChain pages.Joined := by
  induction l with
  | nil => exact .nil
  | cons x l ih =>
    cases l with
    | nil => exact .singleton x
    | cons y l =>
      have hco : WellFormed ([x] ++ (y :: l)) := h
      obtain ⟨hxy, ht⟩ := isChain_cons_cons.mp hc
      exact isChain_cons_cons.mpr ⟨joined_of_isCoalescable
        (h.entries x mem_cons_self) (hco.right.entries y mem_cons_self) hxy,
        ih hco.right ht⟩

def mergedMapping (first : Mapping) (end_ : Nat) : Mapping :=
  { map := first.map.extend end_
    recordedMap := first.recordedMap.extend end_
    emuFile := first.emuFile
    localAddr := first.localAddr
    flags := first.flags }

def mergedEntry (first : MemoryRange × Mapping) (T : MemoryMap) : MemoryRange × Mapping :=
  (⟨first.1.start, ((first :: T).getLast (cons_ne_nil first T)).1.end_⟩,
    mergedMapping first.2 ((first :: T).getLast (cons_ne_nil first T)).1.end_)

theorem attrAt_extend {m : KernelMapping} (hf : m.flags &&& mapFlagsMask = m.flags) :
    (m.extend end_).attrAt p = m.attrAt p := by
  have hoff : (m.offset % 2 ^ 64 + (p - m.start)) % 2 ^ 64 =
      (m.offset + (p - m.start)) % 2 ^ 64 := by omega
  simp only [attrAt, extend, new,
    isRealDevice, hf, hoff]
  rfl

section Merge

variable {first : MemoryRange × Mapping} {T A B : MemoryMap}

theorem WellFormed.merge (h : WellFormed (A ++ ((first :: T) ++ B)))
    (hc : (first :: T).IsChain Coalescable) :
    let last := (first :: T).getLast (cons_ne_nil first T)
    let x : MemoryRange × Mapping := (⟨first.1.start, last.1.end_⟩,
      mergedMapping first.2 last.1.end_)
    WellFormed (A ++ x :: B) ∧ ∀ p, pages.view (A ++ x :: B) p =
      pages.view (A ++ ((first :: T) ++ B)) p := by
  intro last x
  have hrun : WellFormed (first :: T) := h.right.left
  have hf := hrun.entries first mem_cons_self
  have hl : last ∈ first :: T := getLast_mem _
  have hla := hrun.entries last hl
  have hv := fun p => Layout.view_run (p := p) (hrun.isChain_joined hc)
    fun y hy => Nat.le_of_lt (hrun.entries y hy).nonempty
  have hle : first.1.end_ ≤ last.1.end_ := by
    cases mem_cons.mp hl with
    | inl heq => rw [heq]
    | inr hin =>
      have hco : WellFormed ([first] ++ T) := hrun
      have h1 := hco.between mem_cons_self hin
      have h2 := hla.nonempty
      omega
  have hne := hf.nonempty
  have hx : EntryOk x := by
    refine ⟨?_, Nat.lt_of_lt_of_le hne hle, hf.startAligned, hla.endAligned, hla.bound,
      mask_idem _⟩
    show (⟨first.1.start, last.1.end_⟩ : MemoryRange) = ⟨first.2.map.start, last.1.end_⟩
    rw [hf.key]
  refine ⟨?_, ?_⟩
  · have hr : WellFormed (x :: B) := by
      apply (WellFormed.singleton hx).append h.right.right
      intro a ha b hb
      have hend : last.1.end_ ≤ b.1.start := h.right.between hl hb
      rw [mem_singleton.mp ha]
      exact hend
    apply h.left.append hr
    intro a ha b hb
    have hbe := h.between ha (mem_append_left B mem_cons_self)
    cases mem_cons.mp hb with
    | inl heq => rw [heq]; exact hbe
    | inr hin => exact h.between ha (mem_append_right _ hin)
  · intro p
    have hru : pages.view (first :: T) p =
        if pages.Covers x p then some (pages.val first p) else none := (hv p).2
    have hval : pages.val x p = pages.val first p := attrAt_extend hf.tracked
    rw [Layout.view_append, Layout.view_append, Layout.view_append, Layout.view_cons, hru]
    by_cases hc : pages.Covers x p
    · rw [if_pos hc, if_pos hc, hval]
      rfl
    · rw [if_neg hc, if_neg hc, none_or]

end Merge

namespace AddressSpace

variable {s : AddressSpace} {A B : MemoryMap} {e : MemoryRange × Mapping}

theorem split_at_key (hs : s.mem = A ++ e :: B) (hwf : WellFormed s.mem) :
    lowerBound MemoryRange.comparator e.1 s.mem = e :: B ∧
    below MemoryRange.comparator e.1 s.mem = A ∧
    MemoryRange.comparator e.1 e.1 = false := by
  have hwf' : WellFormed (A ++ e :: B) := hs ▸ hwf
  have hok := hwf'.right.entries e mem_cons_self
  have hse : MemoryRange.comparator e.1 e.1 = false := by
    rw [comparator_eq hok.nonempty hok.nonempty]
    exact decide_eq_false (Nat.not_le_of_lt hok.nonempty)
  have hA : ∀ a ∈ A, MemoryRange.comparator a.1 e.1 = true := by
    intro a ha
    rw [comparator_eq (hwf'.left.entries a ha).nonempty hok.nonempty]
    exact decide_eq_true (hwf'.between ha mem_cons_self)
  refine ⟨?_, ?_, hse⟩
  · rw [hs, lowerBound_append hA, lowerBound_cons hse]
  · rw [hs, below_append hA, below_cons hse, append_nil]

structure CoalescedRun (A : MemoryMap) (e : MemoryRange × Mapping) (B L : MemoryMap)
    (first : MemoryRange × Mapping) (T R : MemoryMap) : Prop where
  around : ∃ C D, A = L ++ C ∧ B = D ++ R ∧ C ++ e :: D = first :: T
  chain : (first :: T).IsChain Mergeable
  low : ∀ y ∈ L.getLast?, ¬Coalescable y first
  high : ∀ y ∈ R.head?, ¬Coalescable ((first :: T).getLast (cons_ne_nil first T)) y

theorem CoalescedRun.coalescable (h : CoalescedRun A e B L first T R) :
    (first :: T).IsChain Coalescable :=
  h.chain.imp fun _ _ hm => hm.1

theorem CoalescedRun.split (h : CoalescedRun A e B L first T R) :
    A ++ e :: B = L ++ ((first :: T) ++ R) := by
  obtain ⟨C, D, rfl, rfl, hrun⟩ := h.around
  rw [← hrun]
  simp only [append_assoc, cons_append]

section

variable (hs : s.mem = A ++ e :: B) (hwf : WellFormed s.mem)
include hs hwf

theorem coalesceAround_run (h : s.coalesceAround e.1 = some s') :
    ∃ L first T R, CoalescedRun A e B L first T R ∧
      s' = if T = [] then s else { s with mem := L ++ mergedEntry first T :: R } := by
  obtain ⟨hlow, hbe, hse⟩ := split_at_key hs hwf
  simp only [coalesceAround, hlow, hbe, hse, Bool.false_eq_true, ↓reduceIte,
    bind_eq_bind, bind_eq_some_iff, Prod.exists] at h
  obtain ⟨fr, fm, below, hlef, lr, lm, above, hri, hres⟩ := h
  obtain ⟨C, T, hC, hl, hch, hst⟩ := coalesceLeft_spec hlef
  obtain ⟨D, rfl, hcha, hla, hsto⟩ := coalesceRight_spec hri
  have hrun : C.reverse ++ e :: D = (fr, fm) :: (T ++ D) := by
    rw [← cons_append, ← hl, append_assoc]
    rfl
  have hc : ((fr, fm) :: (T ++ D)).IsChain Mergeable := by
    rw [← hrun]
    exact isChain_split.mpr ⟨hl ▸ hch, hcha⟩
  have hl' : ((fr, fm) :: (T ++ D)).getLast (cons_ne_nil _ _) = (lr, lm) := by
    rw [hla]
    simp only [← hrun]
    rw [getLast_append_of_ne_nil _ (cons_ne_nil e D)]
  have hA : A = below.reverse ++ C.reverse := by
    rw [← reverse_append, ← hC, reverse_reverse]
  have hcr : CoalescedRun A e (D ++ above) below.reverse (fr, fm) (T ++ D) above := by
    refine ⟨⟨C.reverse, D, hA, rfl, hrun⟩, hc, ?_, ?_⟩
    · intro y hy
      rw [getLast?_reverse] at hy
      exact hst y hy
    · rw [hl']
      exact hsto
  refine ⟨below.reverse, (fr, fm), T ++ D, above, hcr, ?_⟩
  have hmem := hs.trans hcr.split
  have hm := (WellFormed.merge (hmem ▸ hwf) hcr.coalescable).1
  have hr : WellFormed ((fr, fm) :: (T ++ D)) := (hmem ▸ hwf).right.left
  split at hres
  · next hk =>
    -- the ends of a longer run have different keys
    have hT : T ++ D = [] := by
      by_contra hne
      have hin : (lr, lm) ∈ T ++ D := by
        rw [← hl', getLast_cons hne]
        exact getLast_mem hne
      have hle := WellFormed.between (A := [(fr, fm)]) hr mem_cons_self hin
      have hlt := (hr.entries (fr, fm) mem_cons_self).nonempty
      rw [← hk] at hle
      exact Nat.not_le_of_lt hlt hle
    rw [if_pos hT]
    exact (some.inj hres).symm
  · next hk =>
    have hT : T ++ D ≠ [] := by
      intro hnil
      apply hk
      simp only [hnil, getLast_singleton] at hl'
      exact congrArg Prod.fst hl'
    rw [if_neg hT, mergedEntry]
    rw [hl'] at hm ⊢
    have hkey : fm.map.start = fr.start :=
      congrArg MemoryRange.start (hr.entries _ mem_cons_self).key.symm
    obtain ⟨hL, hR⟩ := neighbours hm
    have hne := (hm.right.entries _ mem_cons_self).nonempty
    obtain ⟨h1, h2, h3⟩ := gap_comparator (fun a ha => ⟨(hL a ha).1.nonempty, (hL a ha).2⟩)
      (fun b hb => ⟨(hR b hb).1.nonempty, (hR b hb).2⟩) hne
    have hins : insert MemoryRange.comparator ⟨fm.map.start, lr.end_⟩
        (mergedMapping fm lr.end_) (below.reverse ++ above) =
        below.reverse ++ (⟨fr.start, lr.end_⟩, mergedMapping fm lr.end_) :: above := by
      rw [hkey]
      exact insert_gap _ h1 h2 h3
    rw [← some.inj hres]
    exact congrArg (fun mem => { s with mem := mem }) hins

theorem coalesceAround_cases (h : s.coalesceAround e.1 = some s') :
    s' = s ∨ ∃ L first T R, CoalescedRun A e B L first T R ∧
      s' = { s with mem := L ++ mergedEntry first T :: R } := by
  obtain ⟨L, first, T, R, hrun, heq⟩ := coalesceAround_run hs hwf h
  split at heq
  · exact .inl heq
  · exact .inr ⟨L, first, T, R, hrun, heq⟩

theorem coalesceAround_spec (hI : Keeps noResources b s) (h : s.coalesceAround e.1 = some s') :
    WellFormed s'.mem ∧ Keeps noResources b s' ∧
      ∀ p, pages.view s'.mem p = pages.view s.mem p := by
  cases coalesceAround_cases hs hwf h with
  | inl heq =>
    subst heq
    exact ⟨hwf, hI, fun _ => rfl⟩
  | inr hm =>
    obtain ⟨L, first, T, R, hrun, rfl⟩ := hm
    have hmem := hs.trans hrun.split
    obtain ⟨hwf', hv⟩ := WellFormed.merge (hmem ▸ hwf) hrun.coalescable
    refine ⟨hwf', ⟨hI.brkEnd, ?_⟩, ?_⟩
    · intro hno x hx
      have hp : ∀ y ∈ L ++ ((first :: T) ++ R), Plain y.2 := hmem ▸ hI.plain hno
      have hf := hp first
        (mem_append_right L (mem_append_left R mem_cons_self))
      cases mem_append.mp hx with
      | inl hin => exact hp x (mem_append_left _ hin)
      | inr hin =>
        cases mem_cons.mp hin with
        | inl heq =>
          rw [heq]
          exact ⟨hf.emuFile, hf.localAddr, rfl⟩
        | inr hR => exact hp x (mem_append_right L (mem_append_right _ hR))
    · intro p
      rw [hmem]
      exact hv p

theorem coalesceAround_isSome (h : Asserts s.mem) : (s.coalesceAround e.1).isSome = true := by
  obtain ⟨hlow, hb, hse⟩ := split_at_key hs hwf
  rw [hs] at h
  have hl : e :: A.reverse ⊆ A ++ e :: B := by
    intro x hx
    cases mem_cons.mp hx with
    | inl heq => rw [heq]; exact mem_append_right A mem_cons_self
    | inr hin => exact mem_append_left _ (mem_reverse.mp hin)
  obtain ⟨⟨first, below⟩, hle⟩ :=
    isSome_iff_exists.mp (coalesceLeft_isSome (h.mono hl))
  obtain ⟨⟨last, above⟩, hr⟩ :=
    isSome_iff_exists.mp (coalesceRight_isSome (h.mono (subset_append_right A _)))
  simp only [coalesceAround, hlow, hb, hse, hle, hr, Bool.false_eq_true, ↓reduceIte,
    bind_eq_bind, bind_some]
  split
  · rfl
  · rfl

end

theorem mapAndCoalesce_eq {m : KernelMapping} (hwf : WellFormed s.mem)
    (hm : EntryOk (m.toMemoryRange, ⟨m, recordedMap, emuFile, localAddr, monitored, 0⟩))
    (hf : ∀ p, m.start ≤ p → p < m.end_ → pages.view s.mem p = none) :
    ∃ A B, s.mem = A ++ B ∧ (∀ a ∈ A, a.1.end_ ≤ m.start) ∧
      WellFormed (A ++ (m.toMemoryRange, ⟨m, recordedMap, emuFile, localAddr, monitored, 0⟩) :: B) ∧
      s.mapAndCoalesce m recordedMap emuFile localAddr monitored = coalesceAround
        { s with
          monitoredMem := if monitored.isSome then m.start :: s.monitoredMem else s.monitoredMem
          mem := A ++ (m.toMemoryRange, ⟨m, recordedMap, emuFile, localAddr, monitored, 0⟩) :: B }
        m.toMemoryRange := by
  have hne := hm.nonempty
  obtain ⟨A, B, hmem, hA, hB⟩ := hwf.splitAt hm.startAligned
  have hw : WellFormed (A ++ B) := hmem ▸ hwf
  have hA' : ∀ a ∈ A, a.1.start < a.1.end_ ∧ a.1.end_ ≤ m.start :=
    fun a ha => ⟨(hw.left.entries a ha).nonempty, hA a ha⟩
  have hB' : ∀ y ∈ B, y.1.start < y.1.end_ ∧ m.end_ ≤ y.1.start := by
    intro y hy
    have hyok := hw.right.entries y hy
    have haf := hB.after y hy
    have hyne := hyok.nonempty
    refine ⟨hyne, ?_⟩
    by_contra hlt
    -- the first common address of the two ranges would be mapped already
    have hcov : pages.Covers y (max y.1.start m.start) :=
      ⟨Nat.le_max_left _ _, Nat.max_lt.mpr ⟨hyne, haf⟩⟩
    have hso := hwf.ordered.view_of_mem (hmem ▸ mem_append_right A hy) hcov
    rw [hf _ (Nat.le_max_right _ _) (Nat.max_lt.mpr ⟨Nat.lt_of_not_le hlt, hne⟩)] at hso
    cases hso
  obtain ⟨h1, h2, h3⟩ := gap_comparator hA' hB' hne
  refine ⟨A, B, hmem, hA, ?_, ?_⟩
  · apply hw.left.append ((WellFormed.singleton hm).append hw.right ?_)
    · intro a ha y hy
      cases mem_cons.mp hy with
      | inl heq => rw [heq]; exact hA a ha
      | inr hin => exact hw.between ha hin
    · intro a ha y hy
      rw [mem_singleton.mp ha]
      exact (hB' y hy).2
  · rw [mapAndCoalesce, hmem, insert_gap _ h1 h2 h3]

theorem mapAndCoalesce_spec {m : KernelMapping} (hwf : WellFormed s.mem)
    (hI : Keeps noResources b s)
    (hm : EntryOk (m.toMemoryRange, ⟨m, recordedMap, emuFile, localAddr, monitored, 0⟩))
    (hf : ∀ p, m.start ≤ p → p < m.end_ → pages.view s.mem p = none)
    (hno : noResources → emuFile = none ∧ localAddr = 0 ∧ monitored = none) :
    (∀ s', s.mapAndCoalesce m recordedMap emuFile localAddr monitored = some s' →
      WellFormed s'.mem ∧ Keeps noResources b s' ∧ ∀ p, pages.view s'.mem p =
        if m.start ≤ p ∧ p < m.end_ then some (m.attrAt p) else pages.view s.mem p) ∧
    (noResources →
      (s.mapAndCoalesce m recordedMap emuFile localAddr monitored).isSome = true) := by
  obtain ⟨A, B, hmem, hA, hwf1, hc⟩ := mapAndCoalesce_eq hwf hm hf
  obtain ⟨x, hx⟩ : ∃ x : MemoryRange × Mapping,
      x = (m.toMemoryRange, ⟨m, recordedMap, emuFile, localAddr, monitored, 0⟩) := ⟨_, rfl⟩
  rw [← hx] at hwf1 hc
  have hkey : m.toMemoryRange = x.1 := by rw [hx]
  obtain ⟨s1, hs1⟩ : ∃ s1 : AddressSpace, s1 =
      { s with
        monitoredMem := if monitored.isSome then m.start :: s.monitoredMem else s.monitoredMem
        mem := A ++ x :: B } := ⟨_, rfl⟩
  rw [← hs1, hkey] at hc
  have hm1 : s1.mem = A ++ x :: B := by rw [hs1]
  rw [← hm1] at hwf1
  have hI1 : Keeps noResources b s1 := by
    refine ⟨by rw [hs1]; exact hI.brkEnd, ?_⟩
    intro hp y hy
    have hpl : ∀ z ∈ A ++ B, Plain z.2 := hmem ▸ hI.plain hp
    obtain ⟨he, hl, hmon⟩ := hno hp
    rw [hm1] at hy
    cases mem_append.mp hy with
    | inl hin => exact hpl y (mem_append_left B hin)
    | inr hin =>
      cases mem_cons.mp hin with
      | inl heq => rw [heq, hx]; exact ⟨he, hl, hmon⟩
      | inr hin => exact hpl y (mem_append_right A hin)
  have hv1 : ∀ p, pages.view s1.mem p =
      if m.start ≤ p ∧ p < m.end_ then some (m.attrAt p) else pages.view s.mem p := by
    intro p
    have hcov : pages.Covers x p ↔ m.start ≤ p ∧ p < m.end_ := by rw [hx]; exact Iff.rfl
    have hval : pages.val x p = m.attrAt p := by rw [hx]; rfl
    rw [hm1, Layout.view_append, Layout.view_cons]
    by_cases hp : m.start ≤ p ∧ p < m.end_
    · have hlow : pages.view A p = none :=
        Layout.view_eq_none_of_hi_le fun a ha => Nat.le_trans (hA a ha) hp.1
      rw [if_pos (hcov.mpr hp), if_pos hp, hlow, hval, none_or]
    · rw [if_neg (fun hh => hp (hcov.mp hh)), if_neg hp, hmem, Layout.view_append]
  rw [hc]
  refine ⟨?_, fun hp => coalesceAround_isSome hm1 hwf1 (.of_plain (hI1.plain hp))⟩
  intro s' hs'
  obtain ⟨hwf', hI', hv⟩ := coalesceAround_spec hm1 hwf1 hI1 hs'
  exact ⟨hwf', hI', fun p => (hv p).trans (hv1 p)⟩

end AddressSpace

end Attune
