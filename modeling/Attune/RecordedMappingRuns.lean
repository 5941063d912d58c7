import Attune.RecordedMappings

namespace Attune
open Segments List

namespace AddressSpace

variable {s s' : AddressSpace} {c : Call}

def Call.Fits : Call → Prop
  | .map addr n _ => FitsRange addr n
  | .unmap addr n => FitsRange addr n
  | .protect addr n _ => FitsRange addr n
  | .remap oldAddr oldN newAddr newN => FitsRange oldAddr oldN ∧ FitsRange newAddr newN
  | .brk addr _ => addr + pageSize ≤ 2 ^ 64

instance : (c : Call) → Decidable c.Fits
  | .map addr n _ => inferInstanceAs (Decidable (FitsRange addr n))
  | .unmap addr n => inferInstanceAs (Decidable (FitsRange addr n))
  | .protect addr n _ => inferInstanceAs (Decidable (FitsRange addr n))
  | .remap .. => inferInstanceAs (Decidable (_ ∧ _))
  | .brk addr _ => inferInstanceAs (Decidable (addr + pageSize ≤ 2 ^ 64))

structure Sound (s : AddressSpace) : Prop where
  wellFormed : WellFormed s.mem
  brkEnd : s.brkEnd + pageSize ≤ 2 ^ 64

theorem Sound.good (h : s.Sound) : Good False s.brkEnd (pages.view s.mem) s :=
  ⟨h.wellFormed, ⟨rfl, False.elim⟩, fun _ => rfl⟩

theorem Sound.of_outcome (ho : Outcome False b v r) (hb : b + pageSize ≤ 2 ^ 64)
    (hr : r = some s') : s'.Sound := by
  obtain ⟨hwf, hk, _⟩ := ho.result s' hr
  refine ⟨hwf, ?_⟩
  rw [hk.brkEnd]
  exact hb

theorem Sound.protect (h : s.Sound) (hfit : FitsRange addr n)
    (hs : s.protect addr n prot = some s') : s'.Sound := by
  obtain ⟨hb, _⟩ := PageTable.FitsRange.region hfit
  obtain ⟨A, B, s₁, last, hw, hc⟩ := protect_walk prot h.wellFormed hfit.1 hb
  have hbrk : s₁.brkEnd + pageSize ≤ 2 ^ 64 := by
    rw [hw.brkEnd]
    exact h.brkEnd
  rw [hc] at hs
  split at hs
  · next hsi =>
    obtain ⟨L, x, R, hsp, rfl⟩ := hw.isKey.split hsi
    obtain ⟨hwf, hk, _⟩ := coalesceAround_spec (b := s₁.brkEnd) hsp hw.wellFormed
      (⟨rfl, False.elim⟩ : Keeps False s₁.brkEnd s₁) hs
    exact ⟨hwf, by rw [hk.brkEnd]; exact hbrk⟩
  · cases hs
    exact ⟨hw.wellFormed, hbrk⟩

theorem Sound.remap (h : s.Sound) (hold : FitsRange oldAddr oldN) (hnew : FitsRange newAddr newN)
    (hs : s.remap oldAddr oldN newAddr newN = some s') : s'.Sound := by
  by_cases hne : newN = 0
  · obtain ⟨ha, hn, _, hb⟩ := PageTable.FitsRange.ceil hold
    obtain ⟨m, s₁, _, hu, hr⟩ := remap_cases hs
    rcases hr with ⟨_, rfl⟩ | ⟨hne', _⟩
    · exact Sound.of_outcome (unmapInternal_good h.good ha (ceilPageSize_spec hn).1 hb)
        h.brkEnd hu
    · exact absurd hne hne'
  · obtain ⟨m, s₂, km, recordedMap, _, _, _, hwf, hbrk, _, hok, hf, hmap⟩ :=
      remap_inserts h.wellFormed hold hnew hne hs
    have hg : Good False s₂.brkEnd (pages.view s₂.mem) s₂ :=
      ⟨hwf, ⟨rfl, False.elim⟩, fun _ => rfl⟩
    apply Sound.of_outcome (mapAndCoalesce_good hg hok (fun p hp => hf p hp.1 hp.2)
      False.elim) _ hmap
    rw [hbrk]
    exact h.brkEnd

theorem Sound.step (h : s.Sound) (hc : c.Fits) (hs : s.step c = some s') : s'.Sound := by
  cases c with
  | map addr n args =>
    obtain ⟨ha, hn, _, hb⟩ := PageTable.FitsRange.ceil hc
    exact Sound.of_outcome (map_good h.good ha hn hb False.elim) h.brkEnd hs
  | unmap addr n =>
    obtain ⟨ha, hn, _, hb⟩ := PageTable.FitsRange.ceil hc
    exact Sound.of_outcome (unmap_good h.good ha hn hb) h.brkEnd hs
  | protect addr n prot => exact h.protect hc hs
  | remap oldAddr oldN newAddr newN => exact h.remap hc.1 hc.2 hs
  | brk addr prot => exact Sound.of_outcome (brk_good h.good h.brkEnd hc) hc hs

theorem exists_pred_of_isChain {R : α → α → Prop} (h : (first :: T).IsChain R) (hx : x ∈ T) :
    ∃ y ∈ first :: T, R y x := by
  induction T generalizing first with
  | nil => cases hx
  | cons z T ih =>
    obtain ⟨hz, hc⟩ := isChain_cons_cons.mp h
    rcases mem_cons.mp hx with rfl | hin
    · exact ⟨first, mem_cons_self, hz⟩
    · obtain ⟨y, hy, hyx⟩ := ih hc hin
      exact ⟨y, mem_cons_of_mem first hy, hyx⟩

/-- An entry whose two offsets differ cannot be merged into a lower one whose mappings agree. -/
theorem offset_eq_of_coalescable {l r : Mapping} (hl : l.Recorded)
    (h : isCoalescable l r = true) (hr : r.map.isRealDevice = true) :
    r.map.offset = r.recordedMap.offset := by
  obtain ⟨_, _, _, hdev, _, hoff⟩ := isAdjacentMapping_true (isCoalescable_true h).1
  obtain ⟨_, _, _, _, _, ho'⟩ := isAdjacentMapping_true (isCoalescable_recorded h)
  rw [Mapping.Recorded] at hl
  rw [hl] at ho'
  have hpos : 0 < l.map.device := by
    rw [hdev]
    exact of_decide_eq_true hr
  rw [← hoff hpos, ← ho' hpos]

/-- A new entry whose two offsets differ stays in the map, or is the lower end of a merged one. -/
theorem mapAndCoalesce_offset {km : KernelMapping} (hwf : WellFormed s.mem) (hrec : s.Recorded)
    (hok : EntryOk (km.toMemoryRange, ⟨km, recordedMap, emuFile, localAddr, monitored, 0⟩))
    (hf : ∀ p, km.start ≤ p → p < km.end_ → pages.view s.mem p = none)
    (hr : km.isRealDevice = true)
    (hoff : recordedMap.offset % 2 ^ 64 ≠ km.offset % 2 ^ 64)
    (hs : s.mapAndCoalesce km recordedMap emuFile localAddr monitored = some s') :
    ∃ e ∈ s'.mem, e.2.recordedMap.offset ≠ e.2.map.offset := by
  obtain ⟨A, B, hmem, _, hwf₁, hca⟩ := mapAndCoalesce_eq hwf hok hf
  obtain ⟨x, hx⟩ : ∃ x : MemoryRange × Mapping,
      x = (km.toMemoryRange, ⟨km, recordedMap, emuFile, localAddr, monitored, 0⟩) := ⟨_, rfl⟩
  rw [hca] at hs
  have hkey : km.toMemoryRange = x.1 := by rw [hx]
  have hne : x.2.recordedMap.offset ≠ x.2.map.offset := by
    rw [hx]
    exact fun heq => hoff (congrArg (· % 2 ^ 64) heq)
  have hlow : ∀ y ∈ A ++ x :: B, isCoalescable y.2 x.2 = true → False := by
    intro y hy hc
    have hyr : y.2.Recorded := by
      apply hrec y
      rw [hmem]
      rcases mem_append.mp hy with hin | hin
      · exact mem_append_left B hin
      rcases mem_cons.mp hin with rfl | hin
      · -- an entry does not follow itself
        obtain ⟨hend, _⟩ := isAdjacentMapping_true (isCoalescable_true hc).1
        have hlt := hok.nonempty
        rw [hx] at hend
        exact absurd hend (Nat.ne_of_gt hlt)
      · exact mem_append_right A hin
    have heq := offset_eq_of_coalescable hyr hc (by rw [hx]; exact hr)
    exact hne heq.symm
  rw [← hx] at hwf₁ hs
  rw [hkey] at hs
  rcases coalesceAround_cases (A := A) (B := B) rfl hwf₁ hs with heq | ⟨L, first, T, R, hc, heq⟩
  · rw [heq]
    exact ⟨x, mem_append_right A mem_cons_self, hne⟩
  have hrun : A ++ x :: B = L ++ ((first :: T) ++ R) := hc.split
  rw [heq]
  have hm : x ∈ L ++ ((first :: T) ++ R) := by
    rw [← hrun]
    exact mem_append_right A mem_cons_self
  rcases mem_append.mp hm with hin | hin
  · exact ⟨x, mem_append_left _ hin, hne⟩
  rcases mem_append.mp hin with hin | hin
  · rcases mem_cons.mp hin with rfl | hin
    · refine ⟨_, mem_append_right L mem_cons_self, ?_⟩
      rw [hx]
      exact hoff
    · obtain ⟨y, hy, hyx⟩ := exists_pred_of_isChain hc.coalescable hin
      apply False.elim
      apply hlow y _ hyx
      rw [hrun]
      exact mem_append_right L (mem_append_left R hy)
  · exact ⟨x, mem_append_right L (mem_cons_of_mem _ hin), hne⟩

section Runs

/-- While recording, a mapping comes without a separate recorded one. -/
def Call.Recording : Call → Prop
  | .map _ _ args => args.recordedMap = none
  | _ => True

instance : (c : Call) → Decidable c.Recording
  | .map _ _ args => inferInstanceAs (Decidable (args.recordedMap = none))
  | .unmap .. | .protect .. | .remap .. | .brk .. => inferInstanceAs (Decidable True)

/-- What is moved of a mapping of a real device begins where the mapping does. -/
def Whole (s : AddressSpace) : Call → Prop
  | .remap oldAddr _ _ newN => newN ≠ 0 → ∀ m ∈ s.mappingOf oldAddr,
      m.map.isRealDevice = true → ptrSub oldAddr m.map.start = 0
  | _ => True

instance : (c : Call) → Decidable (s.Whole c)
  | .remap oldAddr _ _ newN => inferInstanceAs (Decidable (newN ≠ 0 → ∀ m ∈ s.mappingOf oldAddr, _))
  | .map .. | .unmap .. | .protect .. | .brk .. => inferInstanceAs (Decidable True)

def WholeRun : List Call → AddressSpace → Prop
  | [], _ => True
  | c :: calls, s => ∀ s' ∈ s.step c, s.Whole c ∧ WholeRun calls s'

instance decidableWholeRun : (calls : List Call) → (s : AddressSpace) → Decidable (WholeRun calls s)
  | [], _ => .isTrue trivial
  | c :: calls, s =>
    have := decidableWholeRun calls
    inferInstanceAs (Decidable (∀ s' ∈ s.step c, s.Whole c ∧ WholeRun calls s'))

def Agrees (s : AddressSpace) : Prop := ∀ e ∈ s.mem, e.2.recordedMap.Agrees e.2.map

def AgreesRun : List Call → AddressSpace → Prop
  | [], s => s.Agrees
  | c :: calls, s => s.Agrees ∧ ∀ s' ∈ s.step c, AgreesRun calls s'

section

variable (h : s.Recorded)
include h

theorem Recorded.agrees : s.Agrees := by
  intro e he
  rw [h e he]
  exact ⟨rfl, rfl, rfl, rfl, rfl, rfl⟩

theorem Recorded.step (hc : c.Recording) (hw : s.Whole c)
    (hs : s.step c = some s') : s'.Recorded := by
  cases c with
  | map addr n args => exact h.map hc hs
  | unmap addr n => exact h.unmap hs
  | protect addr n prot => exact h.protect hs
  | remap oldAddr oldN newAddr newN => exact h.remap hw hs
  | brk addr prot => exact h.brk hs

theorem Recorded.whole (hso : s.Sound) (hc : c.Fits)
    (hs : s.step c = some s') (ha : s'.Agrees) : s.Whole c := by
  cases c with
  | remap oldAddr oldN newAddr newN =>
    intro hne m hm hre
    obtain ⟨m', s₂, km, recordedMap, hm', hkm, hr, hwf, _, hrec, hok, hf, hmap⟩ :=
      remap_inserts hso.wellFormed hc.1 hc.2 hne hs
    cases hm.symm.trans hm'
    have heq : m.recordedMap = m.map := h.mappingOf hm
    by_contra hp
    have hoff : recordedMap.offset ≠ km.offset := by
      rw [hkm, hr, heq]
      exact fun heq => hp ((moved_eq_iff _ _ _).mp heq.symm hre)
    obtain ⟨e, he, hbad⟩ := mapAndCoalesce_offset hwf (hrec h) hok hf
      (by rw [hkm]; exact hre) (by
        rw [hkm, hr] at hoff ⊢
        simpa only [KernelMapping.setRange, KernelMapping.new, Nat.mod_mod] using hoff) hmap
    exact hbad (ha e he).offset
  | _ => trivial

theorem Recorded.agreesRun {calls : List Call} (hrec : ∀ c ∈ calls, c.Recording)
    (hwh : WholeRun calls s) : AgreesRun calls s := by
  induction calls generalizing s with
  | nil => exact h.agrees
  | cons c calls ih =>
    refine ⟨h.agrees, fun s' hs => ?_⟩
    obtain ⟨hw, hr⟩ := hwh s' hs
    exact ih (h.step (hrec c mem_cons_self) hw hs)
      (fun c hc => hrec c (mem_cons_of_mem _ hc)) hr

theorem Recorded.wholeRun (hso : s.Sound) {calls : List Call}
    (hrec : ∀ c ∈ calls, c.Recording) (hf : ∀ c ∈ calls, c.Fits)
    (hrun : AgreesRun calls s) : WholeRun calls s := by
  induction calls generalizing s with
  | nil => trivial
  | cons c calls ih =>
    intro s' hs
    have hr := hrun.2 s' hs
    have ha : s'.Agrees := by
      cases calls with
      | nil => exact hr
      | cons => exact hr.1
    have hw := h.whole hso (hf c mem_cons_self) hs ha
    exact ⟨hw, ih (h.step (hrec c mem_cons_self) hw hs)
      (hso.step (hf c mem_cons_self) hs)
      (fun c hc => hrec c (mem_cons_of_mem _ hc))
      (fun c hc => hf c (mem_cons_of_mem _ hc)) hr⟩

end

/-- The mappings agree as long as mappings of real devices are moved from their start on, and only
then. -/
theorem recorded_mappings_agree_iff (calls : List Call) (hrec : ∀ c ∈ calls, c.Recording) :
    (WholeRun calls {} → AgreesRun calls {}) ∧
      ((∀ c ∈ calls, c.Fits) → (AgreesRun calls {} ↔ WholeRun calls {})) := by
  have hem : ({} : AddressSpace).Recorded := fun e he => absurd he not_mem_nil
  have hso : ({} : AddressSpace).Sound := ⟨WellFormed.nil, by decide⟩
  refine ⟨hem.agreesRun hrec, fun hf => ?_⟩
  exact ⟨hem.wholeRun hso hrec hf, hem.agreesRun hrec⟩

/-- A file mapping that is split and then moved by its pieces. -/
theorem recorded_mappings_agree_iff_pieces : AgreesRun [.map 0x10000 0x3000
        { prot := 3, flags := mapPrivate, offsetBytes := 0x5000, fsname := "a".toList, device := 8,
          inode := 9 },
      .protect 0x11000 0x1000 1, .remap 0x11000 0x1000 0x20000 0x2000, .unmap 0x10000 0x800,
      .brk 0x30000 3, .remap 0x2f000 0x1000 0x40000 0x1000] {} := by
  apply (recorded_mappings_agree_iff _ (by decide)).1
  decide +kernel

/-- The second page of a file mapping is moved. -/
theorem moved_page_offset_lost : (run [.map 0x10000 0x2000
        { prot := 3, flags := mapPrivate, offsetBytes := 0, fsname := "a".toList, device := 8,
          inode := 9 },
      .remap 0x11000 0x1000 0x20000 0x1000] {}).map
        (fun s => s.mem.map fun e => (e.1.start, e.2.map.offset, e.2.recordedMap.offset)) =
      some [(0x10000, 0, 0), (0x20000, 0x1000, 0)] := by
  decide +kernel

end Runs

end AddressSpace

end Attune
