import Attune.LocalImages
import Attune.RecordedMappingRuns

namespace Attune
open List Option

namespace AddressSpace

/-- Two `map` calls whose pages may come to adjoin: same device and inode and, if real, same
distance of offset and address. -/
def MayAdjoin (addr₁ : Nat) (a₁ : MapArgs) (addr₂ : Nat) (a₂ : MapArgs) : Prop :=
  a₁.device = a₂.device ∧ a₁.inode = a₂.inode ∧
    (0 < a₁.device → (a₁.offsetBytes + addr₂) % 2 ^ 64 = (a₂.offsetBytes + addr₁) % 2 ^ 64)

instance : Decidable (MayAdjoin addr₁ a₁ addr₂ a₂) := inferInstanceAs (Decidable (_ ∧ _ ∧ (_ → _)))

/-- Two `map` calls have no local images, or images at the same distance from the mappings. -/
def SameImages (addr₁ : Nat) (a₁ : MapArgs) (addr₂ : Nat) (a₂ : MapArgs) : Prop :=
  (a₁.localAddr = 0 ∧ a₂.localAddr = 0) ∨ (a₁.localAddr ≠ 0 ∧ a₂.localAddr ≠ 0 ∧
    (a₁.localAddr + addr₂) % 2 ^ 64 = (a₂.localAddr + addr₁) % 2 ^ 64)

instance : Decidable (SameImages addr₁ a₁ addr₂ a₂) := inferInstanceAs (Decidable (_ ∨ _))

def maps : List Call → List (Nat × Nat × MapArgs)
  | [] => []
  | .map addr n a :: calls => (addr, n, a) :: maps calls
  | _ :: calls => maps calls

def SameFiles (calls : List Call) : Prop :=
  ∀ c₁ ∈ maps calls, ∀ c₂ ∈ maps calls, MayAdjoin c₁.1 c₁.2.2 c₂.1 c₂.2.2 →
    c₁.2.2.emuFile = c₂.2.2.emuFile

/-- No monitored memory, images inside the address space, and at the same distance for mappings
that may come to adjoin. -/
structure AlignedImages (calls : List Call) : Prop where
  monitored : ∀ c ∈ maps calls, c.2.2.monitored = none
  fits : ∀ c ∈ maps calls, c.2.2.localAddr ≠ 0 → c.2.2.localAddr + ceilPageSize c.2.1 < 2 ^ 64
  same : ∀ c₁ ∈ maps calls, ∀ c₂ ∈ maps calls, MayAdjoin c₁.1 c₁.2.2 c₂.1 c₂.2.2 →
    SameImages c₁.1 c₁.2.2 c₂.1 c₂.2.2

def Call.MapsOrSplits : Call → Prop
  | .map .. | .unmap .. | .protect .. => True
  | .remap .. | .brk .. => False

instance : (c : Call) → Decidable c.MapsOrSplits
  | .map .. | .unmap .. | .protect .. => inferInstanceAs (Decidable True)
  | .remap .. | .brk .. => inferInstanceAs (Decidable False)

/-- What an entry keeps of the `map` call that its first page comes from. -/
structure TracesTo (e : MemoryRange × Mapping) (addr : Nat) (a : MapArgs) : Prop where
  device : e.2.map.device = a.device
  inode : e.2.map.inode = a.inode
  offset : 0 < a.device → (e.2.map.offset + addr) % 2 ^ 64 = (a.offsetBytes + e.1.start) % 2 ^ 64
  emuFile : e.2.emuFile = a.emuFile
  monitored : e.2.monitored = none
  noImage : a.localAddr = 0 → e.2.localAddr = 0
  image : a.localAddr ≠ 0 → e.2.localAddr ≠ 0 ∧
    (e.2.localAddr + addr) % 2 ^ 64 = (a.localAddr + e.1.start) % 2 ^ 64

def Traced (calls : List Call) (e : MemoryRange × Mapping) : Prop :=
  ImageFits e ∧ ∃ c ∈ maps calls, TracesTo e c.1 c.2.2

variable {s s' : AddressSpace} {calls : List Call} {e x y : MemoryRange × Mapping}

theorem TracesTo.piece (h : TracesTo e addr a) (hf : ImageFits e) (hx : PieceOf e x) :
    TracesTo x addr a where
  device := hx.device.trans h.device
  inode := hx.inode.trans h.inode
  offset hr := by
    have hoff := h.offset hr
    have hst := hx.start
    rw [hx.offset (decide_eq_true (h.device ▸ hr))]
    omega
  emuFile := hx.emuFile.trans h.emuFile
  monitored := hx.monitored h.monitored
  noImage hz := hx.noImage (h.noImage hz)
  image hne := by
    obtain ⟨hl, heq⟩ := h.image hne
    have hst := hx.start
    rw [hx.image hl hf]
    omega

theorem TracesTo.merged (h : TracesTo first addr a) : TracesTo (mergedEntry first T) addr a where
  device := h.device
  inode := h.inode
  offset hr := by
    have hoff := h.offset hr
    show (first.2.map.offset % 2 ^ 64 + addr) % 2 ^ 64 = (a.offsetBytes + first.1.start) % 2 ^ 64
    omega
  emuFile := h.emuFile
  monitored := rfl
  noImage := h.noImage
  image := h.image

theorem traced_inherited : Inherited (Traced calls) := by
  apply Inherited.of_pieces
  · intro e x _ hp he
    obtain ⟨hf, c, hc, ht⟩ := he
    exact ⟨hf.piece hp, c, hc, ht.piece hf hp⟩
  · intro first T hwf hch hall
    obtain ⟨_, c, hc, ht⟩ := hall first mem_cons_self
    exact ⟨ImageFits.merged hwf hch fun x hx => (hall x hx).1, c, hc, ht.merged⟩

theorem TracesTo.mayAdjoin (hx : TracesTo x addr₁ a₁) (hy : TracesTo y addr₂ a₂)
    (hxok : EntryOk x) (hyok : EntryOk y) (h : isCoalescable x.2 y.2 = true) :
    MayAdjoin addr₁ a₁ addr₂ a₂ := by
  obtain ⟨_, _, _, hdev, hin, hoff⟩ := isAdjacentMapping_true (isCoalescable_true h).1
  have hne := hxok.nonempty
  have hend := adjoins_of_isCoalescable hxok hyok h
  rw [hx.device, hy.device] at hdev
  rw [hx.inode, hy.inode] at hin
  refine ⟨hdev, hin, fun hr => ?_⟩
  have ho₁ := hx.offset hr
  have ho₂ := hy.offset (hdev ▸ hr)
  have hn := hoff (by rw [hx.device]; exact hr)
  rw [hxok.map_size] at hn
  omega

theorem traced_asserting (hf : SameFiles calls) (him : AlignedImages calls) :
    Asserting (Traced calls) := by
  intro mem hwf hall x hx y hy hc
  obtain ⟨hfi, c₁, hc₁, ht₁⟩ := hall x hx
  obtain ⟨_, c₂, hc₂, ht₂⟩ := hall y hy
  have hxok := hwf.entries x hx
  have hyok := hwf.entries y hy
  have ha := ht₁.mayAdjoin ht₂ hxok hyok hc
  have hemu : x.2.emuFile = y.2.emuFile := by
    rw [ht₁.emuFile, ht₂.emuFile]
    exact hf c₁ hc₁ c₂ hc₂ ha
  have hl : (x.2.localAddr = 0 ∧ y.2.localAddr = 0) ∨
      ptrAdd x.2.localAddr x.2.map.size = y.2.localAddr := by
    rcases him.same c₁ hc₁ c₂ hc₂ ha with ⟨h₁, h₂⟩ | ⟨h₁, h₂, hsa⟩
    · exact Or.inl ⟨ht₁.noImage h₁, ht₂.noImage h₂⟩
    right
    obtain ⟨hx0, hxi⟩ := ht₁.image h₁
    obtain ⟨hy0, hyi⟩ := ht₂.image h₂
    have hend := adjoins_of_isCoalescable hxok hyok hc
    have hne := hxok.nonempty
    have hfit := hfi hx0
    have hf' := (hall y hy).1 hy0
    rw [hxok.map_size, ptrAdd_eq hfit]
    omega
  simp only [assertCoalesceable, hemu, (isCoalescable_true hc).2, ht₁.monitored,
    ht₂.monitored, isNone_none, decide_true, Bool.and_true, Bool.true_and,
    Bool.or_eq_true, decide_eq_true_eq]
  exact hl

theorem traced_new (him : AlignedImages calls) (hc : (addr, n, a) ∈ maps calls) :
    Traced calls (a.entry addr (ceilPageSize n)) := by
  refine ⟨?_, (addr, n, a), hc, ⟨rfl, rfl, fun _ => ?_, rfl, him.monitored _ hc, id, ?_⟩⟩
  · intro hl
    have hf := him.fits _ hc hl
    show a.localAddr + (addr + ceilPageSize n - addr) < 2 ^ 64
    rw [Nat.add_sub_cancel_left]
    exact hf
  · show (a.offsetBytes % 2 ^ 64 + addr) % 2 ^ 64 = (a.offsetBytes + addr) % 2 ^ 64
    omega
  · exact fun hl => ⟨hl, rfl⟩

theorem run_isSome (hf : SameFiles calls) (him : AlignedImages calls)
    {rest : List Call} (hr : maps rest ⊆ maps calls)
    (hca : ∀ c ∈ rest, c.Fits ∧ c.MapsOrSplits) (h : Holds (Traced calls) s) :
    (run rest s).isSome = true := by
  induction rest generalizing s with
  | nil => rfl
  | cons c rest ih =>
    obtain ⟨hfi, hk⟩ := hca c mem_cons_self
    have ht : maps rest ⊆ maps calls := by
      cases c with
      | map addr n a => exact fun x hx => hr (mem_cons_of_mem _ hx)
      | _ => exact hr
    have hst : Leads (Traced calls) (s.step c) := by
      cases c with
      | map addr n a =>
        exact traced_inherited.map h hfi fun _ =>
          traced_new him (hr mem_cons_self)
      | unmap addr n => exact traced_inherited.unmap h hfi
      | protect addr n prot => exact traced_inherited.protect h hfi
      | remap | brk => exact hk.elim
    obtain ⟨s', hs'⟩ := isSome_iff_exists.mp
      (hst.returns (traced_asserting hf him))
    rw [run, hs']
    exact ih ht (fun c hc => hca c (mem_cons_of_mem _ hc)) (hst.result s' hs')

end AddressSpace

end Attune
