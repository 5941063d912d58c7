import Attune.LocalRelease

namespace Attune
open Segments List Option

def images : Layout (MemoryRange × Mapping) (Option Nat) where
  lo e := e.1.start
  hi e := e.1.end_
  val e p := if e.2.localAddr = 0 then none else some (e.2.localAddr + (p - e.1.start))

/-- An entry whose local bytes are as given, and that has an image unless its file has none. -/
structure Imaged (img : Nat → Option Nat) (bare : Nat → Nat → Prop) (e : MemoryRange × Mapping) :
    Prop where
  fits : ImageFits e
  image : ∀ p, e.1.start ≤ p → p < e.1.end_ → img p = images.val e p
  bare : e.2.localAddr = 0 ↔ bare e.2.map.device e.2.map.inode

section Inherited

variable {img : Nat → Option Nat} {bare : Nat → Nat → Prop} {e x y first : MemoryRange × Mapping}
  {T : MemoryMap}

theorem Imaged.piece (h : Imaged img bare e) (hx : PieceOf e x) : Imaged img bare x := by
  have hst := hx.start
  have hend := hx.end_
  by_cases hl : e.2.localAddr = 0
  · have hxl := hx.noImage hl
    refine ⟨h.fits.piece hx, ?_, ?_⟩
    · intro p hlo hhi
      rw [h.image p (by omega) (by omega)]
      simp only [images, if_pos hl, if_pos hxl]
    · rw [hx.device, hx.inode, ← h.bare]
      exact ⟨fun _ => hl, fun _ => hxl⟩
  · have hxi := hx.image hl h.fits
    have hxl : x.2.localAddr ≠ 0 := by omega
    refine ⟨h.fits.piece hx, ?_, ?_⟩
    · intro p hlo hhi
      rw [h.image p (by omega) (by omega)]
      simp only [images, if_neg hl, if_neg hxl, some.injEq]
      omega
    · rw [hx.device, hx.inode, ← h.bare]
      exact ⟨fun hz => absurd hz hxl, fun hz => absurd hz hl⟩

theorem file_of_run (hchain : (first :: T).IsChain Mergeable) : ∀ x ∈ first :: T,
      x.2.map.device = first.2.map.device ∧ x.2.map.inode = first.2.map.inode := by
  induction T generalizing first with
  | nil =>
    intro x hx
    rw [mem_singleton.mp hx]
    exact ⟨rfl, rfl⟩
  | cons y T ih =>
    obtain ⟨hm, hr⟩ := isChain_cons_cons.mp hchain
    obtain ⟨_, _, _, hdev, hino, _⟩ := isAdjacentMapping_true (isCoalescable_true hm.1).1
    intro x hx
    cases mem_cons.mp hx with
    | inl heq =>
      rw [heq]
      exact ⟨rfl, rfl⟩
    | inr hin =>
      obtain ⟨h1, h2⟩ := ih hr x hin
      exact ⟨h1.trans hdev.symm, h2.trans hino.symm⟩

section

variable (hwf : WellFormed (first :: T)) (hchain : (first :: T).IsChain Mergeable)
include hwf hchain

theorem exists_covers_of_run (hlo : first.1.start ≤ p)
    (hhi : p < ((first :: T).getLast (cons_ne_nil first T)).1.end_) :
    ∃ x ∈ first :: T, x.1.start ≤ p ∧ p < x.1.end_ := by
  have hj := hwf.isChain_joined (hchain.imp fun _ _ h => h.1)
  have hv := (Layout.view_run (p := p) hj
    fun y hy => Nat.le_of_lt (hwf.entries y hy).nonempty).2
  by_contra hn
  have he : pages.view (first :: T) p = none :=
    Layout.view_eq_none fun x hx hc => hn ⟨x, hx, hc⟩
  rw [he] at hv
  exact nomatch hv.trans (if_pos ⟨hlo, hhi⟩)

theorem Imaged.merged
    (hall : ∀ x ∈ first :: T, Imaged img bare x) : Imaged img bare (mergedEntry first T) := by
  have hfi := fun x hx => (hall x hx).fits
  have hf := hall first mem_cons_self
  refine ⟨ImageFits.merged hwf hchain hfi, ?_, hf.bare⟩
  intro p hlo hhi
  obtain ⟨x, hx, hxlo, hxhi⟩ := exists_covers_of_run hwf hchain hlo hhi
  have hp : first.1.start ≤ p := hlo
  rw [(hall x hx).image p hxlo hxhi]
  show images.val x p =
    if first.2.localAddr = 0 then none else some (first.2.localAddr + (p - first.1.start))
  by_cases hl : first.2.localAddr = 0
  · have hxl : x.2.localAddr = 0 := by
      obtain ⟨hdev, hin⟩ := file_of_run hchain x hx
      rw [(hall x hx).bare, hdev, hin, ← hf.bare]
      exact hl
    simp only [images, if_pos hl, if_pos hxl]
  · obtain ⟨hle, him⟩ := image_of_run hwf hchain hfi hl x hx
    have hxl : x.2.localAddr ≠ 0 := by omega
    simp only [images, if_neg hl, if_neg hxl, some.injEq]
    omega

end

theorem imaged_inherited : Inherited (Imaged img bare) :=
  .of_pieces (fun _ _ _ hp he => he.piece hp) fun _ _ => Imaged.merged

end Inherited

namespace AddressSpace

inductive LocalCall where
  | detach (addr : Nat)
  | protect (addr numBytes : Nat) (prot : BitVec 32)
  | unmap (addr numBytes : Nat)
  deriving DecidableEq

def LocalCall.Fits : LocalCall → Prop
  | .detach _ => True
  | .protect addr n _ => FitsRange addr n
  | .unmap addr n => FitsRange addr n

instance LocalCall.decidableFits : (c : LocalCall) → Decidable c.Fits
  | .detach _ => inferInstanceAs (Decidable True)
  | .protect addr n _ => inferInstanceAs (Decidable (FitsRange addr n))
  | .unmap addr n => inferInstanceAs (Decidable (FitsRange addr n))

section

variable (s : AddressSpace)

def localStep : LocalCall → Option AddressSpace
  | .detach addr => (s.detachLocalMapping addr).map Prod.fst
  | .protect addr n prot => s.protect addr n prot
  | .unmap addr n => s.unmap addr n

abbrev Detached := List (MemoryRange × Nat)

def detachedBy (c : LocalCall) (detached : Detached) : Detached :=
  match c with
  | .detach addr =>
    match s.mappingOf addr, s.detachLocalMapping addr with
    | some m, some (_, p) => if p ≠ 0 then (m.map.toMemoryRange, p) :: detached else detached
    | _, _ => detached
  | _ => detached

def Shares (i j : Nat × Nat) : Prop :=
  ∃ v, (i.1 ≤ v ∧ v < i.1 + i.2) ∧ j.1 ≤ v ∧ v < j.1 + j.2

/-- What an unmapping should release: the images of what it removes, none twice and none given away.
-/
structure ReleasesExactly (s s' : AddressSpace) (addr size : Nat) (detached : Detached) :
    Prop where
  images : s'.released = s.released ++ s.imageParts addr (addr + size)
  once : s'.released.Pairwise fun i j => ¬Shares i j
  kept : ∀ i ∈ s.imageParts addr (addr + size), ∀ d ∈ detached,
    ¬Shares i (d.2, d.1.end_ - d.1.start)

def ReleasesRun : List LocalCall → AddressSpace → Detached → Prop
  | [], _, _ => True
  | c :: calls, s, detached => ∀ s' ∈ s.localStep c,
    (∀ addr n, c = .unmap addr n → ReleasesExactly s s' addr (ceilPageSize n) detached) ∧
      ReleasesRun calls s' (s.detachedBy c detached)

/-- An unmapping that ends inside the images it meets and leaves alone what has been detached. -/
def ReleaseOk (detached : Detached) : LocalCall → Prop
  | .unmap addr n => EndsInside s.mem addr (addr + ceilPageSize n) ∧
      ∀ d ∈ detached, ¬max addr d.1.start < min (addr + ceilPageSize n) d.1.end_
  | _ => True

instance (detached : Detached) : (c : LocalCall) → Decidable (s.ReleaseOk detached c)
  | .unmap .. => inferInstanceAs (Decidable (_ ∧ ∀ d ∈ detached, ¬_))
  | .detach _ | .protect .. => inferInstanceAs (Decidable True)

end

def ReleaseOkRun : List LocalCall → AddressSpace → Detached → Prop
  | [], _, _ => True
  | c :: calls, s, detached => ∀ s' ∈ s.localStep c,
    s.ReleaseOk detached c ∧ ReleaseOkRun calls s' (s.detachedBy c detached)

instance decidableReleaseOkRun : (calls : List LocalCall) → (s : AddressSpace) →
    (detached : Detached) → Decidable (ReleaseOkRun calls s detached)
  | [], _, _ => .isTrue trivial
  | c :: calls, s, detached =>
    have := decidableReleaseOkRun calls
    inferInstanceAs (Decidable (∀ s' ∈ s.localStep c,
      s.ReleaseOk detached c ∧ ReleaseOkRun calls s' (s.detachedBy c detached)))

/-- Local images lie in the address space and apart, mappings of one file all have one or none, and
none is released. -/
structure LocalMappings (s : AddressSpace) : Prop where
  wellFormed : WellFormed s.mem
  fits : ∀ x ∈ s.mem, ImageFits x
  apart : ∀ x ∈ s.mem, ∀ y ∈ s.mem, x ≠ y → x.2.localAddr ≠ 0 → y.2.localAddr ≠ 0 →
    ¬Shares (x.2.localAddr, x.1.end_ - x.1.start) (y.2.localAddr, y.1.end_ - y.1.start)
  byFile : ∀ x ∈ s.mem, ∀ y ∈ s.mem, x.2.map.device = y.2.map.device →
    x.2.map.inode = y.2.map.inode → (x.2.localAddr = 0 ↔ y.2.localAddr = 0)
  released : s.released = []

section Bytes

variable {img : Nat → Option Nat} {bare : Nat → Nat → Prop} {s s' : AddressSpace}
  {x : MemoryRange × Mapping}

theorem imagePart_byte (hx : Imaged img bare x) (hi : imagePart a b x = some i) (hlo : i.1 ≤ v)
    (hhi : v < i.1 + i.2) :
    ∃ q, max a x.1.start ≤ q ∧ q < min b x.1.end_ ∧ img q = some v := by
  rw [imagePart] at hi
  split at hi
  · next hm =>
    cases hi
    dsimp only at hlo hhi
    refine ⟨x.1.start + (v - x.2.localAddr), by omega, by omega, ?_⟩
    rw [hx.image _ (by omega) (by omega)]
    simp only [images, if_neg hm.1, some.injEq]
    omega
  · cases hi

theorem byte_imagePart (hx : Imaged img bare x) (hq : img q = some v) (ha : a ≤ q) (hb : q < b)
    (hlo : x.1.start ≤ q) (hhi : q < x.1.end_) :
    ∃ i, imagePart a b x = some i ∧ i.1 ≤ v ∧ v < i.1 + i.2 := by
  rw [hx.image q hlo hhi] at hq
  by_cases hl : x.2.localAddr = 0
  · simp only [images, if_pos hl] at hq
    cases hq
  · simp only [images, if_neg hl, some.injEq] at hq
    refine ⟨_, if_pos ⟨hl, by omega⟩, ?_⟩
    dsimp only
    omega

theorem exists_covers (h : pages.view l q ≠ none) : ∃ x ∈ l, x.1.start ≤ q ∧ q < x.1.end_ := by
  by_contra hn
  exact h (Layout.view_eq_none fun x hx hc => hn ⟨x, hx, hc⟩)

theorem view_ne_none (hwf : WellFormed l) (hx : x ∈ l) (hlo : x.1.start ≤ q)
    (hhi : q < x.1.end_) : pages.view l q ≠ none := by
  rw [hwf.ordered.view_of_mem hx ⟨hlo, hhi⟩]
  exact nofun

theorem imageParts_byte (h : Holds (Imaged img bare) s) (hi : i ∈ s.imageParts a b)
    (hlo : i.1 ≤ v) (hhi : v < i.1 + i.2) :
    ∃ q, a ≤ q ∧ q < b ∧ img q = some v ∧ pages.view s.mem q ≠ none := by
  obtain ⟨x, hx, hp⟩ := mem_filterMap.mp hi
  obtain ⟨q, hqlo, hqhi, hq⟩ := imagePart_byte (h.entries x hx) hp hlo hhi
  exact ⟨q, by omega, by omega, hq, view_ne_none h.wellFormed hx (by omega) (by omega)⟩

theorem byte_imageParts (h : Holds (Imaged img bare) s) (hq : img q = some v) (ha : a ≤ q)
    (hb : q < b) (hm : pages.view s.mem q ≠ none) :
    ∃ i ∈ s.imageParts a b, i.1 ≤ v ∧ v < i.1 + i.2 := by
  obtain ⟨x, hx, hlo, hhi⟩ := exists_covers hm
  obtain ⟨i, hp, hby⟩ := byte_imagePart (h.entries x hx) hq ha hb hlo hhi
  exact ⟨i, mem_filterMap.mpr ⟨x, hx, hp⟩, hby⟩

def OneToOne (img : Nat → Option Nat) : Prop :=
  ∀ p q v, img p = some v → img q = some v → p = q

theorem imageParts_once (himg : OneToOne img) (h : Holds (Imaged img bare) s) :
    (s.imageParts a b).Pairwise fun i j => ¬Shares i j := by
  rw [imageParts, pairwise_filterMap]
  apply h.wellFormed.ordered.imp_of_mem
  rintro x y hx hy hle i hi j hj ⟨v, ⟨hilo, hihi⟩, hjlo, hjhi⟩
  obtain ⟨p, _, hp, hpv⟩ := imagePart_byte (h.entries x hx) hi hilo hihi
  obtain ⟨q, hq, _, hqv⟩ := imagePart_byte (h.entries y hy) hj hjlo hjhi
  have heq := himg p q v hpv hqv
  have hle' : x.1.end_ ≤ y.1.start := hle
  omega

end Bytes

section Steps

variable {img : Nat → Option Nat} {bare : Nat → Nat → Prop} {s s' : AddressSpace}
  {detached : Detached}

/-- Between calls: local bytes are those of the beginning, released ones are unmapped, detached ones
still mapped. -/
structure RunInv (img : Nat → Option Nat) (bare : Nat → Nat → Prop) (s : AddressSpace)
    (detached : Detached) : Prop where
  holds : Holds (Imaged img bare) s
  released : ∀ i ∈ s.released, ∀ v, i.1 ≤ v → v < i.1 + i.2 →
    ∃ q, img q = some v ∧ pages.view s.mem q = none
  once : s.released.Pairwise fun i j => ¬Shares i j
  detached : ∀ d ∈ detached, ∀ q, d.1.start ≤ q → q < d.1.end_ →
    img q = some (d.2 + (q - d.1.start)) ∧ pages.view s.mem q ≠ none

theorem unmap_view (hwf : WellFormed s.mem) (hfit : FitsRange addr n)
    (hs : s.unmap addr n = some s') (p : Nat) : pages.view s'.mem p =
      if addr ≤ p ∧ p < addr + ceilPageSize n then none else pages.view s.mem p := by
  obtain ⟨ha, hn, _, hb⟩ := PageTable.FitsRange.ceil hfit
  have hg : Good False s.brkEnd (pages.view s.mem) s := ⟨hwf, ⟨rfl, False.elim⟩, fun _ => rfl⟩
  exact ((unmap_good hg ha hn hb).result s' hs).view p

theorem RunInv.unmap_releasesExactly (himg : OneToOne img) (h : RunInv img bare s detached)
    (hok : s.ReleaseOk detached (.unmap addr n))
    (hlog : s'.released = s.released ++ s.imageParts addr (addr + ceilPageSize n)) :
    ReleasesExactly s s' addr (ceilPageSize n) detached := by
  refine ⟨hlog, ?_, ?_⟩
  · rw [hlog, pairwise_append]
    refine ⟨h.once, imageParts_once himg h.holds, ?_⟩
    rintro i hi j hj ⟨v, ⟨hilo, hihi⟩, hjlo, hjhi⟩
    -- an earlier byte belongs to an address that is no longer mapped
    obtain ⟨p, hp, hg⟩ := h.released i hi v hilo hihi
    obtain ⟨q, _, _, hq, hm⟩ := imageParts_byte h.holds hj hjlo hjhi
    rw [himg p q v hp hq] at hg
    exact hm hg
  · rintro i hi d hd ⟨v, ⟨hilo, hihi⟩, hdlo, hdhi⟩
    dsimp only at hdlo hdhi
    obtain ⟨q, hqlo, hqhi, hq, _⟩ := imageParts_byte h.holds hi hilo hihi
    obtain ⟨hp, _⟩ := h.detached d hd (d.1.start + (v - d.2)) (by omega) (by omega)
    have heq := himg q _ v hq (hp.trans (by rw [some.injEq]; omega))
    apply hok.2 d hd
    omega

theorem RunInv.unmap_iff (himg : OneToOne img) (h : RunInv img bare s detached)
    (hfit : FitsRange addr n) (hs : s.unmap addr n = some s') :
    ReleasesExactly s s' addr (ceilPageSize n) detached ↔
      s.ReleaseOk detached (.unmap addr n) := by
  obtain ⟨s₁, hs₁, hiff⟩ := unmap_releases h.holds.wellFormed
    (fun x hx => (h.holds.entries x hx).fits) hfit
  cases hs.symm.trans hs₁
  constructor
  · intro he
    refine ⟨hiff.mp he.images, ?_⟩
    intro d hd hme
    obtain ⟨him, hm⟩ := h.detached d hd (max addr d.1.start) (by omega) (by omega)
    obtain ⟨i, hi, hilo, hihi⟩ := byte_imageParts h.holds him (Nat.le_max_left _ _)
      (show max addr d.1.start < addr + ceilPageSize n by omega) hm
    apply he.kept i hi d hd
    refine ⟨_, ⟨hilo, hihi⟩, ?_, ?_⟩
    · dsimp only
      omega
    · dsimp only
      omega
  · intro hok
    exact h.unmap_releasesExactly himg hok (hiff.mpr hok.1)

variable (h : RunInv img bare s detached)
include h

theorem RunInv.unmap (hfit : FitsRange addr n)
    (hs : s.unmap addr n = some s') (he : ReleasesExactly s s' addr (ceilPageSize n) detached)
    (hok : s.ReleaseOk detached (.unmap addr n)) : RunInv img bare s' detached := by
  have hv := unmap_view h.holds.wellFormed hfit hs
  refine ⟨(imaged_inherited.unmap h.holds hfit).result s' hs, ?_, he.once, ?_⟩
  · intro i hi v hlo hhi
    rw [he.images] at hi
    rcases mem_append.mp hi with hold | hnew
    · obtain ⟨q, hq, hg⟩ := h.released i hold v hlo hhi
      refine ⟨q, hq, ?_⟩
      rw [hv q, hg, ite_self]
    · obtain ⟨q, hqlo, hqhi, hq, _⟩ := imageParts_byte h.holds hnew hlo hhi
      refine ⟨q, hq, ?_⟩
      rw [hv q, if_pos ⟨hqlo, hqhi⟩]
  · intro d hd q hlo hhi
    obtain ⟨him, hm⟩ := h.detached d hd q hlo hhi
    have ha := hok.2 d hd
    refine ⟨him, ?_⟩
    rw [hv q, if_neg (by omega)]
    exact hm

theorem RunInv.protect (hfit : FitsRange addr n)
    (hs : s.protect addr n prot = some s') : RunInv img bare s' detached := by
  obtain ⟨hlog, hv⟩ := protect_view_eq_none h.holds.wellFormed hfit.1
    (PageTable.FitsRange.region hfit).1 hs
  refine ⟨(imaged_inherited.protect h.holds hfit).result s' hs, ?_, ?_, ?_⟩
  · intro i hi v hlo hhi
    rw [hlog] at hi
    obtain ⟨q, hq, hg⟩ := h.released i hi v hlo hhi
    exact ⟨q, hq, (hv q).mpr hg⟩
  · rw [hlog]
    exact h.once
  · intro d hd q hlo hhi
    obtain ⟨him, hm⟩ := h.detached d hd q hlo hhi
    exact ⟨him, fun hn => hm ((hv q).mp hn)⟩

theorem RunInv.detach (hs : s.localStep (.detach addr) = some s') :
    RunInv img bare s' (s.detachedBy (.detach addr) detached) := by
  rw [localStep, detachLocalMapping, Option.map_map] at hs
  obtain ⟨m, hm, rfl⟩ := map_eq_some_iff.mp hs
  rw [detachedBy, detachLocalMapping, hm]
  dsimp only [map_some]
  split
  · next hl =>
    refine ⟨h.holds, h.released, h.once, ?_⟩
    rw [mappingOf] at hm
    obtain ⟨e, hf, rfl⟩ := map_eq_some_iff.mp hm
    obtain ⟨A, B, hmem, _⟩ := OrderedMap.find_some_split hf
    have he : e ∈ s.mem := by
      rw [hmem]
      exact mem_append_right A mem_cons_self
    intro d hd q hlo hhi
    rcases mem_cons.mp hd with rfl | hd
    · dsimp only at hlo hhi ⊢
      rw [← (h.holds.wellFormed.entries e he).key] at hlo hhi ⊢
      refine ⟨?_, view_ne_none h.holds.wellFormed he hlo hhi⟩
      rw [(h.holds.entries e he).image q hlo hhi]
      exact if_neg hl
    · exact h.detached d hd q hlo hhi
  · exact h

end Steps

section Runs

variable {img : Nat → Option Nat} {bare : Nat → Nat → Prop} {s s' : AddressSpace}
  {detached : Detached}

theorem RunInv.run_iff (himg : OneToOne img) (h : RunInv img bare s detached)
    {calls : List LocalCall} (hf : ∀ c ∈ calls, c.Fits) :
    ReleasesRun calls s detached ↔ ReleaseOkRun calls s detached := by
  induction calls generalizing s detached with
  | nil => exact Iff.rfl
  | cons c calls ih =>
    have hf' := fun c hc => hf c (mem_cons_of_mem _ hc)
    have hfit := hf c mem_cons_self
    rw [ReleasesRun, ReleaseOkRun]
    apply forall_congr'
    intro s'
    apply forall_congr'
    intro hs
    cases c with
    | detach addr =>
      rw [ih (h.detach hs) hf']
      exact ⟨fun hr => ⟨trivial, hr.2⟩, fun hr => ⟨nofun, hr.2⟩⟩
    | protect addr n prot =>
      have h' : RunInv img bare s' detached := h.protect hfit hs
      have hre := ih h' hf'
      exact ⟨fun hr => ⟨trivial, hre.mp hr.2⟩, fun hr => ⟨nofun, hre.mpr hr.2⟩⟩
    | unmap addr n =>
      have hiff := h.unmap_iff himg hfit hs
      constructor
      · rintro ⟨he, hr⟩
        have hok := hiff.mp (he addr n rfl)
        have h' : RunInv img bare s' detached := h.unmap hfit hs (he addr n rfl) hok
        exact ⟨hok, (ih h' hf').mp hr⟩
      · rintro ⟨hok, hr⟩
        have he := hiff.mpr hok
        have h' : RunInv img bare s' detached := h.unmap hfit hs he hok
        refine ⟨?_, (ih h' hf').mpr hr⟩
        intro addr' n' heq
        cases heq
        exact he

def imageOf (mem : MemoryMap) (p : Nat) : Option Nat := (images.view mem p).join

section

variable (h : s.LocalMappings)
include h

theorem LocalMappings.imageOf_eq (hx : x ∈ s.mem) (hlo : x.1.start ≤ p)
    (hhi : p < x.1.end_) : imageOf s.mem p = images.val x p := by
  have ho : images.Ordered s.mem := h.wellFormed.ordered
  rw [imageOf, ho.view_of_mem hx ⟨hlo, hhi⟩]
  rfl

theorem LocalMappings.exists_of_imageOf (hp : imageOf s.mem p = some v) :
    ∃ x ∈ s.mem, x.1.start ≤ p ∧ p < x.1.end_ ∧ x.2.localAddr ≠ 0 ∧
      v = x.2.localAddr + (p - x.1.start) := by
  have hco : ∃ x ∈ s.mem, x.1.start ≤ p ∧ p < x.1.end_ := by
    by_contra hn
    have he : images.view s.mem p = none :=
      Layout.view_eq_none fun x hx hc => hn ⟨x, hx, hc⟩
    rw [imageOf, he] at hp
    cases hp
  obtain ⟨x, hx, hlo, hhi⟩ := hco
  rw [h.imageOf_eq hx hlo hhi] at hp
  by_cases hl : x.2.localAddr = 0
  · simp only [images, if_pos hl] at hp
    cases hp
  · simp only [images, if_neg hl, some.injEq] at hp
    exact ⟨x, hx, hlo, hhi, hl, hp.symm⟩

theorem LocalMappings.oneToOne : OneToOne (imageOf s.mem) := by
  intro p q v hp hq
  obtain ⟨x, hx, hxlo, hxhi, hxl, hxv⟩ := h.exists_of_imageOf hp
  obtain ⟨y, hy, hylo, hyhi, hyl, hyv⟩ := h.exists_of_imageOf hq
  by_cases heq : x = y
  · subst heq
    omega
  · apply False.elim
    apply h.apart x hx y hy heq hxl hyl
    refine ⟨v, ⟨?_, ?_⟩, ?_, ?_⟩
    all_goals dsimp only
    all_goals omega

theorem LocalMappings.runInv : RunInv (imageOf s.mem)
    (fun d i => ∀ x ∈ s.mem, x.2.map.device = d → x.2.map.inode = i → x.2.localAddr = 0) s [] := by
  refine ⟨⟨h.wellFormed, fun x hx => ⟨h.fits x hx, fun p => h.imageOf_eq hx, ?_, ?_⟩⟩, ?_, ?_, ?_⟩
  · intro hl y hy hdev hin
    exact (h.byFile y hy x hx hdev hin).mpr hl
  · exact fun hb => hb x hx rfl rfl
  · rw [h.released]
    exact fun i hi => absurd hi not_mem_nil
  · rw [h.released]
    exact List.Pairwise.nil
  · exact fun d hd => absurd hd not_mem_nil

end

/-- Each unmapping releases the local images it removes, once, exactly when it ends inside the
images it meets and spares detached ones. -/
theorem local_images_released_iff (s : AddressSpace) (hs : s.LocalMappings)
    (calls : List LocalCall) (hfits : ∀ c ∈ calls, c.Fits) :
    ReleasesRun calls s [] ↔ ReleaseOkRun calls s [] :=
  hs.runInv.run_iff hs.oneToOne hfits

def imageMapping : Mapping :=
  { map := ⟨⟨0x10000, 0x13000⟩, "a".toList, 8, 9, 3, mapShared, 0⟩
    recordedMap := ⟨⟨0x10000, 0x13000⟩, "a".toList, 8, 9, 3, mapShared, 0⟩
    localAddr := 0x70000 }

/-- The middle page and then half of the last one go, what is left is detached. -/
theorem local_images_released_iff_pages :
    ReleasesRun [.unmap 0x11000 0x1000, .protect 0x12000 0x1000 1, .unmap 0x12000 0x800,
      .detach 0x10000, .protect 0x10000 0x1000 1]
      { mem := [(⟨0x10000, 0x13000⟩, imageMapping)] } [] := by
  refine (local_images_released_iff _ ⟨?_, ?_, ?_, ?_, rfl⟩ _ (by decide)).mpr (by decide +kernel)
  · exact WellFormed.singleton ⟨rfl, by decide, by decide, by decide, by decide, by decide⟩
  · intro x hx _
    rw [mem_singleton.mp hx]
    decide
  · intro x hx y hy hne
    exact absurd ((mem_singleton.mp hx).trans (mem_singleton.mp hy).symm) hne
  · intro x hx y hy _ _
    rw [mem_singleton.mp hx, mem_singleton.mp hy]

/-- A detached image is released all the same, and a range behind the mapping releases bytes behind
its image. -/
theorem detached_image_released :
    ((({ mem := [(⟨0x10000, 0x13000⟩, imageMapping)] } : AddressSpace).detachLocalMapping
        0x10000).bind fun (s, p) => (s.unmap 0x10000 0x3000).map fun s' => (p, s'.released)) =
      some (0x70000, [(0x70000, 0x3000)]) ∧
    (({ mem := [(⟨0x10000, 0x13000⟩, imageMapping)] } : AddressSpace).unmap 0x12000 0x3000).map
      AddressSpace.released = some [(0x72000, 0x3000)] := by
  decide +kernel

end Runs

end AddressSpace

end Attune
