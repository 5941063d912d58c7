import Attune.LocalImages

namespace Attune
open List Option

namespace AddressSpace

/-- Gives a mapping's local address away; the address is cleared in a copy, the map keeps its own.
-/
def detachLocalMapping (s : AddressSpace) (addr : Nat) : Option (AddressSpace × Nat) :=
  (s.mappingOf addr).map fun m => (s, m.localAddr)

def imagePart (a b : Nat) (e : MemoryRange × Mapping) : Option (Nat × Nat) :=
  if e.2.localAddr ≠ 0 ∧ max a e.1.start < min b e.1.end_ then
    some (e.2.localAddr + (max a e.1.start - e.1.start), min b e.1.end_ - max a e.1.start)
  else none

def imageParts (s : AddressSpace) (a b : Nat) : List (Nat × Nat) := s.mem.filterMap (imagePart a b)

def releases (a b : Nat) : Nat → MemoryMap → List (Nat × Nat)
  | _, [] => []
  | last, e :: B =>
    if Visits .iterateDefault a b last e then
      logRelease [] e ⟨last, b⟩ ++ releases a b e.1.end_ B
    else []

theorem walkFold_logRelease (log : List (Nat × Nat)) :
    walkFold logRelease .iterateDefault a b last log B = log ++ releases a b last B := by
  induction B generalizing last log with
  | nil => exact (append_nil log).symm
  | cons e B ih =>
    have hlog : logRelease log e ⟨last, b⟩ = log ++ logRelease [] e ⟨last, b⟩ := by
      simp only [logRelease]
      split
      · rfl
      · exact (append_nil log).symm
    rw [walkFold, releases]
    split
    · rw [ih, hlog, append_assoc]
    · exact (append_nil log).symm

/-- The walk reaches each mapping with a local image at its start, or begins inside it, and does
not go on behind it. -/
def ReleasesFrom (a b : Nat) : Nat → MemoryMap → Prop
  | _, [] => True
  | last, e :: B =>
    if Visits .iterateDefault a b last e then
      (e.2.localAddr ≠ 0 → b ≤ e.1.end_ ∧ e.1.start ≤ last) ∧ ReleasesFrom a b e.1.end_ B
    else True

structure Reached (mem : MemoryMap) (a last : Nat) (B : MemoryMap) : Prop where
  walkOk : WalkOk last B
  start : a ≤ last
  sub : B ⊆ mem
  behind : ∀ y ∈ mem, y ∈ B ∨ y.1.end_ ≤ last
  first : last = a ∨ ((∃ y ∈ mem, y.1.end_ = last) ∧ ∀ x ∈ B, last ≤ x.1.start)

section Walk

variable {mem B : MemoryMap} {e : MemoryRange × Mapping} {a b last : Nat}

section

variable (h : Reached mem a last (e :: B))
include h

theorem Reached.tail : Reached mem a e.1.end_ B := by
  have ha := h.walkOk.after e mem_cons_self
  have hc : WellFormed ([e] ++ B) := h.walkOk.wellFormed
  refine ⟨h.walkOk.tail, Nat.le_trans h.start (Nat.le_of_lt ha),
    fun x hx => h.sub (mem_cons_of_mem e hx), ?_, ?_⟩
  · intro y hy
    rcases h.behind y hy with hin | hle
    · rcases mem_cons.mp hin with rfl | hin
      · exact Or.inr (Nat.le_refl _)
      · exact Or.inl hin
    · exact Or.inr (Nat.le_trans hle (Nat.le_of_lt ha))
  · exact Or.inr ⟨⟨e, h.sub mem_cons_self, rfl⟩,
      fun x hx => hc.between mem_cons_self hx⟩

/-- The walk reaches an entry at its start when the region begins in it, or another entry ends
there. -/
theorem Reached.start_le_iff :
    e.1.start ≤ last ↔ e.1.start ≤ a ∨ ∃ y ∈ mem, y.1.end_ = e.1.start := by
  have hc : WellFormed ([e] ++ B) := h.walkOk.wellFormed
  have hne := (hc.entries e mem_cons_self).nonempty
  constructor
  · intro hle
    rcases h.first with heq | ⟨⟨y, hy, hend⟩, hst⟩
    · exact Or.inl (heq ▸ hle)
    · have := hst e mem_cons_self
      exact Or.inr ⟨y, hy, by omega⟩
  · rintro (hle | ⟨y, hy, hend⟩)
    · exact Nat.le_trans hle h.start
    · rcases h.behind y hy with hin | hle
      · rcases mem_cons.mp hin with rfl | hin
        · omega
        · have h1 := hc.between mem_cons_self hin
          have h2 := (hc.right.entries y hin).nonempty
          omega
      · omega

theorem Reached.visits_iff (hab : a < b) : Visits .iterateDefault a b last e ↔ e.1.start < b := by
  refine ⟨fun hv => hv.2.1, fun hlt => ⟨?_, hlt, nofun⟩⟩
  rcases h.first with heq | ⟨_, hst⟩
  · omega
  · have := hst e mem_cons_self
    omega

theorem Reached.not_before (hout : ¬e.1.start < b) : ∀ x ∈ e :: B, ¬x.1.start < b := by
  have hc : WellFormed ([e] ++ B) := h.walkOk.wellFormed
  have hne := (hc.entries e mem_cons_self).nonempty
  intro x hx
  rcases mem_cons.mp hx with rfl | hin
  · exact hout
  · have := hc.between mem_cons_self hin
    omega

end

/-- The range ends in the last mapping with a local image that it meets, and begins in it or where
another mapping ends. -/
def EndsInside (mem : MemoryMap) (a b : Nat) : Prop :=
  ∀ x ∈ mem, x.2.localAddr ≠ 0 → max a x.1.start < min b x.1.end_ →
    b ≤ x.1.end_ ∧ (x.1.start ≤ a ∨ ∃ y ∈ mem, y.1.end_ = x.1.start)

instance : Decidable (EndsInside mem a b) :=
  inferInstanceAs (Decidable (∀ x ∈ mem, _ → _ → _ ∧ (_ ∨ ∃ y ∈ mem, _)))

theorem Reached.releasesFrom_iff (h : Reached mem a last B) (hab : a < b) :
    ReleasesFrom a b last B ↔ ∀ x ∈ B, x.2.localAddr ≠ 0 → x.1.start < b →
      b ≤ x.1.end_ ∧ (x.1.start ≤ a ∨ ∃ y ∈ mem, y.1.end_ = x.1.start) := by
  induction B generalizing last with
  | nil => exact ⟨fun _ x hx => absurd hx not_mem_nil, fun _ => trivial⟩
  | cons e B ih =>
    rw [ReleasesFrom]
    split
    · next hv =>
      rw [ih h.tail, h.start_le_iff, forall_mem_cons]
      have hlt := (h.visits_iff hab).mp hv
      simp only [hlt, true_implies]
    · next hv =>
      have hout := h.not_before (fun hlt => hv ((h.visits_iff hab).mpr hlt))
      exact ⟨fun _ x hx _ hlt => absurd hlt (hout x hx), fun _ => trivial⟩

theorem Reached.logRelease_iff (h : Reached mem a last (e :: B)) (hab : a < b)
    (hb : b < 2 ^ 64) (hfi : ImageFits e) (hl : e.2.localAddr ≠ 0)
    (hv : Visits .iterateDefault a b last e) :
    logRelease [] e ⟨last, b⟩ = (imagePart a b e).toList ↔ b ≤ e.1.end_ ∧ e.1.start ≤ last := by
  have hok := h.walkOk.wellFormed.entries e mem_cons_self
  have ha := h.walkOk.after e mem_cons_self
  have hst := h.start
  have hbo := hok.bound
  have hne := hok.nonempty
  obtain ⟨hlt, hin, _⟩ := hv
  have hm : max a e.1.start < min b e.1.end_ := by omega
  have hsi : MemoryRange.size ⟨last, b⟩ = b - last := ptrSub_eq (Nat.le_of_lt hlt) hb
  have hkey : e.2.map.start = e.1.start := by rw [hok.key]
  -- the walk is never ahead of the first byte to be released
  have hmax : last ≤ max a e.1.start := by
    rcases h.first with heq | ⟨_, hf⟩
    · omega
    · have := hf e mem_cons_self
      omega
  rw [logRelease, if_pos hl, imagePart, if_pos ⟨hl, hm⟩, toList_some,
    nil_append, singleton_inj, Prod.mk.injEq, hsi, hkey]
  constructor
  · rintro ⟨_, hlen⟩
    omega
  · rintro ⟨hend, hle⟩
    have hsub : ptrSub last e.1.start = last - e.1.start := ptrSub_eq hle (by omega)
    have him := hfi hl
    rw [hsub, ptrAdd_eq (by omega)]
    omega

theorem Reached.releases_iff (h : Reached mem a last B) (hab : a < b) (hb : b < 2 ^ 64)
    (hf : ∀ x ∈ B, ImageFits x) :
    releases a b last B = B.filterMap (imagePart a b) ↔ ReleasesFrom a b last B := by
  induction B generalizing last with
  | nil => exact ⟨fun _ => trivial, fun _ => rfl⟩
  | cons e B ih =>
    have ihB := ih h.tail fun x hx => hf x (mem_cons_of_mem e hx)
    have hc : (e :: B).filterMap (imagePart a b) =
        (imagePart a b e).toList ++ B.filterMap (imagePart a b) := by
      rw [filterMap_cons]
      cases imagePart a b e with
      | none | some i => rfl
    rw [releases, ReleasesFrom, hc]
    split
    · next hv =>
      by_cases hl : e.2.localAddr = 0
      · have hp : imagePart a b e = none := if_neg fun hh => hh.1 hl
        rw [logRelease, if_neg (not_not.mpr hl), hp]
        simp only [toList_none, nil_append, hl, ne_eq, not_true_eq_false,
          false_implies, true_and]
        exact ihB
      · have hone := h.logRelease_iff hab hb (hf e mem_cons_self) hl hv
        have hlen : (logRelease [] e ⟨last, b⟩).length = (imagePart a b e).toList.length := by
          have ha := h.walkOk.after e mem_cons_self
          have hne := (h.walkOk.wellFormed.entries e mem_cons_self).nonempty
          have hst := h.start
          have hin := hv.2.1
          rw [logRelease, if_pos hl, imagePart, if_pos ⟨hl, by omega⟩]
          rfl
        rw [← ihB, ← hone]
        constructor
        · intro heq
          obtain ⟨h1, h2⟩ := append_inj heq hlen
          exact ⟨fun _ => h1, h2⟩
        · rintro ⟨h1, h2⟩
          rw [h1 hl, h2]
    · next hv =>
      have hout := h.not_before (fun hlt => hv ((h.visits_iff hab).mpr hlt))
      have hn : ∀ x ∈ e :: B, imagePart a b x = none := by
        intro x hx
        have := hout x hx
        exact if_neg fun hh => by omega
      rw [hn e mem_cons_self, filterMap_eq_nil_iff.mpr
        fun x hx => hn x (mem_cons_of_mem e hx)]
      exact ⟨fun _ => trivial, fun _ => rfl⟩

end Walk

section Unmap

variable {s : AddressSpace}

theorem imagePart_below (h : e.1.end_ ≤ a) : imagePart a b e = none :=
  if_neg fun hh => by omega

theorem imageParts_empty (s : AddressSpace) (a : Nat) : s.imageParts a a = [] := by
  rw [imageParts, filterMap_eq_nil_iff]
  exact fun x _ => if_neg fun hh => by omega

theorem UnmapWalk.reached (h : UnmapWalk s addr n A B s') : Reached s.mem addr addr B where
  walkOk := h.walkOk
  start := Nat.le_refl addr
  sub x hx := by
    rw [h.mem]
    exact mem_append_right A hx
  behind y hy := by
    rw [h.mem] at hy
    rcases mem_append.mp hy with hA | hB
    · exact Or.inr (h.below y hA)
    · exact Or.inl hB
  first := Or.inl rfl

theorem UnmapWalk.endsInside_iff (h : UnmapWalk s addr n A B s') (hn : 0 < n) :
    EndsInside s.mem addr (addr + n) ↔ ∀ x ∈ B, x.2.localAddr ≠ 0 → x.1.start < addr + n →
      addr + n ≤ x.1.end_ ∧ (x.1.start ≤ addr ∨ ∃ y ∈ s.mem, y.1.end_ = x.1.start) := by
  constructor
  · intro he x hx hl hlt
    have ha := h.walkOk.after x hx
    have hne := (h.walkOk.wellFormed.entries x hx).nonempty
    exact he x (h.reached.sub hx) hl (by omega)
  · intro he x hx hl hm
    rcases h.reached.behind x hx with hin | hle
    · exact he x hin hl (by omega)
    · omega

/-- An unmapping releases just the local images of what it removes exactly when its range ends in
each imaged mapping it meets. -/
theorem unmap_releases (hwf : WellFormed s.mem) (hf : ∀ x ∈ s.mem, ImageFits x)
    (hfit : FitsRange addr n) : ∃ s', s.unmap addr n = some s' ∧
      (s'.released = s.released ++ s.imageParts addr (addr + ceilPageSize n) ↔
        EndsInside s.mem addr (addr + ceilPageSize n)) := by
  obtain ⟨ha, hn, _, hb⟩ := PageTable.FitsRange.ceil hfit
  rw [unmap]
  split
  · next hz =>
    refine ⟨s, rfl, ?_⟩
    rw [hz, Nat.add_zero, imageParts_empty, append_nil]
    exact ⟨fun _ x _ _ hm => by omega, fun _ => rfl⟩
  · next hne =>
    let s₀ : AddressSpace := { s with
      dontFork := removeRange s.dontFork ⟨addr, ptrAdd addr (ceilPageSize n)⟩ }
    obtain ⟨A, B, s', hs', hw⟩ := unmapInternal_walk (s := s₀) hwf ha
      (ceilPageSize_spec hn).1 hb
    refine ⟨s', hs', ?_⟩
    have hpos : 0 < ceilPageSize n := Nat.pos_of_ne_zero hne
    have hlt : addr < addr + ceilPageSize n := Nat.lt_add_of_pos_right hpos
    have hmem : s.mem = A ++ B := hw.mem
    have hp : s.imageParts addr (addr + ceilPageSize n) =
        B.filterMap (imagePart addr (addr + ceilPageSize n)) := by
      rw [imageParts, hmem, filterMap_append, filterMap_eq_nil_iff.mpr
        fun x hx => imagePart_below (hw.below x hx), nil_append]
    rw [hw.released, walkFold_logRelease, hp, append_cancel_left_eq,
      hw.reached.releases_iff hlt hb fun x hx => hf x (hw.reached.sub hx),
      hw.reached.releasesFrom_iff hlt]
    exact (hw.endsInside_iff hpos).symm

end Unmap

end AddressSpace

end Attune
