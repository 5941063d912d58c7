import Attune.AddressSpaceCalls
import Attune.AddressSpaceFrames

namespace Attune
open Segments List Option

theorem view_walk_eq_none (hg : ∀ e rem p, Hit how e rem →
      (pages.view (g e rem) p = none ↔ ¬pages.Covers e p))
    (hR : regionEnd % pageSize = 0 ∧ regionEnd < 2 ^ 64) (hst : regionStart ≤ last)
    (h : WalkOk last B) :
    pages.view (walk g how regionStart regionEnd last B) p = none ↔ pages.view B p = none := by
  induction B generalizing last with
  | nil => exact Iff.rfl
  | cons e B ih =>
    rw [walk]
    split
    · next hv =>
      have hend := h.after e mem_cons_self
      have hhit := hv.hit hR (h.wellFormed.entries e mem_cons_self) h.aligned hst hend
      rw [Layout.view_append, or_eq_none_iff, hg e _ p hhit, ih (by omega) h.tail,
        Layout.view_cons]
      split
      · next hc =>
        exact ⟨fun hh => absurd hc hh.1, fun hh => by cases hh⟩
      · next hc =>
        exact ⟨fun hh => hh.2, fun hh => ⟨hc, hh⟩⟩
    · exact Iff.rfl

theorem view_grownPieces_eq_none (h : Hit .iterateContiguous e rem) :
    pages.view (grownPieces prot e rem) p = none ↔ ¬pages.Covers e p := by
  rw [grownPieces, protectPieces_edits e _ p h.grown]
  split
  · next hc =>
    refine ⟨fun hno => ?_, fun hn => absurd hc hn⟩
    split at hno
    · cases hno
    · cases hno
  · next hc =>
    exact ⟨fun _ => hc, fun _ => rfl⟩

theorem mem_grownPieces (hx : x ∈ grownPieces prot e rem) :
    x ∈ lowerPiece e.2.recordedMap.start e (growsRegion prot e rem) ∨
      x = overlapPiece prot e (growsRegion prot e rem) ∨
      x ∈ upperPiece e (growsRegion prot e rem) := by
  rw [grownPieces, protectPieces] at hx
  simpa only [mem_append, mem_singleton] using hx

namespace AddressSpace

variable {s s' : AddressSpace} {A B : MemoryMap} {e : MemoryRange × Mapping} {rem : MemoryRange}

theorem protect_view_eq_none (hwf : WellFormed s.mem) (ha : addr % pageSize = 0)
    (hb : addr + n + pageSize ≤ 2 ^ 64) (hs : s.protect addr n prot = some s') :
    s'.released = s.released ∧ ∀ p, pages.view s'.mem p = none ↔ pages.view s.mem p = none := by
  obtain ⟨hRaligned, _, hRlt⟩ := ceilPageSize_spec hb
  obtain ⟨A, B, s₁, last, hw, hc⟩ := protect_walk prot hwf ha hb
  have hv : ∀ p, pages.view s₁.mem p = none ↔ pages.view s.mem p = none := by
    intro p
    rw [hw.result, hw.mem, Layout.view_append, Layout.view_append, or_eq_none_iff,
      or_eq_none_iff, view_walk_eq_none (fun e rem p => view_grownPieces_eq_none)
        ⟨hRaligned, by omega⟩ (Nat.le_refl addr) hw.walkOk]
  rw [hc] at hs
  split at hs
  · next hsi =>
    obtain ⟨L, x, R, hsp, rfl⟩ := hw.isKey.split hsi
    obtain ⟨_, _, hsa⟩ := coalesceAround_spec hsp hw.wellFormed
      (⟨rfl, False.elim⟩ : Keeps False s₁.brkEnd s₁) hs
    obtain ⟨mem, rfl⟩ := coalesceAround_frame hs
    exact ⟨hw.released, fun p => by rw [hsa p]; exact hv p⟩
  · cases hs
    exact ⟨hw.released, hv⟩

end AddressSpace

end Attune
