import Attune.Segments
import Attune.AddressSpaceOps

namespace Attune
open Segments List Option OrderedMap MemoryRange

/-- What a mapping says about one of its pages; the file offset only for real devices. -/
structure PageAttr where
  prot : BitVec 32
  flags : BitVec 32
  device : Nat
  inode : Nat
  offset : Option Nat
  deriving DecidableEq

namespace KernelMapping

def attrAt (m : KernelMapping) (p : Nat) : PageAttr :=
  ⟨m.prot, m.flags, m.device, m.inode,
    if m.isRealDevice then some ((m.offset + (p - m.start)) % 2 ^ 64) else none⟩

end KernelMapping

def pages : Layout (MemoryRange × Mapping) PageAttr where
  lo e := e.1.start
  hi e := e.1.end_
  val e p := e.2.map.attrAt p

structure EntryOk (e : MemoryRange × Mapping) : Prop where
  key : e.1 = e.2.map.toMemoryRange
  nonempty : e.1.start < e.1.end_
  startAligned : e.1.start % pageSize = 0
  endAligned : e.1.end_ % pageSize = 0
  bound : e.1.end_ < 2 ^ 64
  tracked : e.2.map.flags &&& mapFlagsMask = e.2.map.flags

structure WellFormed (mem : MemoryMap) : Prop where
  entries : ∀ e ∈ mem, EntryOk e
  ordered : pages.Ordered mem

structure RegionOk (rem : MemoryRange) : Prop where
  nonempty : rem.start < rem.end_
  startAligned : rem.start % pageSize = 0
  endAligned : rem.end_ % pageSize = 0
  bound : rem.end_ < 2 ^ 64

theorem comparator_eq {a b : MemoryRange} (ha : a.start < a.end_) (hb : b.start < b.end_) :
    comparator a b = decide (a.end_ ≤ b.start) := by
  rw [Bool.eq_iff_iff]
  simp only [comparator, intersects, Bool.and_eq_true,
    Bool.not_eq_true', decide_eq_false_iff_not, decide_eq_true_eq]
  omega

theorem gap_comparator {A B : List (MemoryRange × V)} {k : MemoryRange}
    (hA : ∀ a ∈ A, a.1.start < a.1.end_ ∧ a.1.end_ ≤ k.start)
    (hB : ∀ b ∈ B, b.1.start < b.1.end_ ∧ k.end_ ≤ b.1.start) (hk : k.start < k.end_) :
    (∀ a ∈ A, comparator a.1 k = true) ∧
    (∀ b ∈ B, comparator b.1 k = false) ∧
    (∀ b ∈ B, comparator k b.1 = true) := by
  refine ⟨?_, ?_, ?_⟩
  · intro a ha
    rw [comparator_eq (hA a ha).1 hk]
    exact decide_eq_true (hA a ha).2
  · intro b hb
    obtain ⟨hne, hle⟩ := hB b hb
    rw [comparator_eq hne hk]
    exact decide_eq_false (by omega)
  · intro b hb
    rw [comparator_eq hk (hB b hb).1]
    exact decide_eq_true (hB b hb).2

namespace WellFormed

variable {A B C : MemoryMap} {e : MemoryRange × Mapping}

theorem nil : WellFormed [] := ⟨fun _ h => absurd h not_mem_nil, List.Pairwise.nil⟩

theorem left (h : WellFormed (A ++ B)) : WellFormed A :=
  ⟨fun e he => h.entries e (mem_append_left B he), (pairwise_append.mp h.ordered).1⟩

theorem right (h : WellFormed (A ++ B)) : WellFormed B :=
  ⟨fun e he => h.entries e (mem_append_right A he), (pairwise_append.mp h.ordered).2.1⟩

theorem between (h : WellFormed (A ++ B)) (ha : a ∈ A) (hb : b ∈ B) : a.1.end_ ≤ b.1.start :=
  (pairwise_append.mp h.ordered).2.2 a ha b hb

theorem append (hA : WellFormed A) (hB : WellFormed B)
    (h : ∀ a ∈ A, ∀ b ∈ B, a.1.end_ ≤ b.1.start) : WellFormed (A ++ B) where
  entries e he := by
    cases mem_append.mp he with
    | inl ha => exact hA.entries e ha
    | inr hb => exact hB.entries e hb
  ordered := pairwise_append.mpr ⟨hA.ordered, hB.ordered, h⟩

theorem singleton (h : EntryOk e) : WellFormed [e] :=
  ⟨fun x hx => by rw [mem_singleton.mp hx]; exact h, pairwise_singleton _ _⟩

/-- The middle of a well-formed map may be replaced by anything well formed that stays in its
bounds. -/
theorem replace (h : WellFormed (A ++ e :: B)) (hC : WellFormed C)
    (hin : ∀ c ∈ C, e.1.start ≤ c.1.start ∧ c.1.end_ ≤ e.1.end_) : WellFormed (A ++ (C ++ B)) := by
  have hr : WellFormed ([e] ++ B) := h.right
  apply append h.left
  · apply append hC hr.right
    intro c hc b hb
    exact Nat.le_trans (hin c hc).2 (hr.between mem_cons_self hb)
  · intro a ha x hx
    cases mem_append.mp hx with
    | inl hc => exact Nat.le_trans (h.between ha mem_cons_self) (hin x hc).1
    | inr hb => exact h.between ha (mem_cons_of_mem e hb)

end WellFormed

structure Hit (how : IterateHow) (e : MemoryRange × Mapping) (rem : MemoryRange) : Prop where
  entry : EntryOk e
  region : RegionOk rem
  above : rem.start < e.1.end_
  below : e.1.start < rem.end_
  contiguous : how = .iterateContiguous → e.1.start ≤ rem.start

/-- A callback that replaces the entry it is given by entries within the same bounds. -/
structure Splits (how : IterateHow) (g : MemoryRange × Mapping → MemoryRange → MemoryMap) :
    Prop where
  wellFormed : Hit how e rem → WellFormed (g e rem)
  within : Hit how e rem → ∀ x ∈ g e rem, e.1.start ≤ x.1.start ∧ x.1.end_ ≤ e.1.end_

def Visits (how : IterateHow) (regionStart regionEnd last : Nat) (e : MemoryRange × Mapping) :
    Prop :=
  last < regionEnd ∧ e.1.start < regionEnd ∧
    (how = .iterateContiguous → e.1.start < regionStart ∨ last = e.1.start)

instance : Decidable (Visits how regionStart regionEnd last e) :=
  inferInstanceAs (Decidable (_ ∧ _ ∧ (_ → _)))

/-- `for_each_in_range` as a recursion over the entries from the first one it looks at. -/
def walk (g : MemoryRange × Mapping → MemoryRange → MemoryMap) (how : IterateHow)
    (regionStart regionEnd : Nat) : Nat → MemoryMap → MemoryMap
  | _, [] => []
  | last, e :: B =>
    if Visits how regionStart regionEnd last e then
      g e ⟨last, regionEnd⟩ ++ walk g how regionStart regionEnd e.1.end_ B
    else e :: B

def walkStop (how : IterateHow) (regionStart regionEnd : Nat) : Nat → MemoryMap → Nat
  | last, [] => last
  | last, e :: B =>
    if Visits how regionStart regionEnd last e then
      walkStop how regionStart regionEnd e.1.end_ B
    else last

section Loop

variable {mem : σ → MemoryMap} {f : σ → Mapping → MemoryRange → σ}
  {g : MemoryRange × Mapping → MemoryRange → MemoryMap} {I : σ → Prop}

/-- The callback acts on the map of its state as `g` does on the entry, and keeps `I`. -/
def Acts (how : IterateHow) (mem : σ → MemoryMap) (f : σ → Mapping → MemoryRange → σ)
    (g : MemoryRange × Mapping → MemoryRange → MemoryMap) (I : σ → Prop) : Prop :=
  ∀ s A e B rem, mem s = A ++ e :: B → WellFormed (mem s) → Hit how e rem → I s →
    mem (f s e.2 rem) = A ++ (g e rem ++ B) ∧ I (f s e.2 rem)

theorem lowerBound_region (h : WellFormed (A ++ B)) (hr : last < regionEnd)
    (hA : ∀ a ∈ A, a.1.end_ ≤ last) (hB : ∀ b ∈ B, last < b.1.end_) :
    lowerBound comparator ⟨last, regionEnd⟩ (A ++ B) = B := by
  rw [lowerBound_append, lowerBound_eq]
  · intro b hb
    rw [comparator_eq (h.right.entries b hb).nonempty hr]
    exact decide_eq_false (Nat.not_le_of_lt (hB b hb))
  · intro a ha
    rw [comparator_eq (h.left.entries a ha).nonempty hr]
    exact decide_eq_true (hA a ha)

theorem Visits.hit (hv : Visits how regionStart regionEnd last e)
    (hR : regionEnd % pageSize = 0 ∧ regionEnd < 2 ^ 64) (hok : EntryOk e)
    (hl : last % pageSize = 0) (hst : regionStart ≤ last) (hend : last < e.1.end_) :
    Hit how e ⟨last, regionEnd⟩ where
  entry := hok
  region := ⟨hv.1, hl, hR.1, hR.2⟩
  above := hend
  below := hv.2.1
  contiguous hh := by
    have hf := hv.2.2 hh
    show e.1.start ≤ last
    omega

def walkFold (upd : τ → MemoryRange × Mapping → MemoryRange → τ) (how : IterateHow)
    (regionStart regionEnd : Nat) : Nat → τ → MemoryMap → τ
  | _, t, [] => t
  | last, t, e :: B =>
    if Visits how regionStart regionEnd last e then
      walkFold upd how regionStart regionEnd e.1.end_ (upd t e ⟨last, regionEnd⟩) B
    else t

theorem forEachLoop_walkFold (out : σ → τ) (upd : τ → MemoryRange × Mapping → MemoryRange → τ)
    (hg : Splits how g) (hf : Acts how mem f g I)
    (hout : ∀ s A e B rem, mem s = A ++ e :: B → WellFormed (mem s) → Hit how e rem →
      out (f s e.2 rem) = upd (out s) e rem)
    (hR : regionEnd % pageSize = 0 ∧ regionEnd < 2 ^ 64) (hst : regionStart ≤ last)
    (hmem : mem s = A ++ B) (hwf : WellFormed (mem s)) (hI : I s)
    (hl : last % pageSize = 0) (hA : ∀ a ∈ A, a.1.end_ ≤ last)
    (hB : ∀ b ∈ B, last < b.1.end_) (hfu : B.length < fuel) :
    ∃ s', forEachLoop mem f how regionStart regionEnd fuel s last = some s' ∧
      mem s' = A ++ walk g how regionStart regionEnd last B ∧
      out s' = walkFold upd how regionStart regionEnd last (out s) B ∧
      WellFormed (mem s') ∧ I s' := by
  induction B generalizing s A last fuel with
  | nil =>
    obtain ⟨fuel, rfl⟩ : ∃ k, fuel = k + 1 := ⟨fuel - 1, by simp only [length_nil] at hfu; omega⟩
    refine ⟨s, ?_, hmem, rfl, hwf, hI⟩
    rw [forEachLoop]
    split
    · next hlt => simp only [hmem, lowerBound_region (hmem ▸ hwf) hlt hA hB]
    · rfl
  | cons e B ih =>
    obtain ⟨fuel, rfl⟩ : ∃ k, fuel = k + 1 := ⟨fuel - 1, by omega⟩
    have hwf' : WellFormed (A ++ e :: B) := hmem ▸ hwf
    have hok := hwf'.right.entries e mem_cons_self
    have hco : WellFormed ([e] ++ B) := hwf'.right
    rw [forEachLoop, walk, walkFold]
    by_cases hv : Visits how regionStart regionEnd last e
    · have hend := hB e mem_cons_self
      have hhit := hv.hit hR hok hl hst hend
      obtain ⟨hlt, hin, hc⟩ := hv
      obtain ⟨hact, hI'⟩ := hf s A e B ⟨last, regionEnd⟩ hmem hwf hhit hI
      have hw := hg.within hhit
      have hwf1 := hwf'.replace (hg.wellFormed hhit) hw
      have ha' := hact
      rw [← append_assoc] at ha'
      obtain ⟨s', hlo, hm', hfo, hr⟩ := ih (by omega) ha' (hact ▸ hwf1) hI' hok.endAligned
        (fun a ha => by
          cases mem_append.mp ha with
          | inl h =>
            have h1 := hwf'.between h mem_cons_self
            have h2 := hok.nonempty
            omega
          | inr h => exact (hw a h).2)
        (fun b hb => Nat.lt_of_le_of_lt (hco.between mem_cons_self hb)
          (hco.right.entries b hb).nonempty)
        (show B.length < fuel by simp only [length_cons] at hfu; omega)
      refine ⟨s', ?_, ?_, ?_, hr⟩
      · simp only [if_pos hlt, hmem, lowerBound_region hwf' hlt hA hB]
        rw [if_neg (Nat.not_le_of_lt hin), if_neg (fun h => h.2 (hc h.1))]
        exact hlo
      · rw [if_pos ⟨hlt, hin, hc⟩, hm', append_assoc]
      · rw [if_pos ⟨hlt, hin, hc⟩, hfo, hout s A e B _ hmem hwf hhit]
    · refine ⟨s, ?_, by rw [if_neg hv]; exact hmem, by rw [if_neg hv], hwf, hI⟩
      split
      · next hlt =>
        simp only [hmem, lowerBound_region hwf' hlt hA hB]
        split
        · rfl
        next hout =>
        rw [if_pos]
        by_contra hcon
        exact hv ⟨hlt, Nat.lt_of_not_le hout, fun hh => by
          by_contra hn
          exact hcon ⟨hh, hn⟩⟩
      · rfl

end Loop

structure WalkOk (last : Nat) (B : MemoryMap) : Prop where
  wellFormed : WellFormed B
  aligned : last % pageSize = 0
  after : ∀ b ∈ B, last < b.1.end_

theorem WalkOk.tail (h : WalkOk last (e :: B)) : WalkOk e.1.end_ B := by
  have hc : WellFormed ([e] ++ B) := h.wellFormed
  refine ⟨hc.right, (hc.entries e mem_cons_self).endAligned, ?_⟩
  intro b hb
  exact Nat.lt_of_le_of_lt (hc.between mem_cons_self hb) (hc.right.entries b hb).nonempty

theorem WalkOk.view_tail_eq_none (h : WalkOk last (e :: B)) (hp : p < e.1.end_) :
    pages.view B p = none := by
  have hc : WellFormed ([e] ++ B) := h.wellFormed
  apply Layout.view_eq_none_of_lt_lo
  intro b hb
  exact Nat.lt_of_lt_of_le hp (hc.between mem_cons_self hb)

theorem WalkOk.le_walkStop (h : WalkOk last B) :
    last ≤ walkStop how regionStart regionEnd last B := by
  induction B generalizing last with
  | nil => exact Nat.le_refl last
  | cons e B ih =>
    rw [walkStop]
    split
    · exact Nat.le_trans (Nat.le_of_lt (h.after e mem_cons_self)) (ih h.tail)
    · exact Nat.le_refl last

/-- What a callback makes of the pages of its entry that lie in the remaining region. -/
def Edits (how : IterateHow) (g : MemoryRange × Mapping → MemoryRange → MemoryMap)
    (change : PageAttr → Option PageAttr) : Prop :=
  ∀ e rem p, Hit how e rem →
    pages.view (g e rem) p =
      if pages.Covers e p then
        if rem.start ≤ p ∧ p < rem.end_ then change (e.2.map.attrAt p) else some (e.2.map.attrAt p)
      else none

theorem view_walk (hg : Edits how g change)
    (hR : regionEnd % pageSize = 0 ∧ regionEnd < 2 ^ 64) (hst : regionStart ≤ last)
    (h : WalkOk last B) :
    pages.view (walk g how regionStart regionEnd last B) p =
      if last ≤ p ∧ p < regionEnd ∧ p < walkStop how regionStart regionEnd last B then
        (pages.view B p).bind change
      else pages.view B p := by
  induction B generalizing last with
  | nil =>
    rw [walk, Layout.view_nil]
    split
    · rfl
    · rfl
  | cons e B ih =>
    rw [walk, walkStop]
    by_cases hv : Visits how regionStart regionEnd last e
    · have hok := h.wellFormed.entries e mem_cons_self
      have hend := h.after e mem_cons_self
      have hhit := hv.hit hR hok h.aligned hst hend
      have hsto : e.1.end_ ≤ walkStop how regionStart regionEnd e.1.end_ B := h.tail.le_walkStop
      rw [if_pos hv, if_pos hv, Layout.view_append, hg e _ p hhit, ih (by omega) h.tail,
        Layout.view_cons]
      by_cases hc : pages.Covers e p
      · have hlt : p < e.1.end_ := hc.2
        have hb : ¬ (e.1.end_ ≤ p ∧ p < regionEnd ∧
            p < walkStop how regionStart regionEnd e.1.end_ B) := by omega
        rw [if_pos hc, if_pos hc, if_neg hb, h.view_tail_eq_none hlt, or_none]
        split
        · next hin =>
          rw [if_pos ⟨hin.1, hin.2, by omega⟩]
          rfl
        · next hin =>
          rw [if_neg fun hh => hin ⟨hh.1, hh.2.1⟩]
          rfl
      · rw [if_neg hc, if_neg hc, none_or]
        by_cases hlt : p < e.1.end_
        · rw [if_neg (by omega), h.view_tail_eq_none hlt]
          split
          · rfl
          · rfl
        · have hle : last ≤ p := by omega
          simp only [hle, Nat.le_of_not_lt hlt, true_and]
    · rw [if_neg hv, if_neg hv, if_neg (by omega)]

theorem view_eq_none_of_walkStop_le (h : WalkOk last B) (hp : p < regionEnd)
    (hsto : walkStop .iterateDefault regionStart regionEnd last B ≤ p) :
    pages.view B p = none := by
  induction B generalizing last with
  | nil => rfl
  | cons e B ih =>
    rw [walkStop] at hsto
    split at hsto
    · have hle : e.1.end_ ≤ p := Nat.le_trans h.tail.le_walkStop hsto
      rw [Layout.view_cons, if_neg fun hc => Nat.not_lt_of_le hle hc.2]
      exact ih h.tail hsto
    next hv =>
    have hst : regionEnd ≤ e.1.start := by
      by_contra hlt
      exact hv ⟨Nat.lt_of_le_of_lt hsto hp, Nat.lt_of_not_le hlt, fun hh => nomatch hh⟩
    rw [Layout.view_cons, if_neg fun hc => Nat.not_lt_of_le (Nat.le_trans hst hc.1) hp]
    exact h.view_tail_eq_none (Nat.lt_of_lt_of_le hp
      (Nat.le_trans hst (Nat.le_of_lt (h.wellFormed.entries e mem_cons_self).nonempty)))

theorem isSome_view_of_lt_walkStop (h : WalkOk last B) (hst : regionStart ≤ last)
    (hp : last ≤ p) (hsto : p < walkStop .iterateContiguous regionStart regionEnd last B) :
    (pages.view B p).isSome = true := by
  induction B generalizing last with
  | nil => exact absurd hp (Nat.not_le_of_lt hsto)
  | cons e B ih =>
    rw [walkStop] at hsto
    split at hsto
    · next hv =>
      have hend := h.after e mem_cons_self
      have hf := hv.2.2 rfl
      rw [Layout.view_cons]
      by_cases hlt : p < e.1.end_
      · have hc : pages.Covers e p := ⟨show e.1.start ≤ p by omega, hlt⟩
        rw [if_pos hc]
        rfl
      · rw [if_neg fun hc => hlt hc.2]
        exact ih h.tail (by omega) (Nat.le_of_not_lt hlt) hsto
    · exact absurd hp (Nat.not_le_of_lt hsto)

theorem view_walkStop_eq_none (h : WalkOk last B)
    (hst : last = regionStart ∨ ∀ b ∈ B, last ≤ b.1.start)
    (hsto : walkStop .iterateContiguous regionStart regionEnd last B < regionEnd) :
    pages.view B (walkStop .iterateContiguous regionStart regionEnd last B) = none := by
  induction B generalizing last with
  | nil => rfl
  | cons e B ih =>
    have hend := h.after e mem_cons_self
    rw [walkStop] at hsto ⊢
    by_cases hv : Visits .iterateContiguous regionStart regionEnd last e
    · rw [if_pos hv] at hsto ⊢
      have hle : e.1.end_ ≤ walkStop .iterateContiguous regionStart regionEnd e.1.end_ B :=
        h.tail.le_walkStop
      have hco : WellFormed ([e] ++ B) := h.wellFormed
      rw [Layout.view_cons, if_neg fun hc => Nat.not_lt_of_le hle hc.2]
      exact ih h.tail (.inr fun b hb => hco.between mem_cons_self hb) hsto
    · rw [if_neg hv] at hsto ⊢
      have hgap : last < e.1.start := by
        by_contra hge
        have hf : e.1.start < regionStart ∨ last = e.1.start := by
          cases hst with
          | inl heq => omega
          | inr hle =>
            have := hle e mem_cons_self
            omega
        exact hv ⟨hsto, by omega, fun _ => hf⟩
      rw [Layout.view_cons, if_neg fun hc => Nat.not_lt_of_le hc.1 hgap]
      exact h.view_tail_eq_none hend

/-- What holds of the entries before a walk and of all their pieces holds of the entries after
it. -/
theorem walk_forall {Q : MemoryRange × Mapping → Prop}
    (hg : ∀ e ∈ B, ∀ rem, regionStart ≤ rem.start → rem.end_ = regionEnd → Hit how e rem →
      ∀ x ∈ g e rem, Q x)
    (hR : regionEnd % pageSize = 0 ∧ regionEnd < 2 ^ 64) (hst : regionStart ≤ last)
    (h : WalkOk last B) (hB : ∀ e ∈ B, Q e) :
    ∀ x ∈ walk g how regionStart regionEnd last B, Q x := by
  induction B generalizing last with
  | nil => exact fun x hx => absurd hx not_mem_nil
  | cons e B ih =>
    intro x hx
    rw [walk] at hx
    split at hx
    · next hv =>
      have hend := h.after e mem_cons_self
      have hhit := hv.hit hR (h.wellFormed.entries e mem_cons_self) h.aligned hst hend
      cases mem_append.mp hx with
      | inl hin => exact hg e mem_cons_self _ hst rfl hhit x hin
      | inr hin =>
        exact ih (fun y hy => hg y (mem_cons_of_mem e hy)) (by omega) h.tail
          (fun y hy => hB y (mem_cons_of_mem e hy)) x hin
    · exact hB x hx

end Attune
