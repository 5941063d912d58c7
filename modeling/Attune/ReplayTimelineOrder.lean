import Attune.ReplayTimeline

namespace Attune.Timeline
open List Option Bool

variable {f : InternalMark R A → InternalMark R A} {heap : List (InternalMark R A)}

section Keys

theorem MarkKey.lt_irrefl (a : MarkKey) : a.lt a = false := by
  rw [eq_false_iff, ne_eq, MarkKey.lt_iff]
  omega

theorem MarkKey.eq_of_not_lt {a b : MarkKey} (h : a.lt b = false) (h' : b.lt a = false) : a = b := by
  rw [eq_false_iff, ne_eq, MarkKey.lt_iff] at h h'
  obtain ⟨time, ticks, step⟩ := a
  obtain ⟨time', ticks', step'⟩ := b
  dsimp only at h h'
  rw [MarkKey.mk.injEq]
  omega

variable {E : Execution R A}

theorem Execution.key_between (hpq : p ≤ q) (hqr : q ≤ r) (hr : r ≤ E.last)
    (h : (E.proto p).key = (E.proto r).key) : (E.proto q).key = (E.proto r).key := by
  apply MarkKey.eq_of_not_lt
  · rw [← h]
    exact E.mono p q hpq (Nat.le_trans hqr hr)
  · exact E.mono q r hqr hr

theorem Execution.lt_of_key_lt (hp : p ≤ E.last) (h : (E.proto p).key.lt (E.proto q).key = true) :
    p < q := by
  apply Nat.lt_of_not_le
  intro hle
  rw [E.mono q p hle hp] at h
  cases h

end Keys

namespace ReplayTimeline

def PlacedIn (E : Execution R A) (heap : List (InternalMark R A)) (m : MarkId) (p : Nat) : Prop :=
  p ≤ E.last ∧ ∃ im, heap[m]? = some im ∧ im.proto = E.proto p

def InOrder (E : Execution R A) (heap : List (InternalMark R A)) (key : MarkKey) (l : List MarkId)
    (qs : List Nat) : Prop :=
  List.Forall₂ (PlacedIn E heap) l qs ∧ qs.Pairwise (· < ·) ∧ ∀ q ∈ qs, (E.proto q).key = key

structure Ordered (E : Execution R A) (t : ReplayTimeline R A) : Prop where
  current : t.current ≤ E.last
  placed : ∀ (m : MarkId) (im : InternalMark R A), t.heap[m]? = some im → ∃ p, p ≤ E.last ∧ im.proto = E.proto p
  listed : ∀ (m : MarkId) (im : InternalMark R A), t.heap[m]? = some im → m ∈ t.marks im.proto.key
  inOrder : ∀ key, ∃ qs, InOrder E t.heap key (t.marks key) qs
  after : ∀ m, t.currentAtOrAfterMark = some m → ∃ p, PlacedIn E t.heap m p ∧ p ≤ t.current
  checkpoints : ∀ (m : MarkId) (im : InternalMark R A) c, t.heap[m]? = some im → im.checkpoint = some c →
    PlacedIn E t.heap m c

theorem forall₂_exists_left {P : α → β → Prop} (h : List.Forall₂ P l qs) (hq : q ∈ qs) :
    ∃ m ∈ l, P m q := by
  induction h with
  | nil => cases hq
  | cons hm _ ih =>
    rcases mem_cons.mp hq with rfl | hq
    · exact ⟨_, mem_cons_self, hm⟩
    · obtain ⟨m, hmem, hm⟩ := ih hq
      exact ⟨m, mem_cons_of_mem _ hmem, hm⟩

section Search

variable {E : Execution R A} {heap : List (InternalMark R A)}

theorem PlacedIn.unique (h : PlacedIn E heap m p) (h' : PlacedIn E heap m q) : p = q := by
  obtain ⟨hp, im, him, hpr⟩ := h
  obtain ⟨hq, im', him', hp'⟩ := h'
  obtain rfl : im = im' := some.inj (him.symm.trans him')
  exact E.identified p q hp hq (hpr.symm.trans hp')

theorem map_noteSinglestep (f : InternalMark R A → β)
    (hf : ∀ m, f { m with singlestepToNextMarkNoSignal := true } = f m) (r : StepResult)
    (l : List (InternalMark R A)) : (noteSinglestep r l).map f = l.map f := by
  rw [noteSinglestep]
  split
  · generalize l.length - 1 = n
    induction l generalizing n with
    | nil => simp
    | cons a l ih =>
      cases n with
      | zero => rw [modify_zero_cons, map_cons, map_cons, hf]
      | succ n => rw [modify_succ_cons, map_cons, map_cons, ih]
  · rfl

variable [DecidableEq R] [DecidableEq A]

theorem equalStates_eq (h : equalStates E m p = some b) : b = decide (m.proto = E.proto p) := by
  rw [equalStates] at h
  split at h
  · next hkey =>
    have hne : m.proto ≠ E.proto p := fun heq => hkey (by rw [heq])
    rw [← some.inj h, decide_eq_false hne]
  · split at h
    · exact (some.inj h).symm
    · cases h

theorem findMark_spec (hl : List.Forall₂ (PlacedIn E heap) l qs) (hp : p ≤ E.last)
    (h : findMark E heap p l = some found) :
    (∃ i, found = some i ∧ qs[i]? = some p) ∨ found = none ∧ p ∉ qs := by
  induction hl generalizing found with
  | nil =>
    cases h
    exact .inr ⟨rfl, not_mem_nil⟩
  | @cons m q l qs hm _ ih =>
    obtain ⟨hq, im, him, hpr⟩ := hm
    rw [findMark, him, bind_eq_bind, bind_some] at h
    obtain ⟨b, hb, h⟩ := bind_eq_some_iff.mp h
    have he := equalStates_eq hb
    cases b with
    | true =>
      cases h
      have hsa := E.identified q p hq hp (hpr.symm.trans (of_decide_eq_true he.symm))
      exact .inl ⟨0, rfl, congrArg some hsa⟩
    | false =>
      obtain ⟨found', hf, h⟩ := bind_eq_some_iff.mp h
      cases h
      have hne : p ≠ q := by
        rintro rfl
        exact of_decide_eq_false he.symm hpr
      rcases ih hf with ⟨i, rfl, hi⟩ | ⟨rfl, hnot⟩
      · exact .inl ⟨i + 1, rfl, hi⟩
      · refine .inr ⟨rfl, fun hmem => ?_⟩
        rcases mem_cons.mp hmem with heq | hmem
        · exact hne heq
        · exact hnot hmem

end Search

section Positions

theorem lt_of_mem_take {qs : List Nat} (hqs : qs.Pairwise (· < ·)) (hi : qs[i]? = some p)
    (hq : q ∈ qs.take i) : q < p := by
  obtain ⟨hlt, rfl⟩ := List.getElem?_eq_some_iff.mp hi
  obtain ⟨j, hj, rfl⟩ := mem_take_iff_getElem.mp hq
  exact pairwise_iff_getElem.mp hqs j i _ _ (by omega)

theorem le_of_mem_drop {qs : List Nat} (hqs : qs.Pairwise (· < ·)) (hi : qs[i]? = some p)
    (hq : q ∈ qs.drop i) : p ≤ q := by
  obtain ⟨hlt, rfl⟩ := List.getElem?_eq_some_iff.mp hi
  rw [drop_eq_getElem_cons hlt] at hq
  rcases mem_cons.mp hq with rfl | hq
  · exact Nat.le_refl _
  · obtain ⟨j, hj, rfl⟩ := mem_drop_iff_getElem.mp hq
    exact Nat.le_of_lt (pairwise_iff_getElem.mp hqs i _ _ _ (by omega))

end Positions

section Placing

variable {E : Execution R A} {heap : List (InternalMark R A)}

theorem not_passed (hl : List.Forall₂ (PlacedIn E heap) l qs) (hp : p ≤ E.last) (hq : q ∈ qs)
    (hpq : p < q) : (E.step p (stopBeforeStates heap l)).next ≤ q := by
  apply Nat.le_of_not_lt
  intro hlt
  apply E.step_stops p _ q hp hpq hlt
  clear hlt
  induction hl with
  | nil => cases hq
  | @cons m q' l qs hm _ ih =>
    obtain ⟨_, im, him, hpr⟩ := hm
    rw [stopBeforeStates, filterMap_cons, him, map_some]
    rcases mem_cons.mp hq with rfl | hq
    · rw [hpr]
      exact mem_cons_self
    · exact mem_cons_of_mem _ (ih hq)

theorem no_later (hl : InOrder E heap key l qs) (hp : p ≤ E.last) (hkey : (E.proto p).key = key)
    (hst : (E.proto (E.step p (stopBeforeStates heap l)).next).key ≠ key ∨
      (E.step p (stopBeforeStates heap l)).exited = true)
    (hq : q ∈ qs) : q ≤ p := by
  obtain ⟨hpl, _, hk⟩ := hl
  apply Nat.le_of_not_lt
  intro hlt
  have hla : q ≤ E.last := by
    obtain ⟨m, _, hm⟩ := forall₂_exists_left hpl hq
    exact hm.1
  rcases hst with hne | he
  · have hle := not_passed hpl hp hq hlt
    apply hne
    rw [← hk q hq]
    apply E.key_between (E.step_le p _ hp).1 hle hla
    rw [hkey, hk q hq]
  · have hend := E.step_exited p _ hp he
    omega

variable [DecidableEq R] [DecidableEq A]

/-- New marks for the states `ps`, from the state `start` on, which go in front of the position
`index` of the list. -/
structure Fits (E : Execution R A) (key : MarkKey) (qs : List Nat) (start : Nat)
    (newMarks : List (InternalMark R A)) (index : Nat) (ps : List Nat) : Prop where
  protos : newMarks.map InternalMark.proto = ps.map E.proto
  checkpoints : ∀ c ∈ newMarks.map InternalMark.checkpoint, c = none
  increasing : ps.Pairwise (· < ·)
  bounds : ∀ x ∈ ps, start ≤ x ∧ x ≤ E.last ∧ (E.proto x).key = key
  before : ∀ q ∈ qs.take index, q ≤ start
  behind : ∀ q ∈ qs.drop index, ∀ x ∈ ps, x < q

theorem markLoop_spec (hl : InOrder E heap key l qs) (hp : p ≤ E.last)
    (hkey : (E.proto p).key = key) (hgap : ∀ q ∈ qs, start < q → p < q)
    (hpr : newMarks.map InternalMark.proto = ps.map E.proto)
    (hno : ∀ c ∈ newMarks.map InternalMark.checkpoint, c = none) (hinc : ps.Pairwise (· < ·))
    (hb : ∀ x ∈ ps, start ≤ x ∧ x ≤ p ∧ (E.proto x).key = key) (hsta : start ≤ p)
    (h : markLoop E heap key l fuel p newMarks = some (result, index)) :
    ∃ rest, Fits E key qs start result index (ps ++ rest) := by
  induction fuel generalizing p newMarks ps with
  | zero => cases h
  | succ fuel ih =>
    have hb' : ∀ x ∈ ps, start ≤ x ∧ x ≤ E.last ∧ (E.proto x).key = key := by
      intro x hx
      obtain ⟨hle, hxp, hxk⟩ := hb x hx
      exact ⟨hle, Nat.le_trans hxp hp, hxk⟩
    have hpa := fun q => not_passed (q := q) hl.1 hp
    have hla := fun q => no_later (q := q) hl hp hkey
    have hin := E.step_incomplete p (stopBeforeStates heap l) hp
    have hf := E.step_complete p (stopBeforeStates heap l) hp
    have hlas := (E.step_le p (stopBeforeStates heap l) hp).2
    rw [markLoop] at h
    generalize E.step p (stopBeforeStates heap l) = r at h hpa hla hin hf hlas
    split at h
    · -- There is no existing mark behind.
      next hsto =>
      cases h
      have hea : ∀ q ∈ qs, q ≤ start := by
        intro q hq
        apply Nat.le_of_not_lt
        intro hlt
        have hle := hla q hsto hq
        have hpq := hgap q hq hlt
        omega
      refine ⟨[], ?_⟩
      rw [append_nil]
      refine ⟨hpr, hno, hinc, hb', fun q hq => hea q (mem_of_mem_take hq), ?_⟩
      intro q hq
      rw [hl.1.length_eq, drop_length] at hq
      cases hq
    · next hsto =>
      obtain ⟨hsa, he⟩ := not_or.mp hsto
      have hsa := not_not.mp hsa
      have he := eq_false_iff.mpr he
      split at h
      · next hst =>
        rw [not_eq_true'] at hst
        exact absurd (hsa.trans hkey.symm) (hin he hst)
      next hco =>
      rw [not_eq_true', not_eq_false] at hco
      have hnex := hf he hco
      obtain ⟨found, hfo, h⟩ := bind_eq_some_iff.mp h
      rcases findMark_spec hl.1 hlas hfo with ⟨i, rfl, hi⟩ | ⟨rfl, hnot⟩
      · -- The mark at position `i` is the next one.
        cases h
        refine ⟨[], ?_⟩
        rw [append_nil]
        refine ⟨(map_noteSinglestep _ (fun _ => rfl) r _).trans hpr, ?_, hinc, hb', ?_, ?_⟩
        · rw [map_noteSinglestep _ fun _ => rfl]
          exact hno
        · intro q hq
          apply Nat.le_of_not_lt
          intro hlt
          have hq' := mem_of_mem_take hq
          have hle := hpa q hq' (hgap q hq' hlt)
          have hles := lt_of_mem_take hl.2.1 hi hq
          omega
        · intro q hq x hx
          have hle := le_of_mem_drop hl.2.1 hi hq
          have hxp := (hb x hx).2.1
          omega
      · have hg' : ∀ q ∈ qs, start < q → r.next < q := by
          intro q hq hlt
          have hle := hpa q hq (hgap q hq hlt)
          have hne : q ≠ r.next := ne_of_mem_of_not_mem hq hnot
          omega
        have hp' : (noteSinglestep r newMarks ++ [internalMark E r.next]).map
            InternalMark.proto = (ps ++ [r.next]).map E.proto := by
          rw [map_append, map_noteSinglestep _ fun _ => rfl, hpr, map_append]
          rfl
        have hn' : ∀ c ∈ (noteSinglestep r newMarks ++ [internalMark E r.next]).map
            InternalMark.checkpoint, c = none := by
          rw [map_append, map_noteSinglestep _ fun _ => rfl]
          intro c hc
          rcases mem_append.mp hc with hc | hc
          · exact hno c hc
          · exact mem_singleton.mp hc
        have hi' : (ps ++ [r.next]).Pairwise (· < ·) := by
          rw [pairwise_append]
          refine ⟨hinc, pairwise_singleton _ _, fun x hx y hy => ?_⟩
          rw [mem_singleton.mp hy]
          exact Nat.lt_of_le_of_lt (hb x hx).2.1 hnex
        have hn : ∀ x ∈ ps ++ [r.next], start ≤ x ∧ x ≤ r.next ∧ (E.proto x).key = key := by
          intro x hx
          rcases mem_append.mp hx with hx | hx
          · obtain ⟨hle, hxp, hxk⟩ := hb x hx
            exact ⟨hle, by omega, hxk⟩
          · rw [mem_singleton.mp hx]
            exact ⟨by omega, Nat.le_refl _, hsa⟩
        obtain ⟨rest, hfi⟩ :=
          ih hlas hsa hg' hp' hn' hi' hn (by omega) h
        rw [append_assoc] at hfi
        exact ⟨_, hfi⟩

end Placing

section Insert

variable {E : Execution R A} {t : ReplayTimeline R A}

theorem getElem?_append_cases {l l' : List α} (h : (l ++ l')[i]? = some x) :
    l[i]? = some x ∨ ∃ j, i = l.length + j ∧ l'[j]? = some x := by
  by_cases hlt : i < l.length
  · rw [getElem?_append_left hlt] at h
    exact .inl h
  · rw [getElem?_append_right (Nat.le_of_not_lt hlt)] at h
    exact .inr ⟨i - l.length, by omega, h⟩

theorem PlacedIn.append (h : PlacedIn E heap m p) (new : List (InternalMark R A)) :
    PlacedIn E (heap ++ new) m p := by
  obtain ⟨hp, im, him, hpr⟩ := h
  obtain ⟨hlt, _⟩ := List.getElem?_eq_some_iff.mp him
  exact ⟨hp, im, by rw [getElem?_append_left hlt, him], hpr⟩

theorem placedIn_range' (heap : List (InternalMark R A)) {new : List (InternalMark R A)}
    (hp : new.map InternalMark.proto = ps.map E.proto) (hla : ∀ x ∈ ps, x ≤ E.last) :
    List.Forall₂ (PlacedIn E (heap ++ new)) (range' heap.length new.length) ps := by
  induction new generalizing heap ps with
  | nil =>
    rw [map_nil, eq_comm, map_eq_nil_iff] at hp
    rw [hp]
    exact .nil
  | cons im new ih =>
    cases ps with
    | nil => cases hp
    | cons p ps =>
      rw [map_cons, map_cons, cons.injEq] at hp
      have hr := ih (heap ++ [im]) hp.2 fun x hx => hla x (mem_cons_of_mem p hx)
      rw [append_assoc, length_append] at hr
      rw [length_cons, range'_succ]
      refine .cons ⟨hla p mem_cons_self, im, ?_, hp.1⟩ hr
      rw [getElem?_append_right (Nat.le_refl _), Nat.sub_self]
      rfl

theorem insertMarks_marks (t : ReplayTimeline R A) (key : MarkKey) (index : Nat)
    (newMarks : List (InternalMark R A)) :
    (t.insertMarks key index newMarks).marks key = (t.marks key).take index ++
      range' t.heap.length newMarks.length ++ (t.marks key).drop index := if_pos rfl

theorem insertMarks_marks_ne (t : ReplayTimeline R A) (index : Nat)
    (newMarks : List (InternalMark R A)) (h : k ≠ key) :
    (t.insertMarks key index newMarks).marks k = t.marks k := if_neg h

theorem Fits.inOrder (hf : Fits E key qs start newMarks index ps) (hst : start ∉ qs)
    (hq : InOrder E t.heap key (t.marks key) qs) :
    InOrder E (t.heap ++ newMarks) key ((t.insertMarks key index newMarks).marks key)
      (qs.take index ++ ps ++ qs.drop index) := by
  obtain ⟨hp, hsorted, hke⟩ := hq
  have hk := hp.imp fun m q h => h.append newMarks
  have hnew := placedIn_range' t.heap hf.protos fun x hx => (hf.bounds x hx).2.1
  have he : ∀ q ∈ qs.take index, ∀ x ∈ ps, q < x := by
    intro q hq x hx
    have hle := hf.before q hq
    have hne : q ≠ start := ne_of_mem_of_not_mem (mem_of_mem_take hq) hst
    have hx := (hf.bounds x hx).1
    omega
  rw [insertMarks_marks]
  refine ⟨rel_append (rel_append (forall₂_take _ hk) hnew)
    (forall₂_drop _ hk), ?_, ?_⟩
  · rw [append_assoc, pairwise_append, pairwise_append]
    refine ⟨hsorted.take, ⟨hf.increasing, hsorted.drop, fun x hx q hq => hf.behind q hq x hx⟩,
      fun q hq y hy => ?_⟩
    rcases mem_append.mp hy with hy | hy
    · exact he q hq y hy
    · rw [← take_append_drop index qs, pairwise_append] at hsorted
      exact hsorted.2.2 q hq y hy
  · intro q hq
    rcases mem_append.mp hq with hq | hq
    · rcases mem_append.mp hq with hq | hq
      · exact hke q (mem_of_mem_take hq)
      · exact (hf.bounds q hq).2.2
    · exact hke q (mem_of_mem_drop hq)

theorem Fits.placed (hf : Fits E key qs start newMarks index ps) (h : im ∈ newMarks) :
    im.checkpoint = none ∧ im.proto.key = key ∧ ∃ x, x ≤ E.last ∧ im.proto = E.proto x := by
  have hmem := mem_map_of_mem (f := InternalMark.proto) h
  rw [hf.protos] at hmem
  obtain ⟨x, hx, hp⟩ := mem_map.mp hmem
  obtain ⟨_, hla, hkey⟩ := hf.bounds x hx
  exact ⟨hf.checkpoints _ (mem_map_of_mem h), by rw [← hp, hkey], x, hla, hp.symm⟩

theorem Ordered.insertMarks (h : Ordered E t) (hq : InOrder E t.heap key (t.marks key) qs)
    (hf : Fits E key qs start newMarks index ps) (hst : start ∉ qs) :
    Ordered E (t.insertMarks key index newMarks) where
  current := h.current
  placed m im him := by
    rcases getElem?_append_cases him with him | ⟨j, _, him⟩
    · exact h.placed m im him
    · exact (hf.placed (mem_of_getElem? him)).2.2
  listed m im him := by
    rcases getElem?_append_cases him with him | ⟨j, rfl, hat⟩
    · have hmem := h.listed m im him
      by_cases hkey : im.proto.key = key
      · rw [hkey] at hmem ⊢
        rw [insertMarks_marks, append_assoc, mem_append, mem_append]
        rw [← take_append_drop index (t.marks key), mem_append] at hmem
        exact hmem.imp_right .inr
      · rw [insertMarks_marks_ne t index newMarks hkey]
        exact hmem
    · rw [(hf.placed (mem_of_getElem? hat)).2.1, insertMarks_marks, mem_append,
        mem_append, mem_range'_1]
      have hlt := (List.getElem?_eq_some_iff.mp hat).1
      exact .inl (.inr ⟨Nat.le_add_right _ _, by omega⟩)
  inOrder k := by
    by_cases hkey : k = key
    · rw [hkey]
      exact ⟨_, hf.inOrder hst hq⟩
    · obtain ⟨qs', hpl, hr⟩ := h.inOrder k
      rw [insertMarks_marks_ne t index newMarks hkey]
      exact ⟨qs', hpl.imp fun m q hm => hm.append newMarks, hr⟩
  after m hm := by
    obtain ⟨p, hp, hle⟩ := h.after m hm
    exact ⟨p, hp.append newMarks, hle⟩
  checkpoints m im c him hc := by
    rcases getElem?_append_cases him with him | ⟨j, _, him⟩
    · exact (h.checkpoints m im c him hc).append newMarks
    · rw [(hf.placed (mem_of_getElem? him)).1] at hc
      cases hc

theorem Fits.first (hf : Fits E key qs start newMarks index (start :: rest))
    (heap : List (InternalMark R A)) : PlacedIn E (heap ++ newMarks) heap.length start := by
  have hp := placedIn_range' heap hf.protos fun x hx => (hf.bounds x hx).2.1
  cases newMarks with
  | nil => cases hf.protos
  | cons im newMarks =>
    cases hp with
    | cons hm _ => exact hm

theorem fits_current (h : Ordered E t) (hla : ∀ q ∈ qs, q ≤ t.current)
    (hq : InOrder E t.heap (t.currentMarkKey E) (t.marks (t.currentMarkKey E)) qs) :
    Fits E (t.currentMarkKey E) qs t.current [internalMark E t.current]
      (t.marks (t.currentMarkKey E)).length [t.current] where
  protos := rfl
  checkpoints c hc := mem_singleton.mp hc
  increasing := pairwise_singleton _ _
  bounds x hx := by
    rw [mem_singleton.mp hx]
    exact ⟨Nat.le_refl _, h.current, rfl⟩
  before q hmem := hla q (mem_of_mem_take hmem)
  behind q hmem := by
    rw [hq.1.length_eq, drop_length] at hmem
    cases hmem

/-- Where the last mark is one that the current state is known not to precede, no mark is later. -/
theorem le_current (h : Ordered E t) (hq : InOrder E t.heap key (t.marks key) qs)
    (hla : t.marks key = [] ∨ (t.marks key).getLast? = t.currentAtOrAfterMark) (hmem : q ∈ qs) :
    q ≤ t.current := by
  rcases hla with hnil | hla
  · have hlen := hq.1.length_eq
    rw [hnil, length_nil, eq_comm, length_eq_zero_iff] at hlen
    rw [hlen] at hmem
    cases hmem
  · have hpl := forall₂_reverse_iff.mpr hq.1
    have hsorted := pairwise_reverse.mpr hq.2.1
    rw [← head?_reverse] at hla
    rw [← mem_reverse] at hmem
    generalize qs.reverse = rs at hpl hsorted hmem
    generalize (t.marks key).reverse = l at hpl hla
    cases hpl with
    | nil => cases hmem
    | cons hm _ =>
      obtain ⟨p, hp, hle⟩ := h.after _ hla.symm
      rw [hp.unique hm] at hle
      rcases mem_cons.mp hmem with rfl | hmem
      · exact hle
      · have hlt := (pairwise_cons.mp hsorted).1 q hmem
        omega

theorem Ordered.moveTo (h : Ordered E t) (hp : p ≤ E.last) (cm : Option MarkId)
    (hcm : ∀ m, cm = some m → ∃ q, PlacedIn E t.heap m q ∧ q ≤ p) :
    Ordered E { t with current := p, currentAtOrAfterMark := cm } :=
  ⟨hp, h.placed, h.listed, h.inOrder, hcm, h.checkpoints⟩

variable [DecidableEq R] [DecidableEq A]

theorem currentMark_spec (h : Ordered E t) (hcm : t.currentMark E = some found) :
    (∃ m, found = some m ∧ PlacedIn E t.heap m t.current) ∨
      found = none ∧ ∃ qs, InOrder E t.heap (t.currentMarkKey E) (t.marks (t.currentMarkKey E)) qs ∧
        t.current ∉ qs := by
  obtain ⟨qs, hq⟩ := h.inOrder (t.currentMarkKey E)
  obtain ⟨i?, hf, hcm⟩ := bind_eq_some_iff.mp hcm
  cases hcm
  rcases findMark_spec hq.1 h.current hf with ⟨i, rfl, hi⟩ | ⟨rfl, hnot⟩
  · obtain ⟨hlt, hp⟩ := List.getElem?_eq_some_iff.mp hi
    have hlt' : i < (t.marks (t.currentMarkKey E)).length := by rw [hq.1.length_eq]; exact hlt
    have hpl := hq.1.get hlt' hlt
    rw [get_eq_getElem, get_eq_getElem, hp] at hpl
    exact .inl ⟨_, getElem?_eq_getElem hlt', hpl⟩
  · exact .inr ⟨rfl, qs, hq, hnot⟩

theorem addMark_ordered (h : Ordered E t) (hq : InOrder E t.heap (t.currentMarkKey E)
      (t.marks (t.currentMarkKey E)) qs) (hnot : t.current ∉ qs) (hadd : t.addMark E = some t') :
    Ordered E t' ∧ t'.current = t.current ∧ PlacedIn E t'.heap t.heap.length t.current := by
  rw [addMark] at hadd
  dsimp only at hadd
  split at hadd
  · next hla =>
    cases hadd
    have hf := fits_current h (fun q hmem => le_current h hq hla hmem) hq
    exact ⟨h.insertMarks hq hf hnot, rfl, hf.first t.heap⟩
  · obtain ⟨⟨newMarks, index⟩, hlo, hadd⟩ := bind_eq_some_iff.mp hadd
    cases hadd
    obtain ⟨rest, hf⟩ := markLoop_spec hq h.current rfl (fun _ _ hlt => hlt)
      (show [internalMark E t.current].map InternalMark.proto = [t.current].map E.proto from rfl)
      (fun c hc => mem_singleton.mp hc) (pairwise_singleton _ _) (by
        intro x hx
        rw [mem_singleton.mp hx]
        exact ⟨Nat.le_refl _, Nat.le_refl _, rfl⟩) (Nat.le_refl _) hlo
    exact ⟨h.insertMarks hq hf hnot, rfl, hf.first t.heap⟩

theorem mark_spec (h : Ordered E t) (hma : t.mark E = some (m, t')) :
    Ordered E t' ∧ t'.current = t.current ∧ PlacedIn E t'.heap m t.current := by
  obtain ⟨found, hcm, hma⟩ := bind_eq_some_iff.mp hma
  rcases currentMark_spec h hcm with ⟨m', rfl, hp⟩ | ⟨rfl, qs, hq, hnot⟩
  · cases hma
    exact ⟨h, rfl, hp⟩
  obtain ⟨t₁, hadd, hma⟩ := bind_eq_some_iff.mp hma
  cases hma
  obtain ⟨ho, hc, hp⟩ := addMark_ordered h hq hnot hadd
  refine ⟨ho.moveTo ho.current _ fun m hm => ?_, hc, hp⟩
  obtain rfl : t.heap.length = m := some.inj hm
  exact ⟨t.current, hp, Nat.le_of_eq hc.symm⟩

end Insert

section Operations

variable {E : Execution R A} {t : ReplayTimeline R A}

theorem getElem?_modify_cases {l : List α} {f : α → α} (h : (l.modify m f)[i]? = some x) :
    ∃ y, l[i]? = some y ∧ (x = y ∨ m = i ∧ x = f y) := by
  rw [getElem?_modify] at h
  obtain ⟨y, hy, hx⟩ := map_eq_some_iff.mp h
  refine ⟨y, hy, ?_⟩
  split at hx
  · next heq => exact .inr ⟨heq, hx.symm⟩
  · exact .inl hx.symm

theorem PlacedIn.modify
    (hf : ∀ im, (f im).proto = im.proto) (h : PlacedIn E heap m p) (m' : MarkId) :
    PlacedIn E (heap.modify m' f) m p := by
  obtain ⟨hp, im, him, hpr⟩ := h
  refine ⟨hp, if m' = m then f im else im, ?_, ?_⟩
  · rw [getElem?_modify, him]
    split <;> rfl
  · split
    · rw [hf, hpr]
    · exact hpr

/-- The fields of a mark other than its state can change, as long as a checkpoint is of the state. -/
theorem Ordered.updateMark (h : Ordered E t) (hf : ∀ im, (f im).proto = im.proto)
    (hc : ∀ im c, t.heap[m]? = some im → (f im).checkpoint = some c → PlacedIn E t.heap m c) :
    Ordered E (t.updateMark m f) where
  current := h.current
  placed i im him := by
    obtain ⟨im', him', rfl | ⟨_, rfl⟩⟩ := getElem?_modify_cases him
    · exact h.placed i im him'
    · rw [hf]
      exact h.placed i im' him'
  listed i im him := by
    obtain ⟨im', him', rfl | ⟨_, rfl⟩⟩ := getElem?_modify_cases him
    · exact h.listed i im him'
    · rw [hf]
      exact h.listed i im' him'
  inOrder key := by
    obtain ⟨qs, hpl, hr⟩ := h.inOrder key
    exact ⟨qs, hpl.imp fun _ _ hm => hm.modify hf m, hr⟩
  after i hi := by
    obtain ⟨p, hp, hle⟩ := h.after i hi
    exact ⟨p, hp.modify hf m, hle⟩
  checkpoints i im c him hch := by
    obtain ⟨im', him', rfl | ⟨rfl, rfl⟩⟩ := getElem?_modify_cases him
    · exact (h.checkpoints i im c him' hch).modify hf m
    · exact (hc im' c him' hch).modify hf m

theorem Ordered.countCheckpoints (h : Ordered E t) (l : List (MarkKey × Nat)) :
    Ordered E { t with marksWithCheckpoints := l } :=
  ⟨h.current, h.placed, h.listed, h.inOrder, h.after, h.checkpoints⟩

theorem removeExplicitCheckpoint_ordered (h : Ordered E t)
    (hr : t.removeExplicitCheckpoint m = some t') : Ordered E t' := by
  obtain ⟨im, him, hr⟩ := bind_eq_some_iff.mp hr
  dsimp only at hr
  split at hr
  · cases hr
    apply Ordered.countCheckpoints
    apply h.updateMark
    · intro _
      rfl
    · intro _ c _ hc
      cases hc
  · cases hr
    apply h.updateMark
    · intro _
      rfl
    · intro im c him hc
      exact h.checkpoints m im c him hc

theorem firstCheckpoint_spec (hf : t.firstCheckpoint l = some (m, c)) :
    ∃ im, t.heap[m]? = some im ∧ im.checkpoint = some c := by
  induction l with
  | nil => cases hf
  | cons m' l ih =>
    rw [firstCheckpoint] at hf
    split at hf
    · next c' hc =>
      cases hf
      exact bind_eq_some_iff.mp hc
    · exact ih hf

section

variable (h : Ordered E t)
include h

theorem restore_ordered (hf : t.firstCheckpoint l = some (m, c)) :
    Ordered E (t.restore m c) := by
  obtain ⟨im, him, hc⟩ := firstCheckpoint_spec hf
  have hp := h.checkpoints m im c him hc
  apply h.moveTo hp.1
  intro m' hm'
  rw [← some.inj hm']
  exact ⟨c, hp, Nat.le_refl c⟩

theorem seekToBeforeKey_ordered (hse : t.seekToBeforeKey E key = some t') : Ordered E t' := by
  rw [seekToBeforeKey] at hse
  split at hse
  · split at hse
    · cases hse
      exact h
    · cases hse
      apply h.moveTo (Nat.zero_le _)
      intro m hm
      cases hm
  · split at hse
    · cases hse
      exact h
    · split at hse
      · next hf =>
        cases hse
        exact restore_ordered h hf
      · cases hse

theorem seekFromCheckpoint_ordered (hse : t.seekFromCheckpoint E m = some t') : Ordered E t' := by
  obtain ⟨im, him, hse⟩ := bind_eq_some_iff.mp hse
  split at hse
  · next hf =>
    cases hse
    exact restore_ordered h hf
  · exact seekToBeforeKey_ordered h hse

theorem replayTo_ordered (hr : t.replayTo E p = some t') : Ordered E t' := by
  rw [replayTo] at hr
  split at hr
  · next hp =>
    cases hr
    apply h.moveTo hp.2
    intro m hm
    obtain ⟨q, hq, hle⟩ := h.after m hm
    exact ⟨q, hq, Nat.le_trans hle hp.1⟩
  · cases hr

theorem moves_ordered {moves : List Move} (hm : moves.foldlM (move E) t = some t') :
    Ordered E t' := by
  induction moves generalizing t with
  | nil =>
    cases hm
    exact h
  | cons a moves ih =>
    obtain ⟨t₁, hmo, hr⟩ := bind_eq_some_iff.mp hm
    apply ih _ hr
    cases a with
    | replay p => exact replayTo_ordered h hmo
    | back key => exact seekToBeforeKey_ordered h hmo

end

theorem new_ordered : Ordered E new where
  current := Nat.zero_le _
  placed m im him := by cases him
  listed m im him := by cases him
  inOrder key := ⟨[], .nil, .nil, fun _ hq => by cases hq⟩
  after m hm := by cases hm
  checkpoints m im c him := by cases him

variable [DecidableEq R] [DecidableEq A] (h : Ordered E t)
include h

theorem addExplicitCheckpoint_ordered
    (hadd : t.addExplicitCheckpoint E = some (m, t')) : Ordered E t' := by
  obtain ⟨⟨m₁, t₁⟩, hm, hadd⟩ := bind_eq_some_iff.mp hadd
  obtain ⟨im, him, hadd⟩ := bind_eq_some_iff.mp hadd
  obtain ⟨h₁, hcu, hp⟩ := mark_spec h hm
  cases hadd
  have hco : Ordered E (if im.checkpoint.isSome then t₁ else
      { t₁.updateMark m fun im => { im with checkpoint := some t₁.current } with
        marksWithCheckpoints := countCheckpoint im.proto.key t₁.marksWithCheckpoints }) := by
    split
    · exact h₁
    apply Ordered.countCheckpoints
    apply h₁.updateMark
    · intro _
      rfl
    · intro _ c _ hc
      rw [← some.inj hc, hcu]
      exact hp
  apply hco.updateMark
  · intro _
    rfl
  · intro im c him hc
    exact hco.checkpoints _ im c him hc

theorem seekUpToMark_ordered (hse : t.seekUpToMark E m = some t') : Ordered E t' := by
  obtain ⟨im, him, hse⟩ := bind_eq_some_iff.mp hse
  split at hse
  · obtain ⟨⟨cm, t₁⟩, hm, hse⟩ := bind_eq_some_iff.mp hse
    obtain ⟨h₁, _⟩ := mark_spec h hm
    obtain ⟨less, _, hse⟩ := bind_eq_some_iff.mp hse
    cases less with
    | true => exact seekFromCheckpoint_ordered h₁ hse
    | false =>
      cases hse
      exact h₁
  · exact seekFromCheckpoint_ordered h hse

theorem seekToMark_ordered (hse : t.seekToMark E m moves = some t') : Ordered E t' := by
  obtain ⟨t₁, hup, hse⟩ := bind_eq_some_iff.mp hse
  obtain ⟨t₂, hm, hse⟩ := bind_eq_some_iff.mp hse
  obtain ⟨found, hcm, hse⟩ := bind_eq_some_iff.mp hse
  have h₂ := moves_ordered (seekUpToMark_ordered h hup) hm
  split at hse
  · next hf =>
    cases hse
    rcases currentMark_spec h₂ hcm with ⟨m', rfl, hp⟩ | ⟨rfl, _⟩
    · apply h₂.moveTo h₂.current
      intro m'' hm''
      obtain rfl : m = m'' := some.inj hm''
      obtain rfl : m' = m := some.inj hf
      exact ⟨t₂.current, hp, Nat.le_refl _⟩
    · cases hf
  · cases hse

theorem perform_ordered (hop : t.perform E op = some t') : Ordered E t' := by
  cases op with
  | mark =>
    obtain ⟨⟨m, t₁⟩, hm, rfl⟩ := map_eq_some_iff.mp hop
    exact (mark_spec h hm).1
  | addExplicitCheckpoint =>
    obtain ⟨⟨m, t₁⟩, hadd, rfl⟩ := map_eq_some_iff.mp hop
    exact addExplicitCheckpoint_ordered h hadd
  | removeExplicitCheckpoint m => exact removeExplicitCheckpoint_ordered h hop
  | seekToBeforeKey key => exact seekToBeforeKey_ordered h hop
  | seekUpToMark m => exact seekUpToMark_ordered h hop
  | seekToMark m moves => exact seekToMark_ordered h hop
  | replay p => exact replayTo_ordered h hop

theorem run_ordered (hrun : t.run E ops = some t') : Ordered E t' := by
  induction ops generalizing t with
  | nil =>
    cases hrun
    exact h
  | cons op ops ih =>
    obtain ⟨t₁, hop, hr⟩ := bind_eq_some_iff.mp hrun
    exact ih (perform_ordered h hop) hr

end Operations

section Comparison

variable {E : Execution R A} {t : ReplayTimeline R A} {heap : List (InternalMark R A)}

theorem mem_positions (hl : List.Forall₂ (PlacedIn E heap) l qs) (hm : m ∈ l)
    (hp : PlacedIn E heap m p) : p ∈ qs := by
  induction hl with
  | nil => cases hm
  | cons hq _ ih =>
    rcases mem_cons.mp hm with rfl | hm
    · rw [hp.unique hq]
      exact mem_cons_self
    · exact mem_cons_of_mem _ (ih hm)

section

variable (hl : List.Forall₂ (PlacedIn E heap) l qs) (hsorted : qs.Pairwise (· < ·))
include hl hsorted

theorem firstOf_spec
    (hm1 : m1 ∈ l) (hm2 : m2 ∈ l) (hp1 : PlacedIn E heap m1 p1) (hp2 : PlacedIn E heap m2 p2) :
    firstOf m1 m2 l = decide (p1 < p2) := by
  induction hl with
  | nil => cases hm1
  | @cons m q l qs hq hr ih =>
    obtain ⟨hla, hsorted⟩ := pairwise_cons.mp hsorted
    rw [firstOf]
    split
    · next heq =>
      rw [heq] at hq
      have hle : p2 ≤ p1 := by
        rw [hp2.unique hq]
        rcases mem_cons.mp hm1 with rfl | hm1
        · rw [heq] at hp1
          exact Nat.le_of_eq (hq.unique hp1)
        · exact Nat.le_of_lt (hla p1 (mem_positions hr hm1 hp1))
      exact (decide_eq_false (Nat.not_lt_of_le hle)).symm
    · next hne =>
      have hm2 := (mem_cons.mp hm2).resolve_left (Ne.symm hne)
      split
      · next heq =>
        rw [heq] at hq
        rw [hp1.unique hq]
        exact (decide_eq_true (hla p2 (mem_positions hr hm2 hp2))).symm
      · next hne1 => exact ih hsorted ((mem_cons.mp hm1).resolve_left (Ne.symm hne1)) hm2

theorem placed_injective
    (hm1 : m1 ∈ l) (hm2 : m2 ∈ l) (hp1 : PlacedIn E heap m1 p) (hp2 : PlacedIn E heap m2 p) :
    m1 = m2 := by
  induction hl with
  | nil => cases hm1
  | @cons m q l qs hq hr ih =>
    obtain ⟨hla, hsorted⟩ := pairwise_cons.mp hsorted
    rcases mem_cons.mp hm1 with rfl | hm1'
    · rcases mem_cons.mp hm2 with rfl | hm2'
      · rfl
      · have hlt := hla p (mem_positions hr hm2' hp2)
        rw [hp1.unique hq] at hlt
        exact absurd hlt (Nat.lt_irrefl _)
    · rcases mem_cons.mp hm2 with rfl | hm2'
      · have hlt := hla p (mem_positions hr hm1' hp1)
        rw [hp2.unique hq] at hlt
        exact absurd hlt (Nat.lt_irrefl _)
      · exact ih hsorted hm1' hm2'

theorem nodup_of_inOrder : l.Nodup := by
  induction hl with
  | nil => exact nodup_nil
  | @cons m q l qs hq hr ih =>
    obtain ⟨hla, hsorted⟩ := pairwise_cons.mp hsorted
    rw [nodup_cons]
    refine ⟨fun hm => ?_, ih hsorted⟩
    exact absurd (hla q (mem_positions hr hm hq)) (Nat.lt_irrefl q)

end

theorem Ordered.listed_at (h : Ordered E t) (hp : PlacedIn E t.heap m p) :
    m ∈ t.marks (E.proto p).key := by
  obtain ⟨_, im, him, hpr⟩ := hp
  rw [← hpr]
  exact h.listed m im him

theorem lessThan_spec (h : Ordered E t) (hp1 : PlacedIn E t.heap m1 p1)
    (hp2 : PlacedIn E t.heap m2 p2) : t.lessThan m1 m2 = some (decide (p1 < p2)) := by
  have hm1 := h.listed_at hp1
  have hm2 := h.listed_at hp2
  obtain ⟨hl1, im1, him1, hpr1⟩ := id hp1
  obtain ⟨hl2, im2, him2, hpr2⟩ := id hp2
  rw [lessThan, him1, him2, bind_eq_bind, bind_some, bind_some, hpr1, hpr2]
  split
  · next hlt => rw [decide_eq_true (E.lt_of_key_lt hl1 hlt)]; rfl
  next hnot =>
  split
  · next hlt =>
    have hle := Nat.not_lt_of_lt (E.lt_of_key_lt hl2 hlt)
    rw [decide_eq_false hle]; rfl
  · next hn' =>
    have hkey := MarkKey.eq_of_not_lt (eq_false_iff.mpr hnot) (eq_false_iff.mpr hn')
    obtain ⟨qs, hq⟩ := h.inOrder (E.proto p1).key
    rw [firstOf_spec hq.1 hq.2.1 hm1 (hkey ▸ hm2) hp1 hp2]
    rfl

end Comparison

section Results

variable {E : Execution R A} {t : ReplayTimeline R A}

theorem Ordered.placedIn (h : Ordered E t) (hm : m < t.heap.length) :
    ∃ p, PlacedIn E t.heap m p := by
  have him : t.heap[m]? = some t.heap[m] := getElem?_eq_getElem hm
  obtain ⟨p, hp, hpr⟩ := h.placed m _ him
  exact ⟨p, hp, _, him, hpr⟩

theorem Ordered.strictTotalOrder (h : Ordered E t) :
    IsStrictTotalOrder (Fin t.heap.length) fun a b => t.lessThan a b = some true where
  irrefl a hlt := by
    obtain ⟨p, hp⟩ := h.placedIn a.isLt
    rw [lessThan_spec h hp hp, some.injEq, decide_eq_true_eq] at hlt
    exact Nat.lt_irrefl p hlt
  trans a b c hab hbc := by
    obtain ⟨p, hp⟩ := h.placedIn a.isLt
    obtain ⟨q, hq⟩ := h.placedIn b.isLt
    obtain ⟨r, hr⟩ := h.placedIn c.isLt
    rw [lessThan_spec h hp hq, some.injEq, decide_eq_true_eq] at hab
    rw [lessThan_spec h hq hr, some.injEq, decide_eq_true_eq] at hbc
    rw [lessThan_spec h hp hr, decide_eq_true (Nat.lt_trans hab hbc)]
  trichotomous a b hab hba := by
    obtain ⟨p, hp⟩ := h.placedIn a.isLt
    obtain ⟨q, hq⟩ := h.placedIn b.isLt
    rw [lessThan_spec h hp hq, some.injEq, decide_eq_true_eq] at hab
    rw [lessThan_spec h hq hp, some.injEq, decide_eq_true_eq] at hba
    have hpq : p = q := by omega
    subst hpq
    obtain ⟨qs, hpl, hsorted, _⟩ := h.inOrder (E.proto p).key
    exact Fin.ext (placed_injective hpl hsorted (h.listed_at hp) (h.listed_at hq) hp hq)

variable [DecidableEq R] [DecidableEq A]

def threeSteps : Execution Nat Unit where
  last := 3
  proto p := ⟨⟨0, 0, 0⟩, p, ()⟩
  hasTask _ := true
  step p _ := if p < 3 then ⟨p + 1, false, true, false, false⟩ else ⟨p, true, true, false, false⟩
  mono _ _ _ _ := MarkKey.lt_irrefl _
  identified p q _ _ h := congrArg ProtoMark.regs h
  step_le p _ hp := by split <;> dsimp only <;> omega
  step_exited p _ hp := by
    split
    · simp
    · omega
  step_complete p _ hp := by
    split
    · simp
    · simp
  step_incomplete p _ hp := by
    split
    · simp
    · simp
  step_stops p _ q hp hpq := by split <;> dsimp only <;> omega

end Results

end ReplayTimeline

end Attune.Timeline
