import Attune.Breakpoints

namespace Attune.Breakpoints
open OrderedMap List AddressSpace Breakpoint Option Function

theorem memcpy_singleton (dest : List UInt8) (b : UInt8) (h : i < dest.length) :
    memcpy dest i [b] = dest.set i b := by
  rw [set_eq_take_append_cons_drop, if_pos h]
  simp only [memcpy, append_assoc, singleton_append, length_singleton]

theorem replaceOne_eq (e : Nat × Breakpoint) (hl : dest.length = len) (hr : addr + len < 2 ^ 64)
    (he : e.1 + 1 < 2 ^ 64) :
    replaceOne len addr dest e =
      if addr ≤ e.1 ∧ e.1 < addr + len then dest.set (e.1 - addr) e.2.overwrittenData
      else dest := by
  simp only [replaceOne, dataLength, originalData, ptrAdd_eq hr,
    ptrAdd_eq he]
  by_cases hin : addr ≤ e.1 ∧ e.1 < addr + len
  · have hs : max addr e.1 = e.1 := max_eq_right hin.1
    have ht : min (addr + len) (e.1 + 1) = e.1 + 1 := min_eq_right hin.2
    have h3 : ptrSub e.1 addr = e.1 - addr := ptrSub_eq hin.1 (by omega)
    have h4 : ptrSub e.1 e.1 = 0 := by rw [ptrSub_eq le_rfl (by omega), Nat.sub_self]
    have h5 : ptrSub (e.1 + 1) e.1 = 1 := by rw [ptrSub_eq (by omega) (by omega)]; omega
    rw [if_pos hin, hs, ht, if_pos (Nat.lt_succ_self _), h3, h4, h5]
    exact memcpy_singleton dest _ (by omega)
  · rw [if_neg hin, if_neg]
    omega

theorem replaceOne_length (e : Nat × Breakpoint) (hl : dest.length = len)
    (hr : addr + len < 2 ^ 64) (he : e.1 + 1 < 2 ^ 64) :
    (replaceOne len addr dest e).length = len := by
  rw [replaceOne_eq e hl hr he]
  split
  · rw [length_set, hl]
  · exact hl

theorem foldl_replaceOne_zero (bs : List (Nat × Breakpoint)) (dest : List UInt8) :
    bs.foldl (replaceOne 0 addr) dest = dest := by
  induction bs with
  | nil => rfl
  | cons e bs ih =>
    have hle : ptrAdd addr 0 ≤ addr := Nat.mod_le addr _
    have hone : replaceOne 0 addr dest e = dest := by
      simp only [replaceOne]
      rw [if_neg]
      omega
    rw [foldl_cons, hone, ih]

theorem foldl_replaceOne (m₀ : Nat → UInt8) (bs : List (Nat × Breakpoint))
    (hb : ∀ e ∈ bs, e.1 + 1 < 2 ^ 64 ∧ e.2.overwrittenData = m₀ e.1)
    (hl : dest.length = len) (hr : addr + len < 2 ^ 64)
    (hd : ∀ i (h : i < dest.length), dest[i] = m₀ (addr + i) ∨ ∃ e ∈ bs, e.1 = addr + i) :
    bs.foldl (replaceOne len addr) dest = (range len).map fun i => m₀ (addr + i) := by
  induction bs generalizing dest with
  | nil =>
    apply ext_getElem
    · rw [foldl_nil, length_map, length_range, hl]
    · intro i h1 h2
      rcases hd i h1 with h | ⟨e, he, _⟩
      · rw [getElem_map, getElem_range]
        exact h
      · cases he
  | cons e bs ih =>
    have he := hb e mem_cons_self
    rw [foldl_cons]
    apply ih (fun e' h => hb e' (mem_cons_of_mem _ h)) (replaceOne_length e hl hr he.1)
    intro i hi
    rw [replaceOne_length e hl hr he.1, ← hl] at hi
    simp only [replaceOne_eq e hl hr he.1]
    rcases hd i hi with h | ⟨e', he', hei⟩
    · -- a byte that was right stays right: the visited breakpoint saved the same value
      left
      split
      · rw [getElem_set]
        split
        · rw [he.2]
          congr 1
          omega
        · exact h
      · exact h
    · rcases mem_cons.mp he' with rfl | he'
      · left
        have hin : addr ≤ e'.1 ∧ e'.1 < addr + len := by omega
        have hix : e'.1 - addr = i := by omega
        simp only [hin, and_self, ↓reduceIte, hix, getElem_set_self]
        rw [he.2, hei]
      · exact .inr ⟨e', he', hei⟩

/-- Untouched with no reference held, or trapped with its byte saved and its references counted. -/
def Consistent (readable : Nat → Bool) (m₀ : Nat → UInt8) (n : Nat → Nat) (s : AddressSpace)
    (a : Nat) : Prop :=
  match get a s.breakpoints with
  | none => n a = 0 ∧ s.memory a = m₀ a
  | some b => 0 < n a ∧ b.total = n a ∧ b.overwrittenData = m₀ a ∧ readable a = true

structure Invariant (readable : Nat → Bool) (m₀ : Nat → UInt8) (n : Nat → Nat)
    (s : AddressSpace) : Prop where
  tasks : s.taskSet.isEmpty = false
  sorted : Sorted s.breakpoints
  consistent : ∀ a, Consistent readable m₀ n s a

section Step

variable {readable : Nat → Bool} {m₀ : Nat → UInt8} {n : Nat → Nat} {s : AddressSpace}

theorem Invariant.absent (h : Invariant readable m₀ n s) (ha : get a s.breakpoints = none) :
    n a = 0 ∧ s.memory a = m₀ a := by
  have hc := h.consistent a
  simpa only [Consistent, ha] using hc

theorem Invariant.present (h : Invariant readable m₀ n s) (ha : get a s.breakpoints = some b) :
    0 < n a ∧ b.total = n a ∧ b.overwrittenData = m₀ a ∧ readable a = true := by
  have hc := h.consistent a
  simpa only [Consistent, ha] using hc

section

variable (h : Invariant readable m₀ n s) (b : Breakpoint) (mem : Nat → UInt8) (hm : ∀ x, x ≠ a → mem x = s.memory x)
include h hm

theorem Invariant.assign (hn : ∀ x, x ≠ a → n' x = n x) : ∀ x, x ≠ a → Consistent readable m₀ n'
      ⟨s.taskSet, mem, assign less a b s.breakpoints⟩ x := by
  intro x hx
  have hc := h.consistent x
  simpa only [Consistent, h.sorted.get_assign, hx, ↓reduceIte, hm x hx, hn x hx] using hc

theorem Invariant.stored (hn : ∀ x, x ≠ a → n' x = n x)
    (hb : 0 < n' a ∧ b.total = n' a ∧ b.overwrittenData = m₀ a ∧ readable a = true) :
    Invariant readable m₀ n' ⟨s.taskSet, mem, OrderedMap.assign less a b s.breakpoints⟩ where
  tasks := h.tasks
  sorted := h.sorted.assign a b
  consistent x := by
    by_cases hx : x = a
    · subst hx
      simpa only [Consistent, h.sorted.get_assign, ↓reduceIte] using hb
    · exact h.assign b mem hm hn x hx

end

theorem Invariant.destroyed (ht : s.taskSet.isEmpty = false) (hs : Sorted s.breakpoints)
    (hc : ∀ x, x ≠ a → Consistent readable m₀ n s x) (hb : b.overwrittenData = m₀ a)
    (ha : n a = 0) : Invariant readable m₀ n (s.destroyBreakpoint (a, b)) := by
  simp only [destroyBreakpoint, ht, Bool.false_eq_true, ↓reduceIte,
    writeMem]
  refine ⟨ht, hs.erase a, ?_⟩
  intro x
  simp only [Consistent, hs.get_erase]
  by_cases hx : x = a
  · subst hx
    simpa only [↓reduceIte, update_self] using And.intro ha hb
  · simpa only [hx, ↓reduceIte, Consistent, update_of_ne hx] using hc x hx

section

variable (h : Invariant readable m₀ n s)
include h

theorem Invariant.addBreakpoint (addr : Nat) (type : BreakpointType) :
    ∃ r, s.addBreakpoint readable addr type = some r ∧
      Invariant readable m₀ (refStep readable n (.addBreakpoint addr type)) r.2 := by
  have hne (x : Nat) (hx : x ≠ addr) : refStep readable n (.addBreakpoint addr type) x = n x := by
    simp only [refStep, hx, false_and, ↓reduceIte]
  cases hg : get addr s.breakpoints with
  | some b =>
    obtain ⟨hpos, ht, hd, hr⟩ := h.present hg
    refine ⟨_, by simp only [AddressSpace.addBreakpoint, hg]; rfl, ?_⟩
    apply h.stored (b.ref type) s.memory (fun _ _ => rfl) hne
    simp only [refStep, hr, and_self, ↓reduceIte, Breakpoint.ref, Breakpoint.adjust_total, ht,
      Breakpoint.adjust_data, hd, and_true]
    omega
  | none =>
    obtain ⟨hz, hmem⟩ := h.absent hg
    cases hr : readable addr with
    | false =>
      refine ⟨(false, s), by simp only [AddressSpace.addBreakpoint, hg, h.tasks,
        Bool.false_eq_true, ↓reduceIte, hr], ?_⟩
      have he : refStep readable n (.addBreakpoint addr type) = n := by
        funext x
        by_cases hx : x = addr
        · subst hx
          simp only [refStep, hr, Bool.false_eq_true, and_false, ↓reduceIte]
        · exact hne x hx
      rwa [he]
    | true =>
      refine ⟨_, by simp only [AddressSpace.addBreakpoint, hg, h.tasks, Bool.false_eq_true,
        ↓reduceIte, hr]; rfl, ?_⟩
      rw [insert_eq_assign _ hg, h.sorted.assign_assign]
      apply h.stored _ _ (fun x hx => update_of_ne hx _ _) hne
      have hz' : (⟨0, 0, m₀ addr⟩ : Breakpoint).total = 0 := rfl
      simp only [refStep, hr, and_self, ↓reduceIte, Breakpoint.ref, Breakpoint.adjust_total, hz,
        Breakpoint.adjust_data, hmem, hz', and_true]
      omega

theorem Invariant.removeBreakpoint (addr : Nat) (type : BreakpointType) :
    Invariant readable m₀ (refStep readable n (.removeBreakpoint addr type))
      (s.removeBreakpoint addr type) := by
  have hne (x : Nat) (hx : x ≠ addr) :
      refStep readable n (.removeBreakpoint addr type) x = n x := by
    simp only [refStep, hx, ↓reduceIte]
  have ha : refStep readable n (.removeBreakpoint addr type) addr = n addr - 1 := by
    simp only [refStep, ↓reduceIte]
  cases hg : get addr s.breakpoints with
  | none =>
    have hz := (h.absent hg).1
    have he : refStep readable n (.removeBreakpoint addr type) = n := by
      funext x
      by_cases hx : x = addr
      · subst hx
        omega
      · exact hne x hx
    simpa only [AddressSpace.removeBreakpoint, hg, he] using h
  | some b =>
    obtain ⟨hpos, ht, hd, hr⟩ := h.present hg
    have ht' : (b.unref type).total = n addr - 1 := by
      rw [Breakpoint.unref, Breakpoint.adjust_total, ht, Int.sub_eq_add_neg]
    have hd' : (b.unref type).overwrittenData = m₀ addr := by
      rw [Breakpoint.unref, Breakpoint.adjust_data, hd]
    simp only [AddressSpace.removeBreakpoint, hg]
    split
    · apply h.stored _ _ (fun _ _ => rfl) hne
      refine ⟨?_, ?_, hd', hr⟩ <;> omega
    · have hs : Sorted (OrderedMap.assign less addr (b.unref type) s.breakpoints) :=
        h.sorted.assign addr _
      have hc := h.assign (b.unref type) s.memory (fun _ _ => rfl) hne
      exact Invariant.destroyed (s := ⟨_, _, _⟩) h.tasks hs hc hd' (by omega)

theorem Invariant.removeAllLoop :
    ∃ s', AddressSpace.removeAllLoop s.breakpoints.length s = some s' ∧
      Invariant readable m₀ (fun _ => 0) s' := by
  generalize hl : s.breakpoints.length = len
  induction len generalizing s n with
  | zero =>
    have hb := eq_nil_of_length_eq_zero hl
    refine ⟨s, by simp only [removeAllLoop, hb, isEmpty_nil, ↓reduceIte],
      h.tasks, h.sorted, ?_⟩
    intro a
    have hg : get a s.breakpoints = none := by rw [hb]; rfl
    simpa only [Consistent, hg, true_and] using (h.absent hg).2
  | succ len ih =>
    cases hb : s.breakpoints with
    | nil => simp only [hb, length_nil, Nat.right_eq_add, Nat.add_eq_zero_iff] at hl; omega
    | cons e bs =>
      have hg : get e.1 s.breakpoints = some e.2 := by
        rw [h.sorted.get_eq_some, hb]
        exact mem_cons_self
      obtain ⟨_, _, hd, _⟩ := h.present hg
      have hi : Invariant readable m₀ (update n e.1 0) (s.destroyBreakpoint e) := by
        apply Invariant.destroyed h.tasks h.sorted ?_ hd (update_self ..)
        intro x hx
        simpa only [Consistent, update_of_ne hx] using h.consistent x
      have hlt : (s.destroyBreakpoint e).breakpoints.length = len := by
        have hs := h.sorted
        rw [hb] at hs
        have he : erase less e.1 (e :: bs) = bs :=
          erase_present (A := []) (by simp) (pairwise_cons.mp hs).1
        simp only [destroyBreakpoint, h.tasks, Bool.false_eq_true, ↓reduceIte,
          writeMem, hb, he]
        simpa only [hb, length_cons, Nat.add_right_cancel_iff] using hl
      obtain ⟨s', hs', hinv⟩ := ih hi hlt
      refine ⟨s', ?_, hinv⟩
      simpa only [removeAllLoop, hb] using hs'

theorem Invariant.writeAtBreakpoint (addr : Nat) (byte : Breakpoint → UInt8) :
    ∃ s', s.writeAtBreakpoint addr byte = some s' ∧ Invariant readable m₀ n s' := by
  cases hg : get addr s.breakpoints with
  | none => exact ⟨s, by simp only [AddressSpace.writeAtBreakpoint, hg], h⟩
  | some b =>
    refine ⟨s.writeMem addr (byte b), by simp only [AddressSpace.writeAtBreakpoint, hg, h.tasks,
      Bool.false_eq_true, ↓reduceIte], h.tasks, h.sorted, ?_⟩
    intro x
    have hc := h.consistent x
    by_cases hx : x = addr
    · subst hx
      simpa only [Consistent, AddressSpace.writeMem, hg] using hc
    · simpa only [Consistent, AddressSpace.writeMem, update_of_ne hx] using hc

theorem Invariant.step (c : Call) :
    ∃ s', s.step readable c = some s' ∧ Invariant readable m₀ (refStep readable n c) s' := by
  cases c with
  | addBreakpoint addr type =>
    obtain ⟨r, hr, hi⟩ := h.addBreakpoint addr type
    exact ⟨r.2, by simp only [AddressSpace.step, hr, map_some], hi⟩
  | removeBreakpoint addr type => exact ⟨_, rfl, h.removeBreakpoint addr type⟩
  | removeAllBreakpoints => exact h.removeAllLoop
  | suspendBreakpointAt addr | restoreBreakpointAt addr => exact h.writeAtBreakpoint addr _

theorem Invariant.run (calls : List Call) : ∃ s', s.run readable calls = some s' ∧
      Invariant readable m₀ (calls.foldl (refStep readable) n) s' := by
  induction calls generalizing s n with
  | nil => exact ⟨s, rfl, h⟩
  | cons c calls ih =>
    obtain ⟨s₁, hs₁, hi⟩ := h.step c
    obtain ⟨s', hs', hi'⟩ := ih hi
    refine ⟨s', ?_, hi'⟩
    rw [run, foldlM_cons, hs₁]
    exact hs'

end

theorem Invariant.initial (ht : s.taskSet ≠ []) (hb : s.breakpoints = []) :
    Invariant readable s.memory (fun _ => 0) s := by
  refine ⟨isEmpty_eq_false_iff.mpr ht, by rw [hb]; exact .nil, ?_⟩
  intro a
  have hg : get a s.breakpoints = none := by rw [hb]; rfl
  simp only [Consistent, hg, and_self]

theorem Invariant.masked (h : Invariant readable m₀ n s)
    (hr : ∀ a, readable a = true → a + 1 < 2 ^ 64)
    (hran : ∀ i, i < len → readable (addr + i) = true) :
    s.replaceBreakpointsWithOriginalValues (s.readMem addr len) len addr =
      (range len).map fun i => m₀ (addr + i) := by
  cases len with
  | zero => exact foldl_replaceOne_zero ..
  | succ len =>
    have htop := hr _ (hran len (Nat.lt_succ_self len))
    apply foldl_replaceOne
    · rintro ⟨a, b⟩ he
      obtain ⟨_, _, hd, hra⟩ := h.present (h.sorted.get_eq_some.mpr he)
      exact ⟨hr a hra, hd⟩
    · simp only [readMem, length_map, length_range]
    · omega
    · intro i hi
      simp only [readMem, getElem_map, getElem_range]
      cases hg : get (addr + i) s.breakpoints with
      | none => exact .inl (h.absent hg).2
      | some b => exact .inr ⟨_, h.sorted.get_eq_some.mp hg, rfl⟩

end Step

/-- Any sequence of calls returns; masked reads show the original bytes, and a breakpoint is there
exactly while references to it are held. -/
theorem breakpoints_transparent (readable : Nat → Bool)
    (hr : ∀ a, readable a = true → a + 1 < 2 ^ 64) (s₀ : AddressSpace)
    (ht : s₀.taskSet ≠ []) (hb : s₀.breakpoints = []) (calls : List Call) :
    ∃ s, s₀.run readable calls = some s ∧
      (∀ addr len, (∀ i, i < len → readable (addr + i) = true) →
        s.replaceBreakpointsWithOriginalValues (s.readMem addr len) len addr =
          s₀.readMem addr len) ∧
      (∀ a, (get a s.breakpoints).isSome ↔ 0 < refCount readable calls a) ∧
      (∀ a b, get a s.breakpoints = some b →
        b.internalCount + b.userCount = refCount readable calls a) ∧
      ∀ a, get a s.breakpoints = none → s.memory a = s₀.memory a := by
  have hin : Invariant readable s₀.memory (fun _ => 0) s₀ := Invariant.initial ht hb
  obtain ⟨s, hs, hi⟩ := hin.run calls
  refine ⟨s, hs, fun addr len h => hi.masked hr h, ?_, fun a b h => (hi.present h).2.1,
    fun a h => (hi.absent h).2⟩
  intro a
  cases hg : get a s.breakpoints with
  | none =>
    have hz : refCount readable calls a = 0 := (hi.absent hg).1
    simp only [isSome_none, Bool.false_eq_true, hz, lt_self_iff_false]
  | some b =>
    have hpos : 0 < refCount readable calls a := (hi.present hg).1
    simp only [isSome_some, hpos]

/-- Two references of different kinds on one address, one of them dropped again. -/
theorem breakpoints_transparent_two_kinds :
    ∃ s, (⟨[1], fun _ => 0x90, []⟩ : AddressSpace).run (fun a => decide (a < 16))
        [.addBreakpoint 3 .user, .addBreakpoint 3 .internal, .suspendBreakpointAt 3,
          .removeBreakpoint 3 .user] = some s ∧
      s.replaceBreakpointsWithOriginalValues (s.readMem 0 8) 8 0 = replicate 8 0x90 ∧
      (get 3 s.breakpoints).isSome ∧ get 4 s.breakpoints = none := by
  obtain ⟨s, hs, hma, hp, _, _⟩ := breakpoints_transparent (fun a => decide (a < 16))
    (fun a ha => by have := of_decide_eq_true ha; omega) ⟨[1], fun _ => 0x90, []⟩
    (cons_ne_nil _ _) rfl [.addBreakpoint 3 .user, .addBreakpoint 3 .internal,
      .suspendBreakpointAt 3, .removeBreakpoint 3 .user]
  refine ⟨s, hs, ?_, (hp 3).mpr (by decide), ?_⟩
  · exact hma 0 8 fun i hi => decide_eq_true (by omega)
  · have h4 : ¬ (get 4 s.breakpoints).isSome := fun h => absurd ((hp 4).mp h) (by decide)
    simpa only [not_isSome_iff_eq_none] using h4

end Attune.Breakpoints
