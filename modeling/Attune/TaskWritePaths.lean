import Attune.TaskWrite

namespace Attune.Watchpoint
open List Watchpoint Bool

theorem readValue_congr {t t' : Tracee} (hre : t'.readable = t.readable)
    (hmem : ∀ a, addr ≤ a → a < addr + n → t'.memory a = t.memory a) :
    readValue t' addr skipping n = readValue t addr skipping n := by
  induction n generalizing addr skipping with
  | zero => rfl
  | succ n ih =>
    have hr {k : Bool} : readValue t' (addr + 1) k n = readValue t (addr + 1) k n :=
      ih (fun a h₁ h₂ => hmem a (by omega) (by omega))
    rw [readValue, readValue, hre, hr, hr, hmem addr (Nat.le_refl _) (by omega)]

theorem readValue_getElem {t : Tracee}
    (hp : ∀ a b, a / pageSize = b / pageSize → t.readable a = t.readable b)
    (hsk : skipping = true → addr % pageSize ≠ 0 → t.readable addr = false)
    (hi : i < n) (hre : t.readable (addr + i) = true) :
    (readValue t addr skipping n).1[i]? = some (t.memory (addr + i)) := by
  induction n generalizing addr skipping i with
  | zero => exact absurd hi (Nat.not_lt_zero _)
  | succ n ih =>
    have hne : t.readable addr = false → (addr + 1) % pageSize ≠ 0 →
        t.readable (addr + 1) = false := by
      intro hbad hin
      rw [← hbad]
      apply hp
      simp only [pageSize] at hin ⊢
      omega
    have hres (k : Bool)
        (hk : k = true → (addr + 1) % pageSize ≠ 0 → t.readable (addr + 1) = false) (j : Nat)
        (hj : j + 1 < n + 1) (hr : t.readable (addr + (j + 1)) = true) :
        (readValue t (addr + 1) k n).1[j]? = some (t.memory (addr + (j + 1))) := by
      have heq : addr + (j + 1) = addr + 1 + j := by omega
      rw [heq] at hr ⊢
      exact ih hk (by omega) hr
    rw [readValue]
    by_cases hbad : ((skipping && addr % pageSize ≠ 0) || !t.readable addr) = true
    · have hu : t.readable addr = false := by
        cases hr : t.readable addr with
        | false => rfl
        | true =>
          simp only [hr, Bool.not_true, Bool.or_false, Bool.and_eq_true, decide_eq_true_eq] at hbad
          rw [← hr]
          exact hsk hbad.1 hbad.2
      rw [if_pos hbad]
      cases i with
      | zero => exact absurd hre (by rw [Nat.add_zero, hu]; exact Bool.false_ne_true)
      | succ i =>
        rw [getElem?_cons_succ]
        exact hres true (fun _ => hne hu) i hi hre
    · rw [if_neg hbad]
      cases i with
      | zero => rfl
      | succ i =>
        dsimp only
        rw [getElem?_cons_succ]
        exact hres false (fun h => absurd h false_ne_true) i hi hre

theorem length_readValue : (readValue t addr skipping n).1.length = n := by
  induction n generalizing addr skipping with
  | zero => rfl
  | succ n ih =>
    rw [readValue]
    split
    · rw [length_cons, ih]
    · rw [length_cons, ih]

theorem updateValue_congr {t t' : Tracee} {range : MemoryRange} (hr : t'.readable = t.readable)
    (hmem : ∀ a, range.start ≤ a → a < range.start + range.size → t'.memory a = t.memory a)
    (w : Watchpoint) : w.updateValue t' range = w.updateValue t range := by
  rw [updateValue, updateValue, readValue_congr hr hmem]

theorem getD_of_updateValue {t : Tracee} {range : MemoryRange} {w : Watchpoint}
    (hp : ∀ a b, a / pageSize = b / pageSize → t.readable a = t.readable b)
    (hsa : (w.updateValue t range).1 = false) (hi : i < range.size)
    (hr : t.readable (range.start + i) = true) :
    w.valueBytes.getD i 0 = t.memory (range.start + i) := by
  have hget := readValue_getElem hp (fun h => absurd h false_ne_true) hi hr
  have hval : (readValue t range.start false range.size).1 ++
      replicate (w.valueBytes.length - (readValue t range.start false range.size).1.length) 0xFF
      = w.valueBytes := bne_eq_false_iff_eq.mp (or_eq_false_iff.mp hsa).2
  rw [← hval, getD_eq_getElem?_getD, getElem?_append_left (by rw [length_readValue]; exact hi),
    hget]
  rfl

def refresh (t : Tracee) (e : MemoryRange × Watchpoint) : MemoryRange × Watchpoint :=
  (e.1, if (e.2.updateValue t e.1).1 then { (e.2.updateValue t e.1).2 with changed := true }
    else (e.2.updateValue t e.1).2)

theorem refresh_eq_iff : refresh t e = e ↔ (e.2.updateValue t e.1).1 = false := by
  obtain ⟨range, w⟩ := e
  constructor
  · intro h
    have hw : (refresh t (range, w)).2 = w := congrArg Prod.snd h
    cases hc : (w.updateValue t range).1 with
    | false => rfl
    | true =>
      simp only [refresh, hc, if_true] at hw
      have hv := congrArg valid hw
      have hva := congrArg valueBytes hw
      simp only [updateValue] at hc hv hva
      rw [hv, hva] at hc
      simp at hc
  · intro hc
    simp only [refresh, hc]
    simp only [updateValue, or_eq_false_iff, bne_eq_false_iff_eq] at hc
    simp only [updateValue, hc.1, hc.2]
    rfl

end Attune.Watchpoint

namespace Attune.WriteState
set_option autoImplicit true

section
variable {s : WriteState}

theorem stored_le (s : WriteState) (addr size : Nat) : s.stored addr size ≤ size := by
  induction size generalizing addr with
  | zero => exact Nat.le_refl _
  | succ size ih =>
    rw [stored]
    split
    · exact Nat.succ_le_succ (ih _)
    · exact Nat.zero_le _

theorem pokeEnd_le (s : WriteState) (addr size : Nat) : s.pokeEnd addr size ≤ size := by
  rw [pokeEnd]
  split
  · exact Nat.zero_le _
  split
  · exact Nat.zero_le _
  · split
    · simp only [wordStart, wordSize]
      omega
    · exact Nat.le_refl _

theorem pokeEnd_stop (hsi : 0 < size)
    (hst : min (wordStart addr + wordSize - addr) size < wordSize ∧
      s.tracee.readable (wordStart addr) = false) : s.pokeEnd addr size = 0 := by
  have hp : addr % wordSize ≠ 0 ∨ size < wordSize := by
    have := hst.1
    simp only [wordStart, wordSize] at this ⊢
    omega
  rw [pokeEnd, if_neg (Nat.ne_of_gt hsi), if_pos ⟨hp, hst.2⟩]

theorem pokeEnd_step (hsi : 0 < size)
    (hgo : ¬ (min (wordStart addr + wordSize - addr) size < wordSize ∧
      s.tracee.readable (wordStart addr) = false)) :
    s.pokeEnd addr size = min (wordStart addr + wordSize - addr) size +
      s.pokeEnd (addr + min (wordStart addr + wordSize - addr) size)
        (size - min (wordStart addr + wordSize - addr) size) := by
  generalize hl : min (wordStart addr + wordSize - addr) size = l at hgo
  have hend : addr + l + (size - l) = addr + size := by omega
  have hf : ¬ ((addr % wordSize ≠ 0 ∨ size < wordSize) ∧
      s.tracee.readable (wordStart addr) = false) := by
    intro h
    apply hgo ⟨_, h.2⟩
    have := h.1
    simp only [wordStart, wordSize] at hl this ⊢
    omega
  rw [pokeEnd, if_neg (Nat.ne_of_gt hsi), if_neg hf, pokeEnd, hend]
  by_cases hz : size - l = 0
  · rw [if_pos hz, if_neg]
    · omega
    · simp only [wordStart, wordSize] at hl ⊢
      omega
  · -- something is left, so that the next word is a whole one or the last one
    have ha : addr + l = wordStart addr + wordSize := by
      simp only [wordStart, wordSize] at hl ⊢
      omega
    rw [if_neg hz]
    generalize hr : s.tracee.readable (wordStart (addr + size)) = readable
    by_cases hla : size - l < wordSize
    · have hw : wordStart (addr + l) = wordStart (addr + size) := by
        simp only [wordStart, wordSize] at hl ha hla ⊢
        omega
      rw [hw, hr]
      cases readable with
      | true =>
        rw [if_neg (by simp), if_neg (by simp), if_neg (by simp)]
        omega
      | false =>
        have hp : (addr + size) % wordSize ≠ 0 ∧ addr < wordStart (addr + size) := by
          simp only [wordStart, wordSize] at hl ha hla ⊢
          omega
        rw [if_pos ⟨hp.1, hp.2, rfl⟩, if_pos ⟨.inr hla, rfl⟩, ← hw]
        simp only [wordStart, wordSize] at hl ha ⊢
        omega
    · have hwh : ¬ ((addr + l) % wordSize ≠ 0 ∨ size - l < wordSize) := by
        simp only [wordStart, wordSize] at ha hla ⊢
        omega
      by_cases hp : (addr + size) % wordSize ≠ 0 ∧ readable = false
      · have hlt : addr + l < wordStart (addr + size) := by
          have := hp.1
          simp only [wordStart, wordSize] at ha hla this ⊢
          omega
        rw [if_pos ⟨hp.1, by omega, hp.2⟩, if_neg (fun h => hwh h.1),
          if_pos ⟨hp.1, hlt, hp.2⟩]
        omega
      · rw [if_neg (fun h => hp ⟨h.1, h.2.2⟩), if_neg (fun h => hwh h.1),
          if_neg (fun h => hp ⟨h.1, h.2.2⟩)]
        omega

theorem poked_piece (m : Nat → UInt8) (start length : Nat) (data : List UInt8)
    (hfit : start + length ≤ wordStart start + wordSize) (a : Nat) :
    (if s.pokable (wordStart start) = true then
      pokeWord m (wordStart start) (fun i =>
        if start - wordStart start ≤ i ∧ i < start - wordStart start + length then
          data.getD (i - (start - wordStart start)) 0
        else m (wordStart start + i))
      else m) a =
      if (start ≤ a ∧ a < start + length) ∧ s.pokable (wordStart a) = true then
        data.getD (a - start) 0
      else m a := by
  have hst : wordStart start ≤ start := Nat.div_mul_le_self _ _
  by_cases hin : start ≤ a ∧ a < start + length
  · have hw : wordStart a = wordStart start := by
      simp only [wordStart, wordSize] at hfit ⊢
      omega
    rw [hw]
    split
    · next hp =>
      rw [if_pos ⟨hin, hp⟩, pokeWord, if_pos (by omega), if_pos (by omega)]
      congr 1
      omega
    · next hp =>
      rw [if_neg (fun h => hp h.2)]
  · have hout : ¬ ((start ≤ a ∧ a < start + length) ∧ s.pokable (wordStart a) = true) :=
      fun h => hin h.1
    rw [if_neg hout]
    split
    · next hp =>
      rw [pokeWord]
      split
      · next hw =>
        rw [if_neg (by omega)]
        congr 1
        omega
      · rfl
    · rfl

theorem pokeLoop_spec (hfu : data.length ≤ fuel) :
    (pokeLoop s fuel start data m).2 = s.pokeEnd start data.length ∧
    ∀ a, (pokeLoop s fuel start data m).1 a =
      if (start ≤ a ∧ a < start + s.pokeEnd start data.length) ∧ s.pokable (wordStart a) = true then
        data.getD (a - start) 0
      else m a := by
  induction fuel generalizing start data m with
  | zero =>
    have hnil : data.length = 0 := Nat.le_zero.mp hfu
    have hend : s.pokeEnd start data.length = 0 := by rw [pokeEnd, if_pos hnil]
    refine ⟨hend.symm, fun a => ?_⟩
    rw [hend, if_neg (by omega)]
    rfl
  | succ fuel ih =>
    rw [pokeLoop]
    by_cases hnil : data = []
    · have hend : s.pokeEnd start data.length = 0 := by rw [pokeEnd, if_pos (by rw [hnil]; rfl)]
      rw [if_pos hnil]
      refine ⟨hend.symm, fun a => ?_⟩
      rw [hend, if_neg (by omega)]
    · have hpos : 0 < data.length := List.length_pos_of_ne_nil hnil
      rw [if_neg hnil]
      dsimp only
      by_cases hst : min (wordStart start + wordSize - start) data.length < wordSize ∧
          s.tracee.readable (wordStart start) = false
      · have hend := pokeEnd_stop hpos hst
        rw [if_pos hst]
        refine ⟨hend.symm, fun a => ?_⟩
        rw [hend, if_neg (by omega)]
      · have hend := pokeEnd_step hpos hst
        rw [if_neg hst]
        have hf : wordStart start ≤ start ∧ start < wordStart start + wordSize := by
          simp only [wordStart, wordSize]
          omega
        generalize hl : min (wordStart start + wordSize - start) data.length = l at hend
        have hd : (data.drop l).length = data.length - l := List.length_drop
        obtain ⟨hc, hmem⟩ := @ih (start + l) (data.drop l)
          (if s.pokable (wordStart start) = true then
            pokeWord m (wordStart start) (fun i =>
              if start - wordStart start ≤ i ∧ i < start - wordStart start + l then
                data.getD (i - (start - wordStart start)) 0
              else m (wordStart start + i))
            else m) (by omega)
        rw [hd] at hc hmem
        refine ⟨by rw [hc, hend], fun a => ?_⟩
        rw [hmem a, hend, poked_piece m start l data (by omega) a]
        by_cases hp : s.pokable (wordStart a) = true
        · by_cases hr : start + l ≤ a ∧ a < start + l + s.pokeEnd (start + l) (data.length - l)
          · have hat : l + (a - (start + l)) = a - start := by omega
            rw [if_pos ⟨hr, hp⟩, if_pos ⟨by omega, hp⟩, List.getD_eq_getElem?_getD,
              List.getElem?_drop, hat, ← List.getD_eq_getElem?_getD]
          · rw [if_neg (fun h => hr h.1)]
            by_cases hin : start ≤ a ∧ a < start + l
            · rw [if_pos ⟨hin, hp⟩, if_pos ⟨by omega, hp⟩]
            · rw [if_neg (fun h => hin h.1), if_neg (fun h => by omega)]
        · rw [if_neg (fun h => hp h.2), if_neg (fun h => hp h.2), if_neg (fun h => hp h.2)]

def written (s : WriteState) (m : Nat → UInt8) (addr n : Nat) (bp : Bool) : WriteState :=
  { s.setMemory m with
    watchpoints := if bp then s.watchpoints
      else Watchpoints.updateValues { s.tracee with memory := m } s.watchpoints addr (addr + n) }

theorem intersects_empty (r : MemoryRange) (addr : Nat) : r.intersects ⟨addr, addr + 0⟩ = false := by
  simp only [MemoryRange.intersects, decide_eq_false_iff_not]
  omega

theorem updateValues_empty (t : Tracee) (ws : Watchpoints) (addr : Nat) :
    Watchpoints.updateValues t ws addr (addr + 0) = ws := by
  rw [Watchpoints.updateValues]
  apply List.map_id''
  intro e
  rw [intersects_empty]
  rfl

/-- A write that reaches nothing is not told, which is the same as telling of an empty range. -/
theorem notified_eq (hb : addr + n < 2 ^ 64) :
    (if n > 0 then (s.setMemory m).notifyWritten addr n bp else s.setMemory m) =
      s.written m addr n bp := by
  split
  · rw [notifyWritten, written, ptrAdd_eq hb]
    cases bp with
    | true | false => rfl
  · next hn =>
    rw [written]
    have h0 : n = 0 := by omega
    rw [h0, updateValues_empty]
    cases bp with
    | true | false => rfl

theorem writeLocal_eq (bp : Bool) : s.writeLocal addr data =
    s.written (overlay s.tracee.memory addr data) addr 0 bp := by
  rw [writeLocal, written, updateValues_empty]
  cases bp with
  | true | false => rfl

def poked (s : WriteState) (addr : Nat) (data : List UInt8) (a : Nat) : UInt8 :=
  if (addr ≤ a ∧ a < addr + s.pokeEnd addr data.length) ∧ s.pokable (wordStart a) = true then
    data.getD (a - addr) 0
  else s.tracee.memory a

theorem writePtrace_eq (hb : addr + data.length < 2 ^ 64) : s.writePtrace addr data bp =
      s.written (s.poked addr data) addr (s.pokeEnd addr data.length) bp := by
  have hsp : (pokeLoop s data.length addr data s.tracee.memory).2 = s.pokeEnd addr data.length ∧
      ∀ a, (pokeLoop s data.length addr data s.tracee.memory).1 a = s.poked addr data a :=
    pokeLoop_spec (Nat.le_refl _)
  have hle := s.pokeEnd_le addr data.length
  rw [← notified_eq (by omega), writePtrace, writeBytesPtrace]
  dsimp only
  rw [hsp.1, funext hsp.2]

theorem writeMem_eq (hb : addr + data.length < 2 ^ 64)
    (hok : ok = true ∨ s.stored addr data.length = data.length) :
    s.writeMem addr data ok bp = some (s.written
      (overlay s.tracee.memory addr (data.take (s.stored addr data.length))) addr
      (s.stored addr data.length) bp) := by
  have hle := s.stored_le addr data.length
  have hgo : ¬ (ok = false ∧ s.stored addr data.length < data.length) := by
    rintro ⟨rfl, hlt⟩
    obtain h | h := hok
    · exact Bool.false_ne_true h
    · omega
  rw [writeMem]
  dsimp only
  rw [if_neg hgo, notified_eq (by omega)]

theorem written_inj : s.written m addr n bp = s.written m' addr k bp ↔
    m = m' ∧ (s.written m addr n bp).watchpoints = (s.written m addr k bp).watchpoints := by
  constructor
  · intro h
    have hm : m = m' := congrArg (fun s : WriteState => s.tracee.memory) h
    rw [hm] at h ⊢
    exact ⟨rfl, congrArg WriteState.watchpoints h⟩
  · rintro ⟨rfl, h⟩
    simp only [written] at h ⊢
    rw [h]

theorem intersects_le {r : MemoryRange} (hle : k ≤ n)
    (h : r.intersects ⟨addr, addr + k⟩ = true) : r.intersects ⟨addr, addr + n⟩ = true := by
  simp only [MemoryRange.intersects, decide_eq_true_eq] at h ⊢
  omega

theorem watchpoints_eq_iff (hle : k ≤ n) :
    (s.written m addr n bp).watchpoints = (s.written m addr k bp).watchpoints ↔
      (bp = true ∨ ∀ e ∈ s.watchpoints, e.1.intersects ⟨addr, addr + n⟩ = true →
        e.1.intersects ⟨addr, addr + k⟩ = false → (s.setMemory m).UpToDate e) := by
  cases bp with
  | true => exact ⟨fun _ => .inl rfl, fun _ => rfl⟩
  | false =>
    have hmap : (s.written m addr n false).watchpoints = (s.written m addr k false).watchpoints ↔
        ∀ e ∈ s.watchpoints,
          (if e.1.intersects ⟨addr, addr + n⟩ = true then
            Watchpoint.refresh { s.tracee with memory := m } e else e) =
          (if e.1.intersects ⟨addr, addr + k⟩ = true then
            Watchpoint.refresh { s.tracee with memory := m } e else e) :=
      List.map_inj_left
    rw [hmap]
    constructor
    · intro h
      apply Or.inr
      intro e he hn hk
      have heq := h e he
      rw [if_pos hn, if_neg (by rw [hk]; exact Bool.false_ne_true)] at heq
      exact Watchpoint.refresh_eq_iff.mp heq
    · intro h e he
      obtain h | h := h
      · exact absurd h Bool.false_ne_true
      by_cases hk : e.1.intersects ⟨addr, addr + k⟩ = true
      · rw [if_pos hk, if_pos (intersects_le hle hk)]
      · rw [if_neg hk]
        split
        · next hn =>
          exact Watchpoint.refresh_eq_iff.mpr (h e he hn (Bool.eq_false_iff.mpr hk))
        · rfl

theorem overlay_take {data : List UInt8} (hk : k ≤ data.length) (a : Nat) : overlay m addr (data.take k) a =
    if addr ≤ a ∧ a < addr + k then data.getD (a - addr) 0 else m a := by
  rw [overlay, List.length_take, Nat.min_eq_left hk]
  by_cases h : addr ≤ a ∧ a < addr + k
  · rw [if_pos h, if_pos h, List.getD_eq_getElem?_getD, List.getElem?_take_of_lt (by omega),
      List.getD_eq_getElem?_getD]
  · rw [if_neg h, if_neg h]

def bytesFor (f : Nat → UInt8) (addr size : Nat) : List UInt8 :=
  (List.range size).map fun j => f (addr + j)

theorem length_bytesFor : (bytesFor f addr size).length = size := by
  rw [bytesFor, List.length_map, List.length_range]

theorem getD_bytesFor (hj : j < size) : (bytesFor f addr size).getD j 0 = f (addr + j) := by
  rw [bytesFor, List.getD_eq_getElem?_getD, List.getElem?_map, List.getElem?_range hj]
  rfl

theorem succ_ne (b : UInt8) : b + 1 ≠ b := by
  intro h
  have := congrArg UInt8.toNat h
  rw [UInt8.toNat_add] at this
  simp at this
  omega

/-- Two writes of parts of the data leave the same memory for all data only if the parts agree. -/
theorem parts_eq_iff (p q : Nat → Prop) [DecidablePred p] [DecidablePred q] (addr size : Nat)
    (m : Nat → UInt8) :
    (∀ data : List UInt8, data.length = size → ∀ a,
      (if addr ≤ a ∧ a < addr + size ∧ p a then data.getD (a - addr) 0 else m a) =
      (if addr ≤ a ∧ a < addr + size ∧ q a then data.getD (a - addr) 0 else m a)) ↔
    ∀ j < size, (p (addr + j) ↔ q (addr + j)) := by
  constructor
  · intro h j hj
    have hat := h (bytesFor (fun a => m a + 1) addr size) length_bytesFor (addr + j)
    rw [Nat.add_sub_cancel_left, getD_bytesFor hj] at hat
    by_cases hp : p (addr + j)
    · by_cases hq : q (addr + j)
      · exact ⟨fun _ => hq, fun _ => hp⟩
      · rw [if_pos ⟨by omega, by omega, hp⟩, if_neg (fun h => hq h.2.2)] at hat
        exact absurd hat (succ_ne _)
    · by_cases hq : q (addr + j)
      · rw [if_neg (fun h => hp h.2.2), if_pos ⟨by omega, by omega, hq⟩] at hat
        exact absurd hat.symm (succ_ne _)
      · exact ⟨fun h => absurd h hp, fun h => absurd h hq⟩
  · intro h data _ a
    by_cases hin : addr ≤ a ∧ a < addr + size
    · have hpq : p a ↔ q a := by
        have := h (a - addr) (by omega)
        rwa [Nat.add_sub_cancel' hin.1] at this
      by_cases hp : p a
      · rw [if_pos ⟨hin.1, hin.2, hp⟩, if_pos ⟨hin.1, hin.2, hpq.mp hp⟩]
      · rw [if_neg (fun h => hp h.2.2), if_neg (fun h => hp (hpq.mpr h.2.2))]
    · rw [if_neg (fun h => hin ⟨h.1, h.2.1⟩), if_neg (fun h => hin ⟨h.1, h.2.1⟩)]

theorem poked_part (hd : data.length = size) (a : Nat) : s.poked addr data a =
    if addr ≤ a ∧ a < addr + size ∧ (a < addr + s.pokeEnd addr size ∧ s.pokable (wordStart a) = true)
    then data.getD (a - addr) 0 else s.tracee.memory a := by
  have hle := s.pokeEnd_le addr size
  rw [poked, hd]
  apply if_congr _ rfl rfl
  constructor
  · exact fun h => ⟨h.1.1, by omega, h.1.2, h.2⟩
  · exact fun h => ⟨⟨h.1, h.2.2.1⟩, h.2.2.2⟩

theorem stored_part {data : List UInt8} (hd : data.length = size) (a : Nat) :
    overlay s.tracee.memory addr (data.take (s.stored addr size)) a =
    if addr ≤ a ∧ a < addr + size ∧ a < addr + s.stored addr size
    then data.getD (a - addr) 0 else s.tracee.memory a := by
  have hle := s.stored_le addr size
  rw [overlay_take (by omega)]
  apply if_congr _ rfl rfl
  omega

theorem local_part (hd : data.length = size) (a : Nat) : overlay s.tracee.memory addr data a =
    if addr ≤ a ∧ a < addr + size ∧ True then data.getD (a - addr) 0 else s.tracee.memory a := by
  rw [overlay, hd]
  apply if_congr _ rfl rfl
  rw [and_true]

theorem stored_le_pokeEnd
    (h : ∀ j < size, j < s.pokeEnd addr size ∧ s.pokable (wordStart (addr + j)) = true ↔
      j < s.stored addr size) : s.stored addr size ≤ s.pokeEnd addr size := by
  have hle := s.stored_le addr size
  by_cases hz : s.stored addr size = 0
  · omega
  · have := (h (s.stored addr size - 1) (by omega)).mpr (by omega)
    omega

section

variable (hs : s.Valid) (he : e ∈ s.watchpoints) (hn : e.1.intersects ⟨addr, addr + n⟩ = true)
include hs he hn

theorem Valid.size_eq : e.1.start + e.1.size = e.1.end_ := by
  have hend := hs.watched e he
  simp only [MemoryRange.intersects, decide_eq_true_eq] at hn
  rw [MemoryRange.size, ptrSub_eq (by omega) hend]
  omega

theorem upToDate_beside (hk : e.1.intersects ⟨addr, addr + k⟩ = false)
    (hm : ∀ a, ¬ (addr ≤ a ∧ a < addr + k) → m a = s.tracee.memory a) :
    (s.setMemory m).UpToDate e ↔ s.UpToDate e := by
  have hsi := hs.size_eq he hn
  have hupd : e.2.updateValue (s.setMemory m).tracee e.1 = e.2.updateValue s.tracee e.1 := by
    have hr : (s.setMemory m).tracee.readable = s.tracee.readable := rfl
    apply Watchpoint.updateValue_congr hr
    intro a h₁ h₂
    apply hm
    simp only [MemoryRange.intersects, decide_eq_false_iff_not] at hk
    omega
  rw [UpToDate, hupd, UpToDate]

end

theorem exists_stale (hs : s.Valid) (hl : s.localMapping addr size = true)
    (he : e ∈ s.watchpoints) (hn : e.1.intersects ⟨addr, addr + size⟩ = true) :
    ∃ data : List UInt8, data.length = size ∧
      ¬ (s.setMemory (overlay s.tracee.memory addr data)).UpToDate e := by
  have hsi := hs.size_eq he hn
  obtain ⟨r, hr, hin⟩ := List.any_eq_true.mp hl
  have hin := of_decide_eq_true hin
  simp only [MemoryRange.intersects, decide_eq_true_eq] at hn
  -- the first byte that is both watched and written
  obtain ⟨i, hi⟩ : ∃ i, e.1.start + i = max e.1.start addr := ⟨max e.1.start addr - e.1.start, by omega⟩
  refine ⟨bytesFor (fun a => e.2.valueBytes.getD (a - e.1.start) 0 + 1) addr size, length_bytesFor, ?_⟩
  intro hup
  have hmem : overlay s.tracee.memory addr (bytesFor
      (fun a => e.2.valueBytes.getD (a - e.1.start) 0 + 1) addr size) (e.1.start + i)
      = e.2.valueBytes.getD i 0 + 1 := by
    have hat : addr + (e.1.start + i - addr) - e.1.start = i := by omega
    rw [local_part length_bytesFor, if_pos ⟨by omega, by omega, trivial⟩, getD_bytesFor (by omega), hat]
  generalize overlay s.tracee.memory addr _ = m at hup hmem
  have hget : e.2.valueBytes.getD i 0 = m (e.1.start + i) :=
    Watchpoint.getD_of_updateValue (t := (s.setMemory m).tracee) hs.pages hup (by omega)
      (hs.locals r hr _ (by omega) (by omega))
  rw [hmem] at hget
  exact succ_ne _ hget.symm

theorem writeMem_some (h : s.writeMem addr data ok bp = some s') :
    ok = true ∨ s.stored addr data.length = data.length := by
  have hle := s.stored_le addr data.length
  cases ok with
  | true => exact .inl rfl
  | false =>
    by_cases hlt : s.stored addr data.length < data.length
    · rw [writeMem] at h
      dsimp only at h
      rw [if_pos ⟨rfl, hlt⟩] at h
      exact nomatch h
    · exact .inr (by omega)

theorem ptrace_eq_mem_iff (hb : addr + size < 2 ^ 64) (hd : data.length = size) :
    some (s.writePtrace addr data bp) = s.writeMem addr data ok bp ↔
      (ok = true ∨ s.stored addr size = size) ∧
      s.poked addr data = overlay s.tracee.memory addr (data.take (s.stored addr size)) ∧
      (s.written (s.poked addr data) addr (s.pokeEnd addr size) bp).watchpoints =
        (s.written (s.poked addr data) addr (s.stored addr size) bp).watchpoints := by
  subst hd
  rw [writePtrace_eq hb, ← written_inj]
  constructor
  · intro h
    have hok := writeMem_some h.symm
    rw [writeMem_eq hb hok] at h
    exact ⟨hok, Option.some.inj h⟩
  · rintro ⟨hok, h⟩
    rw [writeMem_eq hb hok, h]

theorem mem_eq_local_iff (hb : addr + size < 2 ^ 64) (hd : data.length = size)
    (hok : ok = true ∨ s.stored addr size = size) :
    s.writeMem addr data ok bp = some (s.writeLocal addr data) ↔
      overlay s.tracee.memory addr (data.take (s.stored addr size)) =
        overlay s.tracee.memory addr data ∧
      (s.written (overlay s.tracee.memory addr (data.take (s.stored addr size))) addr
        (s.stored addr size) bp).watchpoints =
        (s.written (overlay s.tracee.memory addr (data.take (s.stored addr size))) addr
          0 bp).watchpoints := by
  subst hd
  rw [writeMem_eq hb hok, writeLocal_eq bp, Option.some.injEq, written_inj]

theorem samePaths_iff : s.SamePaths addr size ok bp ↔ (∀ data, data.length = size →
      some (s.writePtrace addr data bp) = s.writeMem addr data ok bp) ∧
    (s.localMapping addr size = true → ∀ data, data.length = size →
      s.writeMem addr data ok bp = some (s.writeLocal addr data)) := by
  constructor
  · intro h
    refine ⟨fun data hd => ?_, fun hl data hd => ?_⟩
    · exact h data hd .ptrace .mem (fun h => (nomatch h)) (fun h => (nomatch h))
    · exact h data hd .mem .local (fun h => (nomatch h)) (fun _ => hl)
  · rintro ⟨hmem, hl⟩ data hd p q hp hq
    -- every way is compared with the descriptor
    have hvia (p : WritePath) (hp : s.Available addr size p) :
        s.writeVia addr data ok bp p = s.writeMem addr data ok bp := by
      cases p with
      | «local» => exact (hl (hp rfl) data hd).symm
      | ptrace => exact hmem data hd
      | mem => rfl
    rw [hvia p hp, hvia q hq]

theorem poked_eq_iff : (∀ data : List UInt8, data.length = size →
      s.poked addr data = overlay s.tracee.memory addr (data.take (s.stored addr size))) ↔
    ∀ j < size, j < s.pokeEnd addr size ∧ s.pokable (wordStart (addr + j)) = true ↔
      j < s.stored addr size := by
  have hp := parts_eq_iff
    (fun a => a < addr + s.pokeEnd addr size ∧ s.pokable (wordStart a) = true)
    (fun a => a < addr + s.stored addr size) addr size s.tracee.memory
  simp only [Nat.add_lt_add_iff_left] at hp
  rw [← hp]
  constructor
  · intro h data hd a
    rw [← poked_part hd, ← stored_part hd, h data hd]
  · intro h data hd
    funext a
    rw [poked_part hd, stored_part hd, h data hd a]

/-- The descriptor and a local mapping change the same memory if the descriptor reaches all. -/
theorem stored_eq_iff : (∀ data : List UInt8, data.length = size →
      overlay s.tracee.memory addr (data.take (s.stored addr size)) =
        overlay s.tracee.memory addr data) ↔ s.stored addr size = size := by
  have hle := s.stored_le addr size
  constructor
  · intro h
    have hall : ∀ j < size, (addr + j < addr + s.stored addr size ↔ True) :=
      (parts_eq_iff (fun a => a < addr + s.stored addr size) (fun _ => True) addr size
        s.tracee.memory).mp fun data hd a => by
        rw [← stored_part hd, ← local_part hd, h data hd]
    by_cases hlt : s.stored addr size < size
    · have := (hall _ hlt).mpr trivial
      omega
    · omega
  · intro h data hd
    rw [h, List.take_of_length_le (Nat.le_of_eq hd)]

theorem same_paths_iff_agree (hs : s.Valid) (hbound : addr + size < 2 ^ 64) :
    s.SamePaths addr size ok bp ↔ s.PathsAgree addr size ok bp := by
  rw [samePaths_iff]
  constructor
  · rintro ⟨hmem, hlo⟩
    have hmem data hd := (ptrace_eq_mem_iff hbound hd).mp (hmem data hd)
    have hp := poked_eq_iff.mp fun data hd => (hmem data hd).2.1
    have hle := stored_le_pokeEnd hp
    obtain ⟨hok, hone, hw⟩ := hmem (bytesFor s.tracee.memory addr size) length_bytesFor
    rw [hone] at hw
    refine ⟨hp, hok, ?_, fun hl => ?_⟩
    · apply ((watchpoints_eq_iff hle).mp hw).imp_right
      intro h e he hn hk
      apply (upToDate_beside hs he hn hk _).mp (h e he hn hk)
      intro a hout
      have := s.stored_le addr size
      rw [overlay_take (by rw [length_bytesFor]; omega), if_neg hout]
    · have hlo data hd := (mem_eq_local_iff hbound hd hok).mp (hlo hl data hd)
      have hall := stored_eq_iff.mp fun data hd => (hlo data hd).1
      refine ⟨hall, ?_⟩
      cases bp with
      | true => exact .inl rfl
      | false =>
        apply Or.inr
        intro e he
        apply Bool.eq_false_iff.mpr
        intro hn
        obtain ⟨data, hd, hst⟩ := exists_stale hs hl he hn
        obtain ⟨hone, hw⟩ := hlo data hd
        rw [hone, hall] at hw
        obtain h | h := (watchpoints_eq_iff (Nat.zero_le _)).mp hw
        · exact Bool.false_ne_true h
        · exact hst (h e he hn (intersects_empty _ _))
  · intro h
    have hle := stored_le_pokeEnd h.poked
    have hone := poked_eq_iff.mpr h.poked
    refine ⟨fun data hd => ?_, fun hl data hd => ?_⟩
    · apply (ptrace_eq_mem_iff hbound hd).mpr ⟨h.asserted, hone data hd, _⟩
      apply (watchpoints_eq_iff hle).mpr
      apply h.refreshed.imp_right
      intro hup e he hn hk
      apply (upToDate_beside hs he hn hk _).mpr (hup e he hn hk)
      intro a hout
      have := s.stored_le addr size
      rw [hone data hd, overlay_take (by omega), if_neg hout]
    · obtain ⟨hall, hu⟩ := h.unwatched hl
      apply (mem_eq_local_iff hbound hd h.asserted).mpr ⟨stored_eq_iff.mpr hall data hd, _⟩
      apply (watchpoints_eq_iff (Nat.zero_le _)).mpr
      apply hu.imp_right
      intro hno e he hn _
      rw [hall, hno e he] at hn
      exact absurd hn Bool.false_ne_true

def watchedLocal : WriteState where
  tracee := ⟨fun _ => true, fun _ => 0⟩
  pokable _ := true
  storable _ := true
  locals := [⟨4096, 8192⟩]
  memFd := .live
  watchpoints := [(⟨4096, 4097⟩, ⟨0, 0, 1, [0], true, false⟩)]

theorem watchedLocal_valid : watchedLocal.Valid where
  pages _ _ _ := rfl
  locals _ _ _ _ _ := rfl
  watched e he := by
    rw [List.mem_singleton.mp he]
    decide

/-- Beside the watched byte all ways do the same. -/
theorem same_paths_iff_agree_unwatched : watchedLocal.Valid ∧ 4104 + 8 < 2 ^ 64 ∧
      (watchedLocal.SamePaths 4104 8 false false ↔ watchedLocal.PathsAgree 4104 8 false false) :=
  ⟨watchedLocal_valid, by decide, same_paths_iff_agree watchedLocal_valid (by decide)⟩

/-- The write takes the local mapping and leaves the old value in the watchpoint, which the other
ways refresh. -/
theorem local_write_leaves_value : watchedLocal.writePath 4096 1 = .local ∧
    (watchedLocal.writeBytesHelper 4096 [1] false false).map (·.watchpoints) =
      some [(⟨4096, 4097⟩, ⟨0, 0, 1, [0], true, false⟩)] ∧
    (watchedLocal.writeVia 4096 [1] false false .ptrace).map (·.watchpoints) =
      some [(⟨4096, 4097⟩, ⟨0, 0, 1, [1], true, true⟩)] ∧
    (watchedLocal.writeVia 4096 [1] false false .mem).map (·.watchpoints) =
      some [(⟨4096, 4097⟩, ⟨0, 0, 1, [1], true, true⟩)] ∧
    ¬ watchedLocal.SamePaths 4096 1 false false := by
  refine ⟨by decide, by decide, by decide, by decide, ?_⟩
  intro h
  have hsa := congrArg (Option.map (·.watchpoints))
    (h [1] rfl .local .mem (fun _ => by decide) (fun h => (nomatch h)))
  exact absurd hsa (by decide)

/-- So many bytes of the data are in memory, and nothing beside the range has changed. -/
structure StoresCounted (s : WriteState) (addr : Nat) (data : List UInt8) : Prop where
  counted : (s.writeBytesPtrace addr data).2 ≤ data.length
  stored : ∀ j < (s.writeBytesPtrace addr data).2,
    (s.writeBytesPtrace addr data).1.tracee.memory (addr + j) = data.getD j 0
  beside : ∀ a, ¬(addr ≤ a ∧ a < addr + data.length) →
    (s.writeBytesPtrace addr data).1.tracee.memory a = s.tracee.memory a

/-- The number is right exactly when no poke fails up to where the words at the ends can be read,
unless the bytes there are those of the data already. -/
theorem stores_counted_iff (s : WriteState) (addr : Nat) (data : List UInt8) :
    s.StoresCounted addr data ↔ ∀ j < s.pokeEnd addr data.length,
      s.pokable (wordStart (addr + j)) = true ∨ s.tracee.memory (addr + j) = data.getD j 0 := by
  obtain ⟨hc, hmem⟩ :
      (pokeLoop s data.length addr data s.tracee.memory).2 = s.pokeEnd addr data.length ∧ _ :=
    s.pokeLoop_spec (Nat.le_refl data.length)
  have hle := s.pokeEnd_le addr data.length
  have hb : ∀ j < s.pokeEnd addr data.length,
      (s.writeBytesPtrace addr data).1.tracee.memory (addr + j) =
        if s.pokable (wordStart (addr + j)) = true then data.getD j 0
        else s.tracee.memory (addr + j) := by
    intro j hj
    have hin : addr ≤ addr + j ∧ addr + j < addr + s.pokeEnd addr data.length := by omega
    have hat := hmem (addr + j)
    rw [Nat.add_sub_cancel_left] at hat
    simp only [hin, and_self, true_and] at hat
    exact hat
  constructor
  · intro h j hj
    have hst := h.stored j (by rw [writeBytesPtrace, hc]; exact hj)
    rw [hb j hj] at hst
    split at hst
    · next hp => exact .inl hp
    · exact .inr hst
  · intro h
    refine ⟨by rw [writeBytesPtrace, hc]; exact hle, ?_, ?_⟩
    · intro j hj
      rw [writeBytesPtrace, hc] at hj
      rw [hb j hj]
      split
      · rfl
      · next hp => exact (h j hj).resolve_left hp
    · intro a hout
      exact (hmem a).trans (if_neg fun hin => hout ⟨hin.1.1, by omega⟩)

/-- Two words, of which the first cannot be poked. -/
theorem failed_poke_counted :
    let s : WriteState := { watchedLocal with pokable := fun a => decide (4104 ≤ a) }
    let r := s.writeBytesPtrace 4096 (List.replicate 16 1)
    r.2 = 16 ∧ r.1.tracee.memory 4096 = 0 ∧ r.1.tracee.memory 4104 = 1 ∧
      ¬ s.StoresCounted 4096 (List.replicate 16 1) := by
  intro s r
  have hc : r.2 = 16 := by decide
  have hf : r.1.tracee.memory 4096 = 0 := by decide
  refine ⟨hc, hf, by decide, fun h => ?_⟩
  have hst := h.stored 0 (by decide)
  exact absurd (hf.symm.trans hst) (by decide)

end

end Attune.WriteState
