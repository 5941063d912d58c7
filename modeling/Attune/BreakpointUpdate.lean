import Attune.BreakpointInvariant

namespace Attune.Breakpoints
open OrderedMap List Option Function

/-- What the breakpoints take to be overwritten by a write of `len` bytes. -/
def Overwritten (addr len a : Nat) : Prop := addr ≤ a ∧ a < ptrSub (ptrAdd addr len) 1

instance : Decidable (Overwritten addr len a) := inferInstanceAs (Decidable (_ ∧ _))

/-- The loop of `maybe_update_breakpoints`; reading what cannot be read is an assertion failure. -/
def updateLoop (readable : Nat → Bool) (addr len : Nat) : List (Nat × Breakpoint) → (Nat → UInt8) →
    Option ((Nat → UInt8) × List (Nat × Breakpoint))
  | [], memory => some (memory, [])
  | (a, b) :: rest, memory =>
    if Overwritten addr len a then
      if readable a then do
        let (memory', rest) ← updateLoop readable addr len rest
          (update memory a breakpointInsn)
        return (memory', (a, { b with overwrittenData := memory a }) :: rest)
      else none
    else do
      let (memory, rest) ← updateLoop readable addr len rest memory
      return (memory, (a, b) :: rest)

namespace AddressSpace

def maybeUpdateBreakpoints (readable : Nat → Bool) (s : AddressSpace) (addr len : Nat) :
    Option AddressSpace := do
  let (memory, breakpoints) ← updateLoop readable addr len s.breakpoints s.memory
  return { s with memory, breakpoints }

def write (s : AddressSpace) (addr : Nat) (bytes : List UInt8) : AddressSpace :=
  { s with memory := fun a => if addr ≤ a then (bytes[a - addr]?).getD (s.memory a) else s.memory a }

def original (s : AddressSpace) (a : Nat) : UInt8 :=
  match get a s.breakpoints with
  | some b => b.overwrittenData
  | none => s.memory a

end AddressSpace

section Loop

variable {bs : List (Nat × Breakpoint)} {memory : Nat → UInt8}

def updated (addr len : Nat) (memory : Nat → UInt8) (e : Nat × Breakpoint) : Nat × Breakpoint :=
  (e.1, if Overwritten addr len e.1 then { e.2 with overwrittenData := memory e.1 } else e.2)

theorem updateLoop_spec (hs : Sorted bs)
    (hr : ∀ e ∈ bs, Overwritten addr len e.1 → readable e.1 = true) :
    updateLoop readable addr len bs memory =
      some (fun a => if Overwritten addr len a ∧ a ∈ bs.map Prod.fst then breakpointInsn
          else memory a, bs.map (updated addr len memory)) := by
  induction bs generalizing memory with
  | nil => simp [updateLoop]
  | cons e bs ih =>
    obtain ⟨a, b⟩ := e
    obtain ⟨hl, hs⟩ := pairwise_cons.mp hs
    have hr' := fun e he => hr e (mem_cons_of_mem _ he)
    rw [updateLoop]
    split
    · next ha =>
      rw [if_pos (hr (a, b) mem_cons_self ha), ih hs hr']
      refine congrArg some (Prod.ext (funext fun x => ?_) ?_)
      · by_cases hx : x = a
        · subst hx
          simp [ha]
        · simp only [map_cons, mem_cons, hx, false_or, update_of_ne hx]
      · -- the later entries are at other addresses
        rw [map_cons]
        refine congrArg₂ cons (by simp [updated, ha]) (map_congr_left fun e he => ?_)
        have hne : e.1 ≠ a := Nat.ne_of_gt (hl e he)
        rw [updated, updated, update_of_ne hne]
    · next ha =>
      rw [ih hs hr']
      refine congrArg some (Prod.ext (funext fun x => ?_) ?_)
      · by_cases hx : x = a
        · subst hx
          simp [ha]
        · simp only [map_cons, mem_cons, hx, false_or]
      · simp [updated, ha]

theorem get_updated (hs : Sorted bs) (a : Nat) :
    get a (bs.map (updated addr len memory)) = (get a bs).map fun b =>
      if Overwritten addr len a then { b with overwrittenData := memory a } else b := by
  have hs' : Sorted (bs.map (updated addr len memory)) := by
    rw [Sorted, pairwise_map]
    exact hs
  cases hget : get a bs with
  | some b =>
    rw [map_some, hs'.get_eq_some]
    exact mem_map.mpr ⟨(a, b), hs.get_eq_some.mp hget, rfl⟩
  | none =>
    rw [map_none, hs'.get_eq_none]
    intro e he
    obtain ⟨e', he', rfl⟩ := mem_map.mp he
    exact hs.get_eq_none.mp hget e' he'

theorem mem_keys_iff (hs : Sorted bs) : a ∈ bs.map Prod.fst ↔ (get a bs).isSome = true := by
  rw [isSome_iff_exists]
  constructor
  · intro ha
    obtain ⟨⟨x, b⟩, hx, rfl⟩ := mem_map.mp ha
    exact ⟨b, hs.get_eq_some.mpr hx⟩
  · rintro ⟨b, hb⟩
    exact mem_map.mpr ⟨(a, b), hs.get_eq_some.mp hb, rfl⟩

end Loop

namespace AddressSpace

variable {s s' : AddressSpace}

theorem maybeUpdateBreakpoints_spec (hs : Sorted s.breakpoints)
    (hr : ∀ a, Overwritten addr len a → readable a = true) :
    ∃ s', s.maybeUpdateBreakpoints readable addr len = some s' ∧ Sorted s'.breakpoints ∧
      (∀ a, get a s'.breakpoints = (get a s.breakpoints).map fun b =>
        if Overwritten addr len a then { b with overwrittenData := s.memory a } else b) ∧
      ∀ a, s'.memory a = if Overwritten addr len a ∧ (get a s.breakpoints).isSome = true
        then breakpointInsn else s.memory a := by
  rw [maybeUpdateBreakpoints, updateLoop_spec hs fun e _ => hr e.1]
  refine ⟨_, rfl, ?_, get_updated hs, fun a => ?_⟩
  · rw [Sorted, pairwise_map]
    exact hs
  · simp only [mem_keys_iff hs]

theorem masked_original (hs : Sorted s.breakpoints) (hb : ∀ e ∈ s.breakpoints, e.1 + 1 < 2 ^ 64)
    (hr : addr + len < 2 ^ 64) :
    s.replaceBreakpointsWithOriginalValues (s.readMem addr len) len addr =
      (range len).map fun i => s.original (addr + i) := by
  apply foldl_replaceOne
  · intro e he
    refine ⟨hb e he, ?_⟩
    have hget : get e.1 s.breakpoints = some e.2 := hs.get_eq_some.mpr he
    rw [original, hget]
  · rw [readMem, length_map, length_range]
  · exact hr
  · intro i hi
    rw [readMem, length_map, length_range] at hi
    simp only [readMem, getElem_map, getElem_range]
    cases hget : get (addr + i) s.breakpoints with
    | some b => exact Or.inr ⟨(addr + i, b), hs.get_eq_some.mp hget, rfl⟩
    | none =>
      left
      rw [original, hget]

/-- What is expected: breakpoints in the range save the new byte and are set again, others stay,
reads see what was written. -/
structure Tracks (s : AddressSpace) (addr : Nat) (bytes : List UInt8) (s' : AddressSpace) : Prop where
  inside : ∀ i b, i < bytes.length → get (addr + i) s.breakpoints = some b →
    get (addr + i) s'.breakpoints = some { b with overwrittenData := (bytes[i]?).getD 0 } ∧
      s'.memory (addr + i) = breakpointInsn
  outside : ∀ a, ¬(addr ≤ a ∧ a < addr + bytes.length) →
    get a s'.breakpoints = get a s.breakpoints ∧ s'.memory a = s.memory a
  reads : ∀ start len, start + len < 2 ^ 64 →
    s'.replaceBreakpointsWithOriginalValues (s'.readMem start len) len start =
      (range len).map fun i =>
        if addr ≤ start + i then (bytes[start + i - addr]?).getD (s.original (start + i))
        else s.original (start + i)

theorem overwritten_iff (hlen : 0 < len) (hend : addr + len ≤ 2 ^ 64) :
    Overwritten addr len a ↔ addr ≤ a ∧ a + 1 < addr + len := by
  simp only [Overwritten, ptrSub, ptrAdd]
  omega

theorem write_inside (s : AddressSpace) (addr : Nat) (bytes : List UInt8) (h : i < bytes.length) :
    (s.write addr bytes).memory (addr + i) = bytes[i] := by
  simp only [write, Nat.le_add_right, if_true, Nat.add_sub_cancel_left,
    getElem?_eq_getElem h, getD_some]

theorem write_outside (s : AddressSpace) (addr : Nat) (bytes : List UInt8)
    (h : ¬(addr ≤ a ∧ a < addr + bytes.length)) : (s.write addr bytes).memory a = s.memory a := by
  simp only [write]
  split
  · rw [getElem?_eq_none (by omega), getD_none]
  · rfl

structure AfterUpdate (s : AddressSpace) (addr : Nat) (bytes : List UInt8) (s' : AddressSpace) :
    Prop where
  sorted : Sorted s'.breakpoints
  saved : ∀ a, get a s'.breakpoints = (get a s.breakpoints).map fun b =>
    if addr ≤ a ∧ a + 1 < addr + bytes.length then
      { b with overwrittenData := (s.write addr bytes).memory a } else b
  memory : ∀ a, s'.memory a =
    if (addr ≤ a ∧ a + 1 < addr + bytes.length) ∧ (get a s.breakpoints).isSome = true
    then breakpointInsn else (s.write addr bytes).memory a

theorem update_after_write (hs : Sorted s.breakpoints) (hlen : 0 < bytes.length)
    (hend : addr + bytes.length ≤ 2 ^ 64)
    (hr : ∀ i, i < bytes.length → readable (addr + i) = true) :
    ∃ s', (s.write addr bytes).maybeUpdateBreakpoints readable addr bytes.length = some s' ∧
      AfterUpdate s addr bytes s' := by
  have hiff := fun a => overwritten_iff (a := a) hlen hend
  have hr' : ∀ a, Overwritten addr bytes.length a → readable a = true := by
    intro a ha
    rw [hiff] at ha
    obtain ⟨i, rfl⟩ := Nat.exists_eq_add_of_le ha.1
    exact hr i (by omega)
  obtain ⟨s', hu, hso, hsa, hm⟩ :=
    maybeUpdateBreakpoints_spec (s := s.write addr bytes) hs hr'
  refine ⟨s', hu, hso, fun a => ?_, fun a => ?_⟩
  · rw [hsa a]
    simp only [hiff]
    rfl
  · rw [hm a]
    simp only [hiff]
    rfl

section Write

variable {bytes : List UInt8} (h : AfterUpdate s addr bytes s')
include h

theorem AfterUpdate.below_top (hs : Sorted s.breakpoints)
    (hb : ∀ e ∈ s.breakpoints, e.1 + 1 < 2 ^ 64) : ∀ e ∈ s'.breakpoints, e.1 + 1 < 2 ^ 64 := by
  intro e he
  have hget := h.sorted.get_eq_some.mpr he
  rw [h.saved e.1] at hget
  obtain ⟨b, hb', _⟩ := map_eq_some_iff.mp hget
  exact hb (e.1, b) (hs.get_eq_some.mp hb')

theorem AfterUpdate.outside (ha : ¬(addr ≤ a ∧ a < addr + bytes.length)) :
    get a s'.breakpoints = get a s.breakpoints ∧ s'.memory a = s.memory a := by
  have hno : ¬(addr ≤ a ∧ a + 1 < addr + bytes.length) := by omega
  constructor
  · rw [h.saved a]
    simp only [hno, if_false, Option.map_id']
  · rw [h.memory a, if_neg fun hin => hno hin.1, write_outside s addr bytes ha]

theorem AfterUpdate.inside (hi : i + 1 < bytes.length) (hget : get (addr + i) s.breakpoints = some b) :
    get (addr + i) s'.breakpoints = some { b with overwrittenData := (bytes[i]?).getD 0 } ∧
      s'.memory (addr + i) = breakpointInsn := by
  have hin : addr ≤ addr + i ∧ addr + i + 1 < addr + bytes.length := by omega
  have hlt : i < bytes.length := by omega
  constructor
  · rw [h.saved, hget, map_some, if_pos hin, write_inside s addr bytes hlt,
      getElem?_eq_getElem hlt, getD_some]
  · rw [h.memory, hget, if_pos ⟨hin, rfl⟩]

theorem AfterUpdate.last (hi : i + 1 = bytes.length) :
    get (addr + i) s'.breakpoints = get (addr + i) s.breakpoints ∧
      s'.memory (addr + i) = (s.write addr bytes).memory (addr + i) := by
  have hno : ¬(addr ≤ addr + i ∧ addr + i + 1 < addr + bytes.length) := by omega
  constructor
  · rw [h.saved]
    simp only [hno, if_false, Option.map_id']
  · rw [h.memory, if_neg fun hin => hno hin.1]

/-- Where the breakpoints of the written range are right, so is what the tracee has in memory. -/
theorem AfterUpdate.original
    (hin : ∀ i b, i < bytes.length → get (addr + i) s.breakpoints = some b →
      get (addr + i) s'.breakpoints = some { b with overwrittenData := (bytes[i]?).getD 0 })
    (a : Nat) : s'.original a =
      if addr ≤ a then (bytes[a - addr]?).getD (s.original a) else s.original a := by
  by_cases ha : addr ≤ a ∧ a < addr + bytes.length
  · obtain ⟨i, rfl⟩ := Nat.exists_eq_add_of_le ha.1
    have hlt : i < bytes.length := by omega
    rw [if_pos ha.1, Nat.add_sub_cancel_left, getElem?_eq_getElem hlt, getD_some]
    cases hget : get (addr + i) s.breakpoints with
    | some b =>
      rw [AddressSpace.original, hin i b hlt hget, getElem?_eq_getElem hlt]
      rfl
    | none =>
      have hn : get (addr + i) s'.breakpoints = none := by rw [h.saved, hget, map_none]
      rw [AddressSpace.original, hn, h.memory, hget]
      simp only [isSome_none, Bool.false_eq_true, and_false, if_false]
      exact write_inside s addr bytes hlt
  · obtain ⟨hget, hm⟩ := h.outside ha
    have hsa : s'.original a = s.original a := by
      rw [AddressSpace.original, AddressSpace.original, hget, hm]
    rw [hsa]
    split
    · rw [getElem?_eq_none (by omega), getD_none]
    · rfl

end Write

/-- All is as expected exactly when no breakpoint is at the last written byte, or both bytes there
are the trap instruction. -/
theorem breakpoints_track_write_iff (readable : Nat → Bool) (s : AddressSpace)
    (hs : Sorted s.breakpoints) (hb : ∀ e ∈ s.breakpoints, e.1 + 1 < 2 ^ 64) (addr : Nat)
    (bytes : List UInt8) (hlen : 0 < bytes.length) (hend : addr + bytes.length ≤ 2 ^ 64)
    (hreadable : ∀ i, i < bytes.length → readable (addr + i) = true) :
    ∃ s', (s.write addr bytes).maybeUpdateBreakpoints readable addr bytes.length = some s' ∧
      (Tracks s addr bytes s' ↔
        ∀ b, get (addr + (bytes.length - 1)) s.breakpoints = some b →
          b.overwrittenData = breakpointInsn ∧ bytes.getLast? = some breakpointInsn) := by
  obtain ⟨s', hu, h⟩ := update_after_write hs hlen hend hreadable
  refine ⟨s', hu, ?_⟩
  have hn : bytes.length - 1 + 1 = bytes.length := by omega
  have hlt : bytes.length - 1 < bytes.length := by omega
  obtain ⟨hlas, hl⟩ := h.last hn
  rw [write_inside s addr bytes hlt] at hl
  rw [getLast?_eq_getElem?, getElem?_eq_getElem hlt]
  constructor
  · intro ht b hget
    obtain ⟨hsa, htr⟩ := ht.inside _ b hlt hget
    rw [hlas, hget, some.injEq, getElem?_eq_getElem hlt, getD_some] at hsa
    rw [hl] at htr
    refine ⟨?_, congrArg some htr⟩
    rw [hsa]
    exact htr
  · intro hc
    have hin : ∀ i b, i < bytes.length → get (addr + i) s.breakpoints = some b →
        get (addr + i) s'.breakpoints = some { b with overwrittenData := (bytes[i]?).getD 0 } ∧
          s'.memory (addr + i) = breakpointInsn := by
      intro i b hi hget
      by_cases hla : i + 1 = bytes.length
      · obtain rfl : i = bytes.length - 1 := by omega
        obtain ⟨hd, hby⟩ := hc b hget
        rw [some.injEq] at hby
        rw [hlas, hget, hl, getElem?_eq_getElem hlt, getD_some, hby, ← hd]
        exact ⟨rfl, rfl⟩
      · exact h.inside (by omega) hget
    refine ⟨hin, fun a ha => h.outside ha, fun start len hr => ?_⟩
    rw [masked_original h.sorted (h.below_top hs hb) hr]
    apply map_congr_left
    intro i _
    exact h.original (fun i b hi hget => (hin i b hi hget).1) (start + i)

/-- A breakpoint at the first of two written bytes. -/
theorem breakpoints_track_write_iff_first :
    ∃ s', ((⟨[1], fun _ => 0x90, [(4, ⟨0, 1, 0x90⟩)]⟩ : AddressSpace).write 4
        [0x11, 0x42]).maybeUpdateBreakpoints (fun _ => true) 4 2 = some s' ∧
      Tracks ⟨[1], fun _ => 0x90, [(4, ⟨0, 1, 0x90⟩)]⟩ 4 [0x11, 0x42] s' := by
  obtain ⟨s', hu, hiff⟩ := breakpoints_track_write_iff (fun _ => true)
    ⟨[1], fun _ => 0x90, [(4, ⟨0, 1, 0x90⟩)]⟩ (pairwise_singleton _ _) (by simp) 4
    [0x11, 0x42] (by decide) (by decide) (by simp)
  refine ⟨s', hu, hiff.mpr ?_⟩
  have hn : get (4 + ([0x11, 0x42] : List UInt8).length - 1)
      [((4 : Nat), (⟨0, 1, 0x90⟩ : Breakpoint))] = none := by decide
  intro b hget
  rw [← Nat.add_sub_assoc (by decide), hn] at hget
  cases hget

/-- With breakpoints at both, the one at the last byte is lost, and a read gives the old byte. -/
theorem last_written_byte_missed :
    (((⟨[1], fun _ => 0x90, [(4, ⟨0, 1, 0x90⟩), (5, ⟨0, 1, 0x90⟩)]⟩ : AddressSpace).write 4
        [0x11, 0x42]).maybeUpdateBreakpoints (fun _ => true) 4 2).map (fun s' =>
      (s'.readMem 4 2, s'.breakpoints.map fun e => e.2.overwrittenData,
        s'.replaceBreakpointsWithOriginalValues (s'.readMem 4 2) 2 4)) =
    some ([0xCC, 0x42], [0x11, 0x90], [0x11, 0x90]) := by
  decide +kernel

end AddressSpace

section Events

/-- What a write makes of a plain memory. -/
def overwrite (m : Nat → UInt8) (addr : Nat) (bytes : List UInt8) (a : Nat) : UInt8 :=
  if addr ≤ a then (bytes[a - addr]?).getD (m a) else m a

/-- A call, or a data record applied from the trace. -/
inductive ReplayEvent where
  | call (c : Call)
  | data (addr : Nat) (bytes : List UInt8)

variable (readable : Nat → Bool)

def AddressSpace.replay (s : AddressSpace) : ReplayEvent → Option AddressSpace
  | .call c => s.step readable c
  | .data addr bytes =>
    if addr = 0 ∨ bytes = [] then some s
    else (s.write addr bytes).maybeUpdateBreakpoints readable addr bytes.length

def plain (m : Nat → UInt8) : ReplayEvent → Nat → UInt8
  | .call _ => m
  | .data addr bytes => if addr = 0 ∨ bytes = [] then m else overwrite m addr bytes

def held (n : Nat → Nat) : ReplayEvent → Nat → Nat
  | .call c => refStep readable n c
  | .data _ _ => n

/-- Records go to readable memory, and none ends at a breakpoint. -/
def Spares (n : Nat → Nat) : List ReplayEvent → Prop
  | [] => True
  | .call c :: es => Spares (refStep readable n c) es
  | .data addr bytes :: es => (¬(addr = 0 ∨ bytes = []) → addr + bytes.length ≤ 2 ^ 64 ∧
      (∀ i < bytes.length, readable (addr + i) = true) ∧ n (addr + (bytes.length - 1)) = 0) ∧
      Spares n es

end Events

theorem Invariant.data (h : Invariant readable m n s)
    (hok : ¬(addr = 0 ∨ bytes = []) → addr + bytes.length ≤ 2 ^ 64 ∧
      (∀ i < bytes.length, readable (addr + i) = true) ∧ n (addr + (bytes.length - 1)) = 0) :
    ∃ s', s.replay readable (.data addr bytes) = some s' ∧
      Invariant readable (plain m (.data addr bytes)) n s' := by
  rw [AddressSpace.replay, plain]
  split
  · exact ⟨s, rfl, h⟩
  next hskip =>
  obtain ⟨hend, hr, hlast⟩ := hok hskip
  have hlen := length_pos_of_ne_nil fun he => hskip (.inr he)
  obtain ⟨s', hs', hu⟩ := AddressSpace.update_after_write h.sorted hlen hend hr
  have htasks : s'.taskSet = s.taskSet := by
    obtain ⟨r, -, hr⟩ := bind_eq_some_iff.mp hs'
    exact (congrArg AddressSpace.taskSet (some.inj hr)).symm
  refine ⟨s', hs', by rw [htasks]; exact h.tasks, hu.sorted, fun a => ?_⟩
  rw [Consistent, hu.saved, hu.memory]
  cases hget : get a s.breakpoints with
  | none =>
    obtain ⟨hz, hm⟩ := h.absent hget
    refine ⟨hz, ?_⟩
    simp only [isSome_none, Bool.false_eq_true, and_false, if_false, AddressSpace.write,
      overwrite, hm]
  | some b =>
    obtain ⟨hpos, htotal, hdata, hread⟩ := h.present hget
    have hne : a ≠ addr + (bytes.length - 1) := fun he => by rw [he] at hpos; omega
    rw [Option.map_some]
    by_cases ha : addr ≤ a ∧ a + 1 < addr + bytes.length
    · have hlt : a - addr < bytes.length := by omega
      simp only [ha, and_self, if_true]
      refine ⟨hpos, htotal, ?_, hread⟩
      simp only [AddressSpace.write, overwrite, ha.1, if_true, getElem?_eq_getElem hlt,
        Option.getD_some]
    · simp only [ha, if_false]
      refine ⟨hpos, htotal, hdata.trans ?_, hread⟩
      rw [overwrite]
      split
      · rw [getElem?_eq_none (by omega), Option.getD_none]
      · rfl

theorem Invariant.events (h : Invariant readable m n s) (hes : Spares readable n es) :
    ∃ s', es.foldlM (AddressSpace.replay readable) s = some s' ∧
      Invariant readable (es.foldl plain m) (es.foldl (held readable) n) s' := by
  induction es generalizing s m n with
  | nil => exact ⟨s, rfl, h⟩
  | cons e es ih =>
    have hstep : ∃ s₁, s.replay readable e = some s₁ ∧
        Invariant readable (plain m e) (held readable n e) s₁ ∧
        Spares readable (held readable n e) es := by
      cases e with
      | call c =>
        obtain ⟨s₁, hs₁, h₁⟩ := h.step c
        exact ⟨s₁, hs₁, h₁, hes⟩
      | data addr bytes =>
        obtain ⟨s₁, hs₁, h₁⟩ := h.data hes.1
        exact ⟨s₁, hs₁, h₁, hes.2⟩
    obtain ⟨s₁, hs₁, h₁, hes⟩ := hstep
    obtain ⟨s', hs', h'⟩ := ih h₁ hes
    refine ⟨s', ?_, h'⟩
    rw [foldlM_cons, hs₁]
    exact hs'

/-- Breakpoints set and removed between data records: masked reads show a plain memory that the same
records are written to, and so does the memory itself where there is no breakpoint. -/
theorem breakpoints_transparent_to_records (readable : Nat → Bool)
    (hr : ∀ a, readable a = true → a + 1 < 2 ^ 64) (s₀ : AddressSpace) (ht : s₀.taskSet ≠ [])
    (hb : s₀.breakpoints = []) (es : List ReplayEvent) (hes : Spares readable (fun _ => 0) es) :
    ∃ s, es.foldlM (AddressSpace.replay readable) s₀ = some s ∧
      (∀ addr len, (∀ i < len, readable (addr + i) = true) →
        s.replaceBreakpointsWithOriginalValues (s.readMem addr len) len addr =
          (range len).map fun i => es.foldl plain s₀.memory (addr + i)) ∧
      ∀ a, es.foldl (held readable) (fun _ => 0) a = 0 → s.memory a = es.foldl plain s₀.memory a := by
  obtain ⟨s, hs, h⟩ := (Invariant.initial ht hb).events hes
  refine ⟨s, hs, fun addr len hran => h.masked hr hran, fun a ha => ?_⟩
  cases hg : get a s.breakpoints with
  | none => exact (h.absent hg).2
  | some b => exact absurd ha (Nat.ne_of_gt (h.present hg).1)

/-- A record over a breakpoint that is then removed. -/
theorem breakpoints_transparent_to_records_removed : ∃ s, foldlM
    (AddressSpace.replay fun a => decide (a < 16)) ⟨[1], fun _ => 0x90, []⟩
      [.call (.addBreakpoint 3 .user), .data 2 [7, 8, 9], .call (.removeBreakpoint 3 .user)] =
        some s ∧ s.memory 3 = 8 := by
  obtain ⟨s, hs, -, hm⟩ := breakpoints_transparent_to_records (fun a => decide (a < 16))
    (fun a ha => by have := of_decide_eq_true ha; omega) ⟨[1], fun _ => 0x90, []⟩
    (cons_ne_nil _ _) rfl [.call (.addBreakpoint 3 .user), .data 2 [7, 8, 9],
      .call (.removeBreakpoint 3 .user)] ⟨fun _ => by decide, trivial⟩
  exact ⟨s, hs, hm 3 rfl⟩

end Attune.Breakpoints
