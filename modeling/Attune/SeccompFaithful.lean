import Attune.SeccompFilterRewriter

namespace Attune.Seccomp
open Bpf SeccompFilterRewriter List Option

structure Consistent (t : SeccompFilterRewriter) : Prop where
  index : t.resultToIndex.lookup k = some i → t.indexToResult[i.toNat]? = some k
  bound : baseCustomData + t.indexToResult.length ≤ retData.toNat

def Extends (t t' : SeccompFilterRewriter) : Prop :=
  ∀ k i, t.resultToIndex.lookup k = some i → t'.resultToIndex.lookup k = some i

theorem Extends.refl : Extends t t := fun _ _ h => h

theorem Extends.trans (h : Extends t t') (h' : Extends t' t'') : Extends t t'' :=
  fun k i hk => h' k i (h k i hk)

theorem Consistent.initial : Consistent {} where
  index h := nomatch h
  bound := by decide

theorem addResult_spec (h : Consistent t) (ha : t.addResult k = some t') :
    Consistent t' ∧ Extends t t' := by
  rw [addResult] at ha
  split at ha
  · cases ha
    exact ⟨h, .refl⟩
  next hn =>
  split at ha
  · next hlt =>
    cases ha
    have hlen : t.indexToResult.length < 2 ^ 16 := by
      have hd : retData.toNat = 0xffff := rfl
      omega
    have hl : ∀ k', (t.resultToIndex.lookup k').isSome = true → (k' == k) = false := by
      intro k' hk'
      by_contra heq
      rw [Bool.not_eq_false] at heq
      exact hn (eq_of_beq heq ▸ hk')
    refine ⟨⟨?_, ?_⟩, ?_⟩
    · intro k' i hk'
      simp only [lookup_cons] at hk'
      split at hk'
      · next heq =>
        cases hk'
        rw [BitVec.toNat_ofNat, Nat.mod_eq_of_lt hlen, getElem?_concat_length,
          eq_of_beq heq]
      · have hold := h.index hk'
        obtain ⟨hi, _⟩ := List.getElem?_eq_some_iff.mp hold
        rw [getElem?_append_left hi]
        exact hold
    · rw [length_append, length_singleton]
      omega
    · intro k' i hk'
      simp only [lookup_cons, hl k' (hk' ▸ rfl)]
      exact hk'
  · cases ha

def traceResult (t : SeccompFilterRewriter) (k : BitVec 32) : BitVec 32 :=
  if k = retAllow then k
  else
    match t.resultToIndex.lookup k with
    | some i => (BitVec.ofNat 32 baseCustomData + i.setWidth 32) ||| retTrace
    | none => k

theorem decode_class (h : decode code = some op) :
    (code &&& 0x07 = 0x06 ↔ op = .retK ∨ op = .retA) ∧ (op = .retK → code &&& 0x18 = 0) ∧
      (op = .retA → code &&& 0x18 ≠ 0) := by
  obtain ⟨n, hn⟩ : ∃ n, code = BitVec.ofNat 16 n ∧ n = code.toNat :=
    ⟨code.toNat, by rw [BitVec.ofNat_toNat, BitVec.setWidth_eq], rfl⟩
  rw [decode, ← hn.2] at h
  rw [hn.1]
  split at h
  all_goals first
    | (cases h; decide)
    | cases h

theorem rewriteInsn_spec (h : Consistent t) (hr : t.rewriteInsn u = some (t', u')) :
    Consistent t' ∧ Extends t t' ∧ ∀ op, decode u.code = some op → op ≠ .retA ∧
      (op = .retK → u.k ≠ retAllow → ∃ i, t'.resultToIndex.lookup u.k = some i) ∧
      ∀ t'', Extends t' t'' → u' = mapRet (traceResult t'') u := by
  rw [rewriteInsn] at hr
  split at hr
  · next hret =>
    obtain ⟨hval, hr⟩ := ite_none_left_eq_some.mp hr
    rw [ne_eq, Decidable.not_not] at hval
    have hre {op} (hop : decode u.code = some op) : op = .retK := by
      obtain ⟨hcl, _, ha⟩ := decode_class hop
      exact (hcl.mp hret).resolve_right fun heq => ha heq hval
    split at hr
    · next hne =>
      simp only [bind_eq_bind, bind_eq_some_iff, some.injEq, Prod.mk.injEq] at hr
      obtain ⟨t1, ha, i, hi, rfl, rfl⟩ := hr
      obtain ⟨hc, he⟩ := addResult_spec h ha
      refine ⟨hc, he, fun op hop => ?_⟩
      cases hre hop
      refine ⟨nofun, fun _ _ => ⟨i, hi⟩, fun t'' he => ?_⟩
      rw [mapRet, if_pos hop, traceResult, if_neg hne, he u.k i hi]
    · next heq =>
      cases hr
      rw [ne_eq, Decidable.not_not] at heq
      refine ⟨h, .refl, fun op hop => ?_⟩
      cases hre hop
      refine ⟨nofun, fun _ hne => absurd heq hne, fun t'' _ => ?_⟩
      rw [mapRet, if_pos hop, traceResult, if_pos heq]
  · next hret =>
    cases hr
    refine ⟨h, .refl, fun op hop => ?_⟩
    obtain ⟨hk, ha⟩ := not_or.mp (mt (decode_class hop).1.mpr hret)
    refine ⟨ha, fun heq => absurd heq hk, fun _ _ => ?_⟩
    rw [mapRet, hop, if_neg fun heq => hk (some.inj heq)]

theorem rewriteCode_spec (h : Consistent t) (hr : t.rewriteCode code = some (t', code')) :
    Consistent t' ∧ Extends t t' ∧ ∀ dataSize, checkAll dataSize code = true →
      ConstantReturns code ∧
      (∀ u ∈ code, decode u.code = some .retK → u.k ≠ retAllow →
        ∃ i, t'.resultToIndex.lookup u.k = some i) ∧
      ∀ t'', Extends t' t'' → code' = code.map (mapRet (traceResult t'')) := by
  induction code generalizing t code' with
  | nil =>
    cases hr
    exact ⟨h, .refl, fun _ _ => ⟨nofun, nofun, fun _ _ => rfl⟩⟩
  | cons u code ih =>
    simp only [rewriteCode, bind_eq_bind, bind_eq_some_iff, some.injEq,
      Prod.mk.injEq, Prod.exists] at hr
    obtain ⟨t1, u1, hu, t2, code2, hcod, rfl, rfl⟩ := hr
    obtain ⟨h1, he1, hin⟩ := rewriteInsn_spec h hu
    obtain ⟨h2, he2, hre⟩ := ih h1 hcod
    refine ⟨h2, he1.trans he2, fun dataSize hc => ?_⟩
    rw [checkAll, Bool.and_eq_true] at hc
    obtain ⟨hco, hnum, heq⟩ := hre dataSize hc.2
    cases hop : decode u.code with
    | none =>
      rw [hop] at hc
      cases hc.1
    | some op =>
      obtain ⟨hne, hk, hsa⟩ := hin op hop
      refine ⟨forall_mem_cons.mpr ⟨fun hacc => hne (some.inj (hop.symm.trans hacc)), hco⟩,
        forall_mem_cons.mpr ⟨fun hret ha => ?_, hnum⟩, fun t'' he => ?_⟩
      · obtain ⟨i, hi⟩ := hk (some.inj (hop.symm.trans hret)) ha
        exact ⟨i, he2 u.k i hi⟩
      · rw [map_cons, ← hsa t'' (he2.trans he), ← heq t'' he]

theorem installAll_tables (h : Consistent t) (hr : t.installAll codes = some t') :
    Consistent t' := by
  induction codes generalizing t with
  | nil =>
    cases hr
    exact h
  | cons code codes ih =>
    simp only [installAll, installPatchedSeccompFilter, bind_eq_bind,
      bind_eq_some_iff, some.injEq, Prod.mk.injEq, Prod.exists] at hr
    obtain ⟨t1, code1, ⟨t2, code2, hc, rfl, _⟩, hre⟩ := hr
    exact ih (rewriteCode_spec h hc).1 hre

def action (result : BitVec 32) : BitVec 32 := result &&& retAction

def data (result : BitVec 32) : BitVec 16 := (result &&& retData).setWidth 16

theorem or_and_eq (v w m : BitVec 32) : (v ||| w) &&& m = (v &&& m) ||| (w &&& m) := by
  apply BitVec.eq_of_getLsbD_eq
  intro j _
  simp only [BitVec.getLsbD_and, BitVec.getLsbD_or, Bool.and_or_distrib_right]

/-- A mask that is the same in all of the low half keeps or clears a value of that half. -/
theorem and_of_lt {v m : BitVec 32} (h : v.toNat < 2 ^ 16)
    (hlow : ∀ j : Fin 16, m.getLsbD j = b) : v &&& m = if b then v else 0#32 := by
  apply BitVec.eq_of_getLsbD_eq
  intro j hj
  rw [BitVec.getLsbD_and]
  by_cases hj16 : j < 16
  · rw [hlow ⟨j, hj16⟩]
    cases b <;> simp
  · have hh : v.getLsbD j = false :=
      Nat.testBit_lt_two_pow (Nat.lt_of_lt_of_le h (Nat.pow_le_pow_right (by decide) (by omega)))
    cases b <;> simp [hh]

theorem traceResult_spec (h : Consistent t) (hk : k ≠ retAllow)
    (hi : t.resultToIndex.lookup k = some i) :
    action (traceResult t k) = retTrace ∧
      t.mapFilterDataToRealResult (data (traceResult t k)) = some (some k) := by
  have hin := h.index hi
  obtain ⟨hlt, _⟩ := List.getElem?_eq_some_iff.mp hin
  have hb := h.bound
  have hda : retData.toNat = 0xffff := rfl
  have hba : baseCustomData = 0x100 := rfl
  obtain ⟨v, hv⟩ : ∃ v : BitVec 32, v = BitVec.ofNat 32 baseCustomData + i.setWidth 32 := ⟨_, rfl⟩
  have hvN : v.toNat = baseCustomData + i.toNat := by
    rw [hv, BitVec.toNat_add, BitVec.toNat_ofNat, BitVec.toNat_setWidth]
    omega
  have hv16 : v.toNat < 2 ^ 16 := by omega
  have hr : traceResult t k = v ||| retTrace := by
    rw [traceResult, if_neg hk, hi, hv]
  have hd : (data (traceResult t k)).toNat = baseCustomData + i.toNat := by
    have hz : retTrace &&& retData = 0#32 := by decide
    have hsa : v &&& retData = v := and_of_lt (b := true) hv16 (by decide)
    rw [data, hr, or_and_eq, hsa, hz,
      BitVec.or_zero, BitVec.toNat_setWidth, hvN]
    omega
  refine ⟨?_, ?_⟩
  · have ht : retTrace &&& retAction = retTrace := by decide
    have hz : v &&& retAction = 0#32 := and_of_lt (b := false) hv16 (by decide)
    rw [action, hr, or_and_eq, hz, ht, BitVec.zero_or]
  · rw [mapFilterDataToRealResult, hd, if_neg (by omega), if_pos (by omega),
      Nat.add_sub_cancel_left, hin]

/-- The test of one callsite: it allows, or goes on with the compared word left in the
accumulator. -/
theorem run_allowSyscallsFromCallsite (p : Packet) (ip : BitVec 64) (rest : List Insn) (r : Regs) :
    run p (allowSyscallsFromCallsite ip ++ rest) r =
      if p.word 8 = ip.setWidth 32 then some (.ret retAllow)
      else run p rest { r with a := p.word 8 } := by
  have hl : run p (allowSyscallsFromCallsite ip ++ rest) r =
      run p ({ code := 0x15, jt := 0, jf := 1, k := ip.setWidth 32 } :: allow :: rest)
        { r with a := p.word 8 } := run_cons .ldAbs rfl
  rw [hl, run_cons (.jmp .eq .k) rfl]
  by_cases heq : p.word 8 = ip.setWidth 32
  · simp only [step, Cond.holds, Src.value, heq, decide_true, ↓reduceIte]
    exact run_cons .retK rfl
  · simp only [step, Cond.holds, Src.value, heq, decide_false, Bool.false_eq_true, ↓reduceIte]
    rfl

theorem run_callsites (p : Packet) (ip : BitVec 64) (ips : List (BitVec 64)) (rest : List Insn)
    (r : Regs) :
    run p ((ip :: ips).flatMap allowSyscallsFromCallsite ++ rest) r =
      if p.word 8 ∈ (ip :: ips).map (·.setWidth 32) then some (.ret retAllow)
      else run p rest { r with a := p.word 8 } := by
  induction ips generalizing ip r with
  | nil =>
    rw [flatMap_cons, flatMap_nil, append_nil, run_allowSyscallsFromCallsite]
    simp only [map_cons, map_nil, mem_singleton]
  | cons ip' ips ih =>
    rw [flatMap_cons, append_assoc, run_allowSyscallsFromCallsite, ih ip']
    simp only [map_cons, mem_cons]
    by_cases heq : p.word 8 = ip.setWidth 32
    · rw [if_pos heq, if_pos (.inl heq)]
    · simp only [heq, ↓reduceIte, false_or]

/-- The low words of the privileged callsites, which are all a patched filter compares. -/
def privilegedWords : List (BitVec 32) := privilegedCallsites.map (·.setWidth 32)

theorem run_patched (d : SeccompData) (code : List Insn) (r : Regs) :
    run d.packet (privilegedCallsites.flatMap allowSyscallsFromCallsite ++ code) r =
      if d.instructionPointer.setWidth 32 ∈ privilegedWords then some (.ret retAllow)
      else run d.packet code { r with a := d.instructionPointer.setWidth 32 } :=
  run_callsites d.packet _ _ code r

/-- What installing the patched filter in place of the given one should mean for a system call. -/
def Faithful (t : SeccompFilterRewriter) (patched code : List Insn) (d : SeccompData) : Prop :=
  ∃ original rewritten, run d.packet code .zero = some original ∧
    run d.packet patched .zero = some rewritten ∧
    if d.instructionPointer ∈ privilegedCallsites then rewritten.result = retAllow
    else if original.result = retAllow then rewritten.result = retAllow
    else action rewritten.result = retTrace ∧
      t.mapFilterDataToRealResult (data rewritten.result) = some (some original.result)

/-- The callsite is privileged; or only its low word is and it would have been allowed; or the
filter returns the same when started with that word. -/
def FaithfulWhen (code : List Insn) (d : SeccompData) : Prop :=
  let word := d.instructionPointer.setWidth 32
  let original := (run d.packet code .zero).map Exit.result
  d.instructionPointer ∈ privilegedCallsites ∨
    (word ∈ privilegedWords ∧ original = some retAllow) ∨
    (word ∉ privilegedWords ∧ ∃ v, original = some v ∧
      run d.packet code { Regs.zero with a := word } = some (.ret v))

theorem traceResult_matches (h : Consistent t) (hnum : k ≠ retAllow →
    ∃ i, t.resultToIndex.lookup k = some i) :
    (traceResult t k = retAllow ↔ k = retAllow) ∧
      (action (traceResult t k) = retTrace ∧
        t.mapFilterDataToRealResult (data (traceResult t k)) = some (some v) ↔
        k ≠ retAllow ∧ k = v) := by
  by_cases hk : k = retAllow
  · have hsa : traceResult t k = retAllow := by rw [traceResult, if_pos hk, hk]
    have hact : action retAllow ≠ retTrace := by decide
    rw [hsa]
    exact ⟨⟨fun _ => hk, fun _ => rfl⟩, fun hh => absurd hh.1 hact, fun hh => absurd hk hh.1⟩
  · obtain ⟨i, hi⟩ := hnum hk
    obtain ⟨hact, hd⟩ := traceResult_spec h hk hi
    have ha' : action retAllow ≠ retTrace := by decide
    refine ⟨⟨fun heq => absurd (heq ▸ hact) ha', fun heq => absurd heq hk⟩, ?_, ?_⟩
    · intro hh
      rw [hd] at hh
      exact ⟨hk, some.inj (some.inj hh.2)⟩
    · intro hh
      exact ⟨hact, hh.2 ▸ hd⟩

/-- After any earlier installations, a valid filter is patched faithfully for exactly these calls. -/
theorem patched_filter_faithful_iff (earlier : List (List Insn)) (code patched : List Insn)
    (t t' : SeccompFilterRewriter) (hearlier : installAll {} earlier = some t)
    (hvalid : Valid SeccompData.size code)
    (hinstall : t.installPatchedSeccompFilter code = some (t', patched)) (d : SeccompData) :
    Faithful t' patched code d ↔ FaithfulWhen code d := by
  simp only [installPatchedSeccompFilter, bind_eq_bind, bind_eq_some_iff,
    some.injEq, Prod.mk.injEq, Prod.exists] at hinstall
  obtain ⟨t1, code', hco, rfl, rfl⟩ := hinstall
  have ht := installAll_tables .initial hearlier
  obtain ⟨ht', _, hsp⟩ := rewriteCode_spec ht hco
  obtain ⟨hc, hn, hmap⟩ := hsp _ hvalid.checked
  obtain ⟨original, ho⟩ := isSome_iff_exists.mp
    (hvalid.run_isSome (p := d.packet) (r := .zero))
  obtain ⟨e, he⟩ := isSome_iff_exists.mp (hvalid.run_isSome (p := d.packet)
    (r := { Regs.zero with a := d.instructionPointer.setWidth 32 }))
  have hp := run_patched d code' .zero
  simp only [Faithful, FaithfulWhen, hp, ho, some.injEq, exists_and_left,
    exists_eq_left', map_some, he]
  by_cases hip : d.instructionPointer ∈ privilegedCallsites
  · have hw : d.instructionPointer.setWidth 32 ∈ privilegedWords :=
      mem_map.mpr ⟨_, hip, rfl⟩
    simp only [hw, hip, if_true, some.injEq, exists_eq_left', Exit.result_ret, true_or]
  by_cases hw : d.instructionPointer.setWidth 32 ∈ privilegedWords
  · have hact : action retAllow ≠ retTrace := by decide
    simp only [hw, hip, if_true, if_false, some.injEq, exists_eq_left', Exit.result_ret,
      not_true_eq_false, false_or, false_and, or_false, true_and, hact]
    by_cases hor : original.result = retAllow
    · simp only [hor, if_true]
    · simp only [hor, if_false]
  · have hrun : run d.packet code' { Regs.zero with a := d.instructionPointer.setWidth 32 } =
        some (e.map (traceResult t1)) := by
      rw [hmap _ .refl, run_mapRet hc, he]
      rfl
    simp only [hw, hip, if_false, hrun, some.injEq, exists_eq_left', not_false_eq_true,
      false_or, false_and, true_and]
    cases e with
    | divisionByZero =>
      have hz : ¬ (0 : BitVec 32) = retAllow := by decide
      have hact : ¬ action 0 = retTrace := by decide
      simp only [Exit.map, Exit.result_divisionByZero, hz, hact, false_and, ite_self, reduceCtorEq]
    | ret k =>
      have hnum : k ≠ retAllow → ∃ i, t1.resultToIndex.lookup k = some i := by
        intro hk
        obtain ⟨u, hu, hop, rfl⟩ := exec_ret_mem hc he
        exact hn u hu hop hk
      obtain ⟨ha, htr⟩ := traceResult_matches (v := original.result) ht' hnum
      simp only [Exit.map, Exit.result_ret, ha, htr, Exit.ret.injEq]
      by_cases hor : original.result = retAllow
      · simp only [hor, if_true]
      · rw [if_neg hor]
        refine ⟨fun hh => hh.2, fun hh => ⟨fun hk => hor (hh ▸ hk), hh⟩⟩

def callFrom (nr : BitVec 32) (ip : BitVec 64) : SeccompData := ⟨nr, 0xc000003e, ip, fun _ => 0⟩

def killOne : List Insn :=
  [{ code := 0x20, k := 0 }, { code := 0x15, jt := 0, jf := 1, k := 1 }, { code := 0x06, k := 0 },
   allow]

theorem patched_filter_faithful_kill_one :
    ∃ t t' patched, installAll {} [[{ code := 0x06, k := 0x00050001 }]] = some t ∧
      t.installPatchedSeccompFilter killOne = some (t', patched) ∧
      Faithful t' patched killOne (callFrom 1 0x400000) := by
  refine ⟨_, _, _, rfl, rfl, ?_⟩
  rw [patched_filter_faithful_iff [[{ code := 0x06, k := 0x00050001 }]] killOne _ _ _ rfl
    ⟨by decide, by decide, by decide⟩ rfl]
  exact .inr (.inr ⟨by decide, 0, rfl, rfl⟩)

/-- Fails the system call while the accumulator is zero, as it is when a filter starts. -/
def errnoOnZero : List Insn :=
  [{ code := 0x15, jt := 0, jf := 1, k := 0 }, { code := 0x06, k := 0x00050001 }, allow]

def divideByZero : List Insn := [{ code := 0x3c, k := 0 }, allow]

/-- The compared word stays in the accumulator, half of the callsite is compared, and a division by
zero is no return. -/
theorem patched_filter_unfaithful :
    (∃ t patched, installPatchedSeccompFilter {} errnoOnZero = some (t, patched) ∧
      ¬ Faithful t patched errnoOnZero (callFrom 1 0x400000)) ∧
    (∃ t patched, installPatchedSeccompFilter {} killOne = some (t, patched) ∧
      ¬ Faithful t patched killOne (callFrom 1 0x170000005)) ∧
    ∃ t patched, installPatchedSeccompFilter {} divideByZero = some (t, patched) ∧
      ¬ Faithful t patched divideByZero (callFrom 1 0x400000) := by
  refine ⟨⟨_, _, rfl, ?_⟩, ⟨_, _, rfl, ?_⟩, ⟨_, _, rfl, ?_⟩⟩
  all_goals
    intro h
    obtain ⟨original, rewritten, ho, hr, h⟩ := h
    cases ho
    cases hr
    revert h
    decide

theorem installAll_extends (h : Consistent t) (hr : t.installAll codes = some t') :
    Extends t t' := by
  induction codes generalizing t with
  | nil =>
    cases hr
    exact .refl
  | cons code codes ih =>
    simp only [installAll, installPatchedSeccompFilter, bind_eq_bind,
      bind_eq_some_iff, some.injEq, Prod.mk.injEq, Prod.exists] at hr
    obtain ⟨t₁, code₁, ⟨t₂, code₂, hc, rfl, _⟩, hre⟩ := hr
    obtain ⟨h₂, he, _⟩ := rewriteCode_spec h hc
    exact he.trans (ih h₂ hre)

/-- A filter stays faithful whatever filters are installed after it. -/
theorem patched_filter_stays_faithful (earlier later : List (List Insn)) (code patched : List Insn)
    (t t₁ t₂ : SeccompFilterRewriter) (hearlier : installAll {} earlier = some t)
    (hvalid : Valid SeccompData.size code)
    (hinstall : t.installPatchedSeccompFilter code = some (t₁, patched))
    (hlater : t₁.installAll later = some t₂) (d : SeccompData) (h : FaithfulWhen code d) :
    Faithful t₂ patched code d := by
  simp only [installPatchedSeccompFilter, bind_eq_bind, bind_eq_some_iff,
    some.injEq, Prod.mk.injEq, Prod.exists] at hinstall
  obtain ⟨t₁, code', hco, rfl, rfl⟩ := hinstall
  obtain ⟨ht₁, -, hsp⟩ := rewriteCode_spec (installAll_tables .initial hearlier) hco
  obtain ⟨hc, hn, hmap⟩ := hsp _ hvalid.checked
  have he := installAll_extends ht₁ hlater
  obtain ⟨original, ho⟩ := isSome_iff_exists.mp
    (hvalid.run_isSome (p := d.packet) (r := .zero))
  have hp := run_patched d code' .zero
  simp only [FaithfulWhen, ho, map_some, some.injEq] at h
  rw [Faithful]
  have hword : d.instructionPointer ∈ privilegedCallsites →
      d.instructionPointer.setWidth 32 ∈ privilegedWords := fun hip => mem_map.mpr ⟨_, hip, rfl⟩
  rcases h with hip | ⟨hw, ha⟩ | ⟨hw, v, hv, hrun⟩
  · rw [if_pos (hword hip)] at hp
    exact ⟨original, _, ho, hp, by rw [if_pos hip]; rfl⟩
  · rw [if_pos hw] at hp
    refine ⟨original, _, ho, hp, ?_⟩
    simp only [ha, if_true, ite_self]
    rfl
  · have hnum : v ≠ retAllow → ∃ i, t₂.resultToIndex.lookup v = some i := by
      intro hk
      obtain ⟨u, hu, hop, rfl⟩ := exec_ret_mem hc hrun
      obtain ⟨i, hi⟩ := hn u hu hop hk
      exact ⟨i, he u.k i hi⟩
    obtain ⟨hallow, htrace⟩ := traceResult_matches (v := v) (installAll_tables ht₁ hlater) hnum
    obtain rfl := hmap t₂ he
    rw [if_neg hw, run_mapRet hc, hrun] at hp
    refine ⟨original, _, ho, hp, ?_⟩
    rw [if_neg (mt hword hw), hv]
    split
    · next hk => exact hallow.mpr hk
    · next hk => exact htrace.mpr ⟨hk, rfl⟩

/-- The first filter still kills after a second one has been installed. -/
theorem patched_filter_stays_faithful_two : ∃ t₁ t₂ patched,
    installPatchedSeccompFilter {} killOne = some (t₁, patched) ∧
      t₁.installAll [errnoOnZero] = some t₂ ∧
      Faithful t₂ patched killOne (callFrom 1 0x400000) :=
  ⟨_, _, _, rfl, rfl, patched_filter_stays_faithful [] [errnoOnZero] killOne _ _ _ _ rfl
    ⟨by decide, by decide, by decide⟩ rfl rfl _ (.inr (.inr ⟨by decide, 0, rfl, rfl⟩))⟩

end Attune.Seccomp
