import Attune.WatchRegistersSpec

namespace Attune.Watch
open List Option OrderedMap

section Coverage

theorem ofNat_toInt (h : n < 128) : (Int8.ofNat n).toInt = n := Int8.toInt_ofNat_of_lt h

theorem execReadIndices_lt (h : n + own.length ≤ b) : ∀ i ∈ execReadIndices n own, i < b := by
  intro i hi
  obtain ⟨x, hx, rfl⟩ := mem_map.mp hi
  have hlt := snd_lt_add_of_mem_zipIdx (mem_of_mem_filter hx)
  omega

/-- The registers of each watchpoint, with the numbers noted for it read as they were meant. -/
inductive Exact : Nat → WatchTable → List (List WatchConfig) → Prop where
  | nil : Exact n [] []
  | cons {w : ArmedWatchpoint} : Own r w.toWatchpoint own →
      w.debugRegsForExecRead.map Int8.toInt = (execReadIndices n own).map Int.ofNat →
      Exact (n + own.length) ws owns → Exact n ((r, w) :: ws) (own :: owns)

theorem Numbered.exact (h : Numbered n ws owns) (hfew : n + owns.flatten.length ≤ 128) :
    Exact n ws owns := by
  induction h with
  | nil => exact .nil
  | @cons r own n ws owns w hown hr he hre ih =>
    rw [flatten_cons, length_append] at hfew
    refine .cons hown ?_ (ih (by omega))
    rw [hr, List.map_map]
    apply map_congr_left
    intro i hi
    exact ofNat_toInt (execReadIndices_lt (by omega) i hi)

/-- There are registers for all watchpoints, and up to 128 of them each watchpoint has its own
numbers. -/
theorem watch_configs_cover (tasks : List DebugRegisters) (calls : Calls)
    (hcalls : ∀ c ∈ calls, c.1.addr < 2 ^ 64) :
    ∃ s regs ws owns, WatchState.run calls ⟨[], tasks⟩ = some s ∧
      getWatchConfigs .settingTaskState [] s.watchpoints = some (regs, ws) ∧
      forget ws = forget s.watchpoints ∧ regs = owns.flatten ∧ Numbered 0 ws owns ∧
      (regs.length ≤ 128 → Exact 0 ws owns) := by
  obtain ⟨s, hrun, hb⟩ := run_spec (s := ⟨[], tasks⟩) (by simp) hcalls
  obtain ⟨owns, ws, hget, hf, hn⟩ := getWatchConfigs_spec hb []
  rw [nil_append] at hget
  refine ⟨s, owns.flatten, ws, owns, hrun, hget, hf, rfl, hn, fun hfew => ?_⟩
  exact hn.exact (by rwa [length_nil, Nat.zero_add])

def obliging : Kernel := ⟨fun _ _ => true, fun _ => true, rfl⟩

def zeroes : Tracee := ⟨fun _ => true, fun _ => 0⟩

/-- An exec and a write watchpoint, the second of which is upgraded to one aligned register. -/
theorem watch_configs_cover_upgraded : ∃ s regs ws owns,
      WatchState.run [(.addWatchpoint zeroes 0x1003 1 .exec, fun _ => obliging, fun _ => obliging),
        (.addWatchpoint zeroes 0x2001 7 .write, fun _ => obliging, fun _ => obliging)]
        ⟨[], []⟩ = some s ∧
      getWatchConfigs .settingTaskState [] s.watchpoints = some (regs, ws) ∧
      regs = [⟨0x1003, 1, .exec⟩, ⟨0x2000, 8, .write⟩] ∧ Exact 0 ws owns := by
  obtain ⟨s, regs, ws, owns, hrun, hget, _, hr, _, he⟩ := watch_configs_cover []
    [(.addWatchpoint zeroes 0x1003 1 .exec, fun _ => obliging, fun _ => obliging),
      (.addWatchpoint zeroes 0x2001 7 .write, fun _ => obliging, fun _ => obliging)] (by decide)
  have hev : ((WatchState.run
      [(.addWatchpoint zeroes 0x1003 1 .exec, fun _ => obliging, fun _ => obliging),
        (.addWatchpoint zeroes 0x2001 7 .write, fun _ => obliging, fun _ => obliging)]
        ⟨[], []⟩).bind fun s => getWatchConfigs .settingTaskState [] s.watchpoints).map Prod.fst =
      some [⟨0x1003, 1, .exec⟩, ⟨0x2000, 8, .write⟩] := by decide +kernel
  rw [hrun, bind_some, hget, map_some, some.injEq] at hev
  dsimp only at hev
  refine ⟨s, regs, ws, owns, hrun, hget, hev, he ?_⟩
  rw [hev]
  decide

/-- The number of the last of 129 registers does not fit. -/
theorem register_number_wraps : ((WatchState.run
        [(.addWatchpoint zeroes 0x1000 1032 .readWrite, fun _ => obliging, fun _ => obliging)]
        ⟨[], []⟩).bind fun s => getWatchConfigs .settingTaskState [] s.watchpoints).map
      (fun r => (r.1.length, r.1[128]?.map WatchConfig.addr,
        r.2.map fun e => (e.2.debugRegsForExecRead.map Int8.toInt)[128]?)) =
    some (129, some 0x1400, [some (-128)]) := by
  decide +kernel

end Coverage

section Failure

/-- Nothing is watched, no watchpoint has a register, and no debug status counts as an access. -/
def Released (s : WatchState) : Prop :=
  (∀ d ∈ s.tasks, d.armed = []) ∧ (∀ e ∈ s.watchpoints, e.2.debugRegsForExecRead = []) ∧
    ∀ e ∈ s.watchpoints, ∀ status start,
      readTriggered status e.2 = some false ∧ execTriggered status start e.1 e.2 = some false

def NeedsRegisters (e : MemoryRange × ArmedWatchpoint) : Prop :=
  (0 < e.2.execCount ∨ 0 < e.2.readCount) ∧ e.1.size ≠ 0

instance : Decidable (NeedsRegisters e) := inferInstanceAs (Decidable ((_ ∨ _) ∧ _))

theorem not_triggered (e : MemoryRange × ArmedWatchpoint) (h : e.2.debugRegsForExecRead = [])
    (status start : Nat) :
    readTriggered status e.2 = some false ∧ execTriggered status start e.1 e.2 = some false := by
  rw [readTriggered, execTriggered, h]
  exact ⟨by split <;> rfl, by split <;> rfl⟩

theorem Numbered.mem (h : Numbered n ws owns) (he : e ∈ ws) :
    ∃ i own, Own e.1 e.2.toWatchpoint own ∧ (e.1.size = 0 → own = []) ∧
      e.2.debugRegsForExecRead = (execReadIndices i own).map Int8.ofNat := by
  induction h with
  | nil => cases he
  | @cons r own n ws owns w hown hr hem hre ih =>
    rcases mem_cons.mp he with rfl | he
    · exact ⟨n, own, hown, hem, hr⟩
    · exact ih he

theorem Numbered.noted_iff (h : Numbered n ws owns) (he : e ∈ ws) (hb : Bounded e.1) :
    e.2.debugRegsForExecRead = [] ↔ ¬NeedsRegisters e := by
  obtain ⟨i, own, hown, hem, hre⟩ := h.mem he
  rw [hre, map_eq_nil_iff, execReadIndices_eq_nil]
  constructor
  · rintro hw ⟨hwa, hsi⟩
    have hst : e.1.start < e.1.end_ := by
      have := hb.1
      rw [hb.size] at hsi
      omega
    rcases hwa with hex | hr
    · obtain ⟨c, hc, ht, _⟩ := hown.exec hex e.1.start (Nat.le_refl _) hst
      rw [hw c hc] at ht
      cases ht
    · obtain ⟨c, hc, ht, _⟩ := hown.read hr e.1.start (Nat.le_refl _) hst
      rw [hw c hc] at ht
      cases ht
  · intro hno c hc
    by_cases hsi : e.1.size = 0
    · rw [hem hsi] at hc
      cases hc
    · obtain ⟨hex, hr⟩ := hown.needed c hc
      cases ht : c.type with
      | exec => exact absurd ⟨Or.inl (hex ht), hsi⟩ hno
      | readWrite => exact absurd ⟨Or.inr (hr ht), hsi⟩ hno
      | write => rfl

theorem needs_forget (h : forget ws = forget ws') (he : e ∈ ws) (hn : NeedsRegisters e) :
    ∃ e' ∈ ws', NeedsRegisters e' := by
  have hmem : (e.1, e.2.toWatchpoint) ∈ forget ws := mem_map.mpr ⟨e, he, rfl⟩
  rw [h] at hmem
  obtain ⟨e', he', heq⟩ := mem_map.mp hmem
  obtain ⟨hr, hw⟩ := Prod.mk.inj heq
  refine ⟨e', he', ?_⟩
  rwa [NeedsRegisters, hr, hw]

/-- Where an allocation fails, register numbers are left exactly when there is a watchpoint that needs
them. -/
theorem failed_allocation_releases_iff (tasks : List DebugRegisters) (calls : Calls)
    (hcalls : ∀ c ∈ calls, c.1.addr < 2 ^ 64) (hrun : WatchState.run calls ⟨[], tasks⟩ = some s)
    (c : Call) (hc : c.addr < 2 ^ 64) (first second : Nat → Kernel)
    (hfail : s.perform first second c = some (false, s')) :
    Released s' ↔ ∀ e ∈ c.edit s.watchpoints, ¬NeedsRegisters e := by
  obtain ⟨s₀, hr₀, hb₀⟩ := run_spec (s := ⟨[], tasks⟩) (by simp) hcalls
  rw [hrun, some.injEq] at hr₀
  subst hr₀
  obtain ⟨ok, s₁, owns, hp, hf, hnu, hb, ha⟩ :=
    perform_spec hb₀ hc first second
  rw [hfail, some.injEq, Prod.mk.injEq] at hp
  obtain ⟨rfl, rfl⟩ := hp
  constructor
  · rintro ⟨_, hr, _⟩ e he hn
    obtain ⟨e', he', hn'⟩ := needs_forget hf.symm he hn
    exact (hnu.noted_iff he' (hb e' he')).mp (hr e' he') hn'
  · intro hno
    have hr : ∀ e ∈ s'.watchpoints, e.2.debugRegsForExecRead = [] := by
      intro e he
      apply (hnu.noted_iff he (hb e he)).mpr
      intro hn
      obtain ⟨e', he', hn'⟩ := needs_forget hf he hn
      exact hno e' he' hn'
    exact ⟨ha rfl, hr, fun e he => not_triggered e (hr e he)⟩

def idle : DebugRegisters := ⟨0, fun _ => 0, []⟩

/-- A write watchpoint that is too long leaves no register number. -/
theorem failed_allocation_releases_iff_write :
    ∃ s', (⟨[], [idle]⟩ : WatchState).perform (fun _ => obliging) (fun _ => obliging)
        (.addWatchpoint zeroes 0x1000 40 .write) = some (false, s') ∧ Released s' := by
  have hr : ((⟨[], [idle]⟩ : WatchState).perform (fun _ => obliging) (fun _ => obliging)
      (.addWatchpoint zeroes 0x1000 40 .write)).map Prod.fst = some false := by decide +kernel
  obtain ⟨⟨ok, s'⟩, hf, hok⟩ := map_eq_some_iff.mp hr
  cases hok
  refine ⟨s', hf, ?_⟩
  exact (failed_allocation_releases_iff [idle] [] (by simp) rfl
    (.addWatchpoint zeroes 0x1000 40 .write) (by decide) _ _ hf).mpr (by decide +kernel)

/-- A read watchpoint that is too long keeps its numbers, and a status of the first register is then
taken for a read. -/
theorem failed_allocation_keeps_numbers :
    ((⟨[], [idle]⟩ : WatchState).addWatchpoint (fun _ => obliging) (fun _ => obliging)
        zeroes 0x1000 40 .readWrite).map
      (fun r => (r.1, r.2.tasks.map fun d => d.armed.length,
        r.2.watchpoints.map fun e => e.2.debugRegsForExecRead.map Int8.toInt,
        (notifyWatchpointFired zeroes 1 0 r.2.watchpoints).map Prod.fst)) =
    some (false, [0], [[0, 1, 2, 3, 4]], some true) := by
  decide +kernel

end Failure

section Rollback

def counts (ws : Watchpoints) : List (MemoryRange × Int × Int × Int) :=
  ws.map fun e => (e.1, e.2.execCount, e.2.readCount, e.2.writeCount)

theorem configureWatchpoint_watched {w w' : ArmedWatchpoint}
    (h : configureWatchpoint will regs r w = some (regs', w')) : w'.toWatchpoint = w.toWatchpoint := by
  rw [configureWatchpoint] at h
  obtain ⟨⟨_, _⟩, _, h⟩ := bind_eq_some_iff.mp h
  obtain ⟨⟨_, _⟩, _, h⟩ := bind_eq_some_iff.mp h
  cases h
  rfl

theorem getWatchConfigs_watched (h : getWatchConfigs will regs ws = some (regs', ws')) :
    forget ws' = forget ws := by
  induction ws generalizing regs ws' with
  | nil =>
    cases h
    rfl
  | cons e ws ih =>
    obtain ⟨r, w⟩ := e
    rw [getWatchConfigs] at h
    obtain ⟨⟨regs₁, w₁⟩, hone, h⟩ := bind_eq_some_iff.mp h
    obtain ⟨⟨regs₂, ws₂⟩, hr, h⟩ := bind_eq_some_iff.mp h
    cases h
    exact congrArg₂ cons (congrArg (Prod.mk r) (configureWatchpoint_watched hone)) (ih hr)

theorem allocateWatchpoints_watched {s : WatchState}
    (h : s.allocateWatchpoints first second = some (ok, s')) :
    forget s'.watchpoints = forget s.watchpoints := by
  rw [WatchState.allocateWatchpoints] at h
  obtain ⟨⟨regs, ws'⟩, hget, h⟩ := bind_eq_some_iff.mp h
  obtain ⟨⟨ok', tasks⟩, _, h⟩ := bind_eq_some_iff.mp h
  have hf := getWatchConfigs_watched hget
  dsimp only at h
  split at h
  · cases h
    exact hf
  · obtain ⟨⟨_, tasks'⟩, _, h⟩ := bind_eq_some_iff.mp h
    cases h
    exact hf

theorem adjust_counts (w : Watchpoint) (type : WatchType) :
    ((w.adjust type 1).execCount, (w.adjust type 1).readCount, (w.adjust type 1).writeCount) ≠
      (w.execCount, w.readCount, w.writeCount) := by
  cases type <;> simp [Watchpoint.adjust]

theorem forget_add (ws : WatchTable) (t : Tracee) (addr n : Nat) (type : WatchType) :
    forget (ws.add t addr n type) = Watchpoints.add t (forget ws) addr n type := by
  rw [WatchTable.add, Watchpoints.add, forget, forget]
  dsimp only
  rw [find_mapValues]
  cases find MemoryRange.less (Watchpoints.rangeFor addr n) ws with
  | some e => exact (assign_mapValues ArmedWatchpoint.toWatchpoint _).symm
  | none => exact (insert_mapValues ArmedWatchpoint.toWatchpoint _).symm

theorem add_counts (ws : Watchpoints) (t : Tracee) (addr n : Nat) (type : WatchType) :
    counts (Watchpoints.add t ws addr n type) ≠ counts ws := by
  intro h
  rw [Watchpoints.add] at h
  split at h
  · next hf =>
    obtain ⟨A, B, rfl, ha⟩ := find_some_split hf
    rw [ha] at h
    simp only [counts, map_append, map_cons, append_cancel_left_eq, cons.injEq,
      Prod.mk.injEq, true_and, and_true] at h
    exact adjust_counts _ type (by simp only [Prod.mk.injEq]; exact h)
  · next hf =>
    obtain ⟨A, B, rfl, hin⟩ := find_none_split hf
      (((Watchpoint.new n).updateValue t (Watchpoints.rangeFor addr n)).2.adjust type 1)
    rw [hin] at h
    have hl := congrArg length h
    simp only [counts, length_map, length_append, length_cons] at hl
    omega

/-- A watchpoint that could not be added is counted as if it had been. -/
theorem failed_add_never_restores {s s' : WatchState} (t : Tracee) (addr n : Nat) (type : WatchType)
    (first second : Nat → Kernel)
    (hfail : s.addWatchpoint first second t addr n type = some (false, s')) :
    ¬(counts (forget s'.watchpoints) = counts (forget s.watchpoints) ∧
      s'.tasks.map DebugRegisters.armed = s.tasks.map DebugRegisters.armed) := by
  rintro ⟨hc, _⟩
  have hw : forget s'.watchpoints = forget (s.watchpoints.add t addr n type) :=
    allocateWatchpoints_watched hfail
  rw [hw, forget_add] at hc
  exact add_counts (forget s.watchpoints) t addr n type hc

/-- With all four registers in use, a fifth watchpoint takes the registers from the others. -/
def fourWatched : Option WatchState :=
  WatchState.run
    [(.addWatchpoint zeroes 0x1000 8 .write, fun _ => obliging, fun _ => obliging),
      (.addWatchpoint zeroes 0x2000 8 .write, fun _ => obliging, fun _ => obliging),
      (.addWatchpoint zeroes 0x3000 8 .write, fun _ => obliging, fun _ => obliging),
      (.addWatchpoint zeroes 0x4000 8 .write, fun _ => obliging, fun _ => obliging)] ⟨[], [idle]⟩

theorem failed_add_disarms : (fourWatched.bind fun s =>
      (s.addWatchpoint (fun _ => obliging) (fun _ => obliging) zeroes 0x5000 8 .write).map fun r =>
        (r.1, s.watchpoints.length, r.2.watchpoints.length,
          s.tasks.map fun d => d.armed.length, r.2.tasks.map fun d => d.armed.length)) =
    some (false, 4, 5, [4], [0]) := by
  decide +kernel

theorem failed_add_never_restores_fifth : ∃ s s', fourWatched = some s ∧
      s.addWatchpoint (fun _ => obliging) (fun _ => obliging) zeroes 0x5000 8 .write =
        some (false, s') ∧
      ¬(counts (forget s'.watchpoints) = counts (forget s.watchpoints) ∧
        s'.tasks.map DebugRegisters.armed = s.tasks.map DebugRegisters.armed) := by
  have hr : (fourWatched.bind fun s =>
      (s.addWatchpoint (fun _ => obliging) (fun _ => obliging) zeroes 0x5000 8 .write).map
        Prod.fst) = some false := by decide +kernel
  obtain ⟨s, hs, hadd⟩ := bind_eq_some_iff.mp hr
  obtain ⟨⟨ok, s'⟩, hf, hok⟩ := map_eq_some_iff.mp hadd
  cases hok
  exact ⟨s, s', hs, hf, failed_add_never_restores zeroes 0x5000 8 .write _ _ hf⟩

end Rollback

end Attune.Watch
