import Attune.FdTable

namespace Attune.Fds
open List Function

variable {s : State Monitor} {changed : FdTable Monitor} {disabled : Nat → Nat} {l : List Task}
  {e : Fd}

namespace FdTable
variable {Monitor : Type}

def keys (table : FdTable Monitor) : List Fd := table.fds.map Prod.fst

def isBeyond (fd : Fd) : Bool := SYSCALLBUF_FDS_DISABLED_SIZE ≤ fd.val

inductive Built : FdTable Monitor → Prop where
  | create : Built .create
  | addMonitor {table : FdTable Monitor} : Built table → table.isMonitoring fd = false →
      Built (table.set fd monitor)
  | didDup {table : FdTable Monitor} : Built table → Built (table.dup old new)
  | didClose {table : FdTable Monitor} : Built table → Built (table.unset fd)

structure Sound (table : FdTable Monitor) : Prop where
  nodup : table.keys.Nodup
  count : table.fdCountBeyondLimit = table.keys.countP isBeyond

variable {table : FdTable Monitor} {fds : List (Fd × Monitor)}

theorem isMonitoring_iff : table.isMonitoring fd = true ↔ fd ∈ table.keys := by
  simp only [isMonitoring, keys, lookup_isSome_iff, mem_map, beq_iff_eq]
  constructor
  · rintro ⟨e, he, rfl⟩
    exact ⟨e, he, rfl⟩
  · rintro ⟨e, he, rfl⟩
    exact ⟨e, he, rfl⟩

theorem keys_erase (h : (fds.map Prod.fst).Nodup) :
    (erase fds fd).map Prod.fst = (fds.map Prod.fst).erase fd := by
  rw [h.erase_eq_filter, filter_map]
  rfl

section

variable (h : table.Sound)
include h

theorem Sound.keys_unset : (table.unset fd).keys = table.keys.erase fd :=
  keys_erase h.nodup

theorem Sound.keys_set : (table.set fd monitor).keys = fd :: table.keys.erase fd := by
  simp only [keys, set, assign, map_cons, keys_erase h.nodup]

theorem Sound.count_lt : table.fdCountBeyondLimit < 2 ^ 31 + 1 := by
  have hl := h.nodup.length_le_card
  rw [Fintype.card_fin] at hl
  have hc : table.keys.countP isBeyond ≤ table.keys.length := countP_le_length
  rw [h.count]
  omega

theorem Sound.count_pos (hm : fd ∈ table.keys) (hb : isBeyond fd = true) :
    0 < table.fdCountBeyondLimit := by
  rw [h.count]
  exact countP_pos_iff.mpr ⟨fd, hm, hb⟩

theorem Sound.unset : (table.unset fd).Sound where
  nodup := by
    rw [h.keys_unset]
    exact h.nodup.erase fd
  count := by
    rw [h.keys_unset, countP_erase]
    have hlt := h.count_lt
    simp only [FdTable.unset, Bool.and_eq_true, isMonitoring_iff]
    rw [← h.count]
    by_cases hc : fd ∈ table.keys ∧ isBeyond fd = true
    · have hpos := h.count_pos hc.1 hc.2
      rw [if_pos hc, if_pos ⟨hc.2, hc.1⟩, decrement]
      omega
    · rw [if_neg hc, if_neg fun h' => hc ⟨h'.2, h'.1⟩]
      omega

theorem Sound.set : (table.set fd monitor).Sound where
  nodup := by
    rw [h.keys_set]
    exact nodup_cons.mpr ⟨h.nodup.not_mem_erase, h.nodup.erase fd⟩
  count := by
    rw [h.keys_set, countP_cons, countP_erase, ← h.count]
    have hlt := h.count_lt
    simp only [FdTable.set, Bool.and_eq_true, Bool.not_eq_true', ← Bool.not_eq_true,
      isMonitoring_iff]
    by_cases hb : isBeyond fd = true
    · by_cases hm : fd ∈ table.keys
      · have hpos := h.count_pos hm hb
        rw [if_neg fun h' => h'.2 hm, if_pos ⟨hm, hb⟩, if_pos hb]
        omega
      · rw [if_pos ⟨hb, hm⟩, if_neg fun h' => hm h'.1, if_pos hb, increment]
        omega
    · rw [if_neg fun h' => hb h'.1, if_neg fun h' => hb h'.2, if_neg hb]
      omega

theorem Sound.dup : (table.dup old new).Sound := by
  simp only [FdTable.dup]
  split
  · exact h.set
  · exact h.unset

end

theorem Built.sound (h : Built table) : table.Sound := by
  induction h with
  | create => exact ⟨.nil, rfl⟩
  | addMonitor _ _ ih => exact ih.set
  | didDup _ ih => exact ih.dup
  | didClose _ ih => exact ih.unset

variable (h : table.Sound)
include h

theorem Sound.count_eq_ncard : table.fdCountBeyondLimit =
      {fd : Fd | SYSCALLBUF_FDS_DISABLED_SIZE ≤ fd.val ∧ table.isMonitoring fd = true}.ncard := by
  have hs : {fd : Fd | SYSCALLBUF_FDS_DISABLED_SIZE ≤ fd.val ∧ table.isMonitoring fd = true} =
      ↑(table.keys.filter isBeyond).toFinset := by
    ext fd
    simp only [Set.mem_ofPred_eq, isMonitoring_iff, coe_toFinset, mem_filter, isBeyond,
      decide_eq_true_eq]
    exact and_comm
  rw [hs, Set.ncard_coe_finset, toFinset_card_of_nodup (h.nodup.filter _), h.count,
    countP_eq_length_filter]

theorem Sound.isMonitoring_unset (hn : x ≠ fd) :
    (table.unset fd).isMonitoring x = table.isMonitoring x := by
  rw [Bool.eq_iff_iff, isMonitoring_iff, isMonitoring_iff, h.keys_unset, mem_erase_of_ne hn]

theorem Sound.isMonitoring_set (hn : x ≠ fd) :
    (table.set fd monitor).isMonitoring x = table.isMonitoring x := by
  rw [Bool.eq_iff_iff, isMonitoring_iff, isMonitoring_iff, h.keys_set, mem_cons,
    mem_erase_of_ne hn]
  exact or_iff_right hn

theorem Sound.isMonitoring_dup (hn : x ≠ new) :
    (table.dup old new).isMonitoring x = table.isMonitoring x := by
  simp only [FdTable.dup]
  split
  · exact h.isMonitoring_set hn
  · exact h.isMonitoring_unset hn

theorem Sound.count_pos_iff : 0 < table.fdCountBeyondLimit ↔
      ∃ fd, SYSCALLBUF_FDS_DISABLED_SIZE ≤ fd.val ∧ table.isMonitoring fd = true := by
  rw [h.count, countP_pos_iff]
  simp only [isMonitoring_iff, isBeyond, decide_eq_true_eq]
  constructor
  · intro ⟨fd, hm, hb⟩
    exact ⟨fd, hb, hm⟩
  · intro ⟨fd, hb, hm⟩
    exact ⟨fd, hm, hb⟩

end FdTable

theorem clamp_clamp (fd : Fd) : clamp (clamp fd) = clamp fd := by
  simp only [clamp]
  split
  · decide
  · rfl

theorem clamp_lt (fd : Fd) : (clamp fd).val < SYSCALLBUF_FDS_DISABLED_SIZE := by
  simp only [clamp]
  split
  · decide
  · omega

theorem clamp_eq_iff (fd e : Fd) (he : e.val < SYSCALLBUF_FDS_DISABLED_SIZE) :
    clamp fd = e ↔ fd = e ∨ SYSCALLBUF_FDS_DISABLED_SIZE - 1 ≤ e.val ∧
      SYSCALLBUF_FDS_DISABLED_SIZE ≤ fd.val := by
  by_cases hfd : SYSCALLBUF_FDS_DISABLED_SIZE ≤ fd.val
  · simp only [clamp, hfd, ↓reduceIte, Fin.ext_iff, and_true]
    simp only [SYSCALLBUF_FDS_DISABLED_SIZE] at he hfd ⊢
    omega
  · simp only [clamp, hfd, ↓reduceIte, and_false, or_false]

section
variable {Monitor : Type} {offset : Nat} {tasks : List Task} {tables : Nat → FdTable Monitor}

def Wanted (tasks : List Task) (tables : Nat → FdTable Monitor) (vm : Nat) (e : Fd) : Prop :=
  ∃ t ∈ tasks, t.vm = vm ∧ ∃ fd, (tables t.table).isMonitoring fd = true ∧ clamp fd = e

theorem wanted_congr {tables' : Nat → FdTable Monitor}
    (h : ∀ t ∈ tasks, t.vm = vm → ∀ x, clamp x = e →
      (tables' t.table).isMonitoring x = (tables t.table).isMonitoring x) :
    Wanted tasks tables' vm e ↔ Wanted tasks tables vm e := by
  constructor
  · rintro ⟨t, ht, hv, fd, hm, hc⟩
    exact ⟨t, ht, hv, fd, h t ht hv fd hc ▸ hm, hc⟩
  · rintro ⟨t, ht, hv, fd, hm, hc⟩
    exact ⟨t, ht, hv, fd, (h t ht hv fd hc).symm ▸ hm, hc⟩

theorem isFdMonitoredInAnyTask_iff (h : ∀ i, (tables i).Sound)
    (he : e.val < SYSCALLBUF_FDS_DISABLED_SIZE) :
    isFdMonitoredInAnyTask tasks tables vm e = true ↔ Wanted tasks tables vm e := by
  simp only [isFdMonitoredInAnyTask, any_eq_true, mem_filter, beq_iff_eq,
    Bool.or_eq_true, Bool.and_eq_true, decide_eq_true_eq, Wanted, (h _).count_pos_iff]
  constructor
  · rintro ⟨t, ⟨ht, hv⟩, hm | ⟨hl, fd, hb, hm⟩⟩
    · exact ⟨t, ht, hv, e, hm, (clamp_eq_iff e e he).mpr (.inl rfl)⟩
    · exact ⟨t, ht, hv, fd, hm, (clamp_eq_iff fd e he).mpr (.inr ⟨hl, hb⟩)⟩
  · rintro ⟨t, ht, hv, fd, hm, hc⟩
    rcases (clamp_eq_iff fd e he).mp hc with rfl | ⟨hl, hb⟩
    · exact ⟨t, ⟨ht, hv⟩, .inl hm⟩
    · exact ⟨t, ⟨ht, hv⟩, .inr ⟨hl, fd, hb, hm⟩⟩

/-- The tasks of an address space have the same preload globals, and they have them. -/
def Uniform (tasks : List Task) : Prop :=
  ∀ t ∈ tasks, t.preloadGlobals ≠ 0 ∧
    ∀ t' ∈ tasks, t'.vm = t.vm → t'.preloadGlobals = t.preloadGlobals

instance (tasks : List Task) : Decidable (Uniform tasks) :=
  inferInstanceAs (Decidable (∀ t ∈ tasks, _))

theorem Uniform.disabledArray_eq (h : Uniform tasks) (ht : t ∈ tasks) (ht' : t' ∈ tasks)
    (hv : t'.vm = t.vm) : t'.disabledArray offset = t.disabledArray offset := by
  simp only [Task.disabledArray, (h t ht).2 t' ht' hv]

theorem updateLoop_apply (hu : Uniform tasks) (hl : ∀ t ∈ l, t ∈ tasks)
    (fd : Fd) (memory : Nat → Nat → Nat) (vm addr : Nat) :
    updateLoop offset tasks tables l updated fd memory vm addr =
      if vm ∉ updated ∧ ∃ t ∈ l, t.vm = vm ∧ addr = t.disabledArray offset + clamp fd then
        (isFdMonitoredInAnyTask tasks tables vm (clamp fd)).toNat
      else memory vm addr := by
  induction l generalizing updated fd memory with
  | nil => simp only [updateLoop, not_mem_nil, false_and, exists_false, and_false, ↓reduceIte]
  | cons t l ih =>
    have ht := hl t mem_cons_self
    have hl' : ∀ t' ∈ l, t' ∈ tasks := fun t' ht' => hl t' (mem_cons_of_mem t ht')
    simp only [updateLoop, (hu t ht).1, ↓reduceIte, exists_mem_cons_iff]
    split
    · next hm =>
      rw [ih hl']
      have hne : vm ∉ updated → t.vm ≠ vm := fun hv he => hv (he ▸ hm)
      have hc : (vm ∉ updated ∧ ∃ t' ∈ l, t'.vm = vm ∧ addr = t'.disabledArray offset + clamp fd) ↔
          vm ∉ updated ∧ (t.vm = vm ∧ addr = t.disabledArray offset + clamp fd ∨
            ∃ t' ∈ l, t'.vm = vm ∧ addr = t'.disabledArray offset + clamp fd) :=
        and_congr_right fun hv => (or_iff_right fun h => hne hv h.1).symm
      simp only [hc]
    · next hm =>
      rw [ih hl', clamp_clamp]
      by_cases hv : t.vm = vm
      · subst hv
        simp only [mem_cons, true_or, not_true_eq_false, false_and, ↓reduceIte, writeByte,
          update_self, hm, not_false_eq_true, true_and]
        by_cases ha : addr = t.disabledArray offset + clamp fd
        · subst ha
          simp only [update_self, true_or, ↓reduceIte]
        · have hn : ¬∃ t' ∈ l, t'.vm = t.vm ∧ addr = t'.disabledArray offset + clamp fd := by
            intro ⟨t', ht', hv, ha'⟩
            rw [hu.disabledArray_eq ht (hl' t' ht') hv] at ha'
            exact ha ha'
          simp only [update_of_ne (f := memory t.vm) ha, ha, hn, or_self, ↓reduceIte]
      · simp only [mem_cons, Ne.symm hv, false_or, hv, false_and, writeByte,
          update_of_ne (f := memory) (Ne.symm hv)]

/-- The array of an address space shows what its tasks monitor. -/
def Mirrors (offset : Nat) (tasks : List Task) (s : State Monitor) (vm : Nat) : Prop :=
  ∀ t ∈ tasks, t.vm = vm → ∀ e : Fd, e.val < SYSCALLBUF_FDS_DISABLED_SIZE →
    (s.memory vm (t.disabledArray offset + e) ≠ 0 ↔ Wanted tasks s.tables vm e)

theorem toNat_ne_zero {b : Bool} : b.toNat ≠ 0 ↔ b = true := by
  cases b <;> decide

theorem Mirrors.update (hu : Uniform tasks)
    (hs : ∀ i, (update s.tables i₀ changed i).Sound)
    (hc : ∀ x, x ≠ fd → changed.isMonitoring x = (s.tables i₀).isMonitoring x)
    (h : Mirrors offset tasks s vm) :
    Mirrors offset tasks (updateSyscallbufFdsDisabled offset tasks
      { s with tables := update s.tables i₀ changed } i₀ fd) vm := by
  intro t ht hv e he
  have hl : ∀ t ∈ tasks.filter (·.table == i₀), t ∈ tasks := fun t ht => mem_of_mem_filter ht
  simp only [updateSyscallbufFdsDisabled]
  rw [updateLoop_apply hu hl]
  split
  · next hw =>
    obtain ⟨-, t', ht', hv', ha⟩ := hw
    rw [hu.disabledArray_eq ht (hl t' ht') (hv'.trans hv.symm)] at ha
    have hce : clamp fd = e := Fin.ext (by omega)
    rw [toNat_ne_zero, isFdMonitoredInAnyTask_iff hs (clamp_lt fd), hce]
  · next hw =>
    rw [h t ht hv e he]
    refine (wanted_congr ?_).symm
    intro t' ht' hv' x hx
    by_cases hi : t'.table = i₀
    · simp only [hi, update_self]
      apply hc
      intro hxf
      apply hw
      refine ⟨not_mem_nil, t', mem_filter.mpr ⟨ht', beq_iff_eq.mpr hi⟩, hv', ?_⟩
      rw [hu.disabledArray_eq ht ht' (hv'.trans hv.symm), ← hxf, hx]
    · simp only [update_of_ne (f := s.tables) hi]

theorem foldl_entries_ne_zero {fds : List (Fd × Monitor)} :
    fds.foldl setEntry disabled e ≠ 0 ↔ disabled e ≠ 0 ∨ ∃ x ∈ fds, clamp x.1 = e := by
  induction fds generalizing disabled with
  | nil => simp only [foldl_nil, not_mem_nil, false_and, exists_false, or_false]
  | cons x fds ih =>
    rw [foldl_cons, ih, exists_mem_cons_iff, ← or_assoc]
    apply or_congr_left
    by_cases hx : clamp x.1 = e
    · simp only [setEntry, hx, update_self, ne_eq, one_ne_zero, not_false_eq_true, or_true]
    · have hn : e.val ≠ (clamp x.1).val := fun h => hx (Fin.ext h.symm)
      simp only [setEntry, update_of_ne (f := disabled) hn, hx, or_false]

theorem foldl_setEntries_ne_zero : l.foldl (setEntries tables) disabled e ≠ 0 ↔ disabled e ≠ 0 ∨
      ∃ t ∈ l, ∃ fd, (tables t.table).isMonitoring fd = true ∧ clamp fd = e := by
  induction l generalizing disabled with
  | nil => simp only [foldl_nil, not_mem_nil, false_and, exists_false, or_false]
  | cons t l ih =>
    rw [foldl_cons, ih, setEntries, foldl_entries_ne_zero, exists_mem_cons_iff, ← or_assoc]
    apply or_congr_left
    apply or_congr_right
    simp only [FdTable.isMonitoring_iff, FdTable.keys, mem_map]
    constructor
    · rintro ⟨x, hx, hc⟩
      exact ⟨x.1, ⟨x, hx, rfl⟩, hc⟩
    · rintro ⟨fd, ⟨x, hx, rfl⟩, hc⟩
      exact ⟨x, hx, hc⟩

theorem disabledEntries_ne_zero :
    disabledEntries tasks tables vm e ≠ 0 ↔ Wanted tasks tables vm e := by
  rw [disabledEntries, foldl_setEntries_ne_zero]
  simp only [ne_eq, not_true_eq_false, false_or, mem_filter, beq_iff_eq, and_assoc, Wanted]

theorem mirrors_init (hu : Uniform tasks) (ht : t ∈ tasks) :
    Mirrors offset tasks (initSyscallbufFdsDisabled offset tasks s t) t.vm := by
  intro t' ht' hv e he
  simp only [initSyscallbufFdsDisabled, (hu t ht).1, ↓reduceIte, update_self,
    hu.disabledArray_eq ht ht' hv, Nat.le_add_right, Nat.add_lt_add_iff_left, he, and_self,
    Nat.add_sub_cancel_left, disabledEntries_ne_zero]

theorem Mirrors.init (hu : Uniform tasks) (ht : t ∈ tasks) (h : Mirrors offset tasks s vm) :
    Mirrors offset tasks (initSyscallbufFdsDisabled offset tasks s t) vm := by
  by_cases hv : vm = t.vm
  · subst hv
    exact mirrors_init hu ht
  · intro t' ht' hv' e he
    simp only [initSyscallbufFdsDisabled, (hu t ht).1, ↓reduceIte,
      update_of_ne (f := s.memory) hv]
    exact h t' ht' hv' e he

structure Kept (offset : Nat) (tasks : List Task) (s s' : State Monitor) : Prop where
  sound : ∀ i, (s'.tables i).Sound
  mirrors : ∀ vm, Mirrors offset tasks s vm → Mirrors offset tasks s' vm

theorem sound_update (hs : ∀ i, (s.tables i).Sound)
    (hc : changed.Sound) (i₀ i : Nat) : (update s.tables i₀ changed i).Sound := by
  by_cases hi : i = i₀
  · subst hi
    rw [update_self]
    exact hc
  · rw [update_of_ne hi]
    exact hs i

theorem Kept.step {s s' : State Monitor} (hu : Uniform tasks) (hs : ∀ i, (s.tables i).Sound)
    (h : step offset tasks s op = some s') : Kept offset tasks s s' := by
  cases op with
  | addMonitor table fd monitor =>
    simp only [Fds.step, addMonitor] at h
    split at h
    · cases h
    · cases h
      have hc : ((s.tables table).set fd monitor).Sound := (hs table).set
      have hs' := sound_update hs hc table
      exact ⟨hs', fun vm hm => hm.update hu hs' fun x hx => (hs table).isMonitoring_set hx⟩
  | didDup table old new =>
    cases h
    have hc : ((s.tables table).dup old new).Sound := (hs table).dup
    have hs' := sound_update hs hc table
    exact ⟨hs', fun vm hm => hm.update hu hs' fun x hx => (hs table).isMonitoring_dup hx⟩
  | didClose table fd =>
    cases h
    have hc : ((s.tables table).unset fd).Sound := (hs table).unset
    have hs' := sound_update hs hc table
    exact ⟨hs', fun vm hm => hm.update hu hs' fun x hx => (hs table).isMonitoring_unset hx⟩
  | initSyscallbufFdsDisabled t =>
    obtain ⟨ht, h⟩ := Option.ite_none_right_eq_some.mp h
    cases h
    refine ⟨?_, fun vm hm => hm.init hu ht⟩
    intro i
    simp only [initSyscallbufFdsDisabled, (hu t ht).1, ↓reduceIte]
    exact hs i

theorem Kept.run {s s' : State Monitor} (hu : Uniform tasks) (hs : ∀ i, (s.tables i).Sound)
    (h : run offset tasks s ops = some s') : Kept offset tasks s s' := by
  induction ops generalizing s with
  | nil =>
    cases h
    exact ⟨hs, fun vm hm => hm⟩
  | cons op ops ih =>
    obtain ⟨s₁, hop, h⟩ := Option.bind_eq_some_iff.mp h
    have h₁ := Kept.step hu hs hop
    have h₂ := ih h₁.sound h
    exact ⟨h₂.sound, fun vm hm => h₂.mirrors vm (h₁.mirrors vm hm)⟩

theorem mirrors_run {s s' : State Monitor} (hu : Uniform tasks) (hs : ∀ i, (s.tables i).Sound)
    (h : Fds.run offset tasks s ops = some s')
    (hi : .initSyscallbufFdsDisabled t ∈ ops) : Mirrors offset tasks s' t.vm := by
  induction ops generalizing s with
  | nil => cases hi
  | cons op ops ih =>
    obtain ⟨s₁, hop, h⟩ := Option.bind_eq_some_iff.mp h
    have h₁ := Kept.step hu hs hop
    rcases mem_cons.mp hi with rfl | hi
    · obtain ⟨ht, hop⟩ := Option.ite_none_right_eq_some.mp hop
      cases hop
      exact (Kept.run hu h₁.sound h).mirrors t.vm (mirrors_init hu ht)
    · exact ih h₁.sound h hi

theorem wanted_iff_of_lt (hk : k.val < SYSCALLBUF_FDS_DISABLED_SIZE - 1) :
    Wanted tasks tables vm k ↔ ∃ t ∈ tasks, t.vm = vm ∧ (tables t.table).isMonitoring k = true := by
  have hlt : k.val < SYSCALLBUF_FDS_DISABLED_SIZE := by omega
  simp only [Wanted, clamp_eq_iff _ k hlt, Nat.not_le.mpr hk, false_and, or_false]
  constructor
  · rintro ⟨t, ht, hv, fd, hm, rfl⟩
    exact ⟨t, ht, hv, hm⟩
  · rintro ⟨t, ht, hv, hm⟩
    exact ⟨t, ht, hv, k, hm, rfl⟩

theorem wanted_last_iff (hk : k.val = SYSCALLBUF_FDS_DISABLED_SIZE - 1) :
    Wanted tasks tables vm k ↔ ∃ t ∈ tasks, t.vm = vm ∧
      ∃ fd, SYSCALLBUF_FDS_DISABLED_SIZE - 1 ≤ fd.val ∧ (tables t.table).isMonitoring fd = true := by
  have hpos : 0 < SYSCALLBUF_FDS_DISABLED_SIZE := by decide
  have hc : ∀ fd, clamp fd = k ↔ SYSCALLBUF_FDS_DISABLED_SIZE - 1 ≤ fd.val := by
    intro fd
    rw [clamp_eq_iff fd k (by omega), Fin.ext_iff]
    omega
  simp only [Wanted, hc, and_comm]

/-- In every run the counters are exact, and initialised arrays mirror what the tasks monitor. -/
theorem fds_run_mirrors (offset : Nat) (tasks : List Task) (hu : Uniform tasks)
    (s s' : State Monitor) (hb : ∀ i, (s.tables i).Built) (ops : List (Op Monitor))
    (h : run offset tasks s ops = some s') :
    (∀ i, (s'.tables i).fdCountBeyondLimit =
      {fd : Fd | SYSCALLBUF_FDS_DISABLED_SIZE ≤ fd.val ∧
        (s'.tables i).isMonitoring fd = true}.ncard) ∧
    ∀ t, .initSyscallbufFdsDisabled t ∈ ops → ∀ t₀ ∈ tasks, t₀.vm = t.vm →
      (∀ k : Fd, k.val < SYSCALLBUF_FDS_DISABLED_SIZE - 1 →
        (s'.memory t.vm (t₀.disabledArray offset + k) ≠ 0 ↔
          ∃ t' ∈ tasks, t'.vm = t.vm ∧ (s'.tables t'.table).isMonitoring k = true)) ∧
      (s'.memory t.vm (t₀.disabledArray offset + (SYSCALLBUF_FDS_DISABLED_SIZE - 1)) ≠ 0 ↔
        ∃ t' ∈ tasks, t'.vm = t.vm ∧ ∃ fd, SYSCALLBUF_FDS_DISABLED_SIZE - 1 ≤ fd.val ∧
          (s'.tables t'.table).isMonitoring fd = true) := by
  have hs : ∀ i, (s.tables i).Sound := fun i => (hb i).sound
  refine ⟨fun i => ((Kept.run hu hs h).sound i).count_eq_ncard, ?_⟩
  intro t hi t₀ ht₀ hv
  have hm := mirrors_run hu hs h hi t₀ ht₀ hv
  constructor
  · intro k hk
    rw [hm k (by omega), wanted_iff_of_lt hk]
  · have hl := hm ⟨SYSCALLBUF_FDS_DISABLED_SIZE - 1, by decide⟩ (by decide)
    rw [wanted_last_iff rfl] at hl
    exact hl

def sharedTable : List Task := [⟨0, 0, 4096⟩, ⟨0, 1, 4096⟩, ⟨1, 1, 4096⟩]

def sharedOps : List (Op Unit) :=
  [.initSyscallbufFdsDisabled ⟨0, 0, 4096⟩, .initSyscallbufFdsDisabled ⟨1, 1, 4096⟩,
    .addMonitor 0 2000 (), .addMonitor 1 3 (), .didDup 0 2000 3, .didClose 0 2000]

theorem fds_run_mirrors_shared_table :
    ∃ s', run 16 sharedTable ⟨fun _ => .create, fun _ _ => 0⟩ sharedOps = some s' ∧
      (s'.memory 1 (4112 + (1024 - 1)) ≠ 0 ↔ ∃ t' ∈ sharedTable, t'.vm = 1 ∧
        ∃ fd, SYSCALLBUF_FDS_DISABLED_SIZE - 1 ≤ fd.val ∧
          (s'.tables t'.table).isMonitoring fd = true) :=
  ⟨_, rfl, ((fds_run_mirrors 16 sharedTable (by decide) ⟨fun _ => .create, fun _ _ => 0⟩ _
    (fun _ => .create) sharedOps rfl).2 ⟨1, 1, 4096⟩ (.tail _ (.head _)) ⟨1, 1, 4096⟩
    (.tail _ (.tail _ (.head _))) rfl).2⟩

end

end Attune.Fds
