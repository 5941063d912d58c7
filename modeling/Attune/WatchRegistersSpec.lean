import Attune.WatchRegisters

namespace Attune.Watch
open Dyadic List Option OrderedMap MemoryRange

def Bounded (r : MemoryRange) : Prop := r.start ≤ r.end_ ∧ r.end_ < 2 ^ 64

/-- A range whose aligned range is the whole address space. -/
def Spans (r : MemoryRange) : Prop := r.start < 8 ∧ 2 ^ 64 - 8 < r.end_

theorem rangeFor_bounded (h : addr < 2 ^ 64) : Bounded (Watchpoints.rangeFor addr n) := by
  simp only [Bounded, Watchpoints.rangeFor, ptrAdd]
  omega

section Pieces

variable {r : MemoryRange}

theorem Bounded.size (h : Bounded r) : r.size = r.end_ - r.start := ptrSub_eq h.1 h.2

theorem Bounded.split (h : Bounded r) :
    ∃ l, GreedyCover 3 r.end_ r.start l ∧ splitRange r = some (l.map blockRange) := by
  obtain ⟨n, hn⟩ := Nat.exists_eq_add_of_le h.1
  have hend := h.2
  obtain ⟨l, hl, hsp⟩ := splitRange_spec (a := r.start) (n := n) (by omega) (by omega)
  rw [← hn, Nat.mod_eq_of_lt (by omega), Nat.mod_eq_of_lt h.2] at hsp
  rw [← hn] at hl
  exact ⟨l, hl, hsp⟩

theorem splitRange_empty (h : r.size = 0) : splitRange r = some [] := by
  rw [splitRange, h, splitLoop, if_neg (by omega)]

theorem greedy_pieces (h : GreedyCover 3 b a l) (hb : b ≤ 2 ^ 64) :
    (∀ q ∈ l.map blockRange, Piece q) ∧
      ∀ p, a ≤ p → p < b → ∃ q ∈ l.map blockRange, q.start ≤ p ∧ p < q.start + q.size := by
  constructor
  · intro q hq
    obtain ⟨⟨x, n⟩, hx, rfl⟩ := mem_map.mp hq
    obtain ⟨ha, _, hhi⟩ := h.within (x, n) hx
    exact blockRange_piece ha (Nat.le_trans hhi hb)
  · intro p hlo hhi
    obtain ⟨⟨x, n⟩, hx, hxlo, hxhi⟩ := h.covers hlo hhi
    obtain ⟨ha, _, hend⟩ := h.within (x, n) hx
    refine ⟨blockRange (x, n), mem_map_of_mem hx, hxlo, ?_⟩
    rw [blockRange_size ha (Nat.le_trans hend hb)]
    exact hxhi

theorem upgradeAlign_cases (n : Nat) : upgradeAlign n = 2 ∨ upgradeAlign n = 4 ∨ upgradeAlign n = 8 := by
  rw [upgradeAlign]
  split_ifs
  · exact Or.inl rfl
  · exact Or.inr (Or.inl rfl)
  · exact Or.inr (Or.inr rfl)

/-- The aligned range is around the range, and its end can be the end of the address space. -/
theorem alignedRange_spec (h : Bounded r) :
    ∃ a n, alignedRange r = ⟨a % 2 ^ 64, (a + n) % 2 ^ 64⟩ ∧ a ≤ r.start ∧ r.end_ ≤ a + n ∧
      a + n ≤ 2 ^ 64 ∧ (n = 2 ^ 64 → Spans r) := by
  obtain ⟨hle, hend⟩ := h
  rw [alignedRange]
  generalize hal : upgradeAlign r.size = align
  have hc := upgradeAlign_cases r.size
  rw [hal] at hc
  refine ⟨r.start / align * align,
    (r.end_ + (align - 1)) / align * align - r.start / align * align, ?_⟩
  rw [mk.injEq, Spans]
  obtain rfl | rfl | rfl := hc
  all_goals omega

theorem alignedRange_split (h : Bounded r) :
    ∃ pieces, splitRange (alignedRange r) = some pieces ∧ (∀ q ∈ pieces, Piece q) ∧
      (¬Spans r → ∀ p, r.start ≤ p → p < r.end_ →
        ∃ q ∈ pieces, q.start ≤ p ∧ p < q.start + q.size) := by
  obtain ⟨a, n, heq, hlo, hhi, hbo, hspa⟩ := alignedRange_spec h
  by_cases hn : n = 2 ^ 64
  · have hsi : (alignedRange r).size = 0 := by
      rw [heq]
      simp only [size, ptrSub]
      omega
    exact ⟨[], splitRange_empty hsi, by simp, fun hno => absurd (hspa hn) hno⟩
  · obtain ⟨l, hl, hsp⟩ := splitRange_spec hbo (by omega)
    obtain ⟨hpi, hc⟩ := greedy_pieces hl hbo
    rw [← heq] at hsp
    exact ⟨l.map blockRange, hsp, hpi, fun _ p hp hp' => hc p (by omega) (by omega)⟩

structure Pieces (r : MemoryRange) (type : WatchType) (pieces : List MemoryRange) : Prop where
  piece : ∀ q ∈ pieces, Piece q
  covers : (type = .write → ¬Spans r) → ∀ p, r.start ≤ p → p < r.end_ →
    ∃ q ∈ pieces, q.start ≤ p ∧ p < q.start + q.size
  few : ∀ exact_, splitRange r = some exact_ → pieces.length ≤ exact_.length
  empty : r.size = 0 → pieces = []

theorem watchPieces_spec (h : Bounded r) (type : WatchType) :
    ∃ pieces, watchPieces r type = some pieces ∧ Pieces r type pieces := by
  obtain ⟨l, hl, hsp⟩ := h.split
  obtain ⟨hp, hc⟩ := greedy_pieces hl (Nat.le_of_lt h.2)
  have he : Pieces r type (l.map blockRange) := by
    refine ⟨hp, fun _ => hc, fun pieces' hs' => ?_, fun hem => ?_⟩
    · rw [hsp, some.injEq] at hs'
      rw [hs']
    · rw [splitRange_empty hem, some.injEq] at hsp
      exact hsp.symm
  rw [watchPieces, hsp, bind_eq_bind, bind_some]
  split
  · next hw =>
    obtain ⟨pieces, ha, hp', hc'⟩ := alignedRange_split h
    rw [ha, bind_some]
    by_cases hf : pieces.length < (l.map blockRange).length
    · refine ⟨pieces, congrArg some (if_pos hf), hp', fun hspa => ?_, ?_, ?_⟩
      · exact hc' (hspa hw.1)
      · intro pieces' hs'
        rw [hsp, some.injEq] at hs'
        rw [← hs']
        omega
      · omega
    · exact ⟨l.map blockRange, congrArg some (if_neg hf), he⟩
  · exact ⟨l.map blockRange, rfl, he⟩

end Pieces

section Registers

def configOf (type : WatchType) (r : MemoryRange) : WatchConfig := ⟨r.start, r.size, type⟩

theorem foldl_pushRegister (pieces : List MemoryRange) (regs : List WatchConfig)
    (assigned : Option (List Int8)) :
    pieces.foldl (pushRegister type) (regs, assigned) =
      (regs ++ pieces.map (configOf type),
        assigned.map (· ++ (range' regs.length pieces.length).map Int8.ofNat)) := by
  induction pieces generalizing regs assigned with
  | nil => cases assigned <;> simp
  | cons r pieces ih =>
    rw [foldl_cons, pushRegister, ih]
    cases assigned <;> simp [configOf, range'_succ]

theorem configureWatchRegisters_spec (h : Bounded r) (type : WatchType) (regs : List WatchConfig)
    (assigned : Option (List Int8)) :
    ∃ pieces, Pieces r type pieces ∧ configureWatchRegisters regs r type assigned =
      some (regs ++ pieces.map (configOf type),
        assigned.map (· ++ (range' regs.length pieces.length).map Int8.ofNat)) := by
  obtain ⟨pieces, hp, hsp⟩ := watchPieces_spec h type
  refine ⟨pieces, hsp, ?_⟩
  rw [configureWatchRegisters, hp, bind_eq_bind, bind_some, foldl_pushRegister]
  rfl

def execReadIndices (n : Nat) (own : List WatchConfig) : List Nat :=
  ((own.zipIdx n).filter fun x => x.1.type ≠ .write).map Prod.snd

theorem execReadIndices_append (n : Nat) (A B : List WatchConfig) :
    execReadIndices n (A ++ B) = execReadIndices n A ++ execReadIndices (n + A.length) B := by
  simp only [execReadIndices, zipIdx_append, filter_append, map_append]

theorem execReadIndices_all (h : ∀ c ∈ own, c.type ≠ .write) :
    execReadIndices n own = range' n own.length := by
  rw [execReadIndices, filter_eq_self.mpr, zipIdx_map_snd]
  intro x hx
  simpa using h x.1 (fst_mem_of_mem_zipIdx hx)

theorem execReadIndices_none (h : ∀ c ∈ own, c.type = .write) : execReadIndices n own = [] := by
  rw [execReadIndices, map_eq_nil_iff, filter_eq_nil_iff]
  intro x hx
  simpa using h x.1 (fst_mem_of_mem_zipIdx hx)

theorem execReadIndices_eq_nil : execReadIndices n own = [] ↔ ∀ c ∈ own, c.type = .write := by
  constructor
  · intro h c hc
    rw [execReadIndices, map_eq_nil_iff, filter_eq_nil_iff] at h
    rw [← zipIdx_map_fst n own] at hc
    obtain ⟨x, hx, rfl⟩ := mem_map.mp hc
    simpa using h x hx
  · exact execReadIndices_none

def Part (r : MemoryRange) (type : WatchType) (own : List WatchConfig) : Prop :=
  ∃ pieces, own = pieces.map (configOf type) ∧ Pieces r type pieces

section

variable (h : Part r type own)
include h

theorem Part.type_eq : ∀ c ∈ own, c.type = type := by
  obtain ⟨pieces, rfl, _⟩ := h
  intro c hc
  obtain ⟨q, _, rfl⟩ := mem_map.mp hc
  rfl

theorem Part.piece : ∀ c ∈ own, c.numBytes ∈ [1, 2, 4, 8] ∧ c.addr % c.numBytes = 0 := by
  obtain ⟨pieces, rfl, hp⟩ := h
  intro c hc
  obtain ⟨q, hq, rfl⟩ := mem_map.mp hc
  exact hp.piece q hq

theorem Part.covers (hsp : type = .write → ¬Spans r) (hlo : r.start ≤ p)
    (hhi : p < r.end_) : ∃ c ∈ own, c.type = type ∧ c.addr ≤ p ∧ p < c.addr + c.numBytes := by
  obtain ⟨pieces, rfl, hp⟩ := h
  obtain ⟨q, hq, hin⟩ := hp.covers hsp p hlo hhi
  exact ⟨configOf type q, mem_map_of_mem hq, rfl, hin⟩

theorem Part.few (hsp : splitRange r = some pieces) : own.length ≤ pieces.length := by
  obtain ⟨pieces', rfl, hp⟩ := h
  rw [length_map]
  exact hp.few pieces hsp

theorem Part.empty (hsi : r.size = 0) : own = [] := by
  obtain ⟨pieces, rfl, hp⟩ := h
  rw [hp.empty hsi, map_nil]

end

theorem configureWatchRegisters_part (h : Bounded r) (type : WatchType) (regs : List WatchConfig)
    (assigned : Option (List Int8)) :
    ∃ own, Part r type own ∧ configureWatchRegisters regs r type assigned =
      some (regs ++ own, assigned.map (· ++ (range' regs.length own.length).map Int8.ofNat)) := by
  obtain ⟨pieces, hp, hsp⟩ := configureWatchRegisters_spec h type regs assigned
  refine ⟨pieces.map (configOf type), ⟨pieces, rfl, hp⟩, ?_⟩
  rw [hsp, length_map]

variable {w : Watchpoint}

section

variable (h : Bounded r) (regs : List WatchConfig) (assigned : List Int8)
include h

theorem configureExec_spec : ∃ own, configureExec regs r w (some assigned) =
        some (regs ++ own, some (assigned ++ (execReadIndices regs.length own).map Int8.ofNat)) ∧
      (0 < w.execCount ∧ Part r .exec own ∨ ¬0 < w.execCount ∧ own = []) := by
  rw [configureExec]
  by_cases he : 0 < w.execCount
  · obtain ⟨own, hp, hsp⟩ := configureWatchRegisters_part h .exec regs (some assigned)
    refine ⟨own, ?_, Or.inl ⟨he, hp⟩⟩
    rw [if_pos he, hsp, execReadIndices_all]
    · rfl
    · intro c hc
      rw [hp.type_eq c hc]
      decide
  · refine ⟨[], ?_, Or.inr ⟨he, rfl⟩⟩
    rw [if_neg he]
    simp [execReadIndices]

theorem configureReadWrite_spec : ∃ own, configureReadWrite regs r w (some assigned) =
        some (regs ++ own, some (assigned ++ (execReadIndices regs.length own).map Int8.ofNat)) ∧
      (0 < w.readCount ∧ Part r .readWrite own ∨
        ¬0 < w.readCount ∧ 0 < w.writeCount ∧ Part r .write own ∨
        ¬0 < w.readCount ∧ ¬0 < w.writeCount ∧ own = []) := by
  rw [configureReadWrite]
  by_cases hr : 0 < w.readCount
  · obtain ⟨own, hp, hsp⟩ := configureWatchRegisters_part h .readWrite regs (some assigned)
    refine ⟨own, ?_, Or.inl ⟨hr, hp⟩⟩
    rw [if_pos hr, hsp, execReadIndices_all]
    · rfl
    · intro c hc
      rw [hp.type_eq c hc]
      decide
  · rw [if_neg hr]
    by_cases hw : 0 < w.writeCount
    · obtain ⟨own, hp, hsp⟩ := configureWatchRegisters_part h .write regs none
      refine ⟨own, ?_, Or.inr (Or.inl ⟨hr, hw, hp⟩)⟩
      rw [if_pos hw, hsp, execReadIndices_none hp.type_eq]
      simp
    · refine ⟨[], ?_, Or.inr (Or.inr ⟨hr, hw, rfl⟩)⟩
      rw [if_neg hw]
      simp [execReadIndices]

end

structure Own (r : MemoryRange) (w : Watchpoint) (own : List WatchConfig) : Prop where
  needed : ∀ c ∈ own, (c.type = .exec → 0 < w.execCount) ∧ (c.type = .readWrite → 0 < w.readCount)
  piece : ∀ c ∈ own, c.numBytes ∈ [1, 2, 4, 8] ∧ c.addr % c.numBytes = 0
  exec : 0 < w.execCount → ∀ p, r.start ≤ p → p < r.end_ →
    ∃ c ∈ own, c.type = .exec ∧ c.addr ≤ p ∧ p < c.addr + c.numBytes
  read : 0 < w.readCount → ∀ p, r.start ≤ p → p < r.end_ →
    ∃ c ∈ own, c.type = .readWrite ∧ c.addr ≤ p ∧ p < c.addr + c.numBytes
  write : 0 < w.writeCount → ¬Spans r → ∀ p, r.start ≤ p → p < r.end_ →
    ∃ c ∈ own, (c.type = .write ∨ c.type = .readWrite) ∧ c.addr ≤ p ∧ p < c.addr + c.numBytes
  few : ∀ pieces, splitRange r = some pieces →
    (own.filter fun c => c.type = .write).length ≤ pieces.length

theorem filter_write_nil {own : List WatchConfig} (h : ∀ c ∈ own, c.type = type)
    (hne : type ≠ .write) : (own.filter fun c => c.type = .write) = [] := by
  rw [filter_eq_nil_iff]
  intro c hc
  rw [h c hc]
  simpa using hne

theorem own_append (he : 0 < w.execCount ∧ Part r .exec A ∨ ¬0 < w.execCount ∧ A = [])
    (hrw : 0 < w.readCount ∧ Part r .readWrite B ∨
        ¬0 < w.readCount ∧ 0 < w.writeCount ∧ Part r .write B ∨
        ¬0 < w.readCount ∧ ¬0 < w.writeCount ∧ B = []) : Own r w (A ++ B) where
  needed c hc := by
    rcases mem_append.mp hc with hA | hB
    · obtain ⟨hco, hp⟩ | ⟨_, rfl⟩ := he
      · rw [hp.type_eq c hA]
        exact ⟨fun _ => hco, by simp⟩
      · cases hA
    · obtain ⟨hco, hp⟩ | ⟨_, _, hp⟩ | ⟨_, _, rfl⟩ := hrw
      · rw [hp.type_eq c hB]
        exact ⟨by simp, fun _ => hco⟩
      · rw [hp.type_eq c hB]
        exact ⟨by simp, by simp⟩
      · cases hB
  piece c hc := by
    rcases mem_append.mp hc with hA | hB
    · obtain ⟨_, hp⟩ | ⟨_, rfl⟩ := he
      · exact hp.piece c hA
      · cases hA
    · obtain ⟨_, hp⟩ | ⟨_, _, hp⟩ | ⟨_, _, rfl⟩ := hrw
      · exact hp.piece c hB
      · exact hp.piece c hB
      · cases hB
  exec hco p hlo hhi := by
    obtain ⟨_, hp⟩ | ⟨hno, _⟩ := he
    · obtain ⟨c, hc, hin⟩ := hp.covers (by simp) hlo hhi
      exact ⟨c, mem_append_left B hc, hin⟩
    · exact absurd hco hno
  read hco p hlo hhi := by
    obtain ⟨_, hp⟩ | ⟨hno, _⟩ | ⟨hno, _⟩ := hrw
    · obtain ⟨c, hc, hin⟩ := hp.covers (by simp) hlo hhi
      exact ⟨c, mem_append_right A hc, hin⟩
    · exact absurd hco hno
    · exact absurd hco hno
  write hco hsp p hlo hhi := by
    obtain ⟨_, hp⟩ | ⟨_, _, hp⟩ | ⟨_, hno, _⟩ := hrw
    · obtain ⟨c, hc, ht, hin⟩ := hp.covers (by simp) hlo hhi
      exact ⟨c, mem_append_right A hc, Or.inr ht, hin⟩
    · obtain ⟨c, hc, ht, hin⟩ := hp.covers (fun _ => hsp) hlo hhi
      exact ⟨c, mem_append_right A hc, Or.inl ht, hin⟩
    · exact absurd hco hno
  few pieces hspl := by
    have hA : (A.filter fun c => c.type = .write) = [] := by
      obtain ⟨_, hp⟩ | ⟨_, rfl⟩ := he
      · exact filter_write_nil hp.type_eq (by decide)
      · rfl
    rw [filter_append, hA, nil_append]
    obtain ⟨_, hp⟩ | ⟨_, _, hp⟩ | ⟨_, _, rfl⟩ := hrw
    · rw [filter_write_nil hp.type_eq (by decide)]
      exact Nat.zero_le _
    · exact Nat.le_trans (length_filter_le _ _) (hp.few hspl)
    · exact Nat.zero_le _

theorem configureWatchpoint_spec {w : ArmedWatchpoint} (h : Bounded r) (regs : List WatchConfig) :
    ∃ own, Own r w.toWatchpoint own ∧ (r.size = 0 → own = []) ∧
      configureWatchpoint .settingTaskState regs r w = some (regs ++ own,
        { w with debugRegsForExecRead := (execReadIndices regs.length own).map Int8.ofNat }) := by
  obtain ⟨A, hA, he⟩ := configureExec_spec (w := w.toWatchpoint) h regs []
  obtain ⟨B, hB, hrw⟩ := configureReadWrite_spec (w := w.toWatchpoint) h (regs ++ A)
    ([] ++ (execReadIndices regs.length A).map Int8.ofNat)
  refine ⟨A ++ B, own_append he hrw, fun hsi => ?_, ?_⟩
  · have hnil : A = [] := by
      obtain ⟨_, hp⟩ | ⟨_, rfl⟩ := he
      · exact hp.empty hsi
      · rfl
    rw [hnil, nil_append]
    obtain ⟨_, hp⟩ | ⟨_, _, hp⟩ | ⟨_, _, rfl⟩ := hrw
    · exact hp.empty hsi
    · exact hp.empty hsi
    · rfl
  · rw [configureWatchpoint, if_pos rfl, hA, bind_eq_bind, bind_some]
    dsimp only
    rw [hB, bind_some, execReadIndices_append, map_append, append_assoc,
      nil_append, length_append]
    rfl

/-- The registers of each watchpoint of a table, numbered one after the other. -/
inductive Numbered : Nat → WatchTable → List (List WatchConfig) → Prop where
  | nil : Numbered n [] []
  | cons {w : ArmedWatchpoint} : Own r w.toWatchpoint own →
      w.debugRegsForExecRead = (execReadIndices n own).map Int8.ofNat →
      (r.size = 0 → own = []) →
      Numbered (n + own.length) ws owns → Numbered n ((r, w) :: ws) (own :: owns)

def forget (ws : WatchTable) : Watchpoints := mapValues ArmedWatchpoint.toWatchpoint ws

theorem getWatchConfigs_spec {ws : WatchTable} (h : ∀ e ∈ ws, Bounded e.1)
    (regs : List WatchConfig) :
    ∃ owns ws', getWatchConfigs .settingTaskState regs ws = some (regs ++ owns.flatten, ws') ∧
      forget ws' = forget ws ∧ Numbered regs.length ws' owns := by
  induction ws generalizing regs with
  | nil => exact ⟨[], [], by simp [getWatchConfigs], rfl, .nil⟩
  | cons e ws ih =>
    obtain ⟨r, w⟩ := e
    obtain ⟨own, hown, hem, hsp⟩ :=
      configureWatchpoint_spec (w := w) (h (r, w) mem_cons_self) regs
    obtain ⟨owns, ws', hr, hf, hn⟩ :=
      ih (fun e he => h e (mem_cons_of_mem _ he)) (regs ++ own)
    refine ⟨own :: owns, (r, { w with
      debugRegsForExecRead := (execReadIndices regs.length own).map Int8.ofNat }) :: ws', ?_, ?_,
      .cons hown rfl hem ?_⟩
    · rw [getWatchConfigs, hsp, bind_eq_bind, bind_some]
      dsimp only
      rw [hr, bind_eq_bind, bind_some, flatten_cons, append_assoc]
      rfl
    · rw [forget, mapValues, map_cons]
      exact congrArg (cons (r, w.toWatchpoint)) hf
    · rwa [length_append] at hn

end Registers

section Tables

variable {ws : WatchTable}

theorem forget_bounded (h : forget ws' = forget ws) (hb : ∀ e ∈ ws, Bounded e.1) :
    ∀ e ∈ ws', Bounded e.1 := by
  intro e he
  have hmem : (e.1, e.2.toWatchpoint) ∈ forget ws' := mem_map.mpr ⟨e, he, rfl⟩
  rw [h] at hmem
  obtain ⟨e', he', heq⟩ := mem_map.mp hmem
  rw [← (Prod.mk.inj heq).1]
  exact hb e' he'

variable (hb : ∀ e ∈ ws, Bounded e.1)
include hb

theorem assign_bounded
    (hf : find less k ws = some e) (w : ArmedWatchpoint) :
    ∀ x ∈ assign less k w ws, Bounded x.1 := by
  obtain ⟨A, B, rfl, ha⟩ := find_some_split hf
  intro x hx
  rw [ha w] at hx
  rcases mem_append.mp hx with hA | hB
  · exact hb x (mem_append_left _ hA)
  · rcases mem_cons.mp hB with rfl | hB
    · exact hb e (mem_append_right A mem_cons_self)
    · exact hb x (mem_append_right A (mem_cons_of_mem e hB))

theorem add_bounded (h : addr < 2 ^ 64) : ∀ x ∈ ws.add t addr n type, Bounded x.1 := by
  rw [WatchTable.add]
  dsimp only
  split
  · next hf => exact assign_bounded hb hf _
  next hf =>
  intro x hx
  obtain ⟨A, B, rfl, hin⟩ := find_none_split hf
    ⟨((Watchpoint.new n).updateValue t (Watchpoints.rangeFor addr n)).2.adjust type 1, []⟩
  rw [hin] at hx
  rcases mem_append.mp hx with hA | hB
  · exact hb x (mem_append_left _ hA)
  · rcases mem_cons.mp hB with rfl | hB
    · exact rangeFor_bounded h
    · exact hb x (mem_append_right A hB)

theorem remove_bounded : ∀ x ∈ ws.remove addr n type, Bounded x.1 := by
  rw [WatchTable.remove]
  dsimp only
  split
  · exact hb
  · next hf =>
    split
    · intro x hx
      exact hb x (mem_of_mem_filter hx)
    · exact assign_bounded hb hf _

theorem edit_bounded {c : Call} (h : c.addr < 2 ^ 64) : ∀ x ∈ c.edit ws, Bounded x.1 := by
  cases c with
  | addWatchpoint t addr n type => exact add_bounded hb h
  | removeWatchpoint addr n type => exact remove_bounded hb

end Tables

section Tasks

theorem numBytesToDrLen_isSome (h : n ∈ [1, 2, 4, 8]) : ∃ len, numBytesToDrLen n = some len := by
  simp only [mem_cons, not_mem_nil, or_false] at h
  obtain rfl | rfl | rfl | rfl := h
  all_goals exact ⟨_, rfl⟩

theorem setAddrs_isSome (k : Kernel) (h : ∀ c ∈ regs, c.numBytes ∈ [1, 2, 4, 8]) (i : Nat)
    (control : List (Nat × WatchType)) (d : DebugRegisters) :
    ∃ r, setAddrs k i regs control d = some r := by
  induction regs generalizing i control d with
  | nil => exact ⟨_, rfl⟩
  | cons c regs ih =>
    rw [setAddrs]
    split
    · obtain ⟨len, hlen⟩ := numBytesToDrLen_isSome (h c mem_cons_self)
      rw [hlen]
      exact ih (fun c hc => h c (mem_cons_of_mem _ hc)) _ _ _
    · exact ⟨_, rfl⟩

theorem setDebugRegs_isSome (k : Kernel) (d : DebugRegisters)
    (h : ∀ c ∈ regs, c.numBytes ∈ [1, 2, 4, 8]) : ∃ r, setDebugRegs k d regs = some r := by
  rw [setDebugRegs]
  dsimp only
  split
  · exact ⟨_, rfl⟩
  · exact setAddrs_isSome k h _ _ _

theorem setAllDebugRegs_isSome (k : Nat → Kernel) (h : ∀ c ∈ regs, c.numBytes ∈ [1, 2, 4, 8])
    (i : Nat) (ds : List DebugRegisters) : ∃ r, setAllDebugRegs k regs i ds = some r := by
  induction ds generalizing i with
  | nil => exact ⟨_, rfl⟩
  | cons d ds ih =>
    obtain ⟨r, hr⟩ := setDebugRegs_isSome (k i) d h
    obtain ⟨rest, hre⟩ := ih (i + 1)
    rw [setAllDebugRegs, hr, bind_eq_bind, bind_some, hre]
    exact ⟨_, rfl⟩

theorem setDebugRegs_clear (k : Kernel) (d : DebugRegisters) :
    setDebugRegs k d [] = some (true, ⟨0, d.addrs, []⟩) := by
  simp [setDebugRegs, numX86Watchpoints, setAddrs, setControl, k.clears]

theorem setAllDebugRegs_clear (k : Nat → Kernel) (i : Nat) (ds : List DebugRegisters) :
    ∃ ds', setAllDebugRegs k [] i ds = some (true, ds') ∧ ∀ d ∈ ds', d.armed = [] := by
  induction ds generalizing i with
  | nil => exact ⟨[], rfl, by simp⟩
  | cons d ds ih =>
    obtain ⟨ds', hds, ha⟩ := ih (i + 1)
    refine ⟨⟨0, d.addrs, []⟩ :: ds', ?_, ?_⟩
    · rw [setAllDebugRegs, setDebugRegs_clear, bind_eq_bind, bind_some, hds]
      rfl
    · intro d' hd'
      rcases mem_cons.mp hd' with rfl | hd'
      · rfl
      · exact ha d' hd'

end Tasks

theorem Numbered.piece (h : Numbered n ws owns) :
    ∀ c ∈ owns.flatten, c.numBytes ∈ [1, 2, 4, 8] ∧ c.addr % c.numBytes = 0 := by
  induction h with
  | nil => simp
  | cons hown _ _ _ ih =>
    intro c hc
    rcases mem_append.mp hc with hc | hc
    · exact hown.piece c hc
    · exact ih c hc

variable {s : WatchState}

theorem allocateWatchpoints_spec (h : ∀ e ∈ s.watchpoints, Bounded e.1)
    (first second : Nat → Kernel) :
    ∃ ok s' owns, s.allocateWatchpoints first second = some (ok, s') ∧
      forget s'.watchpoints = forget s.watchpoints ∧ Numbered 0 s'.watchpoints owns ∧
      (ok = false → ∀ d ∈ s'.tasks, d.armed = []) := by
  obtain ⟨owns, ws', hget, hf, hn⟩ := getWatchConfigs_spec h []
  rw [nil_append] at hget
  have hsi : ∀ c ∈ owns.flatten, c.numBytes ∈ [1, 2, 4, 8] := fun c hc => (hn.piece c hc).1
  obtain ⟨⟨ok, tasks⟩, hfi⟩ : ∃ r, programTasks first owns.flatten s.tasks = some r := by
    rw [programTasks]
    split
    · exact setAllDebugRegs_isSome first hsi 0 s.tasks
    · exact ⟨_, rfl⟩
  rw [WatchState.allocateWatchpoints, hget, bind_eq_bind, bind_some]
  dsimp only
  rw [hfi, bind_eq_bind, bind_some]
  cases ok with
  | true => exact ⟨true, ⟨ws', tasks⟩, owns, rfl, hf, hn, by simp⟩
  | false =>
    obtain ⟨tasks', hcl, ha⟩ := setAllDebugRegs_clear second 0 tasks
    refine ⟨false, ⟨ws', tasks'⟩, owns, ?_, hf, hn, fun _ => ha⟩
    dsimp only
    rw [hcl]
    rfl

theorem perform_spec {c : Call} (h : ∀ e ∈ s.watchpoints, Bounded e.1)
    (hc : c.addr < 2 ^ 64) (first second : Nat → Kernel) :
    ∃ ok s' owns, s.perform first second c = some (ok, s') ∧
      forget s'.watchpoints = forget (c.edit s.watchpoints) ∧ Numbered 0 s'.watchpoints owns ∧
      (∀ e ∈ s'.watchpoints, Bounded e.1) ∧ (ok = false → ∀ d ∈ s'.tasks, d.armed = []) := by
  have he := edit_bounded h hc
  obtain ⟨ok, s', owns, ha, hf, hn, har⟩ := allocateWatchpoints_spec
    (s := { s with watchpoints := c.edit s.watchpoints }) he first second
  exact ⟨ok, s', owns, ha, hf, hn, forget_bounded hf he, har⟩

abbrev Calls := List (Call × (Nat → Kernel) × (Nat → Kernel))

theorem run_spec {calls : Calls} (h : ∀ e ∈ s.watchpoints, Bounded e.1)
    (hca : ∀ c ∈ calls, c.1.addr < 2 ^ 64) :
    ∃ s', s.run calls = some s' ∧ ∀ e ∈ s'.watchpoints, Bounded e.1 := by
  induction calls generalizing s with
  | nil => exact ⟨s, rfl, h⟩
  | cons c calls ih =>
    obtain ⟨c, first, second⟩ := c
    obtain ⟨ok, s', owns, hp, _, _, hbo, _⟩ :=
      perform_spec h (hca _ mem_cons_self) first second
    rw [WatchState.run, hp]
    exact ih hbo fun c hc => hca c (mem_cons_of_mem _ hc)

end Attune.Watch
