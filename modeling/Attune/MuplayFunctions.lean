import Attune.MuplaySession

namespace Attune.Muplay
open List Option FuncMappings Function

variable {l : FuncMappings}

section
variable {Conductor : Type} (env : LoadEnv Conductor) (origin : Conductor → Name → Name)

def quiltedCode (summaries : List Summary) : Option (List GeneratedCode) :=
  match collect env summaries ⟨0, [], [], Helper.new env⟩ with
  | none => some []
  | some c => do
    let base := env.findLowestBaseAddress c.totalSize
    let granted ← placeTrampolines env c.helper.conductor base c.totalSize c.pltEntryNames []
    generateFunctions env origin c.helper.conductor base c.totalSize c.allModifiedFuncNames granted

end

def Manager.jumpToModifiedCode (m : Manager) (ip : Nat) : Option (Nat × Manager) :=
  let address := beforeIp ip
  let modAddr := m.funcMappings.getModifiedFuncAddr address
  if modAddr = 0 then none
  else do
    let m ← m.removeBreakpoint address
    -- the name of this mapping is logged
    let _ ← m.funcMappings.findByAddress modAddr
    return (modAddr, m)

section
variable {Conductor : Type} (i : StepInput Conductor) (origin : Conductor → Name → Name)

def loadPatch : Option (Manager × List GeneratedCode) := do
  let s ← (loadStep i ⟨Manager.new.putEntryBp i.entryPoint i.baseAddr, false⟩).2
  return (s.manager, ← quiltedCode i.env origin i.summaries)

def entryAddress : Nat := (i.entryPoint + i.baseAddr) % 2 ^ 64

def FoundAt (oldPath name : Name) (address : Nat) : Prop :=
  FoundIn i.env (insertedSummaries i.summaries) oldPath name address

/-- A function of a modified binary that a summary lists. -/
def ModifiedIn (path name : Name) : Prop :=
  ∃ s ∈ insertedSummaries i.summaries, s.exePath = path ∧ name ∈ s.getModifiedFuncNames

/-- Each function of each original binary has its own mapping, and its breakpoint leads to that
binary's modified code and is cleared alone. -/
structure SeparateFunctions (m : Manager) (code : List GeneratedCode) : Prop where
  mapped : ∃ f : Name → Name → FunctionMapping,
    (∀ oldPath name address, FoundAt i oldPath name address →
      f oldPath name ∈ m.funcMappings ∧ (f oldPath name).funcName = name ∧
        (f oldPath name).originalAddress = address) ∧
    ∀ oldPath name address oldPath' name' address', FoundAt i oldPath name address →
      FoundAt i oldPath' name' address' → f oldPath name = f oldPath' name' →
        oldPath = oldPath' ∧ name = name'
  jumps : ∀ oldPath name address, FoundAt i oldPath name address → address ∈ m.breakpoints →
    ∀ ip, beforeIp ip = address → ∃ target m', m.jumpToModifiedCode ip = some (target, m') ∧
      (∃ path, i.env.executableMappings path = some oldPath ∧ ModifiedIn i path name ∧
        ⟨target, path, name⟩ ∈ code) ∧
      (∀ b, b ∈ m'.breakpoints ↔ b ∈ m.breakpoints ∧ b ≠ address) ∧
      m'.funcMappings =
        m.funcMappings.modify (fun fm => { fm with breakpointStatus := false }) name

/-- What the code relies on: functions are found in what is parsed, slots differ, and the new memory
has no original function. -/
structure Assumed : Prop where
  reliable : i.env.Reliable
  slots : ∀ base total granted size more size' address address',
    i.env.allocate base total granted size = some address →
    i.env.allocate base total (granted ++ size :: more) size' = some address' → address ≠ address'
  finds : ∀ before s after, insertedSummaries i.summaries = before ++ s :: after →
    ∀ name ∈ s.getModifiedFuncNames,
      (i.env.egalito.findFunction (conductorAfter i.env (before ++ [s])) name).isSome = true ∧
      (i.env.egalito.findFunction
        (conductorAfter i.env (insertedSummaries i.summaries)) name).isSome = true
  unused : ∀ total oldPath name address, FoundAt i oldPath name address →
    address < i.env.findLowestBaseAddress total ∨
      i.env.findLowestBaseAddress total + total ≤ address

structure NamesSuffice : Prop where
  oneBinary : ∀ oldPath oldPath' name address address', FoundAt i oldPath name address →
    FoundAt i oldPath' name address' → oldPath = oldPath'
  entry : ∀ oldPath address, FoundAt i oldPath "_start".toList address → address = entryAddress i
  oneName : ∀ oldPath oldPath' name name' address, name ≠ "_start".toList →
    FoundAt i oldPath name address → FoundAt i oldPath' name' address → name = name'
  beforeEntry : ∀ oldPath name, name ≠ "_start".toList → FoundAt i oldPath name (entryAddress i) →
    name < "_start".toList
  complete : (∃ oldPath name address, name ≠ "_start".toList ∧ FoundAt i oldPath name address) →
    ∀ s ∈ insertedSummaries i.summaries, s.getModifiedFuncNames ≠ []
  sameBinary : ∀ oldPath name address, name ≠ "_start".toList → FoundAt i oldPath name address →
    ∃ path, i.env.executableMappings path = some oldPath ∧ ModifiedIn i path name ∧
      origin (conductorAfter i.env (insertedSummaries i.summaries)) name = path

end

def FuncMappings.places (l : FuncMappings) : List (Name × Nat × Nat) :=
  l.map fun fm => (fm.funcName, fm.originalAddress, fm.modifiedAddress)

theorem places_clearStatus (l : FuncMappings) (name : Name) :
    (l.modify (fun fm => { fm with breakpointStatus := false }) name).places = l.places := by
  rw [FuncMappings.places, FuncMappings.modify, List.map_map, FuncMappings.places]
  apply map_congr_left
  intro fm _
  by_cases hname : fm.funcName = name
  · simp only [comp, if_pos hname]
  · simp only [comp, if_neg hname]

theorem places_setFunctionBreakpoints (l : FuncMappings) :
    l.setFunctionBreakpoints.places = l.places := by
  rw [places, setFunctionBreakpoints, List.map_map, places]
  apply map_congr_left
  intro fm _
  by_cases hne : needsBreakpoint fm
  · simp only [comp, if_pos hne]
  · simp only [comp, if_neg hne]

theorem mem_of_places {l l' : FuncMappings} (h : l'.places = l.places) (hx : x ∈ l') :
    ∃ y ∈ l, y.funcName = x.funcName ∧ y.originalAddress = x.originalAddress ∧
      y.modifiedAddress = x.modifiedAddress := by
  have hmem : (x.funcName, x.originalAddress, x.modifiedAddress) ∈ l.places := by
    rw [← h]
    exact mem_map_of_mem hx
  obtain ⟨y, hy, heq⟩ := mem_map.mp hmem
  simp only [Prod.mk.injEq] at heq
  exact ⟨y, hy, heq⟩

theorem findByAddress_clearStatus (hfm : fm ∈ l) (name : Name) :
    ∃ y, FuncMappings.findByAddress (l.modify (fun fm => { fm with breakpointStatus := false }) name)
      fm.modifiedAddress = some y := by
  obtain ⟨y, hy, _, _, hmod⟩ := mem_of_places (places_clearStatus l name).symm hfm
  rw [← isSome_iff_exists, findByAddress, find?_isSome]
  refine ⟨y, hy, ?_⟩
  rw [hmod, BEq.rfl, Bool.or_true]

theorem ordered_iff_places (l : FuncMappings) :
    l.Ordered ↔ l.places.Pairwise fun x y => x.1 < y.1 := by
  rw [places, pairwise_map]
  rfl

def FuncMappings.functionAddresses (l : FuncMappings) : List Nat :=
  (l.filter fun fm => !fm.isEntryPoint).map FunctionMapping.originalAddress

theorem functionAddresses_eq (l : FuncMappings) : l.functionAddresses =
    (l.places.filter fun x => !(x.1 == "_start".toList)).map fun x => x.2.1 := by
  rw [places, List.filter_map, List.map_map]
  rfl

section
variable {Conductor : Type} (i : StepInput Conductor) (origin : Conductor → Name → Name)

structure CodeLoaded (code : List GeneratedCode) : Prop where
  distinct : code.Pairwise fun g g' => g.address ≠ g'.address
  inside : ∃ total, ∀ g ∈ code, 0 < g.address ∧ i.env.findLowestBaseAddress total ≤ g.address ∧
    g.address < i.env.findLowestBaseAddress total + total
  origin : ∀ g ∈ code,
    g.origin = origin (conductorAfter i.env (insertedSummaries i.summaries)) g.name
  generated : (∀ s ∈ insertedSummaries i.summaries, s.getModifiedFuncNames ≠ []) →
    ∀ s ∈ insertedSummaries i.summaries, ∀ name ∈ s.getModifiedFuncNames, ∃ g ∈ code, g.name = name
  stopped : (∃ s ∈ insertedSummaries i.summaries, s.getModifiedFuncNames = []) → code = []

structure Outcome (m : Manager) (code : List GeneratedCode) : Prop where
  loaded : CodeLoaded i origin code
  ordered : m.funcMappings.Ordered
  start : ∃ fm ∈ m.funcMappings, fm.funcName = "_start".toList
  entry : ∀ fm ∈ m.funcMappings, fm.funcName = "_start".toList →
    fm.originalAddress = entryAddress i
  linked : ∀ fm ∈ m.funcMappings, fm.funcName ≠ "_start".toList →
    ∃ oldPath, FoundAt i oldPath fm.funcName fm.originalAddress
  added : ∀ oldPath name address, FoundAt i oldPath name address →
    ∃ fm ∈ m.funcMappings, fm.funcName = name
  breakpoints : m.breakpoints = m.funcMappings.functionAddresses.reverse
  placed : ∀ fm ∈ m.funcMappings,
    (∃ g ∈ code, g.name = fm.funcName ∧ g.address = fm.modifiedAddress) ∨
    (∀ g ∈ code, g.name ≠ fm.funcName) ∧
      fm.modifiedAddress = if fm.funcName = "_start".toList then entryAddress i else 0

theorem loadQuiltedCode_code (ha : Assumed i)
    (h : loadQuiltedCode i.env i.summaries l = some (l', region))
    (hcod : quiltedCode i.env origin i.summaries = some code) :
    l' = enterCode l code ∧ CodeLoaded i origin code := by
  cases hc : collect i.env i.summaries ⟨0, [], [], Helper.new i.env⟩ with
  | none =>
    obtain ⟨s, hs, he⟩ := (collect_eq_none i.env i.summaries _).mp hc
    simp only [loadQuiltedCode, hc, some.injEq, Prod.mk.injEq] at h
    simp only [quiltedCode, hc, some.injEq] at hcod
    obtain ⟨rfl, rfl⟩ := h
    subst code
    refine ⟨rfl, .nil, ⟨0, fun _ hg => absurd hg not_mem_nil⟩, fun _ hg => absurd hg not_mem_nil,
      ?_, fun _ => rfl⟩
    intro hall
    exact absurd he (hall s hs)
  | some c =>
    obtain ⟨hh, hna⟩ := collect_spec i.env i.summaries _ c hc
    have hall : ∀ s ∈ insertedSummaries i.summaries, s.getModifiedFuncNames ≠ [] := by
      intro s hs he
      rw [(collect_eq_none i.env i.summaries _).mpr ⟨s, hs, he⟩] at hc
      cases hc
    simp only [loadQuiltedCode, hc, bind_eq_bind, bind_eq_some_iff] at h
    simp only [quiltedCode, hc, bind_eq_bind, bind_eq_some_iff] at hcod
    obtain ⟨granted, hgr, l₁, hp, start, hm, h⟩ := h
    obtain ⟨granted', hg', hgen⟩ := hcod
    cases hgr.symm.trans hg'
    rw [placeFunctions_eq i.env origin, hgen] at hp
    cases hp
    obtain ⟨hst, h⟩ := ite_none_left_eq_some.mp h
    cases h
    have hb := ha.reliable.mmap _ _ _ hm
    have hco : c.helper.conductor =
        conductorAfter i.env (insertedSummaries i.summaries) := by
      rw [hh]
      rfl
    obtain ⟨hmem, hex, hd⟩ := generateFunctions_spec hgen
    refine ⟨rfl, hd ha.slots, ⟨c.totalSize, fun g hg => ?_⟩, fun g hg => ?_,
      fun _ s hs name hname => ?_, ?_⟩
    · obtain ⟨_, _, more, size, hf, hal⟩ := hmem g hg
      have hin := ha.reliable.allocate _ _ _ _ _ hal
      have hsi := ha.reliable.findFunction _ _ _ hf
      omega
    · rw [← hco]
      exact (hmem g hg).2.1
    · obtain ⟨before, after, hsp⟩ := append_of_mem hs
      obtain ⟨ht, hla⟩ := ha.finds before s after hsp name hname
      apply hex
      · rw [hna]
        exact .inr ⟨before, s, after, hsp, hname, ht⟩
      · rw [hco]
        exact hla
    · rintro ⟨s, hs, he⟩
      exact absurd he (hall s hs)

theorem loadStep_manager {s₀ s : Session} (h : (loadStep i s₀).2 = some s) :
    ∃ l region m, loadModifiedCode i.env i.summaries s₀.manager.funcMappings = some (l, region) ∧
      ({ s₀.manager with funcMappings := l } : Manager).removeBreakpoint
        s₀.manager.initialEntryPoint = some m ∧
      s.manager = ({ m with doneModifiedLoad := true } : Manager).setFunctionBreakpoints := by
  rw [loadStep] at h
  cases hlo : loadModifiedCode i.env i.summaries s₀.manager.funcMappings with
  | none =>
    rw [hlo] at h
    cases h
  | some r =>
    obtain ⟨l, region⟩ := r
    rw [hlo] at h
    dsimp only at h
    cases hr : ({ s₀.manager with funcMappings := l } : Manager).removeBreakpoint
        s₀.manager.initialEntryPoint with
    | none =>
      rw [hr] at h
      cases h
    | some m =>
      rw [hr] at h
      cases h
      exact ⟨l, region, m, rfl, hr, rfl⟩

theorem filter_needsBreakpoint
    (h : ∀ fm ∈ l, fm.funcName ≠ "_start".toList → fm.breakpointStatus = false) :
    (l.filter FuncMappings.needsBreakpoint).map FunctionMapping.originalAddress =
      l.functionAddresses := by
  rw [functionAddresses]
  congr 1
  apply filter_congr
  intro fm hfm
  rw [needsBreakpoint]
  by_cases hname : fm.funcName = "_start".toList
  · rw [FunctionMapping.isEntryPoint, hname, BEq.rfl, Bool.not_true, Bool.and_false]
  · rw [h fm hfm hname, Bool.not_false, Bool.true_and]

theorem FuncMappings.Ordered.eq_of_name (hl : l.Ordered) (hx : x ∈ l) (hy : y ∈ l)
    (h : x.funcName = y.funcName) : x = y := by
  have hno : (l.map FunctionMapping.funcName).Nodup := by
    rw [List.Nodup, pairwise_map]
    exact hl.imp fun hlt => hlt.ne
  exact inj_on_of_nodup_map hno hx hy h

def startMapping : FunctionMapping :=
  ⟨"_start".toList, entryAddress i, entryAddress i, true⟩

theorem visited_cases (h : visitAllBinaries i.env i.summaries [startMapping i] = some l) :
    l.Ordered ∧ startMapping i ∈ l ∧
    (∀ x ∈ l, x = startMapping i ∨ x.funcName ≠ "_start".toList ∧ x.modifiedAddress = 0 ∧
      x.breakpointStatus = false ∧ ∃ oldPath, FoundAt i oldPath x.funcName x.originalAddress) ∧
    ∀ oldPath name address, FoundAt i oldPath name address → ∃ x ∈ l, x.funcName = name := by
  obtain ⟨ho, hf, hk, hadd⟩ := visitAllBinaries_spec i.env i.summaries _ _
    (pairwise_singleton _ _) h
  have hst := hk _ mem_cons_self
  refine ⟨ho, hst, fun x hx => ?_, ?_⟩
  · rcases hf x hx with hx' | ⟨_, hmod, hsta, hat⟩
    · exact .inl (mem_singleton.mp hx')
    · refine .inr ⟨fun hname => ?_, hmod, hsta, hat⟩
      cases ho.eq_of_name hx hst hname
      cases hsta
  · intro oldPath name address hat
    exact hadd name hat.linkedIn

theorem loadPatch_outcome (ha : Assumed i) (h : loadPatch i origin = some (m, code)) :
    Outcome i origin m code := by
  simp only [loadPatch, Option.bind_eq_bind, Option.pure_def, Option.bind_eq_some_iff] at h
  obtain ⟨s, hste, code', hco, h⟩ := h
  cases h
  obtain ⟨l, region, m, hloa, hr, hm⟩ := loadStep_manager i hste
  simp only [loadModifiedCode, bind_eq_bind, bind_eq_some_iff] at hloa
  obtain ⟨l₁, hv, hloa⟩ := hloa
  obtain ⟨rfl, hlo⟩ := loadQuiltedCode_code i origin ha hloa hco
  obtain ⟨slot, hsl, hslo⟩ := enterCode_eq l₁ code
  obtain ⟨ho, hst, hc, hadd⟩ := visited_cases i hv
  simp only [Manager.removeBreakpoint, Option.bind_eq_bind, Option.pure_def,
    bind_eq_some_iff] at hr
  obtain ⟨fm₀, _, hr⟩ := hr
  cases hr
  have hp : s.manager.funcMappings.places = (enterCode l₁ code).places := by
    rw [hm]
    exact (places_setFunctionBreakpoints _).trans (places_clearStatus _ _)
  -- each mapping after the loading is one from before with the address of its code
  have hma : ∀ x ∈ s.manager.funcMappings, ∃ y ∈ l₁, y.funcName = x.funcName ∧
      y.originalAddress = x.originalAddress ∧
      (slot y.funcName).getD y.modifiedAddress = x.modifiedAddress := by
    intro x hx
    obtain ⟨z, hz, hname, hor, hmod⟩ := mem_of_places hp hx
    rw [hsl] at hz
    obtain ⟨y, hy, rfl⟩ := mem_map.mp hz
    exact ⟨y, hy, hname, hor, hmod⟩
  have hk : ∀ y ∈ l₁, ∃ x ∈ s.manager.funcMappings, x.funcName = y.funcName := by
    intro y hy
    have hz : { y with modifiedAddress := (slot y.funcName).getD y.modifiedAddress } ∈
        enterCode l₁ code := by
      rw [hsl]
      exact mem_map_of_mem (f := fun fm => ({ fm with
        modifiedAddress := (slot fm.funcName).getD fm.modifiedAddress } : FunctionMapping)) hy
    obtain ⟨x, hx, hname, _⟩ := mem_of_places hp.symm hz
    exact ⟨x, hx, hname⟩
  refine ⟨hlo, ?_, hk _ hst, ?_, ?_, ?_, ?_, ?_⟩
  · rw [ordered_iff_places, hp, ← ordered_iff_places, hsl, FuncMappings.Ordered,
      pairwise_map]
    exact ho
  · intro x hx hname
    obtain ⟨y, hy, hyn, hor, _⟩ := hma x hx
    rcases hc y hy with rfl | ⟨hne, _⟩
    · exact hor.symm
    · exact absurd (hyn.trans hname) hne
  · intro x hx hname
    obtain ⟨y, hy, hyn, hor, _⟩ := hma x hx
    rcases hc y hy with rfl | ⟨_, _, _, hat⟩
    · exact absurd hyn.symm hname
    · rwa [hyn, hor] at hat
  · intro oldPath name address hat
    obtain ⟨y, hy, hname⟩ := hadd oldPath name address hat
    obtain ⟨x, hx, hxn⟩ := hk y hy
    exact ⟨x, hx, hxn.trans hname⟩
  · have hcl : ∀ x ∈ (enterCode l₁ code).modify
        (fun fm => { fm with breakpointStatus := false }) fm₀.funcName,
        x.funcName ≠ "_start".toList → x.breakpointStatus = false := by
      intro x hx hname
      obtain ⟨z, hz, rfl⟩ := mem_map.mp hx
      rw [hsl] at hz
      obtain ⟨y, hy, rfl⟩ := mem_map.mp hz
      by_cases hfm : y.funcName = fm₀.funcName
      · rw [if_pos hfm]
      · rw [if_neg hfm] at hname ⊢
        rcases hc y hy with rfl | ⟨_, _, hsta, _⟩
        · exact absurd rfl hname
        · exact hsta
    have hnon : [entryAddress i].erase (entryAddress i) = [] := erase_cons_head ..
    rw [functionAddresses_eq, hp, ← places_clearStatus _ fm₀.funcName, ← functionAddresses_eq,
      ← filter_needsBreakpoint hcl, hm]
    exact (congrArg _ hnon).trans (append_nil _)
  · intro x hx
    obtain ⟨y, hy, hyn, _, hmod⟩ := hma x hx
    rw [← hyn, ← hmod]
    rcases hslo y.funcName with ⟨g, hg, hgn, hso⟩ | ⟨hno, hnon⟩
    · refine .inl ⟨g, hg, hgn, ?_⟩
      rw [hso, getD_some]
    · refine .inr ⟨hno, ?_⟩
      rw [hnon, getD_none]
      rcases hc y hy with rfl | ⟨hne, hze, _⟩
      · rfl
      · rw [hze, if_neg hne]

section

variable (hl : l.Ordered) (p : FunctionMapping → Bool) (hfm : fm ∈ l) (h : p fm = true)
include hl hfm h

theorem FuncMappings.Ordered.find?_le :
    ∃ y ∈ l, l.find? p = some y ∧ p y = true ∧ ¬ fm.funcName < y.funcName := by
  induction l with
  | nil => exact absurd hfm not_mem_nil
  | cons z l ih =>
    obtain ⟨hz, hl⟩ := pairwise_cons.mp hl
    by_cases hp : p z = true
    · refine ⟨z, mem_cons_self, find?_cons_of_pos hp, hp, ?_⟩
      rcases mem_cons.mp hfm with rfl | hfm
      · exact lt_irrefl _
      · exact not_lt_of_gt (hz fm hfm)
    · rcases mem_cons.mp hfm with rfl | hfm
      · exact absurd h hp
      · obtain ⟨y, hy, hf, hr⟩ := ih hl hfm
        exact ⟨y, mem_cons_of_mem z hy, by rw [find?_cons_of_neg hp, hf], hr⟩

theorem FuncMappings.Ordered.find?_eq
    (hf : ∀ y ∈ l, p y = true → ¬ y.funcName < fm.funcName) : l.find? p = some fm := by
  obtain ⟨y, hy, hfi, hp, hle⟩ := hl.find?_le p hfm h
  rw [hfi, hl.eq_of_name hy hfm (le_antisymm (not_lt.mp hle) (not_lt.mp (hf y hy hp)))]

end

theorem FoundAt.unique (h : FoundAt i oldPath name a) (h' : FoundAt i oldPath name b) : a = b := by
  obtain ⟨_, _, _, _, offset, hsym, rfl⟩ := h
  obtain ⟨_, _, _, _, offset', hs', rfl⟩ := h'
  cases hsym.symm.trans hs'
  rfl

theorem FoundAt.lt (h : FoundAt i oldPath name a) : a < 2 ^ 64 := by
  obtain ⟨_, _, _, _, _, _, rfl⟩ := h
  exact Nat.mod_lt _ (by decide)

theorem beforeIp_succ (h : a < 2 ^ 64) : beforeIp ((a + 1) % 2 ^ 64) = a := by
  rw [beforeIp]
  omega

theorem SeparateFunctions.target_code {i : StepInput Conductor} (h : SeparateFunctions i m code)
    (hat : FoundAt i oldPath name a) (hst : a ∈ m.breakpoints) :
    ∃ path, i.env.executableMappings path = some oldPath ∧ ModifiedIn i path name ∧
      ⟨m.funcMappings.getModifiedFuncAddr a, path, name⟩ ∈ code := by
  have hip := beforeIp_succ hat.lt
  obtain ⟨target, m', hj, hc, _⟩ := h.jumps oldPath name a hat hst _ hip
  rw [Manager.jumpToModifiedCode, hip] at hj
  obtain ⟨hz, hj⟩ := ite_none_left_eq_some.mp hj
  simp only [Option.bind_eq_bind, Option.pure_def, Option.bind_eq_some_iff] at hj
  obtain ⟨_, _, _, _, heq⟩ := hj
  cases heq
  exact hc

section
variable {i origin} (o : Outcome i origin m code)
include o

theorem Outcome.mem_breakpoints : b ∈ m.breakpoints ↔
    ∃ fm ∈ m.funcMappings, fm.funcName ≠ "_start".toList ∧ fm.originalAddress = b := by
  rw [o.breakpoints, mem_reverse, functionAddresses, List.mem_map]
  apply exists_congr
  intro fm
  rw [mem_filter, Bool.not_eq_true', FunctionMapping.isEntryPoint, beq_eq_false_iff_ne,
    and_assoc]

theorem Outcome.code_eq (hg : g ∈ code) (hg' : g' ∈ code) (h : g.address = g'.address) : g = g' := by
  have hno : (code.map GeneratedCode.address).Nodup := by
    rw [List.Nodup, pairwise_map]
    exact o.loaded.distinct
  exact inj_on_of_nodup_map hno hg hg' h

theorem Outcome.address_ne (ha : Assumed i) (hg : g ∈ code) (h : FoundAt i oldPath name a) :
    g.address ≠ a := by
  obtain ⟨total, hin⟩ := o.loaded.inside
  obtain ⟨_, hlow, hh⟩ := hin g hg
  have hu := ha.unused total oldPath name a h
  omega

theorem Outcome.stops (h : SeparateFunctions i m code) (hname : name ≠ "_start".toList)
    (hat : FoundAt i oldPath name a) : a ∈ m.breakpoints := by
  obtain ⟨f, hf, _⟩ := h.mapped
  obtain ⟨hmem, hfn, ho⟩ := hf oldPath name a hat
  rw [o.mem_breakpoints]
  exact ⟨_, hmem, fun heq => hname (hfn.symm.trans heq), ho⟩

theorem Outcome.namesSuffice (ha : Assumed i) (h : SeparateFunctions i m code) :
    NamesSuffice i origin := by
  obtain ⟨f, hf, hinj⟩ := h.mapped
  have ht {oldPath name a} (hname : name ≠ "_start".toList) (hat : FoundAt i oldPath name a) :=
    h.target_code hat (o.stops h hname hat)
  refine ⟨?_, ?_, ?_, ?_, ?_, ?_⟩
  · intro oldPath oldPath' name a a' hat hat'
    obtain ⟨hmem, hfn, _⟩ := hf _ _ _ hat
    obtain ⟨hm', hf', _⟩ := hf _ _ _ hat'
    exact (hinj _ _ _ _ _ _ hat hat'
      (o.ordered.eq_of_name hmem hm' (hfn.trans hf'.symm))).1
  · intro oldPath a hat
    obtain ⟨hmem, hfn, ho⟩ := hf _ _ _ hat
    exact ho.symm.trans (o.entry _ hmem hfn)
  · intro oldPath oldPath' name name' a hname hat hat'
    obtain ⟨path, _, _, hc⟩ := ht hname hat
    obtain ⟨path', _, _, hc'⟩ := h.target_code hat' (o.stops h hname hat)
    exact congrArg GeneratedCode.name (o.code_eq hc hc' rfl)
  · intro oldPath name hname hat
    obtain ⟨path, _, _, hc⟩ := ht hname hat
    obtain ⟨st, hst, hstn⟩ := o.start
    -- the search for the entry point's address stops at its mapping or before it
    obtain ⟨y, hy, hfi, _, hle⟩ := o.ordered.find?_le
      (fun fm => fm.originalAddress == entryAddress i) hst (beq_iff_eq.mpr (o.entry st hst hstn))
    have hget : m.funcMappings.getModifiedFuncAddr (entryAddress i) = y.modifiedAddress := by
      rw [getModifiedFuncAddr, hfi]
    rw [hget] at hc
    have hyn : y.funcName = name := by
      rcases o.placed y hy with ⟨g, hg, hgn, had⟩ | ⟨_, hmod⟩
      · exact hgn.symm.trans (congrArg GeneratedCode.name (o.code_eq hg hc had))
      · split at hmod
        · exact absurd hmod (o.address_ne ha hc hat)
        · obtain ⟨_, hin⟩ := o.loaded.inside
          exact absurd hmod (hin _ hc).1.ne'
    rw [hstn, hyn] at hle
    exact lt_of_le_of_ne (not_lt.mp hle) hname
  · rintro ⟨oldPath, name, a, hname, hat⟩ s hs he
    obtain ⟨path, _, _, hc⟩ := ht hname hat
    rw [o.loaded.stopped ⟨s, hs, he⟩] at hc
    exact absurd hc not_mem_nil
  · intro oldPath name a hname hat
    obtain ⟨path, hold, hm, hc⟩ := ht hname hat
    exact ⟨path, hold, hm, (o.loaded.origin _ hc).symm⟩

variable (hn : NamesSuffice i origin)
include hn

theorem Outcome.own_mapping (hat : FoundAt i oldPath name a) (hst : a ∈ m.breakpoints) :
    name ≠ "_start".toList ∧ ∃ fm ∈ m.funcMappings, fm.funcName = name ∧ fm.originalAddress = a := by
  obtain ⟨fm, hfm, hname, ho⟩ := o.mem_breakpoints.mp hst
  obtain ⟨oldPath', hat'⟩ := o.linked fm hfm hname
  rw [ho] at hat'
  have heq := hn.oneName _ _ _ _ _ hname hat' hat
  rw [heq] at hname
  exact ⟨hname, fm, hfm, heq, ho⟩

section

variable (hname : name ≠ "_start".toList) (hat : FoundAt i oldPath name a)
include hname hat

theorem Outcome.first_address
    (hy : y ∈ m.funcMappings) (ho : y.originalAddress = a) : ¬ y.funcName < name := by
  by_cases hst : y.funcName = "_start".toList
  · have he := o.entry y hy hst
    rw [ho] at he
    rw [he] at hat
    rw [hst]
    exact not_lt_of_gt (hn.beforeEntry _ _ hname hat)
  · obtain ⟨oldPath', hat'⟩ := o.linked y hy hst
    rw [ho] at hat'
    rw [hn.oneName _ _ _ _ _ hname hat hat']
    exact lt_irrefl _

theorem Outcome.has_code : ∃ g ∈ code, g.name = name := by
  have hall := hn.complete ⟨oldPath, name, a, hname, hat⟩
  obtain ⟨s, hs, hmem, _⟩ := hat
  exact o.loaded.generated hall s hs name hmem

end

theorem Outcome.modified_ne (ha : Assumed i) (hat : FoundAt i oldPath name a)
    (hy : y ∈ m.funcMappings) (hne : y.originalAddress ≠ a) : y.modifiedAddress ≠ a := by
  rcases o.placed y hy with ⟨g, hg, _, had⟩ | ⟨hno, hmod⟩
  · rw [← had]
    exact o.address_ne ha hg hat
  by_cases hst : y.funcName = "_start".toList
  · rw [hmod, if_pos hst, ← o.entry y hy hst]
    exact hne
  · obtain ⟨oldPath', hat'⟩ := o.linked y hy hst
    obtain ⟨g, hg, hgn⟩ := o.has_code hn hst hat'
    exact absurd hgn (hno g hg)

theorem Outcome.breakpoints_nodup : m.breakpoints.Nodup := by
  have hno : m.funcMappings.Nodup := o.ordered.imp fun hlt heq => hlt.ne (congrArg _ heq)
  rw [o.breakpoints, nodup_reverse]
  apply List.Nodup.map_on _ (hno.filter _)
  intro x hx y hy ho
  obtain ⟨hx, hxn⟩ := mem_filter.mp hx
  obtain ⟨hy, hyn⟩ := mem_filter.mp hy
  rw [Bool.not_eq_true', FunctionMapping.isEntryPoint, beq_eq_false_iff_ne] at hxn hyn
  obtain ⟨oldPath, hatx⟩ := o.linked x hx hxn
  obtain ⟨oldPath', haty⟩ := o.linked y hy hyn
  rw [ho] at hatx
  exact o.ordered.eq_of_name hx hy (hn.oneName _ _ _ _ _ hxn hatx haty)

theorem Outcome.jump (ha : Assumed i) (hat : FoundAt i oldPath name a) (hst : a ∈ m.breakpoints)
    (hip : beforeIp ip = a) :
    ∃ g ∈ code, g.name = name ∧ m.jumpToModifiedCode ip = some (g.address,
      { m with
        breakpoints := m.breakpoints.erase a
        funcMappings :=
          m.funcMappings.modify (fun fm => { fm with breakpointStatus := false }) name }) := by
  obtain ⟨hname, fm, hfm, rfl, ho⟩ := o.own_mapping hn hat hst
  obtain ⟨g, hg, hgn, had⟩ : ∃ g ∈ code, g.name = fm.funcName ∧
      g.address = fm.modifiedAddress := by
    rcases o.placed fm hfm with hp | ⟨hno, _⟩
    · exact hp
    · obtain ⟨g, hg, hgn⟩ := o.has_code hn hname hat
      exact absurd hgn (hno g hg)
  have hget : m.funcMappings.getModifiedFuncAddr a = g.address := by
    have hfi := o.ordered.find?_eq (fun fm => fm.originalAddress == a) hfm (beq_iff_eq.mpr ho)
      fun y hy hya => o.first_address hn hname hat hy (beq_iff_eq.mp hya)
    rw [getModifiedFuncAddr, hfi, had]
  have hf : m.funcMappings.findByAddress a = some fm := by
    apply o.ordered.find?_eq _ hfm
    · rw [Bool.or_eq_true, beq_iff_eq, beq_iff_eq]
      exact .inl ho
    · intro y hy hya
      rw [Bool.or_eq_true, beq_iff_eq, beq_iff_eq] at hya
      apply o.first_address hn hname hat hy
      by_contra hne
      exact o.modified_ne hn ha hat hy hne (hya.resolve_left hne)
  obtain ⟨y, hy⟩ := findByAddress_clearStatus hfm fm.funcName
  rw [← had] at hy
  obtain ⟨_, hin⟩ := o.loaded.inside
  refine ⟨g, hg, hgn, ?_⟩
  rw [Manager.jumpToModifiedCode, hip, hget, if_neg (hin g hg).1.ne', Manager.removeBreakpoint, hf]
  simp only [Option.bind_eq_bind, Option.bind_some, Option.pure_def, hy]

theorem Outcome.separateFunctions (ha : Assumed i) : SeparateFunctions i m code := by
  have hm {oldPath name a} (hat : FoundAt i oldPath name a) :
      ∃ fm ∈ m.funcMappings, fm.funcName = name ∧ fm.originalAddress = a ∧
        m.funcMappings.find? (fun fm => fm.funcName == name) = some fm := by
    obtain ⟨fm, hfm, rfl⟩ := o.added _ _ _ hat
    refine ⟨fm, hfm, rfl, ?_, ?_⟩
    · by_cases hst : fm.funcName = "_start".toList
      · rw [hst] at hat
        exact (o.entry fm hfm hst).trans (hn.entry _ _ hat).symm
      · obtain ⟨oldPath', hat'⟩ := o.linked fm hfm hst
        cases hn.oneBinary _ _ _ _ _ hat hat'
        exact FoundAt.unique i hat' hat
    · apply o.ordered.find?_eq (fun y => y.funcName == fm.funcName) hfm BEq.rfl
      intro y _ hy
      rw [beq_iff_eq.mp hy]
      exact lt_irrefl _
  refine ⟨⟨fun _ name => (m.funcMappings.find? (fun fm => fm.funcName == name)).getD (startMapping i),
    ?_, ?_⟩, ?_⟩
  · intro oldPath name a hat
    obtain ⟨fm, hfm, hname, hor, hf⟩ := hm hat
    dsimp only
    rw [hf]
    exact ⟨hfm, hname, hor⟩
  · intro oldPath name a oldPath' name' a' hat hat' heq
    obtain ⟨fm, _, hname, _, hf⟩ := hm hat
    obtain ⟨fm', _, hn', _, hf'⟩ := hm hat'
    dsimp only at heq
    rw [hf, hf', getD_some, getD_some] at heq
    rw [heq] at hname
    cases hname.symm.trans hn'
    exact ⟨hn.oneBinary _ _ _ _ _ hat hat', rfl⟩
  · intro oldPath name a hat hsto ip hip
    obtain ⟨⟨address, path, _⟩, hg, rfl, hj⟩ := o.jump hn ha hat hsto hip
    obtain ⟨hname, _⟩ := o.own_mapping hn hat hsto
    obtain ⟨path', hold, hmo, ho⟩ := hn.sameBinary _ _ _ hname hat
    have hp : path = path' := (o.loaded.origin _ hg).trans ho
    refine ⟨_, _, hj, ⟨path', hold, hmo, hp ▸ hg⟩, fun b => ?_, rfl⟩
    rw [(o.breakpoints_nodup hn).mem_erase_iff, and_comm]

end

end

/-- `f` is patched in each of these binaries; the library finds the first that was parsed. -/
def patchInput (paths : List Name) : StepInput (List Name) where
  doneInitialExec := true
  ip := 4194369
  entryPoint := 64
  baseAddr := 4194304
  env := { sampleEnv with
    egalito := ⟨[], fun parsed path => parsed ++ [path], fun _ _ => some 16, fun _ _ => none⟩
    allocate := fun base total granted size =>
      if 0 < size ∧ granted.sum + size ≤ total then some (base + granted.sum) else none
    executableMappings := fun path => some ("old/".toList ++ path)
    findModuleBase := fun oldPath => if oldPath = "old/a".toList then 4194304 else 5242880 }
  summaries := paths.map fun path => ⟨path, [⟨5, [260], [⟨"f".toList, 256, 16⟩]⟩], .inserted⟩
  replayExited := false
  diversionExited := false

def firstParsed (parsed : List Name) (_ : Name) : Name := parsed.headD []

theorem foundAt_patchInput : FoundAt (patchInput paths) oldPath name a ↔
    name = "f".toList ∧ (∃ path ∈ paths, oldPath = "old/".toList ++ path) ∧
      a = if oldPath = "old/a".toList then 4194560 else 5243136 := by
  have hin : insertedSummaries (patchInput paths).summaries = (patchInput paths).summaries := by
    rw [insertedSummaries, filter_eq_self]
    intro s hs
    obtain ⟨path, _, rfl⟩ := mem_map.mp hs
    rfl
  have had (offset : Nat) (ho : offset = 256) :
      (offset + (patchInput paths).env.findModuleBase oldPath) % 2 ^ 64 =
        if oldPath = "old/a".toList then 4194560 else 5243136 := by
    by_cases hold : oldPath = "old/a".toList
    · have hb : (patchInput paths).env.findModuleBase oldPath = 4194304 := if_pos hold
      rw [if_pos hold]
      omega
    · have hb : (patchInput paths).env.findModuleBase oldPath = 5242880 := if_neg hold
      rw [if_neg hold]
      omega
  rw [FoundAt, FoundIn, hin]
  apply Iff.intro
  · rintro ⟨s, hs, hname, hold, offset, hsym, ha⟩
    obtain ⟨path, hp, rfl⟩ := mem_map.mp hs
    cases mem_singleton.mp hname
    rw [had offset (some.inj hsym).symm] at ha
    exact ⟨rfl, ⟨path, hp, (some.inj hold).symm⟩, ha⟩
  · rintro ⟨hname, ⟨path, hp, hold⟩, ha⟩
    refine ⟨_, mem_map_of_mem hp, ?_, congrArg some hold.symm, 256, ?_, ?_⟩
    · rw [hname]
      exact mem_singleton.mpr rfl
    · rw [hname]
      rfl
    · rw [ha, had 256 rfl]

theorem patchInput_assumed (paths : List Name) : Assumed (patchInput paths) := by
  refine ⟨⟨?_, ?_, ?_⟩, ?_, fun _ _ _ _ _ _ => ⟨rfl, rfl⟩, ?_⟩
  · intro base total granted size address h
    simp only [patchInput, ite_none_right_eq_some, some.injEq] at h
    omega
  · intro conductor name size h
    cases h
    decide
  · intro base total start h
    simp only [patchInput, sampleEnv, ite_none_left_eq_some, some.injEq] at h
    exact h.2.symm
  · intro base total granted size more size' address address' h h'
    simp only [patchInput, ite_none_right_eq_some, some.injEq, sum_append,
      sum_cons] at h h'
    omega
  · intro total oldPath name address hat
    obtain ⟨_, _, rfl⟩ := foundAt_patchInput.mp hat
    apply Or.inl
    split
    · next hold =>
      exact (by decide : 4194560 < 8388608)
    · next hold =>
      exact (by decide : 5243136 < 8388608)

def loadedF (modifiedAddress : Nat) : Manager where
  hasSetEntryBp := true
  doneModifiedLoad := true
  funcMappings :=
    [⟨"_start".toList, 4194368, 4194368, false⟩, ⟨"f".toList, 4194560, modifiedAddress, true⟩]
  initialEntryPoint := 4194368
  breakpoints := [4194560]

end Attune.Muplay
