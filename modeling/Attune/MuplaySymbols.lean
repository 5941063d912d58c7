import Attune.QuiltedCode

namespace Attune.Muplay
open List

local instance : LawfulBEq Name := inferInstance

/-- What filling `symbols_to_resolve` depends on: what functions refer to, and what linking a
summary makes of the binaries. -/
structure VisitEnv (Conductor : Type) extends LoadEnv Conductor where
  references : Conductor → Name → List Name
  link : Conductor → Summary → List Name → Conductor

/-- The loop that erases from the set it iterates over: going on from an erased element is
undefined. -/
def filterLoop (names : List Name) : List Name → List Name → Option (List Name)
  | [], symbols => some symbols
  | symbol :: rest, symbols =>
    let symbols := if symbol ∈ names then symbols.erase symbol else symbols
    if symbol ∈ symbols then filterLoop names rest symbols else none

section
variable {Conductor : Type} (env : VisitEnv Conductor) (conductor : Conductor)

/-- The symbols of a modified function go into the set when the library finds the function. -/
def insertFound (symbols : List Name) (name : Name) : List Name :=
  match env.egalito.findFunction conductor name with
  | none => symbols
  | some _ => (env.references conductor name).foldl (fun names name => insertName name names) symbols

def foundSymbols (s : Summary) (symbols : List Name) : List Name :=
  s.getModifiedFuncNames.foldl (insertFound env conductor) symbols

def filterSymbolsToResolve (s : Summary) (symbols : List Name) : Option (List Name) :=
  let found := foundSymbols env conductor s symbols
  filterLoop s.getModifiedFuncNames found found

def visitModBinary (helper : Helper Conductor) (s : Summary) (symbols : List Name) :
    Option (Helper Conductor × List Name) := do
  let oldPath ← env.executableMappings s.exePath
  if oldPath = [] then none
  else
    let helper := helper.safeParse env.toLoadEnv s.exePath
    let symbols ← filterSymbolsToResolve env helper.conductor s symbols
    return (⟨helper.parsedPaths, env.link helper.conductor s symbols⟩, symbols)

/-- `visit_all_binaries` as far as the set goes. -/
def resolveAllBinaries : List Summary → Helper Conductor → List Name → Option (List Name)
  | [], _, symbols => some symbols
  | s :: summaries, helper, symbols =>
    match s.modificationType with
    | .deleted => resolveAllBinaries summaries helper symbols
    | .inserted => do
      let (helper, symbols) ← visitModBinary env helper s symbols
      resolveAllBinaries summaries helper symbols

end

structure Visit where
  names : List Name
  referenced : List Name
  deriving DecidableEq

section
variable {Conductor : Type} (env : VisitEnv Conductor)

def referencedSymbols (conductor : Conductor) (s : Summary) : List Name :=
  (s.getModifiedFuncNames.filter
    fun name => (env.egalito.findFunction conductor name).isSome).flatMap (env.references conductor)

/-- The summaries that are processed, when each takes its own functions out of the set. -/
def visits : List Summary → Helper Conductor → List Name → List Visit
  | [], _, _ => []
  | s :: summaries, helper, symbols =>
    match s.modificationType with
    | .deleted => visits summaries helper symbols
    | .inserted =>
      let helper := helper.safeParse env.toLoadEnv s.exePath
      let symbols := (foundSymbols env helper.conductor s symbols).filter
        fun name => name ∉ s.getModifiedFuncNames
      ⟨s.getModifiedFuncNames, referencedSymbols env helper.conductor s⟩ ::
        visits summaries ⟨helper.parsedPaths, env.link helper.conductor s symbols⟩ symbols

def HaveOriginals (summaries : List Summary) : Prop :=
  ∀ s ∈ insertedSummaries summaries, ∃ oldPath, env.executableMappings s.exePath = some oldPath ∧
    oldPath ≠ []

/-- No erased element is passed, and the set has what the modified functions refer to outside of
the modified functions. -/
def ResolvesSymbols (summaries : List Summary) : Prop :=
  ∃ symbols, resolveAllBinaries env summaries (Helper.new env.toLoadEnv) [] = some symbols ∧
    ∀ name, name ∈ symbols ↔
      (∃ v ∈ visits env summaries (Helper.new env.toLoadEnv) [], name ∈ v.referenced) ∧
      ∀ v ∈ visits env summaries (Helper.new env.toLoadEnv) [], name ∉ v.names

end

theorem mem_insertName (name : Name) (l : List Name) : x ∈ insertName name l ↔ x = name ∨ x ∈ l := by
  induction l with
  | nil => rw [insertName, mem_singleton, or_iff_left not_mem_nil]
  | cons y ys ih =>
    rw [insertName]
    split
    · rw [mem_cons]
    split
    · next heq =>
      rw [heq, mem_cons]
      exact ⟨.inr, fun h => h.elim .inl id⟩
    · rw [mem_cons, ih, mem_cons]
      exact or_left_comm

theorem insertName_pairwise (name : Name) (h : List.Pairwise (· < ·) l) :
    (insertName name l).Pairwise (· < ·) := by
  induction l with
  | nil => exact pairwise_singleton _ _
  | cons y ys ih =>
    obtain ⟨hy, hys⟩ := pairwise_cons.mp h
    rw [insertName]
    split
    · next hlt =>
      refine pairwise_cons.mpr ⟨fun z hz => ?_, h⟩
      rcases mem_cons.mp hz with rfl | hz
      · exact hlt
      · exact lt_trans hlt (hy z hz)
    · next hlt =>
      split
      · exact h
      · next heq =>
        refine pairwise_cons.mpr ⟨fun z hz => ?_, ih hys⟩
        rcases (mem_insertName name ys).mp hz with rfl | hz
        · exact lt_of_le_of_ne (not_lt.mp hlt) (Ne.symm heq)
        · exact hy z hz

theorem mem_foldl_insertName (names symbols : List Name) :
    x ∈ names.foldl (fun names name => insertName name names) symbols ↔ x ∈ symbols ∨ x ∈ names := by
  induction names generalizing symbols with
  | nil => rw [foldl_nil, or_iff_left not_mem_nil]
  | cons name names ih =>
    rw [foldl_cons, ih, mem_insertName, mem_cons, or_assoc, or_left_comm]

theorem foldl_insertName_pairwise (names : List Name) (h : List.Pairwise (· < ·) symbols) :
    (names.foldl (fun names name => insertName name names) symbols).Pairwise (· < ·) := by
  induction names generalizing symbols with
  | nil => exact h
  | cons name names ih => exact ih (insertName_pairwise name h)

theorem filterLoop_eq (names rest symbols : List Name) (hn : symbols.Nodup)
    (hr : ∀ x ∈ rest, x ∈ symbols) :
    filterLoop names rest symbols = if ∃ x ∈ rest, x ∈ names then none else some symbols := by
  induction rest with
  | nil =>
    rw [filterLoop, if_neg]
    rintro ⟨x, hx, _⟩
    exact absurd hx not_mem_nil
  | cons x rest ih =>
    rw [filterLoop]
    split
    · next hx =>
      rw [if_neg hn.not_mem_erase, if_pos ⟨x, mem_cons_self, hx⟩]
    · next hx =>
      rw [if_pos (hr x mem_cons_self), ih fun y hy => hr y (mem_cons_of_mem x hy)]
      simp only [exists_mem_cons_iff, hx, false_or]

section
variable {Conductor : Type} (env : VisitEnv Conductor) (conductor : Conductor)

theorem foundSymbols_pairwise (s : Summary) (h : List.Pairwise (· < ·) symbols) :
    (foundSymbols env conductor s symbols).Pairwise (· < ·) := by
  rw [foundSymbols]
  induction s.getModifiedFuncNames generalizing symbols with
  | nil => exact h
  | cons name names ih =>
    apply ih
    rw [insertFound]
    cases env.egalito.findFunction conductor name with
    | none => exact h
    | some size => exact foldl_insertName_pairwise _ h

theorem mem_foundSymbols (s : Summary) (symbols : List Name) :
    x ∈ foundSymbols env conductor s symbols ↔
      x ∈ symbols ∨ x ∈ referencedSymbols env conductor s := by
  rw [foundSymbols, referencedSymbols]
  induction s.getModifiedFuncNames generalizing symbols with
  | nil => rw [foldl_nil, filter_nil, flatMap_nil, or_iff_left not_mem_nil]
  | cons name names ih =>
    rw [foldl_cons, ih, insertFound, filter_cons]
    cases hf : env.egalito.findFunction conductor name with
    | none => rw [if_neg (by simp)]
    | some size =>
      dsimp only
      rw [if_pos Option.isSome_some, mem_foldl_insertName, flatMap_cons, mem_append, or_assoc]

/-- One summary: what is in the set afterwards, when none of it is a function of the summary. -/
theorem filterSymbolsToResolve_eq (s : Summary) (h : List.Pairwise (· < ·) symbols) :
    filterSymbolsToResolve env conductor s symbols =
      if ∃ x ∈ foundSymbols env conductor s symbols, x ∈ s.getModifiedFuncNames then none
      else some (foundSymbols env conductor s symbols) := by
  have hn := (foundSymbols_pairwise env conductor s h).imp fun hlt => hlt.ne
  exact filterLoop_eq _ _ _ hn fun x hx => hx

theorem visitModBinary_eq (helper : Helper Conductor) (s : Summary)
    (hold : ∃ oldPath, env.executableMappings s.exePath = some oldPath ∧ oldPath ≠ [])
    (h : List.Pairwise (· < ·) symbols) :
    let parsed := helper.safeParse env.toLoadEnv s.exePath
    let found := foundSymbols env parsed.conductor s symbols
    visitModBinary env helper s symbols =
      if ∃ x ∈ found, x ∈ s.getModifiedFuncNames then none
      else some (⟨parsed.parsedPaths, env.link parsed.conductor s found⟩, found) := by
  obtain ⟨oldPath, hp, hne⟩ := hold
  intro parsed found
  simp only [visitModBinary, hp, Option.bind_eq_bind, Option.bind_some, if_neg hne,
    filterSymbolsToResolve_eq env _ s h]
  by_cases hex : ∃ x ∈ found, x ∈ s.getModifiedFuncNames
  · rw [if_pos hex, if_pos hex, Option.bind_none]
  · rw [if_neg hex, if_neg hex, Option.bind_some]
    rfl

theorem visits_inserted (helper : Helper Conductor) (hs : s.modificationType = .inserted) :
    let parsed := helper.safeParse env.toLoadEnv s.exePath
    let found := foundSymbols env parsed.conductor s symbols
    (¬ ∃ x ∈ found, x ∈ s.getModifiedFuncNames) →
      visits env (s :: summaries) helper symbols =
        ⟨s.getModifiedFuncNames, referencedSymbols env parsed.conductor s⟩ ::
          visits env summaries ⟨parsed.parsedPaths, env.link parsed.conductor s found⟩ found := by
  intro parsed found hex
  have hf : found.filter (fun name => name ∉ s.getModifiedFuncNames) = found := by
    rw [filter_eq_self]
    intro x hx
    exact decide_eq_true fun hn => hex ⟨x, hx, hn⟩
  rw [visits, hs]
  dsimp only
  rw [hf]

theorem resolveAllBinaries_spec (summaries : List Summary) (helper : Helper Conductor)
    (ho : HaveOriginals env summaries) (h : List.Pairwise (· < ·) symbols) :
    (∀ result, resolveAllBinaries env summaries helper symbols = some result → ∀ x,
      x ∈ result ↔ x ∈ symbols ∨ ∃ v ∈ visits env summaries helper symbols, x ∈ v.referenced) ∧
    ((∀ x ∈ symbols, ∀ v ∈ visits env summaries helper symbols, x ∉ v.names) →
      (∀ w ∈ visits env summaries helper symbols, ∀ x ∈ w.referenced,
        ∀ v ∈ visits env summaries helper symbols, x ∉ v.names) →
      ∃ result, resolveAllBinaries env summaries helper symbols = some result) := by
  induction summaries generalizing helper symbols with
  | nil =>
    refine ⟨fun result hrun x => ?_, fun _ _ => ⟨symbols, rfl⟩⟩
    cases hrun
    simp [visits]
  | cons s summaries ih =>
    cases hs : s.modificationType with
    | deleted =>
      rw [HaveOriginals, insertedSummaries_cons_deleted hs] at ho
      rw [resolveAllBinaries, visits, hs]
      exact ih helper ho h
    | inserted =>
      rw [HaveOriginals, insertedSummaries_cons_inserted hs, forall_mem_cons] at ho
      rw [resolveAllBinaries, hs]
      dsimp only
      rw [visitModBinary_eq env helper s ho.1 h]
      by_cases hex : ∃ x ∈ foundSymbols env (helper.safeParse env.toLoadEnv s.exePath).conductor s
          symbols, x ∈ s.getModifiedFuncNames
      · rw [if_pos hex]
        refine ⟨nofun, fun hold hnew => ?_⟩
        obtain ⟨x, hx, hn⟩ := hex
        rw [visits, hs] at hold hnew
        rcases (mem_foundSymbols env _ s symbols).mp hx with hx | hx
        · exact absurd hn (hold x hx _ mem_cons_self)
        · exact absurd hn (hnew _ mem_cons_self x hx _ mem_cons_self)
      · rw [if_neg hex, visits_inserted env helper hs hex]
        obtain ⟨hk, hd⟩ := ih _ ho.2 (foundSymbols_pairwise env _ s h)
        refine ⟨fun result hrun x => ?_, fun hold hnew => hd ?_ ?_⟩
        · rw [hk result hrun, mem_foundSymbols, exists_mem_cons_iff, or_assoc]
        · intro x hx v hv
          rcases (mem_foundSymbols env _ s symbols).mp hx with hx | hx
          · exact hold x hx v (mem_cons_of_mem _ hv)
          · exact hnew _ mem_cons_self x hx v (mem_cons_of_mem _ hv)
        · intro w hw x hx v hv
          exact hnew w (mem_cons_of_mem _ hw) x hx v (mem_cons_of_mem _ hv)

/-- The set comes out right for the patches whose functions do not refer to each other. -/
theorem resolves_symbols_iff (summaries : List Summary) (horig : HaveOriginals env summaries) :
    ResolvesSymbols env summaries ↔
      ∀ w ∈ visits env summaries (Helper.new env.toLoadEnv) [], ∀ x ∈ w.referenced,
        ∀ v ∈ visits env summaries (Helper.new env.toLoadEnv) [], x ∉ v.names := by
  obtain ⟨hk, hd⟩ := resolveAllBinaries_spec env summaries (Helper.new env.toLoadEnv)
    horig .nil
  constructor
  · rintro ⟨result, hrun, hr⟩ w hw x hx
    exact ((hr x).mp ((hk result hrun x).mpr (.inr ⟨w, hw, hx⟩))).2
  · intro ha
    obtain ⟨result, hrun⟩ := hd nofun ha
    refine ⟨result, hrun, fun x => ?_⟩
    rw [hk result hrun, or_iff_right not_mem_nil]
    constructor
    · rintro ⟨w, hw, hx⟩
      exact ⟨⟨w, hw, hx⟩, ha w hw x hx⟩
    · exact And.left

end

def callEnv : VisitEnv Name where
  toLoadEnv := { sampleEnv with
    egalito := ⟨[], fun _ path => path, fun _ _ => some 16, fun _ _ => none⟩ }
  references _ name := if name = "g".toList then ["f".toList] else ["puts".toList]
  link conductor _ _ := conductor

theorem callEnv_haveOriginals (summaries : List Summary) : HaveOriginals callEnv summaries :=
  fun _ _ => ⟨"old/prog".toList, rfl, by decide⟩

theorem resolves_symbols_one_function : HaveOriginals callEnv [patchOf ["f".toList]] ∧
    ResolvesSymbols callEnv [patchOf ["f".toList]] := by
  have ho := callEnv_haveOriginals [patchOf ["f".toList]]
  exact ⟨ho, (resolves_symbols_iff callEnv _ ho).mpr (by decide)⟩

/-- A call between functions of one summary is undefined. A call to a function of an earlier summary
stays in the set. -/
theorem symbols_unresolved :
    resolveAllBinaries callEnv [patchOf ["f".toList, "g".toList]] (Helper.new callEnv.toLoadEnv) [] =
      none ∧
    resolveAllBinaries callEnv [patchOf ["f".toList], patchOf ["g".toList]]
      (Helper.new callEnv.toLoadEnv) [] = some ["f".toList, "puts".toList] ∧
    ¬ ResolvesSymbols callEnv [patchOf ["f".toList, "g".toList]] ∧
    ¬ ResolvesSymbols callEnv [patchOf ["f".toList], patchOf ["g".toList]] := by
  have hn : resolveAllBinaries callEnv [patchOf ["f".toList, "g".toList]]
      (Helper.new callEnv.toLoadEnv) [] = none := by decide
  have hso : resolveAllBinaries callEnv [patchOf ["f".toList], patchOf ["g".toList]]
      (Helper.new callEnv.toLoadEnv) [] = some ["f".toList, "puts".toList] := by decide
  refine ⟨hn, hso, ?_, ?_⟩
  · rintro ⟨symbols, hrun, _⟩
    rw [hn] at hrun
    cases hrun
  · rintro ⟨symbols, hrun, hsy⟩
    rw [hso] at hrun
    cases hrun
    have hout := ((hsy "f".toList).mp mem_cons_self).2
    exact hout ⟨["f".toList], ["puts".toList]⟩ (by decide) (by decide)

end Attune.Muplay
