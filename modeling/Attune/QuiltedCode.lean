import Attune.MuplayQuilter

namespace Attune.Muplay
open List Option FuncMappings

variable {l : FuncMappings}

/-- Every function with a breakpoint has code in the region, and a jump finds it. -/
structure Quilted (l : FuncMappings) (region : Option Region) : Prop where
  placed : ∀ fm ∈ l, fm.breakpointStatus = true → fm.isEntryPoint = false →
    fm.modifiedAddress ≠ 0 ∧
      ∃ r ∈ region, r.start ≤ fm.modifiedAddress ∧ fm.modifiedAddress < r.start + r.size
  jumps : ∀ ip, l.atModifiedFuncBp ip = true → l.getModifiedFuncAddr (beforeIp ip) ≠ 0

/-- Code in the task: its address, and the function of a modified binary that it was generated
from. -/
structure GeneratedCode where
  address : Nat
  origin : Name
  name : Name
  deriving DecidableEq

section
variable {Conductor : Type} (env : LoadEnv Conductor)

/-- Slots are in the memory they are cut from, functions are not empty, and the region is mapped
where asked for. -/
structure LoadEnv.Reliable : Prop where
  allocate : ∀ base total granted size address,
    env.allocate base total granted size = some address →
      base ≤ address ∧ address + size ≤ base + total
  findFunction : ∀ conductor name size,
    env.egalito.findFunction conductor name = some size → 0 < size
  mmap : ∀ base total start, env.mmap base total = some start → start = base

section

variable (summaries : List Summary)

def insertedSummaries : List Summary :=
  summaries.filter (·.modificationType = .inserted)

def conductorAfter : Conductor :=
  (summaries.foldl (fun h s => Helper.safeParse env h s.exePath) (Helper.new env)).conductor

/-- A patched function, other than the entry point, that the original binary has a symbol for. -/
def Linked (name : Name) : Prop :=
  name ≠ "_start".toList ∧ ∃ s ∈ insertedSummaries summaries, name ∈ s.getModifiedFuncNames ∧
    ∃ oldPath ∈ env.executableMappings s.exePath, (env.symbol oldPath name).isSome = true

def Found (name : Name) : Prop :=
  (∃ before s after, insertedSummaries summaries = before ++ s :: after ∧
    name ∈ s.getModifiedFuncNames ∧
    (env.egalito.findFunction (conductorAfter env (before ++ [s])) name).isSome = true) ∧
  (env.egalito.findFunction (conductorAfter env (insertedSummaries summaries)) name).isSome = true

def Quiltable : Prop :=
  (∀ name, ¬ Linked env summaries name) ∨
  ((∀ s ∈ insertedSummaries summaries, s.getModifiedFuncNames ≠ []) ∧
    ∀ name, Linked env summaries name → Found env summaries name)

end

theorem mem_insert (fm : FunctionMapping) (l : FuncMappings) (h : x ∈ l.insert fm) :
    x = fm ∨ x ∈ l := by
  induction l with
  | nil => exact .inl (mem_singleton.1 h)
  | cons y ys ih =>
    rw [FuncMappings.insert] at h
    split at h
    · rcases mem_cons.1 h with rfl | h
      · exact .inl rfl
      · exact .inr h
    split at h
    · exact .inr h
    · rcases mem_cons.1 h with rfl | h
      · exact .inr mem_cons_self
      · rcases ih h with rfl | h
        · exact .inl rfl
        · exact .inr (mem_cons_of_mem _ h)

def FuncMappings.Ordered (l : FuncMappings) : Prop :=
  l.Pairwise fun x y => x.funcName < y.funcName

/-- New mappings have names of their own and are as `P` says; the names of `N` all have one. -/
structure Extends (P : FunctionMapping → Prop) (N : Name → Prop) (l l' : FuncMappings) : Prop where
  ordered : l'.Ordered
  new : ∀ x ∈ l', x ∈ l ∨ (∀ y ∈ l, y.funcName ≠ x.funcName) ∧ P x
  keeps : ∀ x ∈ l, x ∈ l'
  adds : ∀ name, N name → ∃ x ∈ l', x.funcName = name

theorem Extends.refl (hl : l.Ordered) (hN : ∀ name, ¬ N name) : Extends P N l l :=
  ⟨hl, fun _ => .inl, fun _ => id, fun name h => absurd h (hN name)⟩

theorem Extends.trans (h : Extends P N l l₁) (h' : Extends P' N' l₁ l')
    (hP : ∀ x, P x ∨ P' x → Q x) (hN : ∀ name, M name → N name ∨ N' name) : Extends Q M l l' where
  ordered := h'.ordered
  new := by
    intro x hx
    rcases h'.new x hx with hx | ⟨hnew, hx⟩
    · exact (h.new x hx).imp_right fun ⟨hnew, hx⟩ => ⟨hnew, hP x (.inl hx)⟩
    · exact .inr ⟨fun y hy => hnew y (h.keeps y hy), hP x (.inr hx)⟩
  keeps x hx := h'.keeps x (h.keeps x hx)
  adds := by
    intro name hn
    rcases hN name hn with hn | hn
    · obtain ⟨x, hx, heq⟩ := h.adds name hn
      exact ⟨x, h'.keeps x hx, heq⟩
    · exact h'.adds name hn

theorem FuncMappings.Ordered.insert (hl : l.Ordered) (fm : FunctionMapping) :
    Extends (· = fm) (· = fm.funcName) l (l.insert fm) := by
  induction l with
  | nil =>
    exact ⟨pairwise_singleton _ _, fun x hx => .inr ⟨nofun, mem_singleton.1 hx⟩, nofun,
      fun _ h => ⟨fm, mem_singleton.2 rfl, h.symm⟩⟩
  | cons y ys ih =>
    obtain ⟨hy, hys⟩ := pairwise_cons.1 hl
    rw [FuncMappings.insert]
    split
    · next hlt =>
      have hb : ∀ x ∈ y :: ys, fm.funcName < x.funcName :=
        forall_mem_cons.2 ⟨hlt, fun x hx => lt_trans hlt (hy x hx)⟩
      exact ⟨pairwise_cons.2 ⟨hb, hl⟩,
        forall_mem_cons.2 ⟨.inr ⟨fun y hy => (hb y hy).ne', rfl⟩, fun _ => .inl⟩,
        fun _ => mem_cons_of_mem _, fun _ h => ⟨fm, mem_cons_self, h.symm⟩⟩
    · split
      · next heq =>
        exact ⟨hl, fun _ => .inl, fun _ => id, fun _ h => ⟨y, mem_cons_self, heq.symm.trans h.symm⟩⟩
      · next hle hne =>
        obtain ⟨ho, hnew, hk, ha⟩ := ih hys
        have hlt := lt_of_le_of_ne (not_lt.1 hle) (Ne.symm hne)
        refine ⟨pairwise_cons.2 ⟨fun x hx => ?_, ho⟩,
          forall_mem_cons.2 ⟨.inl mem_cons_self, fun x hx => ?_⟩,
          forall_mem_cons.2 ⟨mem_cons_self, fun x hx => mem_cons_of_mem _ (hk x hx)⟩,
          fun name h => ?_⟩
        · rcases hnew x hx with hx | ⟨_, rfl⟩
          · exact hy x hx
          · exact hlt
        · rcases hnew x hx with hx | ⟨hf, rfl⟩
          · exact .inl (mem_cons_of_mem _ hx)
          · exact .inr ⟨forall_mem_cons.2 ⟨hlt.ne, hf⟩, rfl⟩
        · obtain ⟨x, hx, hn⟩ := ha name h
          exact ⟨x, mem_cons_of_mem _ hx, hn⟩

def NewlyLinked (oldPath : Name) (names : List Name) (x : FunctionMapping) : Prop :=
  x.funcName ∈ names ∧ x.modifiedAddress = 0 ∧ x.breakpointStatus = false ∧
    ∃ offset, env.symbol oldPath x.funcName = some offset ∧
      x.originalAddress = (offset + env.findModuleBase oldPath) % 2 ^ 64

theorem linkFunctions_spec (oldPath : Name) (names : List Name) (hl : l.Ordered) :
    Extends (NewlyLinked env oldPath names)
      (fun name => name ∈ names ∧ (env.symbol oldPath name).isSome = true) l
      (names.foldl (linkFunction env oldPath) l) := by
  induction names generalizing l with
  | nil => exact .refl hl fun _ h => absurd h.1 not_mem_nil
  | cons name names ih =>
    have hli : Extends (NewlyLinked env oldPath [name])
        (fun n => n = name ∧ (env.symbol oldPath n).isSome = true) l
        (linkFunction env oldPath l name) := by
      unfold linkFunction
      split
      · next hsym => exact .refl hl fun n h => by simp [h.1, hsym] at h
      next offset hsym =>
      obtain ⟨ho, hnew, hk, ha⟩ :=
        hl.insert ⟨name, (offset + env.findModuleBase oldPath) % 2 ^ 64, 0, false⟩
      refine ⟨ho, fun x hx => (hnew x hx).imp_right fun ⟨hnew, hx⟩ => ⟨hnew, ?_⟩, hk,
        fun n h => ha n h.1⟩
      subst x
      exact ⟨mem_singleton.2 rfl, rfl, rfl, offset, hsym, rfl⟩
    refine hli.trans (ih hli.ordered) ?_ ?_
    · rintro x (⟨hn, hx⟩ | ⟨hn, hx⟩)
      · exact ⟨mem_singleton.1 hn ▸ mem_cons_self, hx⟩
      · exact ⟨mem_cons_of_mem _ hn, hx⟩
    · rintro n ⟨hn, hsym⟩
      exact (mem_cons.1 hn).imp (⟨·, hsym⟩) (⟨·, hsym⟩)

def LinkedIn (inserted : List Summary) (name : Name) : Prop :=
  ∃ s ∈ inserted, name ∈ s.getModifiedFuncNames ∧
    ∃ oldPath ∈ env.executableMappings s.exePath, (env.symbol oldPath name).isSome = true

/-- A patched function that an original binary has a symbol for, and its address in the task. -/
def FoundIn (inserted : List Summary) (oldPath name : Name) (address : Nat) : Prop :=
  ∃ s ∈ inserted, name ∈ s.getModifiedFuncNames ∧
    env.executableMappings s.exePath = some oldPath ∧
    ∃ offset, env.symbol oldPath name = some offset ∧
      address = (offset + env.findModuleBase oldPath) % 2 ^ 64

theorem FoundIn.linkedIn (h : FoundIn env inserted oldPath name address) :
    LinkedIn env inserted name := by
  obtain ⟨s, hs, hn, hold, offset, hsym, _⟩ := h
  exact ⟨s, hs, hn, oldPath, hold, by rw [hsym]; rfl⟩

theorem insertedSummaries_cons_deleted (hs : s.modificationType = .deleted) :
    insertedSummaries (s :: summaries) = insertedSummaries summaries := by
  simp [insertedSummaries, hs]

theorem insertedSummaries_cons_inserted (hs : s.modificationType = .inserted) :
    insertedSummaries (s :: summaries) = s :: insertedSummaries summaries := by
  simp [insertedSummaries, hs]

theorem visitAllBinaries_spec (summaries : List Summary) (l l' : FuncMappings) (hl : l.Ordered)
    (h : visitAllBinaries env summaries l = some l') :
    Extends (fun x => x.modifiedAddress = 0 ∧ x.breakpointStatus = false ∧
        ∃ oldPath, FoundIn env (insertedSummaries summaries) oldPath x.funcName x.originalAddress)
      (LinkedIn env (insertedSummaries summaries)) l l' := by
  induction summaries generalizing l with
  | nil =>
    obtain rfl := some.inj h
    exact .refl hl fun _ ⟨_, hs, _⟩ => absurd hs not_mem_nil
  | cons s summaries ih =>
    cases hs : s.modificationType with
    | deleted =>
      rw [insertedSummaries_cons_deleted hs]
      simp only [visitAllBinaries, hs] at h
      exact ih l hl h
    | inserted =>
      rw [insertedSummaries_cons_inserted hs]
      simp only [visitAllBinaries, hs, linkModFunctions, Option.bind_eq_bind, Option.pure_def,
        bind_eq_some_iff] at h
      obtain ⟨l₁, ⟨oldPath, hold, hlin⟩, hr⟩ := h
      split at hlin
      · exact nomatch hlin
      obtain rfl := some.inj hlin
      have hli := linkFunctions_spec env oldPath s.getModifiedFuncNames hl
      refine hli.trans (ih _ hli.ordered hr) ?_ ?_
      · rintro x (⟨hn, hmod, hst, hsym⟩ | ⟨hmod, hst, old, s', hs', hf⟩)
        · exact ⟨hmod, hst, oldPath, s, mem_cons_self, hn, hold, hsym⟩
        · exact ⟨hmod, hst, old, s', mem_cons_of_mem _ hs', hf⟩
      · rintro name ⟨s', hs', hn, oldPath', ho', hsym⟩
        rcases mem_cons.1 hs' with rfl | hs'
        · obtain rfl := some.inj (hold.symm.trans ho')
          exact .inl ⟨hn, hsym⟩
        · exact .inr ⟨s', hs', hn, oldPath', ho', hsym⟩

section
variable (origin : Conductor → Name → Name)

/-- The code that `placeFunctions` has generated; `origin` is the binary of the function that the
library finds. -/
def generateFunctions (conductor : Conductor) (base total : Nat) :
    List Name → List Nat → Option (List GeneratedCode)
  | [], _ => some []
  | name :: names, granted =>
    match env.egalito.findFunction conductor name with
    | none => generateFunctions conductor base total names granted
    | some size => do
      let address ← env.allocate base total granted size
      return ⟨address, origin conductor name, name⟩ ::
        (← generateFunctions conductor base total names (granted ++ [size]))

def enterCode (l : FuncMappings) (code : List GeneratedCode) : FuncMappings :=
  code.foldl (fun l g => l.updateModFuncPosition g.name g.address) l

theorem placeFunctions_eq (conductor : Conductor) (base total : Nat) (names : List Name)
    (granted : List Nat) (l : FuncMappings) :
    placeFunctions env conductor base total names granted l =
      (generateFunctions env origin conductor base total names granted).map (enterCode l) := by
  induction names generalizing granted l with
  | nil => rfl
  | cons name names ih =>
    rw [placeFunctions, generateFunctions]
    cases env.egalito.findFunction conductor name with
    | none => exact ih granted l
    | some size =>
      dsimp only
      cases env.allocate base total granted size with
      | none => rfl
      | some address =>
        simp only [Option.bind_eq_bind, Option.bind_some, Option.pure_def, ih]
        cases generateFunctions env origin conductor base total names (granted ++ [size]) with
        | none | some code => rfl

theorem enterCode_eq (l : FuncMappings) (code : List GeneratedCode) : ∃ slot : Name → Option Nat,
      enterCode l code = l.map (fun fm => { fm with
        modifiedAddress := (slot fm.funcName).getD fm.modifiedAddress }) ∧
      ∀ name, (∃ g ∈ code, g.name = name ∧ slot name = some g.address) ∨
        (∀ g ∈ code, g.name ≠ name) ∧ slot name = none := by
  induction code generalizing l with
  | nil => exact ⟨fun _ => none, (map_id' l).symm, fun _ => .inr ⟨nofun, rfl⟩⟩
  | cons g code ih =>
    obtain ⟨slot, heq, hsl⟩ := ih (l.updateModFuncPosition g.name g.address)
    refine ⟨fun n => (slot n).or (if n = g.name then some g.address else none), ?_, ?_⟩
    · rw [enterCode, foldl_cons, ← enterCode, heq, FuncMappings.updateModFuncPosition,
        FuncMappings.modify, List.map_map]
      apply map_congr_left
      intro fm _
      by_cases hn : fm.funcName = g.name
      · cases hs : slot g.name <;> simp [hn, hs]
      · cases hs : slot fm.funcName <;> simp [hn, hs]
    · intro name
      dsimp only
      rcases hsl name with ⟨g', hg', hn, hso⟩ | ⟨hno, hnon⟩
      · exact .inl ⟨g', mem_cons_of_mem g hg', hn, by rw [hso, some_or]⟩
      rw [hnon, none_or]
      by_cases hn : name = g.name
      · exact .inl ⟨g, mem_cons_self, hn.symm, if_pos hn⟩
      · refine .inr ⟨fun g' hg' => ?_, if_neg hn⟩
        rcases mem_cons.mp hg' with rfl | hg'
        · exact fun h => hn h.symm
        · exact hno g' hg'

variable {env origin} {conductor : Conductor}

theorem generateFunctions_spec
    (h : generateFunctions env origin conductor base total names granted = some code) :
    (∀ g ∈ code, g.name ∈ names ∧ g.origin = origin conductor g.name ∧
      ∃ more size, env.egalito.findFunction conductor g.name = some size ∧
        env.allocate base total (granted ++ more) size = some g.address) ∧
    (∀ name ∈ names, (env.egalito.findFunction conductor name).isSome = true →
      ∃ g ∈ code, g.name = name) ∧
    ((∀ base total granted size more size' address address',
      env.allocate base total granted size = some address →
      env.allocate base total (granted ++ size :: more) size' = some address' →
        address ≠ address') → code.Pairwise fun g g' => g.address ≠ g'.address) := by
  induction names generalizing granted code with
  | nil =>
    cases h
    exact ⟨nofun, nofun, fun _ => .nil⟩
  | cons name names ih =>
    rw [generateFunctions] at h
    cases hf : env.egalito.findFunction conductor name with
    | none =>
      rw [hf] at h
      obtain ⟨hmem, he, hd⟩ := ih h
      refine ⟨fun g hg => ⟨mem_cons_of_mem _ (hmem g hg).1, (hmem g hg).2⟩,
        forall_mem_cons.mpr ⟨fun hfo => ?_, he⟩, hd⟩
      rw [hf] at hfo
      cases hfo
    | some size =>
      rw [hf] at h
      simp only [Option.bind_eq_bind, Option.pure_def, Option.bind_eq_some_iff] at h
      obtain ⟨address, ha, rest, hr, hc⟩ := h
      cases hc
      obtain ⟨hmem, he, hd⟩ := ih hr
      simp only [append_assoc, singleton_append] at hmem
      refine ⟨forall_mem_cons.mpr ⟨⟨mem_cons_self, rfl, [], size, hf, by rwa [append_nil]⟩, fun g hg => ?_⟩,
        forall_mem_cons.mpr ⟨fun _ => ⟨_, mem_cons_self, rfl⟩, fun name hn hfo => ?_⟩,
        fun hsl => pairwise_cons.mpr ⟨fun g hg => ?_, hd hsl⟩⟩
      · obtain ⟨hn, ho, more, size', hf', ha'⟩ := hmem g hg
        exact ⟨mem_cons_of_mem _ hn, ho, _, size', hf', ha'⟩
      · obtain ⟨g, hg, heq⟩ := he name hn hfo
        exact ⟨g, mem_cons_of_mem _ hg, heq⟩
      · obtain ⟨_, _, more, size', _, ha'⟩ := hmem g hg
        exact hsl _ _ _ _ _ _ _ _ ha ha'

end

theorem placeFunctions_spec (hr : env.Reliable) (conductor : Conductor) (base total : Nat)
    (names : List Name) (granted : List Nat) (l l' : FuncMappings)
    (h : placeFunctions env conductor base total names granted l = some l') :
    ∃ slot : Name → Option Nat,
      l' = l.map (fun fm => { fm with
        modifiedAddress := (slot fm.funcName).getD fm.modifiedAddress }) ∧
      (∀ name, (slot name).isSome = true ↔
        name ∈ names ∧ (env.egalito.findFunction conductor name).isSome = true) ∧
      ∀ name, ∀ a ∈ slot name, base ≤ a ∧ a < base + total := by
  rw [placeFunctions_eq env fun _ _ => []] at h
  obtain ⟨code, hc, rfl⟩ := map_eq_some_iff.1 h
  obtain ⟨hmem, he, _⟩ := generateFunctions_spec hc
  obtain ⟨slot, heq, hsl⟩ := enterCode_eq l code
  refine ⟨slot, heq, fun name => ?_, fun name a ha => ?_⟩
  · rcases hsl name with ⟨g, hg, rfl, hs⟩ | ⟨hno, hs⟩
    · obtain ⟨hn, _, _, _, hf, _⟩ := hmem g hg
      simp [hs, hn, hf]
    · rw [hs]
      refine iff_of_false nofun fun ⟨hn, hf⟩ => ?_
      obtain ⟨g, hg, heq⟩ := he name hn hf
      exact hno g hg heq
  · rcases hsl name with ⟨g, hg, _, hs⟩ | ⟨_, hs⟩
    · obtain ⟨_, _, _, size, hf, hal⟩ := hmem g hg
      have had := hr.allocate _ _ _ _ _ hal
      have hsi := hr.findFunction _ _ _ hf
      cases hs.symm.trans ha
      omega
    · cases hs.symm.trans ha

theorem collect_eq_none (summaries : List Summary) (c : Collected Conductor) :
    collect env summaries c = none ↔
      ∃ s ∈ insertedSummaries summaries, s.getModifiedFuncNames = [] := by
  induction summaries generalizing c with
  | nil => simp [collect, insertedSummaries]
  | cons s summaries ih =>
    cases hs : s.modificationType with
    | deleted =>
      rw [insertedSummaries_cons_deleted hs, collect, hs]
      exact ih c
    | inserted =>
      rw [insertedSummaries_cons_inserted hs, collect, hs]
      by_cases hn : s.getModifiedFuncNames = []
      · simp [hn]
      · simp only [hn, if_false, ih, mem_cons, exists_eq_or_imp, false_or]

theorem collect_spec (summaries : List Summary) (c c' : Collected Conductor)
    (h : collect env summaries c = some c') :
    c'.helper = (insertedSummaries summaries).foldl
      (fun h s => Helper.safeParse env h s.exePath) c.helper ∧
    ∀ name, name ∈ c'.allModifiedFuncNames ↔ name ∈ c.allModifiedFuncNames ∨
      ∃ before s after, insertedSummaries summaries = before ++ s :: after ∧
        name ∈ s.getModifiedFuncNames ∧
        (env.egalito.findFunction ((before ++ [s]).foldl
          (fun h s => Helper.safeParse env h s.exePath) c.helper).conductor name).isSome = true := by
  induction summaries generalizing c with
  | nil =>
    obtain rfl := some.inj h
    exact ⟨rfl, fun name => ⟨.inl, fun h => h.elim id fun ⟨before, s, after, h, _⟩ =>
      absurd h (by simp [insertedSummaries])⟩⟩
  | cons s summaries ih =>
    cases hs : s.modificationType with
    | deleted =>
      rw [insertedSummaries_cons_deleted hs]
      rw [collect, hs] at h
      exact ih c h
    | inserted =>
      rw [insertedSummaries_cons_inserted hs]
      rw [collect, hs] at h
      by_cases hn : s.getModifiedFuncNames = []
      · simp [hn] at h
      simp only [hn, if_false] at h
      obtain ⟨hh, hna⟩ := ih _ h
      refine ⟨hh, fun name => ?_⟩
      rw [hna]
      constructor
      · rintro (hmem | ⟨before, s', after, hsp, hmem, hf⟩)
        · rcases mem_append.1 hmem with hmem | hmem
          · exact .inl hmem
          · obtain ⟨hmem, hf⟩ := mem_filter.1 hmem
            exact .inr ⟨[], s, _, rfl, hmem, hf⟩
        · exact .inr ⟨s :: before, s', after, by rw [hsp]; rfl, hmem, hf⟩
      · rintro (hmem | ⟨before, s', after, hsp, hmem, hf⟩)
        · exact .inl (mem_append_left _ hmem)
        · cases before with
          | nil =>
            obtain ⟨rfl, rfl⟩ := cons.inj hsp
            exact .inl (mem_append_right _ (mem_filter.2 ⟨hmem, hf⟩))
          | cons s₀ before =>
            obtain ⟨rfl, hr⟩ := cons.inj hsp
            exact .inr ⟨before, s', after, hr, hmem, hf⟩

theorem loadQuiltedCode_spec (hr : env.Reliable) (summaries : List Summary) (l l' : FuncMappings)
    (region : Option Region)
    (hall : ∀ s ∈ insertedSummaries summaries, s.getModifiedFuncNames ≠ [])
    (h : loadQuiltedCode env summaries l = some (l', region)) :
    ∃ (slot : Name → Option Nat) (r : Region), region = some r ∧ r.start ≠ 0 ∧
      l' = l.map (fun fm => { fm with
        modifiedAddress := (slot fm.funcName).getD fm.modifiedAddress }) ∧
      (∀ name, (slot name).isSome = true ↔ Found env summaries name) ∧
      ∀ name, ∀ a ∈ slot name, r.start ≤ a ∧ a < r.start + r.size := by
  have hso : collect env summaries ⟨0, [], [], Helper.new env⟩ ≠ none := by
    rw [Ne, collect_eq_none]
    intro ⟨s, hs, hno⟩
    exact hall s hs hno
  obtain ⟨c, hc⟩ := ne_none_iff_exists'.1 hso
  obtain ⟨hh, hn⟩ := collect_spec env summaries _ c hc
  simp only [loadQuiltedCode, hc, bind_eq_bind, bind_eq_some_iff] at h
  obtain ⟨granted, -, l₁, hp, start, hm, h⟩ := h
  split at h
  · exact nomatch h
  rename_i hst
  simp only [Option.pure_def, Option.some.injEq, Prod.mk.injEq] at h
  obtain ⟨rfl, rfl⟩ := h
  obtain ⟨slot, hl, hsl, hin⟩ := placeFunctions_spec env hr _ _ _ _ _ _ _ hp
  have hb := hr.mmap _ _ _ hm
  refine ⟨slot, _, rfl, hst, hl, fun name => ?_, ?_⟩
  · rw [hsl, hn, hh]
    constructor
    · rintro ⟨hmem | hmem, hf⟩
      · exact absurd hmem not_mem_nil
      · exact ⟨hmem, hf⟩
    · exact fun h => ⟨.inr h.1, h.2⟩
  · rw [hb]
    exact hin

theorem mem_setFunctionBreakpoints (hx : x ∈ FuncMappings.setFunctionBreakpoints l) :
    ∃ y ∈ l, x.funcName = y.funcName ∧ x.modifiedAddress = y.modifiedAddress := by
  obtain ⟨y, hy, rfl⟩ := mem_map.1 hx
  refine ⟨y, hy, ?_⟩
  split
  · exact ⟨rfl, rfl⟩
  · exact ⟨rfl, rfl⟩

theorem setFunctionBreakpoints_mem (hy : y ∈ l) (he : y.isEntryPoint = false) :
    { y with breakpointStatus := true } ∈ FuncMappings.setFunctionBreakpoints l := by
  apply mem_map.2 ⟨y, hy, _⟩
  split
  · rfl
  · rename_i hno
    obtain ⟨name, orig, mod, status⟩ := y
    have hst : status = true := by simpa [needsBreakpoint, he] using hno
    rw [hst]

theorem visited_mem (h : visitAllBinaries env summaries
      (Manager.new.putEntryBp entryPoint baseAddr).funcMappings = some l) (hx : x ∈ l) :
    (x.isEntryPoint = true →
      x.modifiedAddress = (Manager.new.putEntryBp entryPoint baseAddr).initialEntryPoint) ∧
    (x.isEntryPoint = false → Linked env summaries x.funcName ∧ x.modifiedAddress = 0) := by
  have hl : (Manager.new.putEntryBp entryPoint baseAddr).funcMappings.Ordered :=
    pairwise_singleton _ _
  obtain ⟨_, hmem, _⟩ := visitAllBinaries_spec env summaries _ _ hl h
  rcases hmem x hx with hx | ⟨hnew, hmod, _, _, hf⟩
  · obtain rfl := mem_singleton.1 hx
    exact ⟨fun _ => rfl, fun h => nomatch h⟩
  · constructor
    · intro he
      exact absurd (beq_iff_eq.1 he).symm (hnew _ (mem_singleton.2 rfl))
    · intro he
      exact ⟨⟨beq_eq_false_iff_ne.1 he, hf.linkedIn⟩, hmod⟩

theorem quilted_of_placed (hp : ∀ fm ∈ l, fm.isEntryPoint = false → fm.modifiedAddress ≠ 0 ∧
      ∃ r ∈ region, r.start ≤ fm.modifiedAddress ∧ fm.modifiedAddress < r.start + r.size)
    (hen : ∀ fm ∈ l, fm.isEntryPoint = true → fm.modifiedAddress ≠ 0) :
    Quilted l.setFunctionBreakpoints region := by
  constructor
  · intro fm hfm _ hno
    obtain ⟨y, hy, hn, hmod⟩ := mem_setFunctionBreakpoints hfm
    rw [hmod]
    apply hp y hy
    rwa [FunctionMapping.isEntryPoint, hn] at hno
  · intro ip hip
    obtain ⟨fm, hfm, hat⟩ := any_eq_true.1 hip
    simp only [Bool.and_eq_true, beq_iff_eq] at hat
    rw [getModifiedFuncAddr]
    split
    · rename_i fm' hf
      obtain ⟨y, hy, -, hmod⟩ := mem_setFunctionBreakpoints (mem_of_find?_eq_some hf)
      rw [hmod]
      cases he : y.isEntryPoint with
      | true => exact hen y hy he
      | false => exact (hp y hy he).1
    · rename_i hf
      have hnon := find?_eq_none.1 hf fm hfm
      exact absurd (beq_iff_eq.2 hat.1.1.symm) hnon

end

/-- Two functions in the original binary, of which the library finds the second in the new one. -/
def sampleEnv : LoadEnv Name where
  egalito := ⟨[], fun _ path => path, fun _ name => if name = "g".toList then some 16 else none,
    fun _ _ => none⟩
  allocate base total granted size :=
    if granted.sum + size ≤ total then some (base + granted.sum) else none
  executableMappings _ := some "old/prog".toList
  symbol _ name :=
    if name = "f".toList then some 256 else if name = "g".toList then some 272 else none
  findModuleBase _ := 4194304
  findLowestBaseAddress _ := 8388608
  mmap base total := if total = 0 then none else some base
  symbolsToResolve := []

theorem sampleEnv_reliable : sampleEnv.Reliable := by
  refine ⟨?_, ?_, ?_⟩
  · intro base total granted size address h
    simp only [sampleEnv, ite_none_right_eq_some, some.injEq] at h
    omega
  · intro conductor name size h
    simp only [sampleEnv, ite_none_right_eq_some, some.injEq] at h
    omega
  · intro base total start h
    simp only [sampleEnv, ite_none_left_eq_some, some.injEq] at h
    exact h.2.symm

def patchOf (names : List Name) : Summary :=
  ⟨"new/prog".toList, [⟨5, [260], names.map fun name => ⟨name, 256, 16⟩⟩], .inserted⟩

def loadedG : FuncMappings :=
  [⟨"_start".toList, 4194368, 4194368, true⟩, ⟨"g".toList, 4194576, 8388608, false⟩]

end Attune.Muplay
