import Attune.MuplaySession

namespace Attune.Muplay
open List Option

theorem Disciplined.nil : Disciplined [] := by
  intro before a after h
  exact absurd h (by simp)

theorem Disciplined.snoc (hd : Disciplined history) (ha : Allowed history a) :
    Disciplined (history ++ [a]) := by
  intro before b after h
  cases after using reverseRecOn with
  | nil =>
    obtain ⟨rfl, hb⟩ := append_inj' h rfl
    obtain rfl : a = b := by simpa using hb
    exact ha
  | append_singleton after c _ =>
    rw [← cons_append, ← append_assoc] at h
    obtain ⟨rfl, -⟩ := append_inj' h rfl
    exact hd before b after rfl

theorem Disciplined.append_set {sets : List Action} (hd : Disciplined history)
    (hl : .loadModifiedCode ip ∈ history)
    (hse : ∀ a ∈ sets, (∃ name address, a = .setBreakpoint name address) ∨
      ∃ name, a = .clearBreakpoint name) : Disciplined (history ++ sets) := by
  induction sets generalizing history with
  | nil => rwa [append_nil]
  | cons a sets ih =>
    rw [append_cons]
    apply ih _ (mem_append_left _ hl) fun a ha => hse a (mem_cons_of_mem _ ha)
    apply hd.snoc
    rcases hse a mem_cons_self with ⟨name, address, rfl⟩ | ⟨name, rfl⟩
    · exact ⟨ip, hl⟩
    · trivial

theorem Carries.append (hc : Carries history name address)
    (hno : .clearBreakpoint name ∉ actions) : Carries (history ++ actions) name address := by
  obtain ⟨before, after, rfl, ha⟩ := hc
  refine ⟨before, after ++ actions, by simp, ?_⟩
  rw [mem_append]
  exact fun h => h.elim ha hno

structure SessionInv (s : Session) (history : List Action) : Prop where
  disciplined : Disciplined history
  noEntry : s.manager.hasSetEntryBp = false → ∀ address, .putEntryBp address ∉ history
  entry : s.manager.hasSetEntryBp = true → .putEntryBp s.manager.initialEntryPoint ∈ history
  noLoad : s.manager.doneModifiedLoad = false → ∀ ip, .loadModifiedCode ip ∉ history
  load : s.manager.doneModifiedLoad = true → ∃ ip, .loadModifiedCode ip ∈ history
  noJump : s.hasDiverged = false → ∀ address, .jumpToModifiedCode address ∉ history
  carries : ∀ fm ∈ s.manager.funcMappings, fm.breakpointStatus = true → fm.isEntryPoint = false →
    Carries history fm.funcName fm.originalAddress

theorem SessionInv.init : SessionInv .new [] where
  disciplined := .nil
  noEntry _ _ := not_mem_nil
  entry h := nomatch h
  noLoad _ _ := not_mem_nil
  load h := nomatch h
  noJump _ _ := not_mem_nil
  carries fm h := absurd h not_mem_nil

theorem SessionInv.quiet (hi : SessionInv s history) (ha : Allowed history a)
    (hq : a = .replayStep ∨ a = .diversionStep) : SessionInv s (history ++ [a]) := by
  have hmem : ∀ b, b ≠ a → b ∉ history → b ∉ history ++ [a] := by
    intro b hne hno h
    rcases mem_append.1 h with h | h
    · exact hno h
    · exact hne (mem_singleton.1 h)
  exact {
    disciplined := hi.disciplined.snoc ha
    noEntry := fun h x => hmem _ (by rcases hq with rfl | rfl <;> simp) (hi.noEntry h x)
    entry := fun h => mem_append_left _ (hi.entry h)
    noLoad := fun h x => hmem _ (by rcases hq with rfl | rfl <;> simp) (hi.noLoad h x)
    load := fun h => (hi.load h).imp fun _ h => mem_append_left _ h
    noJump := fun h x => hmem _ (by rcases hq with rfl | rfl <;> simp) (hi.noJump h x)
    carries := fun fm hfm hs he => (hi.carries fm hfm hs he).append
      (by rcases hq with rfl | rfl <;> simp) }

theorem SessionInv.goOn {i : StepInput Conductor} (hi : SessionInv s history) :
    ∃ status, (goOn i s).2 = some (s, status) ∧ SessionInv s (history ++ (goOn i s).1) := by
  unfold Muplay.goOn
  split
  · exact ⟨_, rfl, hi.quiet trivial (.inr rfl)⟩
  · rename_i hdiv
    exact ⟨_, rfl, hi.quiet (hi.noJump (by simpa using hdiv)) (.inl rfl)⟩

theorem SessionInv.putEntryBp (hi : SessionInv s history)
    (hset : s.manager.hasSetEntryBp = false) (entryPoint baseAddr : Nat) :
    SessionInv { s with manager := s.manager.putEntryBp entryPoint baseAddr }
      (history ++ [.putEntryBp (s.manager.putEntryBp entryPoint baseAddr).initialEntryPoint]) where
  disciplined := hi.disciplined.snoc (hi.noEntry hset)
  noEntry h := nomatch h
  entry _ := mem_append_right _ (mem_singleton.2 rfl)
  noLoad h a := by simpa using hi.noLoad h a
  load h := (hi.load h).imp fun _ h => mem_append_left _ h
  noJump h a := by simpa using hi.noJump h a
  carries fm hfm hs he := by
    rcases mem_insert _ _ hfm with rfl | hfm
    · exact nomatch he
    · exact (hi.carries fm hfm hs he).append (by simp)

theorem removeBreakpoint_spec {m m' : Manager} (h : m.removeBreakpoint address = some m') :
    ∃ name, clearActions m.funcMappings address = [.clearBreakpoint name] ∧
      m'.hasSetEntryBp = m.hasSetEntryBp ∧ m'.doneModifiedLoad = m.doneModifiedLoad ∧
      m'.initialEntryPoint = m.initialEntryPoint ∧
      ∀ fm ∈ m'.funcMappings, fm.breakpointStatus = true →
        fm ∈ m.funcMappings ∧ fm.funcName ≠ name := by
  simp only [Manager.removeBreakpoint, bind_eq_bind, bind_eq_some_iff,
    Option.pure_def, Option.some.injEq] at h
  obtain ⟨found, hf, rfl⟩ := h
  refine ⟨found.funcName, by rw [clearActions, hf]; rfl, rfl, rfl, rfl, ?_⟩
  intro fm hfm hs
  obtain ⟨x, hx, rfl⟩ := mem_map.1 hfm
  by_cases hn : x.funcName = found.funcName
  · rw [if_pos hn] at hs
    cases hs
  · rw [if_neg hn] at hs ⊢
    exact ⟨hx, hn⟩

def SameBreakpoint (l : FuncMappings) (x : FunctionMapping) : Prop :=
  ∃ y ∈ l, y.funcName = x.funcName ∧ y.originalAddress = x.originalAddress ∧
    y.breakpointStatus = x.breakpointStatus

theorem visitAllBinaries_keeps (env : LoadEnv Conductor) {P : FuncMappings → Prop}
    (hli : ∀ oldPath name l, P l → P (linkFunction env oldPath l name))
    (h : visitAllBinaries env summaries l = some l') (hl : P l) : P l' := by
  induction summaries generalizing l with
  | nil =>
    obtain rfl := some.inj h
    exact hl
  | cons s summaries ih =>
    cases hs : s.modificationType with
    | deleted =>
      simp only [visitAllBinaries, hs] at h
      exact ih h hl
    | inserted =>
      simp only [visitAllBinaries, hs, linkModFunctions, Option.bind_eq_bind, Option.pure_def,
        bind_eq_some_iff] at h
      obtain ⟨l₁, ⟨oldPath, -, h₁⟩, hr⟩ := h
      split at h₁
      · cases h₁
      obtain rfl := some.inj h₁
      exact ih hr (foldlRecOn _ _ hl fun l hl name _ => hli oldPath name l hl)

theorem loadModifiedCode_status (env : LoadEnv Conductor)
    (h : loadModifiedCode env summaries l = some (l', region)) (hx : x ∈ l')
    (hs : x.breakpointStatus = true) : SameBreakpoint l x := by
  simp only [loadModifiedCode, bind_eq_bind, bind_eq_some_iff] at h
  obtain ⟨l₁, hv, hlo⟩ := h
  have hsa : SameBreakpoint l₁ x := by
    unfold loadQuiltedCode at hlo
    split at hlo
    · simp only [some.injEq, Prod.mk.injEq] at hlo
      obtain ⟨rfl, -⟩ := hlo
      exact ⟨x, hx, rfl, rfl, rfl⟩
    simp only [bind_eq_bind, bind_eq_some_iff] at hlo
    obtain ⟨granted, -, l₂, hp, start, -, hlo⟩ := hlo
    split at hlo
    · cases hlo
    simp only [Option.pure_def, Option.some.injEq, Prod.mk.injEq] at hlo
    obtain ⟨rfl, -⟩ := hlo
    rw [placeFunctions_eq env fun _ _ => []] at hp
    obtain ⟨code, -, rfl⟩ := map_eq_some_iff.1 hp
    obtain ⟨slot, heq, -⟩ := enterCode_eq l₁ code
    rw [heq] at hx
    obtain ⟨y, hy, rfl⟩ := mem_map.1 hx
    exact ⟨y, hy, rfl, rfl, rfl⟩
  obtain ⟨y, hy, hn, ho, hst⟩ := hsa
  have hl : ∀ y ∈ l₁, y ∈ l ∨ y.breakpointStatus = false := by
    apply visitAllBinaries_keeps env _ hv fun y hy => .inl hy
    intro oldPath name l' ih x hx
    unfold linkFunction at hx
    split at hx
    · exact ih x hx
    · rcases mem_insert _ _ hx with rfl | hx
      · exact .inr rfl
      · exact ih x hx
  rcases hl y hy with hy | hno
  · exact ⟨y, hy, hn, ho, hst⟩
  · rw [← hst, hno] at hs
    cases hs

section
variable {Conductor : Type}

/-- The actions are disciplined, and if the program has not ended, the state fits them. -/
def Keeps (history : List Action) (r : List Action × Option Session) : Prop :=
  Disciplined (history ++ r.1) ∧ ∀ s, r.2 = some s → SessionInv s (history ++ r.1)

theorem mem_setActions {l : FuncMappings} :
    a ∈ setActions l ↔ ∃ fm ∈ l, FuncMappings.needsBreakpoint fm = true ∧
      a = .setBreakpoint fm.funcName fm.originalAddress := by
  simp only [setActions, List.mem_map, mem_filter, and_assoc, eq_comm]

theorem carries_set {l : FuncMappings} (hl : ∀ fm ∈ l, fm.breakpointStatus = true →
      fm.isEntryPoint = false → Carries history fm.funcName fm.originalAddress)
    (hfm : fm ∈ l.setFunctionBreakpoints) (hs : fm.breakpointStatus = true)
    (he : fm.isEntryPoint = false) :
    Carries (history ++ setActions l) fm.funcName fm.originalAddress := by
  have hc : ∀ name, .clearBreakpoint name ∉ setActions l := by
    intro name h
    obtain ⟨fm, -, -, h⟩ := mem_setActions.1 h
    exact nomatch h
  obtain ⟨x, hx, rfl⟩ := mem_map.1 hfm
  split at hs
  · rename_i hn
    rw [if_pos hn] at he ⊢
    obtain ⟨before, after, hsp⟩ := append_of_mem (mem_setActions.2 ⟨x, hx, hn, rfl⟩)
    refine ⟨history ++ before, after, by rw [hsp, append_assoc], ?_⟩
    intro h
    exact hc x.funcName (hsp ▸ mem_append_right _ (mem_cons_of_mem _ h))
  · rename_i hno
    rw [if_neg hno] at he ⊢
    exact (hl x hx hs he).append (hc x.funcName)

theorem SessionInv.loadStep {i : StepInput Conductor} (hi : SessionInv s history)
    (hset : s.manager.hasSetEntryBp = true) (hd : s.manager.doneModifiedLoad = false)
    (hat : s.manager.atEntryPoint i.ip = true) : Keeps history (loadStep i s) := by
  have hlo : Disciplined (history ++ [.loadModifiedCode i.ip]) :=
    hi.disciplined.snoc ⟨hi.noLoad hd, _, hi.entry hset, beq_iff_eq.1 hat⟩
  unfold Muplay.loadStep
  cases hl : loadModifiedCode i.env i.summaries s.manager.funcMappings with
  | none => exact ⟨hlo, fun s h => nomatch h⟩
  | some r =>
    obtain ⟨l, region⟩ := r
    simp only
    cases hm : { s.manager with funcMappings := l }.removeBreakpoint s.manager.initialEntryPoint with
    | none => exact ⟨hlo, fun s h => nomatch h⟩
    | some m' =>
      obtain ⟨name, hc, hse', -, he', hk⟩ := removeBreakpoint_spec hm
      simp only [Keeps, hc]
      have hall : Disciplined (history ++ (.loadModifiedCode i.ip ::
          [.clearBreakpoint name] ++ setActions m'.funcMappings)) := by
        rw [cons_append, append_cons]
        apply hlo.append_set (mem_append_right _ (mem_singleton.2 rfl))
        rw [forall_mem_append, forall_mem_singleton]
        refine ⟨.inr ⟨name, rfl⟩, fun a ha => ?_⟩
        obtain ⟨fm, -, -, rfl⟩ := mem_setActions.1 ha
        exact .inl ⟨_, _, rfl⟩
      refine ⟨hall, fun s' hs' => ?_⟩
      obtain rfl := some.inj hs'
      have hq : ∀ a ∈ [.clearBreakpoint name] ++ setActions m'.funcMappings,
          (∀ address, a ≠ .putEntryBp address) ∧ ∀ address, a ≠ .jumpToModifiedCode address := by
        rw [forall_mem_append, forall_mem_singleton]
        refine ⟨⟨nofun, nofun⟩, fun a ha => ?_⟩
        obtain ⟨fm, -, -, rfl⟩ := mem_setActions.1 ha
        exact ⟨nofun, nofun⟩
      exact {
        disciplined := hall
        noEntry := fun h => absurd (hset.symm.trans (hse'.symm.trans h)) (by simp)
        entry := fun _ => by
          rw [show (Manager.setFunctionBreakpoints { m' with doneModifiedLoad := true
            }).initialEntryPoint = m'.initialEntryPoint from rfl, he']
          exact mem_append_left _ (hi.entry hset)
        noLoad := fun h => nomatch h
        load := fun _ => ⟨i.ip, mem_append_right _ mem_cons_self⟩
        noJump := fun h address hmem => by
          rcases mem_append.1 hmem with hmem | hmem
          · exact hi.noJump h address hmem
          · rcases mem_cons.1 hmem with hmem | hmem
            · exact nomatch hmem
            · exact (hq _ hmem).2 address rfl
        carries := fun fm hfm hs he => by
          rw [cons_append, append_cons, ← append_assoc]
          apply carries_set _ hfm hs he
          intro fm hfm hs he
          obtain ⟨hmem, hne⟩ := hk fm hfm hs
          obtain ⟨y, hy, hn, ho, hst⟩ := loadModifiedCode_status i.env hl hmem hs
          rw [← hn, ← ho]
          rw [FunctionMapping.isEntryPoint, ← hn] at he
          rw [append_assoc]
          apply (hi.carries y hy (hst.trans hs) he).append
          simpa [hn] using hne }

theorem SessionInv.jumpStep {i : StepInput Conductor} (hi : SessionInv s history)
    (hsh : s.manager.shouldJumpToModifiedCode i.ip = true) : Keeps history (jumpStep i s) := by
  simp only [Manager.shouldJumpToModifiedCode, Bool.and_eq_true] at hsh
  obtain ⟨⟨hd, -⟩, hat⟩ := hsh
  obtain ⟨fm, hfm, hco⟩ := any_eq_true.1 hat
  simp only [Bool.and_eq_true, beq_iff_eq, Bool.not_eq_true'] at hco
  obtain ⟨⟨ho, hst⟩, hen⟩ := hco
  have hc := hi.carries fm hfm hst hen
  have hsta : Disciplined (history ++ []) := by
    rw [append_nil]
    exact hi.disciplined
  simp only [Muplay.jumpStep]
  split
  · exact ⟨hsta, fun s h => nomatch h⟩
  cases hm : s.manager.removeBreakpoint (beforeIp i.ip) with
  | none => exact ⟨hsta, fun s h => nomatch h⟩
  | some m' =>
    obtain ⟨name, hcl, hse', hd', he', hk⟩ := removeBreakpoint_spec hm
    simp only [Keeps, hcl]
    have hj : Disciplined (history ++ [.jumpToModifiedCode (beforeIp i.ip)]) :=
      hi.disciplined.snoc ⟨hi.load hd, fm.funcName, beq_eq_false_iff_ne.1 hen,
        ho ▸ hc⟩
    have hall : Disciplined (history ++ [.jumpToModifiedCode (beforeIp i.ip),
        .clearBreakpoint name]) := by
      rw [append_cons]
      exact hj.snoc trivial
    refine ⟨hall, fun s' hs' => ?_⟩
    obtain rfl := some.inj hs'
    exact {
      disciplined := hall
      noEntry := fun h a => by simpa using hi.noEntry (hse'.symm.trans h) a
      entry := fun h => by
        rw [show m'.initialEntryPoint = s.manager.initialEntryPoint from he']
        exact mem_append_left _ (hi.entry (hse'.symm.trans h))
      noLoad := fun h a => by simpa using hi.noLoad (hd'.symm.trans h) a
      load := fun _ => (hi.load hd).imp fun _ h => mem_append_left _ h
      noJump := fun h => nomatch h
      carries := fun fm hfm hs he => by
        obtain ⟨hmem, hne⟩ := hk fm hfm hs
        apply (hi.carries fm hmem hs he).append
        simpa using hne }

theorem Keeps.andThen {f : Session → List Action × Option (Session × MuplayStatus)}
    (hr : Keeps history r) (hf : ∀ s history, SessionInv s history →
      ∃ status, (f s).2 = some (s, status) ∧ SessionInv s (history ++ (f s).1)) :
    Disciplined (history ++ (andThen r f).1) ∧
      ∀ s status, (andThen r f).2 = some (s, status) → SessionInv s (history ++ (andThen r f).1) := by
  unfold Muplay.andThen
  cases hs : r.2 with
  | none => exact ⟨hr.1, fun s status h => nomatch h⟩
  | some s =>
    obtain ⟨status, hso, hinv⟩ := hf s _ (hr.2 s hs)
    rw [append_assoc] at hinv
    refine ⟨hinv.disciplined, fun s' status' h => ?_⟩
    obtain ⟨rfl, -⟩ := Prod.mk.inj (some.inj (hso.symm.trans h))
    exact hinv

theorem SessionInv.step (metadataMode : Bool) (i : StepInput Conductor) (hi : SessionInv s history) :
    Disciplined (history ++ (muplayStep metadataMode i s).1) ∧
      ∀ s' status, (muplayStep metadataMode i s).2 = some (s', status) →
        SessionInv s' (history ++ (muplayStep metadataMode i s).1) := by
  unfold muplayStep
  split
  · rename_i he
    simp only [Manager.shouldSetEntryBp, Bool.and_eq_true, Bool.not_eq_true'] at he
    have hput := hi.putEntryBp he.2 i.entryPoint i.baseAddr
    apply Keeps.andThen
    · exact ⟨hput.disciplined, fun s' h => some.inj h ▸ hput⟩
    · exact fun s history h => h.goOn
  split
  · rename_i hl
    simp only [Manager.shouldLoadModifiedCode, Bool.and_eq_true, Bool.not_eq_true'] at hl
    obtain ⟨⟨⟨-, hset⟩, hd⟩, hat⟩ := hl
    apply Keeps.andThen (hi.loadStep hset hd hat)
    intro s history h
    cases metadataMode with
    | true =>
      simp only [if_true, append_nil]
      exact ⟨_, rfl, h⟩
    | false => exact h.goOn
  split
  · rename_i hj
    exact Keeps.andThen (hi.jumpStep hj) fun s history h => h.goOn
  · obtain ⟨status, hso, hinv⟩ := hi.goOn (i := i)
    refine ⟨hinv.disciplined, fun s' status' h => ?_⟩
    obtain ⟨rfl, -⟩ := Prod.mk.inj (some.inj (hso.symm.trans h))
    exact hinv

theorem SessionInv.run (metadataMode : Bool) (inputs : List (StepInput Conductor))
    (hi : SessionInv s history) : Disciplined (history ++ muplayRun metadataMode inputs s) := by
  induction inputs generalizing s history with
  | nil =>
    rw [muplayRun, append_nil]
    exact hi.disciplined
  | cons i inputs ih =>
    obtain ⟨hd, hinv⟩ := hi.step metadataMode i
    rw [muplayRun]
    split
    · rename_i actions h
      rwa [h] at hd
    · rename_i actions s' status h
      rw [h] at hinv
      rw [← append_assoc]
      exact ih (hinv s' status rfl)

end

end Attune.Muplay
