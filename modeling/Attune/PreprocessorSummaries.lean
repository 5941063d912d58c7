import Attune.MuplayPreprocessor

namespace Attune.Preprocessor
open Attune.Dwarf Attune.Patch List Option Summary

theorem mapM_eq_some_iff {g : α → Option β} {l : List α} {cs : List β} :
    l.mapM g = some cs ↔ (∀ a ∈ l, (g a).isSome) ∧ cs = l.filterMap g := by
  induction l generalizing cs with
  | nil =>
    rw [mapM_nil, filterMap_nil, Option.pure_def, Option.some.injEq]
    exact ⟨fun h => ⟨fun _ ha => absurd ha not_mem_nil, h.symm⟩, fun h => h.2.symm⟩
  | cons a l ih =>
    rw [mapM_cons]
    cases ha : g a with
    | none => simp [ha]
    | some c =>
      simp only [Option.bind_eq_bind, Option.bind_some, Option.pure_def, forall_mem_cons, ha,
        isSome_some, true_and, filterMap_cons_some ha]
      constructor
      · intro h
        obtain ⟨cs', hcs, h⟩ := bind_eq_some_iff.1 h
        cases h
        obtain ⟨hall, rfl⟩ := ih.1 hcs
        exact ⟨hall, rfl⟩
      · rintro ⟨hall, rfl⟩
        rw [ih.2 ⟨hall, rfl⟩, Option.bind_some]

section
variable {b : Build} {files : List PatchedFile} {olds mods : List Path}

def summaryOf (b : Build) (src exe : Path) (lines : List Int) (type : ModificationType) : Summary :=
  ⟨src, findCuName src (b.units exe), exe,
    lines.filterMap (b.getLineModification (findCuName src (b.units exe)) exe), type⟩

theorem getSummary_eq_some_iff :
    b.getSummary src (findCuName src (b.units exe)) exe lines type = some s ↔
      (∀ n ∈ lines, Returns b src exe n) ∧ s = summaryOf b src exe lines type := by
  constructor
  · intro h
    obtain ⟨ms, hms, h⟩ := bind_eq_some_iff.1 h
    obtain ⟨hall, rfl⟩ := mapM_eq_some_iff.1 hms
    exact ⟨hall, (some.inj h).symm⟩
  · rintro ⟨hall, rfl⟩
    have hms := mapM_eq_some_iff.2 ⟨hall, rfl⟩
    rw [Build.getSummary, hms]
    rfl

def Reads (b : Build) (p : Path × Path) (g : PatchedFile) : Prop :=
  b.Found g.1 p.1 → b.Found g.1 p.2 →
    (∀ n ∈ g.2.del, Returns b g.1 p.1 n) ∧ ∀ n ∈ g.2.ins, Returns b g.1 p.2 n

def summariesOf (b : Build) (p : Path × Path) (g : PatchedFile) : List Summary :=
  if b.Found g.1 p.1 ∧ b.Found g.1 p.2 then
    [summaryOf b g.1 p.2 g.2.ins .inserted, summaryOf b g.1 p.1 g.2.del .deleted]
  else []

theorem loadSummary_eq_some_iff : b.loadSummary p.1 p.2 g = some ss ↔
    Reads b p g ∧ ss = summariesOf b p g := by
  by_cases hf : b.Found g.1 p.1 ∧ b.Found g.1 p.2
  · have hl : b.loadSummary p.1 p.2 g = _ := if_pos hf
    have hr : Reads b p g ↔
        (∀ n ∈ g.2.del, Returns b g.1 p.1 n) ∧ ∀ n ∈ g.2.ins, Returns b g.1 p.2 n :=
      ⟨fun h => h hf.1 hf.2, fun h _ _ => h⟩
    rw [hl, hr, summariesOf, if_pos hf]
    constructor
    · intro h
      obtain ⟨del, hdel, h⟩ := bind_eq_some_iff.1 h
      obtain ⟨ins, hins, h⟩ := bind_eq_some_iff.1 h
      obtain ⟨hd, rfl⟩ := getSummary_eq_some_iff.1 hdel
      obtain ⟨hi, rfl⟩ := getSummary_eq_some_iff.1 hins
      exact ⟨⟨hd, hi⟩, (some.inj h).symm⟩
    · rintro ⟨⟨hd, hi⟩, rfl⟩
      rw [getSummary_eq_some_iff.2 ⟨hd, rfl⟩, getSummary_eq_some_iff.2 ⟨hi, rfl⟩]
      rfl
  · have hl : b.loadSummary p.1 p.2 g = some [] := if_neg hf
    rw [hl, summariesOf, if_neg hf, some.injEq]
    exact ⟨fun h => ⟨fun ho hm => absurd ⟨ho, hm⟩ hf, h.symm⟩, fun h => h.2.symm⟩

theorem loadSummaries_eq_some_iff : b.loadSummaries files p.1 p.2 = some ss ↔
    (∀ g ∈ files, Reads b p g) ∧ ss = files.flatMap (summariesOf b p) := by
  have hso : ∀ g, (b.loadSummary p.1 p.2 g).isSome ↔ Reads b p g := by
    intro g
    rw [isSome_iff_exists]
    exact ⟨fun ⟨ss, h⟩ => (loadSummary_eq_some_iff.1 h).1,
      fun h => ⟨_, loadSummary_eq_some_iff.2 ⟨h, rfl⟩⟩⟩
  have hf : (∀ g ∈ files, Reads b p g) →
      (files.filterMap (b.loadSummary p.1 p.2)).flatten = files.flatMap (summariesOf b p) := by
    intro hall
    induction files with
    | nil => rfl
    | cons g files ih =>
      rw [forall_mem_cons] at hall
      rw [filterMap_cons_some (loadSummary_eq_some_iff.2 ⟨hall.1, rfl⟩), flatten_cons,
        ih hall.2, flatMap_cons]
  constructor
  · intro h
    obtain ⟨res, hres, h⟩ := bind_eq_some_iff.1 h
    obtain ⟨hall, rfl⟩ := mapM_eq_some_iff.1 hres
    have hr : ∀ g ∈ files, Reads b p g := fun g hg => (hso g).1 (hall g hg)
    exact ⟨hr, (some.inj h).symm.trans (hf hr)⟩
  · rintro ⟨hr, rfl⟩
    have hres := mapM_eq_some_iff.2 ⟨fun g hg => (hso g).2 (hr g hg), rfl⟩
    rw [Build.loadSummaries, hres, ← hf hr]
    rfl

def pairOf (b : Build) (olds mods : List Path) (f : PatchedFile) : Option (Path × Path) :=
  let o := (b.findAssociatedPaths f.1 olds).1
  let m := (b.findAssociatedPaths f.1 mods).1
  if IsC f.1 ∧ o ≠ [] ∧ m ≠ [] then some (o, m) else none

theorem findAssociatedPaths_eq_iff (exes : List Path) (hx : exe ≠ []) :
    (b.findAssociatedPaths src exes).1 = exe ↔ FirstWith b src exes exe := by
  induction exes with
  | nil =>
    constructor
    · intro h
      exact absurd h.symm hx
    · rintro ⟨before, after, hsp, -⟩
      exact absurd hsp (by simp)
  | cons path exes ih =>
    by_cases hp : b.Found src path
    · have hfi : b.findAssociatedPaths src (path :: exes) = _ := if_pos hp
      rw [hfi]
      constructor
      · rintro rfl
        exact ⟨[], exes, rfl, hp, fun _ hx => nomatch hx⟩
      · rintro ⟨before, after, hsp, -, hn⟩
        cases before with
        | nil => exact (cons.inj hsp).1
        | cons x before =>
          have hx := (cons.inj hsp).1
          exact absurd (hx ▸ hp) (hn x mem_cons_self)
    · have hfi : b.findAssociatedPaths src (path :: exes) = _ := if_neg hp
      rw [hfi, ih]
      constructor
      · rintro ⟨before, after, rfl, hf, hn⟩
        exact ⟨path :: before, after, rfl, hf, forall_mem_cons.2 ⟨hp, hn⟩⟩
      · rintro ⟨before, after, hsp, hf, hn⟩
        cases before with
        | nil =>
          have hx := (cons.inj hsp).1
          exact absurd (hx ▸ hf) hp
        | cons x before =>
          exact ⟨before, after, (cons.inj hsp).2, hf,
            (forall_mem_cons.1 hn).2⟩

theorem pairOf_eq_some_iff (hf : f ∈ files) :
    pairOf b olds mods f = some (o, m) ↔ Starts b files olds mods f o m := by
  constructor
  · intro h
    rw [pairOf, ite_none_right_eq_some, some.injEq, Prod.mk.injEq] at h
    obtain ⟨⟨hc, ho, hm⟩, rfl, rfl⟩ := h
    exact ⟨⟨hf, hc⟩, ⟨(findAssociatedPaths_eq_iff olds ho).1 rfl, ho⟩,
      (findAssociatedPaths_eq_iff mods hm).1 rfl, hm⟩
  · rintro ⟨⟨_, hc⟩, ⟨ho, hne⟩, hm, hne'⟩
    rw [pairOf, (findAssociatedPaths_eq_iff olds hne).2 ho, (findAssociatedPaths_eq_iff mods hne').2 hm]
    exact if_pos ⟨hc, hne, hne'⟩

def added (b : Build) (files : List PatchedFile) (olds mods : List Path) (f : PatchedFile) :
    List Summary :=
  match pairOf b olds mods f with
  | some p => files.flatMap (summariesOf b p)
  | none => []

theorem initFile_eq : initFile b files olds mods mp f = if f.1.length < 2 then none
    else match pairOf b olds mods f with
      | none => some mp
      | some p => (b.loadSummaries files p.1 p.2).map fun tmp =>
        ⟨mp.summaries ++ tmp, insertMapping mp.executableMappings p.2 p.1⟩ := by
  by_cases hlen : f.1.length < 2
  · rw [initFile, if_pos hlen, if_pos hlen]
  rw [initFile, if_neg hlen, if_neg hlen]
  by_cases hc : IsC f.1
  · have hh : f.1.drop (f.1.length - 2) ≠ ".h".toList := by
      rw [hc]
      decide
    have hcc : ¬ f.1.drop (f.1.length - 2) ≠ ".c".toList := not_not.2 hc
    rw [if_neg hh, if_neg hcc, pairOf]
    by_cases hp : (b.findAssociatedPaths f.1 olds).1 = [] ∨ (b.findAssociatedPaths f.1 mods).1 = []
    · have hno : ¬ (IsC f.1 ∧ (b.findAssociatedPaths f.1 olds).1 ≠ [] ∧
          (b.findAssociatedPaths f.1 mods).1 ≠ []) := fun h => hp.elim h.2.1 h.2.2
      rw [if_neg hno]
      exact if_pos hp
    · rw [not_or] at hp
      have hyes : IsC f.1 ∧ (b.findAssociatedPaths f.1 olds).1 ≠ [] ∧
          (b.findAssociatedPaths f.1 mods).1 ≠ [] := ⟨hc, hp⟩
      rw [if_pos hyes]
      exact (if_neg (not_or.2 hp)).trans map_eq_bind.symm
  · have hno : pairOf b olds mods f = none := if_neg fun h => hc h.1
    rw [hno]
    split
    · rfl
    · exact if_pos hc

theorem initFile_eq_some (h : initFile b files olds mods mp f = some mp') :
    2 ≤ f.1.length ∧ (∀ p ∈ pairOf b olds mods f, ∀ g ∈ files, Reads b p g) ∧
      mp'.summaries = mp.summaries ++ added b files olds mods f := by
  rw [initFile_eq] at h
  obtain ⟨hlen, h⟩ := ite_none_left_eq_some.mp h
  refine ⟨Nat.le_of_not_lt hlen, ?_⟩
  rw [added]
  cases hp : pairOf b olds mods f with
  | none =>
    rw [hp] at h
    cases h
    exact ⟨fun _ hp => (nomatch hp), (append_nil _).symm⟩
  | some p =>
    rw [hp] at h
    obtain ⟨tmp, htmp, rfl⟩ := map_eq_some_iff.1 h
    obtain ⟨hr, rfl⟩ := loadSummaries_eq_some_iff.1 htmp
    exact ⟨fun p' hp' => some.inj hp' ▸ hr, rfl⟩

theorem initFile_returns (hlen : 2 ≤ f.1.length)
    (hr : ∀ p ∈ pairOf b olds mods f, ∀ g ∈ files, Reads b p g) :
    ∃ mp', initFile b files olds mods mp f = some mp' := by
  rw [initFile_eq, if_neg (Nat.not_lt.2 hlen)]
  cases hp : pairOf b olds mods f with
  | none => exact ⟨mp, rfl⟩
  | some p =>
    have hl := loadSummaries_eq_some_iff.2 ⟨hr p hp, rfl⟩
    simp only [hl]
    exact ⟨_, rfl⟩

theorem foldlM_initFile_eq_some {l : List PatchedFile}
    (h : l.foldlM (initFile b files olds mods) mp = some mp') :
    (∀ f ∈ l, 2 ≤ f.1.length) ∧
      (∀ f ∈ l, ∀ p ∈ pairOf b olds mods f, ∀ g ∈ files, Reads b p g) ∧
      mp'.summaries = mp.summaries ++ l.flatMap (added b files olds mods) := by
  induction l generalizing mp with
  | nil =>
    cases h
    exact ⟨fun _ hf => absurd hf not_mem_nil, fun _ hf => absurd hf not_mem_nil,
      (append_nil _).symm⟩
  | cons f l ih =>
    rw [foldlM_cons] at h
    obtain ⟨mp₁, h₁, h⟩ := bind_eq_some_iff.1 h
    obtain ⟨hlen, hr, ha⟩ := initFile_eq_some h₁
    obtain ⟨hl, hre, hsum⟩ := ih h
    rw [ha, append_assoc, ← flatMap_cons] at hsum
    exact ⟨forall_mem_cons.2 ⟨hlen, hl⟩, forall_mem_cons.2 ⟨hr, hre⟩, hsum⟩

theorem foldlM_initFile_returns {l : List PatchedFile} (hlen : ∀ f ∈ l, 2 ≤ f.1.length)
    (hr : ∀ f ∈ l, ∀ p ∈ pairOf b olds mods f, ∀ g ∈ files, Reads b p g) :
    ∃ mp', l.foldlM (initFile b files olds mods) mp = some mp' := by
  induction l generalizing mp with
  | nil => exact ⟨mp, rfl⟩
  | cons f l ih =>
    rw [forall_mem_cons] at hlen hr
    obtain ⟨mp₁, h₁⟩ := @initFile_returns b files olds mods f mp hlen.1 hr.1
    obtain ⟨mp', h⟩ := @ih mp₁ hlen.2 hr.2
    use mp'
    rw [foldlM_cons, h₁]
    exact h

theorem reads_iff : (∀ f ∈ files, ∀ p ∈ pairOf b olds mods f, ∀ g ∈ files, Reads b p g) ↔
    ∀ f o m, Starts b files olds mods f o m → ∀ g ∈ files, b.Found g.1 o → b.Found g.1 m →
      (∀ n ∈ g.2.del, Returns b g.1 o n) ∧ ∀ n ∈ g.2.ins, Returns b g.1 m n := by
  constructor
  · intro h f o m hs
    exact h f hs.file.1 (o, m) ((pairOf_eq_some_iff hs.file.1).2 hs)
  · intro h f hf p hp
    exact h f p.1 p.2 ((pairOf_eq_some_iff hf).1 hp)

theorem mem_added : s ∈ added b files olds mods f ↔ ∃ p, pairOf b olds mods f = some p ∧
    ∃ g ∈ files, (b.Found g.1 p.1 ∧ b.Found g.1 p.2) ∧
      (s = summaryOf b g.1 p.2 g.2.ins .inserted ∨ s = summaryOf b g.1 p.1 g.2.del .deleted) := by
  rw [added]
  cases pairOf b olds mods f with
  | none => simp
  | some p =>
    simp only [mem_flatMap, some.injEq, exists_eq_left', summariesOf,
      mem_ite_nil_right, mem_cons, not_mem_nil, or_false]

/-- Two files that start loads add summaries with one key just when the loads share a file and an
executable. -/
theorem disjoint_added_iff : List.Disjoint ((added b files olds mods f).map Summary.key)
      ((added b files olds mods f').map Summary.key) ↔
    ∀ p p', pairOf b olds mods f = some p → pairOf b olds mods f' = some p' → ∀ g ∈ files,
      b.Found g.1 p.1 → b.Found g.1 p.2 → b.Found g.1 p'.1 → b.Found g.1 p'.2 →
      p.1 ≠ p'.1 ∧ p.2 ≠ p'.2 := by
  constructor
  · intro hd p p' hp hp' g hg ho hm ho' hm'
    constructor
    · intro he
      have hs := mem_map_of_mem (f := key)
        (mem_added.2 ⟨p, hp, g, hg, ⟨ho, hm⟩, .inr rfl⟩)
      have hs' := mem_map_of_mem (f := key)
        (mem_added.2 ⟨p', hp', g, hg, ⟨ho', hm'⟩, .inr rfl⟩)
      rw [summaryOf, key] at hs hs'
      rw [← he] at hs'
      exact hd hs hs'
    · intro he
      have hs := mem_map_of_mem (f := key)
        (mem_added.2 ⟨p, hp, g, hg, ⟨ho, hm⟩, .inl rfl⟩)
      have hs' := mem_map_of_mem (f := key)
        (mem_added.2 ⟨p', hp', g, hg, ⟨ho', hm'⟩, .inl rfl⟩)
      rw [summaryOf, key] at hs hs'
      rw [← he] at hs'
      exact hd hs hs'
  · intro h k hk hk'
    obtain ⟨s, hs, rfl⟩ := mem_map.1 hk
    obtain ⟨s', hs', hkey⟩ := mem_map.1 hk'
    obtain ⟨p, hp, g, hg, ⟨ho, hm⟩, hs⟩ := mem_added.1 hs
    obtain ⟨p', hp', g', hg', ⟨ho', hm'⟩, hs'⟩ := mem_added.1 hs'
    have hn : g'.1 = g.1 := by
      have hfst := congrArg Prod.fst hkey
      rcases hs with rfl | rfl <;> rcases hs' with rfl | rfl <;> exact hfst
    rw [hn] at ho' hm'
    have hne := h p p' hp hp' g hg ho hm ho' hm'
    rcases hs with rfl | rfl <;> rcases hs' with rfl | rfl
    · exact hne.2 (congrArg (·.2.1) hkey).symm
    · exact nomatch congrArg (·.2.2) hkey
    · exact nomatch congrArg (·.2.2) hkey
    · exact hne.1 (congrArg (·.2.1) hkey).symm

theorem nodup_added (hfiles : (files.map Prod.fst).Nodup) :
    ((added b files olds mods f).map Summary.key).Nodup := by
  rw [added]
  cases pairOf b olds mods f with
  | none => exact nodup_nil
  | some p =>
    simp only [map_flatMap]
    apply nodup_flatMap.2
    constructor
    · intro g _
      rw [summariesOf]
      split
      · simp [summaryOf, key]
      · exact nodup_nil
    · apply List.Pairwise.imp _ (pairwise_map.1 hfiles)
      intro g g' hne k hk hk'
      have hfst : ∀ g : PatchedFile, k ∈ (summariesOf b p g).map key → k.1 = g.1 := by
        intro g hk
        obtain ⟨s, hs, rfl⟩ := mem_map.1 hk
        rw [summariesOf, mem_ite_nil_right] at hs
        rcases mem_pair.1 hs.2 with rfl | rfl <;> rfl
      exact hne ((hfst g hk).symm.trans (hfst g' hk'))

theorem nodup_keys_iff (hfiles : (files.map Prod.fst).Nodup) :
    ((files.flatMap (added b files olds mods)).map Summary.key).Nodup ↔
    ∀ f o m f' o' m', Starts b files olds mods f o m → Starts b files olds mods f' o' m' →
      f ≠ f' → ∀ g ∈ files, b.Found g.1 o → b.Found g.1 m → b.Found g.1 o' → b.Found g.1 m' →
      o ≠ o' ∧ m ≠ m' := by
  rw [map_flatMap, nodup_flatMap]
  constructor
  · rintro ⟨-, hd⟩ f o m f' o' m' hs hs' hne
    have : Std.Symm (Function.onFun List.Disjoint fun f =>
        (added b files olds mods f).map key) := ⟨fun _ _ h _ hk hk' => h hk' hk⟩
    have hdi := hd.forall hs.file.1 hs'.file.1 hne
    exact disjoint_added_iff.1 hdi (o, m) (o', m') ((pairOf_eq_some_iff hs.file.1).2 hs)
      ((pairOf_eq_some_iff hs'.file.1).2 hs')
  · intro h
    use fun f _ => nodup_added hfiles
    apply List.Nodup.pairwise_of_forall_ne hfiles.of_map
    intro f hf f' hf' hne
    apply disjoint_added_iff.2
    intro p p' hp hp'
    exact h f p.1 p.2 f' p'.1 p'.2 ((pairOf_eq_some_iff hf).1 hp) ((pairOf_eq_some_iff hf').1 hp')
      hne

theorem filter_key {α β : Type} [DecidableEq β] {g : α → β} {l : List α} {a : α}
    (hn : (l.map g).Nodup) (ha : a ∈ l) : l.filter (fun x => g x = g a) = [a] := by
  induction l with
  | nil => exact absurd ha not_mem_nil
  | cons x l ih =>
    rw [map_cons, nodup_cons] at hn
    rcases mem_cons.1 ha with rfl | hmem
    · have hno : l.filter (fun x => g x = g a) = [] := by
        apply filter_eq_nil_iff.2
        intro y hy he
        exact hn.1 (of_decide_eq_true he ▸ mem_map_of_mem hy)
      rw [filter_cons_of_pos (by simp), hno]
    · have hne : g x ≠ g a := fun he => hn.1 (he ▸ mem_map_of_mem hmem)
      rw [filter_cons_of_neg (by simpa using hne), ih hn.2 hmem]

theorem mem_of_filter {α β : Type} [DecidableEq β] {g : α → β} {l : List α} {a : α} {k : β}
    (h : l.filter (fun x => g x = k) = [a]) : a ∈ l ∧ g a = k := by
  have ha : a ∈ l.filter (fun x => g x = k) := h ▸ mem_singleton.2 rfl
  exact ⟨(mem_filter.1 ha).1, of_decide_eq_true (mem_filter.1 ha).2⟩

theorem linenos_summaryOf_iff (hr : ∀ n ∈ lines, Returns b src exe n) :
    (summaryOf b src exe lines type).linenos = lines ↔ ∀ n ∈ lines, Kept exe n := by
  have hone : ∀ n r, b.getLineModification (findCuName src (b.units exe)) exe n = some r →
      ((r.lineno : Int) = n ↔ Kept exe n) := by
    intro n r h
    rw [Build.getLineModification] at h
    split at h
    next u _ =>
      have hok : Dwarf.getLineModification (b.strings exe) exe u.tree u.table n = .ok r := by
        cases hg : Dwarf.getLineModification (b.strings exe) exe u.tree u.table n with
        | error e =>
          rw [hg] at h
          exact nomatch h
        | ok r' =>
          rw [hg] at h
          exact congrArg Except.ok (some.inj h)
      rw [lineno_of_ok hok, Kept]
      split
      next hc => simp [hc]
      next hc => simp only [hc, not_false_eq_true, and_true]; omega
    next => exact nomatch h
  rw [summaryOf, linenos]
  simp only
  induction lines with
  | nil => simp
  | cons n lines ih =>
    rw [forall_mem_cons] at hr ⊢
    obtain ⟨r, hr₁⟩ := isSome_iff_exists.1 hr.1
    have hre : _ ↔ _ := ih hr.2
    rw [filterMap_cons_some hr₁, map_cons, cons.injEq, hre, hone n r hr₁]

theorem mem_summaries_iff {ss : List Summary} (hss : ss = files.flatMap (added b files olds mods)) :
    s ∈ ss ↔ ∃ f o m, Starts b files olds mods f o m ∧
      ∃ g ∈ files, (b.Found g.1 o ∧ b.Found g.1 m) ∧
        (s = summaryOf b g.1 m g.2.ins .inserted ∨ s = summaryOf b g.1 o g.2.del .deleted) := by
  rw [hss, mem_flatMap]
  constructor
  · rintro ⟨f, hf, hs⟩
    obtain ⟨p, hp, hg⟩ := mem_added.1 hs
    exact ⟨f, p.1, p.2, (pairOf_eq_some_iff hf).1 hp, hg⟩
  · rintro ⟨f, o, m, hst, hg⟩
    exact ⟨f, hst.file.1, mem_added.2 ⟨(o, m), (pairOf_eq_some_iff hst.file.1).2 hst, hg⟩⟩

variable (hfiles : (files.map Prod.fst).Nodup)
include hfiles

theorem eq_of_name (hg : g ∈ files) (hg' : g' ∈ files) (h : g.1 = g'.1) : g = g' :=
  inj_on_of_nodup_map hfiles hg hg' h

theorem LoadsApart.summarised (h : LoadsApart b files olds mods) :
    ∃ mp, init b files olds mods = some mp ∧ Summarised b files olds mods mp.summaries := by
  obtain ⟨mp, hin⟩ := @foldlM_initFile_returns b files olds mods ⟨[], []⟩ files h.names
    (reads_iff.2 h.returns)
  have hss := (foldlM_initFile_eq_some hin).2.2
  rw [nil_append] at hss
  have hu : (mp.summaries.map key).Nodup := hss ▸ (nodup_keys_iff hfiles).2 h.once
  refine ⟨mp, hin, hu, ?_, ?_⟩
  · intro g hg hc o ho m hm hgo hgm
    obtain ⟨⟨f, o', hst, hgo'⟩, hk⟩ := h.inserted g hg hc o ho m hm hgo hgm
    have hmem := (mem_summaries_iff hss).2 ⟨f, o', m, hst, g, hg, ⟨hgo', hgm⟩, .inl rfl⟩
    exact ⟨_, filter_key hu hmem,
      (linenos_summaryOf_iff (h.returns f o' m hst g hg hgo' hgm).2).2 hk⟩
  · intro g hg hc o ho m hm hgo hgm
    obtain ⟨⟨f, m', hst, hgm'⟩, hk⟩ := h.deleted g hg hc o ho m hm hgo hgm
    have hmem := (mem_summaries_iff hss).2 ⟨f, o, m', hst, g, hg, ⟨hgo, hgm'⟩, .inr rfl⟩
    exact ⟨_, filter_key hu hmem,
      (linenos_summaryOf_iff (h.returns f o m' hst g hg hgo hgm').1).2 hk⟩

theorem Summarised.loadsApart
    (hin : init b files olds mods = some mp) (h : Summarised b files olds mods mp.summaries) :
    LoadsApart b files olds mods := by
  obtain ⟨hn, hre, hss⟩ := foldlM_initFile_eq_some hin
  rw [nil_append] at hss
  have hr := reads_iff.1 hre
  refine ⟨hn, hr, (nodup_keys_iff hfiles).1 (hss ▸ h.unique), ?_, ?_⟩
  · intro g hg hc o ho m hm hgo hgm
    obtain ⟨s, hf, hl⟩ := h.inserted g hg hc o ho m hm hgo hgm
    have hmem := mem_of_filter hf
    obtain ⟨f, o', m', hst, g', hg', ⟨hgo', hgm'⟩, hs⟩ := (mem_summaries_iff hss).1 hmem.1
    rcases hs with rfl | rfl
    · obtain ⟨hna, hexe⟩ := Prod.mk.inj hmem.2
      obtain rfl := eq_of_name hfiles hg' hg hna
      obtain rfl : m' = m := congrArg Prod.fst hexe
      exact ⟨⟨f, o', hst, hgo'⟩,
        (linenos_summaryOf_iff (hr f o' m' hst g' hg' hgo' hgm').2).1 hl⟩
    · exact nomatch congrArg (·.2.2) hmem.2
  · intro g hg hc o ho m hm hgo hgm
    obtain ⟨s, hf, hl⟩ := h.deleted g hg hc o ho m hm hgo hgm
    have hmem := mem_of_filter hf
    obtain ⟨f, o', m', hst, g', hg', ⟨hgo', hgm'⟩, hs⟩ := (mem_summaries_iff hss).1 hmem.1
    rcases hs with rfl | rfl
    · exact nomatch congrArg (·.2.2) hmem.2
    · obtain ⟨hna, hexe⟩ := Prod.mk.inj hmem.2
      obtain rfl := eq_of_name hfiles hg' hg hna
      obtain rfl : o' = o := congrArg Prod.fst hexe
      exact ⟨⟨f, m', hst, hgm'⟩,
        (linenos_summaryOf_iff (hr f o' m' hst g' hg' hgo' hgm').1).1 hl⟩

end

theorem summaries_right_iff (b : Build) (files : List PatchedFile)
    (hfiles : (files.map Prod.fst).Nodup) (olds mods : List Path) :
    (∃ mp, init b files olds mods = some mp ∧ Summarised b files olds mods mp.summaries) ↔
      LoadsApart b files olds mods :=
  ⟨fun ⟨_, hin, h⟩ => h.loadsApart hfiles hin, fun h => h.summarised hfiles⟩

def walkedUnit (name : Path) : CuEntry :=
  let leaf : DieTree := .node ⟨.other 52, none, none, none⟩ []
  ⟨name, .node ⟨.compileUnit, none, none, none⟩ [.node ⟨.other 19, none, none, none⟩ [leaf], leaf],
    none⟩

def twoExecutables (sources : List Path) : Build :=
  ⟨fun _ => sources.map walkedUnit, fun _ _ => []⟩

theorem summaries_right_iff_one_file : let files : List PatchedFile := [("/a.c".toList, ⟨[3], [2]⟩)]
    let b := twoExecutables ["a.c".toList]
    (files.map Prod.fst).Nodup ∧
      ((∃ mp, init b files ["o".toList] ["m".toList] = some mp ∧
          Summarised b files ["o".toList] ["m".toList] mp.summaries) ↔
        LoadsApart b files ["o".toList] ["m".toList]) ∧
      (init b files ["o".toList] ["m".toList]).map (fun mp => mp.summaries.map fun s =>
        (s.key, s.linenos)) = some [(("/a.c".toList, "m".toList, .inserted), [3]),
          (("/a.c".toList, "o".toList, .deleted), [2])] :=
  ⟨by decide, summaries_right_iff _ _ (by decide) _ _, by decide⟩

/-- Two files of one program: every summary is there twice. -/
theorem summaries_repeated :
    let files : List PatchedFile := [("/a.c".toList, ⟨[3], [2]⟩), ("/b.c".toList, ⟨[5], [4]⟩)]
    let b := twoExecutables ["a.c".toList, "b.c".toList]
    let ins (name : Path) := (name, "m".toList, ModificationType.inserted)
    let del (name : Path) := (name, "o".toList, ModificationType.deleted)
    (init b files ["o".toList] ["m".toList]).map (fun mp => mp.summaries.map Summary.key) =
      some [ins "/a.c".toList, del "/a.c".toList, ins "/b.c".toList, del "/b.c".toList,
        ins "/a.c".toList, del "/a.c".toList, ins "/b.c".toList, del "/b.c".toList] := by
  decide

end Attune.Preprocessor
