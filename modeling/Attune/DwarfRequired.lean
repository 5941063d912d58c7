import Attune.DwarfExact

namespace Attune.Dwarf
open List Option

section
variable {strings : Nat → List Char} {addrs : List Nat} {known : Nat → Prop}

theorem listIf_ok (h : listIf strings hit d v low size = .ok v') :
    (hit = false ∧ v' = { v with lowPc := some low, funcSize := some size }) ∨
    (hit = true ∧ ∃ name, d.name.or v.funcName = some name ∧ v' = v.list strings low size name) := by
  unfold listIf at h
  cases hit with
  | false => exact .inl ⟨rfl, (Except.ok.inj h).symm⟩
  | true =>
    rw [if_pos rfl] at h
    cases hn : d.name.or v.funcName with
    | none =>
      rw [hn] at h
      exact nomatch h
    | some name =>
      rw [hn] at h
      exact .inr ⟨rfl, name, rfl, (Except.ok.inj h).symm⟩

theorem visit_ok (hne : addrs ≠ []) (h : visit strings addrs v d = .ok v') :
    (d.tag ≠ .subprogram ∧ v' = v) ∨ (d.tag = .subprogram ∧ ∃ low size,
      d.lowPc.or v.lowPc = some low ∧ d.highPc.or v.funcSize = some size ∧
      listIf strings (addrs.any (covers low size)) d v low size = .ok v') := by
  by_cases htag : d.tag = .subprogram
  · cases hlow : d.lowPc.or v.lowPc with
    | none =>
      rw [visit_indeterminate htag hne (.inl hlow)] at h
      exact nomatch h
    | some low =>
      cases hsi : d.highPc.or v.funcSize with
      | none =>
        rw [visit_indeterminate htag hne (.inr hsi)] at h
        exact nomatch h
      | some size =>
        rw [visit_eq htag hne hlow hsi] at h
        exact .inr ⟨htag, low, size, rfl, rfl, h⟩
  · rw [visit_other htag] at h
    exact .inl ⟨htag, (Except.ok.inj h).symm⟩

structure Listing (strings : Nat → List Char) (addrs : List Nat) (known : Nat → Prop) (v : Vars) :
    Prop where
  covered : ∀ e ∈ v.functions, addrs.any (covers e.lowPc e.funcSize) = true
  names : v.functions.map FuncInfo.funcName = v.funcNames.map strings
  nodup : v.funcNames.Nodup
  origin : ∀ n ∈ v.funcNames, known n
  current : ∀ n ∈ v.funcName, known n

theorem Listing.list (hl : Listing strings addrs known v)
    (hhit : addrs.any (covers low size) = true) (hna : known name) :
    Listing strings addrs known (v.list strings low size name) := by
  unfold Vars.list
  have hc : ∀ n ∈ some name, known n := by
    intro n hn
    rw [← some.inj hn]
    exact hna
  split
  · exact ⟨hl.covered, hl.names, hl.nodup, hl.origin, hc⟩
  rename_i hf
  refine ⟨?_, ?_, ?_, ?_, hc⟩
  · rw [forall_mem_append, forall_mem_singleton]
    exact ⟨hl.covered, hhit⟩
  · rw [map_append, map_append, hl.names]
    rfl
  · rw [nodup_append]
    refine ⟨hl.nodup, nodup_singleton _, ?_⟩
    intro a ha b hb e
    rw [mem_singleton.1 hb] at e
    exact hf (e ▸ ha)
  · rw [forall_mem_append, forall_mem_singleton]
    exact ⟨hl.origin, hna⟩

theorem functions_list (v : Vars) : v.functions <+: (v.list strings low size name).functions := by
  unfold Vars.list
  split
  · exact prefix_rfl
  · exact prefix_append _ _

section

variable (hl : Listing strings addrs known v)
include hl

theorem Listing.visit (hne : addrs ≠ [])
    (hd : ∀ n ∈ d.name, known n) (h : visit strings addrs v d = .ok v') :
    Listing strings addrs known v' ∧ v.functions <+: v'.functions := by
  rcases visit_ok hne h with ⟨-, rfl⟩ | ⟨-, low, size, hlow, hsi, h⟩
  · exact ⟨hl, prefix_rfl⟩
  rcases listIf_ok h with ⟨-, rfl⟩ | ⟨hhit, name, hna, rfl⟩
  · exact ⟨⟨hl.covered, hl.names, hl.nodup, hl.origin, hl.current⟩, prefix_rfl⟩
  · have hk : known name := by
      rcases or_eq_some_iff.1 hna with hn | ⟨-, hn⟩
      · exact hd name hn
      · exact hl.current name hn
    exact ⟨hl.list hhit hk, functions_list v⟩

theorem Listing.visitAll (hne : addrs ≠ [])
    (hds : ∀ d ∈ ds, ∀ n ∈ d.name, known n) (h : visitAll strings addrs v ds = .ok v') :
    Listing strings addrs known v' ∧ v.functions <+: v'.functions := by
  induction ds generalizing v with
  | nil =>
    obtain rfl : v = v' := Except.ok.inj h
    exact ⟨hl, prefix_rfl⟩
  | cons d ds ih =>
    rw [visitAll_cons] at h
    cases hv : Dwarf.visit strings addrs v d with
    | error e =>
      rw [hv] at h
      exact nomatch h
    | ok v₁ =>
      rw [hv] at h
      obtain ⟨hl₁, hpre⟩ := hl.visit hne (hds d mem_cons_self) hv
      obtain ⟨hl', hp'⟩ := ih hl₁ (fun d hd => hds d (mem_cons_of_mem _ hd)) h
      exact ⟨hl', hpre.trans hp'⟩

theorem names_nodup {ds : List Die}
    (hinj : ∀ n, known n → ∀ n', known n' → strings n = strings n' → n = n')
    (hp : (v.functions.map some).Perm
      ((ds.filter fun d => d.Matches addrs).map (Die.info strings))) :
    ((ds.filter fun d => d.Matches addrs).map Die.name).Nodup := by
  have hna : (v.functions.map FuncInfo.funcName).Nodup := by
    rw [hl.names]
    exact List.Nodup.map_on (fun n hn n' hn' => hinj n (hl.origin n hn) n' (hl.origin n' hn')) hl.nodup
  have hso : ((v.functions.map some).map (Option.map FuncInfo.funcName)).Nodup := by
    rw [List.map_map, show Option.map FuncInfo.funcName ∘ some = some ∘ FuncInfo.funcName from rfl,
      ← List.map_map]
    exact hna.map fun _ _ => some.inj
  have hm : ((ds.filter fun d => d.Matches addrs).map fun d => d.name.map strings) =
      ((ds.filter fun d => d.Matches addrs).map (Die.info strings)).map
        (Option.map FuncInfo.funcName) := by
    rw [List.map_map]
    apply map_congr_left
    intro d hd
    obtain ⟨-, low, hlow, size, hsi, -⟩ := of_decide_eq_true (mem_filter.1 hd).2
    rw [mem_def] at hlow hsi
    cases hn : d.name <;> simp [Die.info, hlow, hsi, hn]
  have hno := (hp.map (Option.map FuncInfo.funcName)).nodup_iff.1 hso
  rw [← hm, ← Function.comp_def, ← List.map_map] at hno
  exact List.Nodup.of_map _ hno

end

theorem mem_of_lastOf (h : lastOf attr ds = some x) :
    x ∈ (ds.filter (·.tag = .subprogram)).filterMap attr :=
  mem_of_getLast? h

theorem Tracks.clear {left : List Die} (ht : Tracks strings addrs before v) (hne : addrs ≠ [])
    (htag : d.tag = .subprogram) (hv : visit strings addrs v d = .ok v₁)
    (hpre : v₁.functions <+: vf.functions) (hl : Listing strings addrs known vf)
    (hinj : ∀ n, known n → ∀ n', known n' → strings n = strings n' → n = n')
    (hk : ∀ d' ∈ before ++ d :: left, ∀ n ∈ d'.name, known n)
    (hcu : ∀ n ∈ v.funcName, known n)
    (hlows : (((before ++ d :: left).filter (·.tag = .subprogram)).filterMap Die.lowPc).Nodup)
    (hp : (vf.functions.map some).Perm
      (((before ++ d :: left).filter fun d => d.Matches addrs).map (Die.info strings))) :
    Clear addrs before d := by
  obtain ⟨hno, -⟩ | ⟨-, low, size, hlow, hsi, hli⟩ := visit_ok hne hv
  · exact absurd htag hno
  have hlo' : lastOf Die.lowPc (before ++ [d]) = some low := by
    rw [lastOf_append _ _ htag, ← ht.lowPc, hlow]
  have hsi' : lastOf Die.highPc (before ++ [d]) = some size := by
    rw [lastOf_append _ _ htag, ← ht.funcSize, hsi]
  refine ⟨low, hlo', size, hsi', ?_⟩
  split
  · next hm =>
    have hd : d ∈ (before ++ d :: left).filter fun d => d.Matches addrs :=
      mem_filter.2 ⟨mem_append_right _ mem_cons_self, decide_eq_true hm⟩
    -- its entry is somewhere in the list, and every entry has an address in its range
    obtain ⟨e, he, hin⟩ := mem_map.1 (hp.mem_iff.2 (mem_map_of_mem hd))
    obtain ⟨-, low', hl', size', hs', -⟩ := id hm
    rw [mem_def] at hl' hs'
    obtain ⟨name, hnam⟩ : ∃ name, d.name = some name := by
      cases hn : d.name with
      | none => simp [Die.info, hn] at hin
      | some name => exact ⟨name, rfl⟩
    simp only [Die.info, hnam, hl', hs', Option.bind_eq_bind, Option.bind_some, Option.pure_def,
      some.injEq] at hin
    rw [hl', some_or, some.injEq] at hlow
    rw [hs', Option.some_or, Option.some.injEq] at hsi
    refine ⟨?_, name, hnam, ?_⟩
    · have hc := hl.covered e he
      rwa [hin, hlow, hsi] at hc
    · intro hmem
      obtain ⟨m, hm', hmn⟩ := mem_filterMap.1 hmem
      have hnod := names_nodup hl hinj hp
      rw [filter_append, map_append, nodup_append] at hnod
      apply hnod.2.2 m.name (mem_map_of_mem hm') d.name
      · exact mem_map_of_mem (mem_filter.2 ⟨mem_cons_self, decide_eq_true hm⟩)
      · rw [hmn, hnam]
  · next hm =>
    rcases listIf_ok hli with ⟨hmi, -⟩ | ⟨hhit, name, hnam, rfl⟩
    · exact .inl hmi
    by_cases hmem : name ∈ matchedNames addrs before
    · rcases or_eq_some_iff.1 hnam with hn | ⟨hn, -⟩
      · exact .inr (.inl ⟨name, hn, hmem⟩)
      · exact .inr (.inr ⟨hn, ne_nil_of_mem hmem⟩)
    -- the new entry would be that of a subprogram that matches
    have hf : name ∉ v.funcNames := ht.funcNames ▸ hmem
    have he : ⟨strings name, low, size⟩ ∈ vf.functions := by
      apply hpre.mem
      simp [Vars.list, hf]
    obtain ⟨m, hmm, hin⟩ := mem_map.1 (hp.mem_iff.1 (mem_map_of_mem he))
    obtain ⟨hmal, hma⟩ := mem_filter.1 hmm
    obtain ⟨n, hn, hlo, hte⟩ : ∃ n, m.name = some n ∧ m.lowPc = some low ∧
        strings n = strings name := by
      simp only [Die.info, Option.bind_eq_bind, Option.pure_def, Option.bind_eq_some_iff,
        some.injEq, FuncInfo.mk.injEq] at hin
      obtain ⟨n, hn, lowm, hlo, sizem, -, hte, hsa, -⟩ := hin
      exact ⟨n, hn, hsa ▸ hlo, hte⟩
    have hna : known name := by
      rcases Option.or_eq_some_iff.1 hnam with h | ⟨-, h⟩
      · exact hk d (mem_append_right _ mem_cons_self) name h
      · exact hcu name h
    rcases mem_append.1 hmal with hb | hr
    · have hsa := hinj n (hk m hmal n hn) name hna hte
      exact absurd (hsa ▸ mem_filterMap.2 ⟨m, mem_filter.2 ⟨hb, hma⟩, hn⟩) hmem
    rcases mem_cons.1 hr with rfl | hle
    · exact absurd (of_decide_eq_true hma) hm
    · rw [append_cons, filter_append, filterMap_append, nodup_append] at hlows
      have hsub : m ∈ left.filter (·.tag = .subprogram) :=
        mem_filter.2 ⟨hle, decide_eq_true (of_decide_eq_true hma).1⟩
      exact absurd rfl (hlows.2.2 low (mem_of_lastOf hlo') low
        (mem_filterMap.2 ⟨m, hsub, hlo⟩))

theorem clear_of_perm {visited left : List Die} (hne : addrs ≠ [])
    (hrun : visitAll strings addrs .init visited = .ok vf)
    (hinj : ∀ n, known n → ∀ n', known n' → strings n = strings n' → n = n')
    (hk : ∀ d ∈ visited ++ left, ∀ n ∈ d.name, known n)
    (hlo : (((visited ++ left).filter (·.tag = .subprogram)).filterMap Die.lowPc).Nodup)
    (hp : (vf.functions.map some).Perm
      (((visited ++ left).filter fun d => d.Matches addrs).map (Die.info strings))) :
    ∀ before d after, visited = before ++ d :: after → d.tag = .subprogram →
      Clear addrs before d := by
  have hin : Listing strings addrs known .init :=
    ⟨fun _ h => (nomatch h), rfl, nodup_nil, fun _ h => (nomatch h), fun _ h => (nomatch h)⟩
  have hl := (hin.visitAll hne (fun d hd => hk d (mem_append_left _ hd)) hrun).1
  -- induction on the part already visited
  have hst : ∀ pre d post, visited = pre ++ d :: post → d.tag = .subprogram →
      (∀ before d after, pre = before ++ d :: after → d.tag = .subprogram →
        Clear addrs before d) → Clear addrs pre d := by
    intro pre d post hsp htag hpre
    obtain ⟨v, hv, ht⟩ : ∃ v, visitAll strings addrs .init pre = .ok v ∧
        Tracks strings addrs pre v := tracks_of_clear hne pre hpre
    rw [hsp, visitAll_append, hv, Except.bind, visitAll_cons] at hrun
    cases hvi : visit strings addrs v d with
    | error e =>
      rw [hvi] at hrun
      exact nomatch hrun
    | ok v₁ =>
      rw [hvi, Except.bind] at hrun
      rw [hsp, append_assoc, cons_append] at hk hlo hp
      have hlv := (hin.visitAll hne (fun d' hd => hk d' (mem_append_left _ hd)) hv).1
      have hl₁ := (hlv.visit hne (hk d (mem_append_right _ mem_cons_self)) hvi).1
      have hpo := (hl₁.visitAll hne (fun d' hd => hk d'
        (mem_append_right _ (mem_cons_of_mem _ (mem_append_left _ hd)))) hrun).2
      exact ht.clear hne htag hvi hpo hl hinj hk hlv.current hlo hp
  have hall : ∀ pre post, visited = pre ++ post → ∀ before d after, pre = before ++ d :: after →
      d.tag = .subprogram → Clear addrs before d := by
    intro pre
    induction pre using reverseRecOn with
    | nil =>
      intro post _ before d after h
      exact absurd h (by simp)
    | append_singleton pre d ih =>
      intro post hsp before d' after h htag
      rw [append_assoc, singleton_append] at hsp
      cases after using reverseRecOn with
      | nil =>
        obtain ⟨rfl, hd⟩ := append_inj' h rfl
        obtain rfl : d = d' := by simpa using hd
        exact hst pre d post hsp htag (ih (d :: post) hsp)
      | append_singleton after d'' _ =>
        rw [← cons_append, ← append_assoc] at h
        obtain ⟨hpre, -⟩ := append_inj' h rfl
        exact ih (d :: post) hsp before d' after hpre htag
  exact hall visited [] (append_nil _).symm

end

theorem lineno_of_ok (hr : getLineModification strings elfFilePath unit table line = .ok r) :
    r.lineno = ((if elfFilePath = curlPath ∧ line = 276 then 274 else line) % 2 ^ 64).toNat := by
  unfold getLineModification at hr
  generalize (if elfFilePath = curlPath ∧ line = 276 then (274 : Int) else line) = n at hr ⊢
  simp only at hr
  split at hr
  · exact nomatch hr
  cases hrun : Loop.run strings (lineAddresses table n) unit.size
      ⟨⟨unit, []⟩, [], true, true, .init⟩ with
  | error e =>
    rw [hrun] at hr
    exact nomatch hr
  | ok s =>
    rw [hrun] at hr
    obtain rfl := Except.ok.inj hr
    rfl

theorem Exact.answerable {strings : Nat → List Char} (hs : Separate strings unit)
    (hr : getLineModification strings elfFilePath unit table line = .ok r)
    (he : Exact strings unit table line r) : Answerable elfFilePath unit table line := by
  have hli := he.lineno
  have hno : 0 ≤ line := by omega
  have hp : ¬ (elfFilePath = curlPath ∧ line = 276) := by
    intro h
    rw [lineno_of_ok hr, if_pos h, h.2] at hli
    exact absurd hli (by decide)
  rw [getLineModification_eq _ _ hp hno] at hr
  cases hrun : Loop.run strings (lineAddresses table line) unit.size
      ⟨⟨unit, []⟩, [], true, true, .init⟩ with
  | error e =>
    rw [hrun] at hr
    exact nomatch hr
  | ok s =>
    rw [hrun] at hr
    obtain rfl := Except.ok.inj hr
    obtain ⟨visited, left, hen⟩ := ends_of_run _ _ _ _ _ _ _ _ rfl hrun
    rw [hen.run_eq strings _ _ hen.length_le true true .init rfl] at hrun
    cases hv : visitAll strings (lineAddresses table line) .init visited with
    | error e =>
      rw [hv] at hrun
      exact nomatch hrun
    | ok vf =>
      rw [hv] at hrun
      obtain rfl := Except.ok.inj hrun
      have hdi := hen.unit_perm
      have hpe := he.functions.trans
        ((hdi.filter fun d => d.Matches (lineAddresses table line)).map (Die.info strings))
      have hlo := ((hdi.filter (·.tag = .subprogram)).filterMap Die.lowPc).nodup_iff.1 hs.lowPc
      have hinj : ∀ n, (∃ d ∈ unit.dies, n ∈ d.name) → ∀ n', (∃ d ∈ unit.dies, n' ∈ d.name) →
          strings n = strings n' → n = n' := by
        intro n hn n' hn' hte
        obtain ⟨d, hd, hn⟩ := hn
        obtain ⟨d', hd', hn'⟩ := hn'
        exact hs.names d hd n hn d' hd' n' hn' hte
      have hc : lineAddresses table line ≠ [] → ∀ before d after,
          visited = before ++ d :: after → d.tag = .subprogram →
          Clear (lineAddresses table line) before d := fun hne =>
        clear_of_perm hne hv hinj (fun d hd n hn => ⟨d, hdi.mem_iff.2 hd, hn⟩) hlo hpe
      refine ⟨hp, hno, visited, left, hen, ?_, hc⟩
      intro d hd hm
      by_cases hne : lineAddresses table line = []
      · rw [hne] at hm
        exact not_matches_nil d hm
      -- the matching subprograms among the visited ones are already as many as the entries
      obtain ⟨v, hv', ht⟩ : ∃ v, visitAll strings (lineAddresses table line) .init visited = .ok v ∧
          Tracks strings (lineAddresses table line) visited v :=
        tracks_of_clear hne visited (hc hne)
      obtain rfl : vf = v := Except.ok.inj (hv.symm.trans hv')
      have hlen := hpe.length_eq
      have hmem : d ∈ left.dies.filter fun d => d.Matches (lineAddresses table line) :=
        mem_filter.2 ⟨hd, decide_eq_true hm⟩
      have hpos := length_pos_of_mem hmem
      rw [ht.functions, filter_append, map_append, length_append, length_map,
        length_map] at hlen
      omega

def AnsweredExactly (strings : Nat → List Char) (elfFilePath : List Char) (unit : DieTree)
    (table : Option (List LineRow)) (line : Int) : Prop :=
  ∃ r, getLineModification strings elfFilePath unit table line = .ok r ∧
    Exact strings unit table line r

theorem line_modification_exact (strings : Nat → List Char) (elfFilePath : List Char)
    (unit : DieTree) (table : Option (List LineRow)) (line : Int) (hint : line < 2 ^ 31) :
    (Answerable elfFilePath unit table line →
      AnsweredExactly strings elfFilePath unit table line) ∧
    (Separate strings unit → AnsweredExactly strings elfFilePath unit table line →
      Answerable elfFilePath unit table line) := by
  constructor
  · intro ha
    exact ha.exact strings hint
  · intro hs ⟨r, hr, he⟩
    exact he.answerable hs hr

def functionDie (low name : Nat) : DieTree :=
  .node ⟨.subprogram, some low, some 16, some name⟩ [.node ⟨.other 5, none, none, some 4⟩ []]

def declarationDie (name : Nat) : DieTree := .node ⟨.subprogram, none, none, some name⟩ []

def variableDie : DieTree := .node ⟨.other 52, none, none, some 5⟩ []

def unitOf (children : List DieTree) : DieTree :=
  .node ⟨.compileUnit, some 256, some 64, some 6⟩ children

def sampleStrings (n : Nat) : List Char := ["".toList, "f".toList, "g".toList, "h".toList].getD n []

theorem twoFunctions_answerable : Answerable [] (unitOf [functionDie 256 1, functionDie 272 2,
    variableDie]) (some [(5, 260), (6, 276)]) 5 := by
  have ha : lineAddresses (some [(5, 260), (6, 276)]) 5 = [260] := rfl
  refine ⟨by decide, by decide, _, _, .next rfl (.inr (cons_ne_nil _ _))
    (.sibling (.sibling (.next rfl (.inl (cons_ne_nil _ _)) (.stop rfl)))), ?_, ?_⟩
  · rw [ha]
    decide
  · rw [ha]
    intro _ before d after h htag
    rcases before with _ | ⟨d₀, _ | ⟨d₁, _ | ⟨d₂, _ | ⟨d₃, _ | ⟨d₄, before⟩⟩⟩⟩⟩ <;>
      simp only [nil_append, cons_append, cons.injEq, nil_eq,
        append_eq_nil_iff, reduceCtorEq, and_false] at h
    · exact absurd (h.1 ▸ htag) (by decide)
    · obtain ⟨rfl, rfl, -⟩ := h
      refine ⟨256, rfl, 16, rfl, ?_⟩
      rw [if_pos (by decide)]
      exact ⟨rfl, 1, rfl, by decide⟩
    · obtain ⟨rfl, rfl, rfl, -⟩ := h
      refine ⟨272, rfl, 16, rfl, ?_⟩
      rw [if_neg (by decide)]
      exact .inl rfl
    · exact absurd (h.2.2.2.1 ▸ htag) (by decide)
    · exact absurd (h.2.2.2.2.1 ▸ htag) (by decide)

theorem line_modification_exact_two_functions :
    Answerable [] (unitOf [functionDie 256 1, functionDie 272 2, variableDie])
      (some [(5, 260), (6, 276)]) 5 ∧
    AnsweredExactly sampleStrings [] (unitOf [functionDie 256 1, functionDie 272 2, variableDie])
      (some [(5, 260), (6, 276)]) 5 :=
  ⟨twoFunctions_answerable, (line_modification_exact sampleStrings [] _ _ 5 (by decide)).1
    twoFunctions_answerable⟩

/-- With one function the walk takes from the empty queue; a declaration behind one is listed with
that one's range. -/
theorem line_modification_inexact :
    (getLineModification sampleStrings [] (unitOf [functionDie 256 1]) (some [(5, 260)]) 5 =
        .error .emptyQueue ∧
      ¬ AnsweredExactly sampleStrings [] (unitOf [functionDie 256 1]) (some [(5, 260)]) 5) ∧
    getLineModification sampleStrings []
        (unitOf [functionDie 256 1, declarationDie 3, functionDie 272 2, variableDie])
        (some [(5, 260)]) 5 = .ok ⟨5, [260], [⟨"f".toList, 256, 16⟩, ⟨"h".toList, 256, 16⟩]⟩ ∧
      ¬ AnsweredExactly sampleStrings []
        (unitOf [functionDie 256 1, declarationDie 3, functionDie 272 2, variableDie])
        (some [(5, 260)]) 5 := by
  have hem : getLineModification sampleStrings [] (unitOf [functionDie 256 1])
      (some [(5, 260)]) 5 = .error .emptyQueue := rfl
  have hst : getLineModification sampleStrings []
      (unitOf [functionDie 256 1, declarationDie 3, functionDie 272 2, variableDie])
      (some [(5, 260)]) 5 = .ok ⟨5, [260], [⟨"f".toList, 256, 16⟩, ⟨"h".toList, 256, 16⟩]⟩ := rfl
  refine ⟨⟨hem, ?_⟩, hst, ?_⟩
  · intro ⟨r, hr, _⟩
    exact nomatch hem.symm.trans hr
  · intro ⟨r, hr, he⟩
    obtain rfl := Except.ok.inj (hst.symm.trans hr)
    exact absurd he.functions.length_eq (by decide)

end Attune.Dwarf
