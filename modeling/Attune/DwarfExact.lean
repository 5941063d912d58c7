import Attune.DwarfWalk

namespace Attune.Dwarf
open List Option

mutual

def DieTree.dies : DieTree → List Die
  | .node die children => die :: forestDies children

def forestDies : List DieTree → List Die
  | [] => []
  | t :: ts => t.dies ++ forestDies ts

end

def Handle.dies (h : Handle) : List Die := forestDies (h.tree :: h.siblings)

theorem DieTree.dies_eq (t : DieTree) : t.dies = t.die :: forestDies t.children := by
  cases t
  rfl

theorem DieTree.group_dies (t : DieTree) : t.group.flatMap Handle.dies = forestDies t.children := by
  unfold DieTree.group dwarfChild
  cases ht : t.children with
  | nil => rfl
  | cons c cs => exact append_nil _

mutual

theorem DieTree.length_dies : (t : DieTree) → t.dies.length = t.size
  | .node die children => by
    rw [DieTree.dies, DieTree.size, length_cons, forestDies_length children, Nat.add_comm]

theorem forestDies_length : (ts : List DieTree) → (forestDies ts).length = forestSize ts
  | [] => rfl
  | t :: ts => by
    rw [forestDies, forestSize, length_append, t.length_dies, forestDies_length ts]

end

theorem Ends.perm (he : Ends g queue visited left) :
    (g.dies ++ queue.flatMap Handle.dies).Perm (visited ++ left.dies) := by
  induction he with
  | sibling he ih =>
    rename_i t t' ts queue visited left
    rw [flatMap_append, t.group_dies] at ih
    rw [Handle.dies, forestDies, t.dies_eq, cons_append, cons_append, cons_append]
    apply List.Perm.cons
    apply List.Perm.trans _ ih
    rw [Handle.dies, append_assoc]
    apply perm_append_comm.trans
    rw [append_assoc]
  | next hq hgo he ih =>
    rename_i t h queue rest visited left
    have hd : queue.flatMap Handle.dies ++ forestDies t.children =
        h.dies ++ rest.flatMap Handle.dies := by
      rw [← t.group_dies, ← flatMap_append, hq, flatMap_cons]
    rw [Handle.dies, forestDies, forestDies, append_nil, t.dies_eq, cons_append,
      cons_append]
    apply List.Perm.cons
    apply List.Perm.trans _ ih
    rw [← hd]
    exact perm_append_comm
  | stop hc =>
    rename_i t left
    have hd : t.dies = [t.die] := by rw [t.dies_eq, hc, forestDies]
    simp [Handle.dies, forestDies, hd]

theorem Ends.length_le (he : Ends ⟨unit, []⟩ [] visited left) : visited.length ≤ unit.size := by
  have hlen := he.perm.length_eq
  have hu : (⟨unit, []⟩ : Handle).dies = unit.dies := append_nil _
  rw [flatMap_nil, append_nil, hu, unit.length_dies, length_append] at hlen
  omega

section

variable (addrs : List Nat)

def Die.Matches (d : Die) : Prop :=
  d.tag = .subprogram ∧ ∃ low ∈ d.lowPc, ∃ size ∈ d.highPc, ∃ a ∈ addrs, low ≤ a ∧ a < low + size

instance (d : Die) : Decidable (d.Matches addrs) :=
  inferInstanceAs (Decidable (_ ∧ _))

def Die.info (strings : Nat → List Char) (d : Die) : Option FuncInfo := do
  let name ← d.name
  let low ← d.lowPc
  let size ← d.highPc
  return ⟨strings name, low, size⟩

/-- The requested line, the addresses of its rows, and one entry for each matching subprogram. -/
structure Exact (strings : Nat → List Char) (unit : DieTree) (table : Option (List LineRow))
    (line : Int) (r : LineModification) : Prop where
  lineno : (r.lineno : Int) = line
  addresses : r.lineAddresses = lineAddresses table line
  functions : (r.modifiedFunctions.map some).Perm
    ((unit.dies.filter fun d => d.Matches (lineAddresses table line)).map (Die.info strings))

def lastOf (attr : Die → Option Nat) (ds : List Die) : Option Nat :=
  ((ds.filter (·.tag = .subprogram)).filterMap attr).getLast?

def matchedNames (ds : List Die) : List Nat :=
  (ds.filter fun d => d.Matches addrs).filterMap Die.name

/-- What the DIEs before it leave behind neither hides the subprogram nor lists it when it does not
match. -/
def Clear (before : List Die) (d : Die) : Prop :=
  ∃ low ∈ lastOf Die.lowPc (before ++ [d]), ∃ size ∈ lastOf Die.highPc (before ++ [d]),
    if d.Matches addrs then addrs.any (covers low size) = true ∧
      ∃ name ∈ d.name, name ∉ matchedNames addrs before
    else addrs.any (covers low size) = false ∨ (∃ name ∈ d.name, name ∈ matchedNames addrs before) ∨
      d.name = none ∧ matchedNames addrs before ≠ []

end

structure Answerable (elfFilePath : List Char) (unit : DieTree) (table : Option (List LineRow))
    (line : Int) : Prop where
  path : ¬ (elfFilePath = curlPath ∧ line = 276)
  nonneg : 0 ≤ line
  walk : ∃ visited left, Ends ⟨unit, []⟩ [] visited left ∧
    (∀ d ∈ left.dies, ¬ d.Matches (lineAddresses table line)) ∧
    (lineAddresses table line ≠ [] → ∀ before d after, visited = before ++ d :: after →
      d.tag = .subprogram → Clear (lineAddresses table line) before d)

/-- No two subprograms begin at one address, and equal names are stored once. -/
structure Separate (strings : Nat → List Char) (unit : DieTree) : Prop where
  lowPc : ((unit.dies.filter (·.tag = .subprogram)).filterMap Die.lowPc).Nodup
  names : ∀ d ∈ unit.dies, ∀ n ∈ d.name, ∀ d' ∈ unit.dies, ∀ n' ∈ d'.name,
    strings n = strings n' → n = n'

section
variable {strings : Nat → List Char} {addrs : List Nat}

def Vars.list (strings : Nat → List Char) (v : Vars) (low size name : Nat) : Vars :=
  if name ∈ v.funcNames then ⟨some low, some size, some name, v.funcNames, v.functions⟩
  else ⟨some low, some size, some name, v.funcNames ++ [name],
    v.functions ++ [⟨strings name, low, size⟩]⟩

theorem or_settled {a b : Option Nat} (h : a.or b = some x) : a.or (some x) = some x := by
  cases a with
  | none => rfl
  | some a => exact h

theorem Vars.list_list (v : Vars) (low size name : Nat) :
    (v.list strings low size name).list strings low size name = v.list strings low size name := by
  unfold Vars.list
  split
  · simp
  · simp

def listIf (strings : Nat → List Char) (hit : Bool) (d : Die) (v : Vars) (low size : Nat) :
    Except Stop Vars :=
  if hit then
    match d.name.or v.funcName with
    | some name => .ok (v.list strings low size name)
    | none => .error .indeterminate
  else .ok { v with lowPc := some low, funcSize := some size }

theorem checkAddress_eq (hlow : d.lowPc.or v.lowPc = some low)
    (hsi : d.highPc.or v.funcSize = some size) (a : Nat) :
    checkAddress strings d v a = listIf strings (covers low size a) d v low size := by
  simp only [checkAddress, hlow, hsi, listIf, Vars.list]
  split
  · cases hn : d.name.or v.funcName with
    | none => rfl
    | some name => exact (apply_ite Except.ok _ _ _).symm
  · rfl

theorem foldlM_settled (hlow : d.lowPc.or (some low) = some low)
    (hsi : d.highPc.or (some size) = some size) (as : List Nat) (v : Vars)
    (hv : v.lowPc = some low ∧ v.funcSize = some size) :
    as.foldlM (checkAddress strings d) v = listIf strings (as.any (covers low size)) d v low size := by
  induction as generalizing v with
  | nil =>
    obtain ⟨vlow, vsize, vname, vnames, vfunctions⟩ := v
    obtain ⟨rfl, rfl⟩ := hv
    rfl
  | cons a as ih =>
    have hl' : d.lowPc.or v.lowPc = some low := by rw [hv.1, hlow]
    have hs' : d.highPc.or v.funcSize = some size := by rw [hv.2, hsi]
    rw [foldlM_cons, checkAddress_eq hl' hs', any_cons]
    cases hc : covers low size a with
    | false =>
      rw [Bool.false_or, ← ih v hv]
      obtain ⟨vlow, vsize, vname, vnames, vfunctions⟩ := v
      obtain ⟨rfl, rfl⟩ := hv
      rfl
    | true =>
      rw [Bool.true_or]
      cases hn : d.name.or v.funcName with
      | none => simp only [listIf, hn, if_true]; rfl
      | some name =>
        have hset : (v.list strings low size name).lowPc = some low ∧
            (v.list strings low size name).funcSize = some size ∧
            (v.list strings low size name).funcName = some name := by
          unfold Vars.list
          split <;> exact ⟨rfl, rfl, rfl⟩
        have hr := ih (v.list strings low size name) ⟨hset.1, hset.2.1⟩
        simp only [listIf, hn, if_true]
        apply hr.trans
        have hna : d.name.or (v.list strings low size name).funcName = some name := by
          rw [hset.2.2]
          exact or_settled hn
        cases as.any (covers low size) with
        | true =>
          simp only [listIf, hna, if_true, Vars.list_list]
        | false =>
          simp only [listIf, Bool.false_eq_true, if_false, ← hset.1, ← hset.2.1]

theorem visit_eq (htag : d.tag = .subprogram) (hne : addrs ≠ [])
    (hlow : d.lowPc.or v.lowPc = some low) (hsi : d.highPc.or v.funcSize = some size) :
    visit strings addrs v d = listIf strings (addrs.any (covers low size)) d v low size := by
  cases addrs with
  | nil => exact absurd rfl hne
  | cons a as =>
    -- the first round does not see whether the variables were set before
    have hf : checkAddress strings d v a =
        checkAddress strings d { v with lowPc := some low, funcSize := some size } a := by
      rw [checkAddress_eq hlow hsi, checkAddress_eq (or_settled hlow) (or_settled hsi)]
      rfl
    rw [visit, if_pos htag, foldlM_cons, hf, ← foldlM_cons,
      foldlM_settled (or_settled hlow) (or_settled hsi) _ _ ⟨rfl, rfl⟩]
    rfl

theorem visit_indeterminate (htag : d.tag = .subprogram) (hne : addrs ≠ [])
    (hn : d.lowPc.or v.lowPc = none ∨ d.highPc.or v.funcSize = none) :
    visit strings addrs v d = .error .indeterminate := by
  cases addrs with
  | nil => exact absurd rfl hne
  | cons a as =>
    have hf : checkAddress strings d v a = .error .indeterminate := by
      unfold checkAddress
      rcases hn with h | h
      · rw [h]
      · rw [h]
        cases d.lowPc.or v.lowPc <;> rfl
    rw [visit, if_pos htag, foldlM_cons, hf]
    rfl

theorem visit_other (htag : d.tag ≠ .subprogram) : visit strings addrs v d = .ok v := by
  rw [visit, if_neg htag]

theorem lastOf_append (attr : Die → Option Nat) (before : List Die) (htag : d.tag = .subprogram) :
    lastOf attr (before ++ [d]) = (attr d).or (lastOf attr before) := by
  simp only [lastOf, filter_append, filterMap_append]
  rw [filter_cons_of_pos (by simp [htag]), filter_nil]
  cases ha : attr d with
  | none | some x => simp [ha]

theorem lastOf_other (attr : Die → Option Nat) (before : List Die) (htag : d.tag ≠ .subprogram) :
    lastOf attr (before ++ [d]) = lastOf attr before := by
  simp [lastOf, htag]

theorem matchedNames_append (before : List Die) (d : Die) : matchedNames addrs (before ++ [d]) =
    matchedNames addrs before ++ if d.Matches addrs then d.name.toList else [] := by
  simp only [matchedNames, filter_append, filterMap_append]
  split
  · rename_i h
    cases hn : d.name <;> simp [h, hn]
  · rename_i h
    simp [h]

/-- The variables when the DIEs before were all clear. -/
structure Tracks (strings : Nat → List Char) (addrs : List Nat) (before : List Die) (v : Vars) :
    Prop where
  lowPc : v.lowPc = lastOf Die.lowPc before
  funcSize : v.funcSize = lastOf Die.highPc before
  funcName : ∀ n ∈ v.funcName, n ∈ matchedNames addrs before
  unnamed : v.funcName = none → matchedNames addrs before = []
  funcNames : v.funcNames = matchedNames addrs before
  functions : v.functions.map some =
    (before.filter fun d => d.Matches addrs).map (Die.info strings)

theorem Tracks.init : Tracks strings addrs [] .init :=
  ⟨rfl, rfl, fun _ h => (nomatch h), fun _ => rfl, rfl, rfl⟩

section

variable (ht : Tracks strings addrs before v)
include ht

theorem Tracks.visit_other (htag : d.tag ≠ .subprogram) :
    Tracks strings addrs (before ++ [d]) v := by
  have hno : ¬ d.Matches addrs := fun h => htag h.1
  have hn : matchedNames addrs (before ++ [d]) = matchedNames addrs before := by
    rw [matchedNames_append, if_neg hno, append_nil]
  exact {
    lowPc := ht.lowPc.trans (lastOf_other _ _ htag).symm
    funcSize := ht.funcSize.trans (lastOf_other _ _ htag).symm
    funcName := hn ▸ ht.funcName
    unnamed := hn ▸ ht.unnamed
    funcNames := hn ▸ ht.funcNames
    functions := by
      rw [filter_append, filter_cons_of_neg (by simp [hno]), filter_nil,
        append_nil]
      exact ht.functions }

theorem Tracks.unlisted (htag : d.tag = .subprogram)
    (hno : ¬ d.Matches addrs) (hlow : d.lowPc.or v.lowPc = some low)
    (hsi : d.highPc.or v.funcSize = some size) (hna : ∀ n ∈ name, n ∈ matchedNames addrs before)
    (hnon : name = none → matchedNames addrs before = []) :
    Tracks strings addrs (before ++ [d]) ⟨some low, some size, name, v.funcNames, v.functions⟩ := by
  have hn : matchedNames addrs (before ++ [d]) = matchedNames addrs before := by
    rw [matchedNames_append, if_neg hno, append_nil]
  exact {
    lowPc := by rw [lastOf_append _ _ htag, ← ht.lowPc, hlow]
    funcSize := by rw [lastOf_append _ _ htag, ← ht.funcSize, hsi]
    funcName := hn ▸ hna
    unnamed := hn ▸ hnon
    funcNames := hn ▸ ht.funcNames
    functions := by
      rw [filter_append, filter_cons_of_neg (by simp [hno]), filter_nil,
        append_nil]
      exact ht.functions }

theorem Tracks.listed (hm : d.Matches addrs)
    (hlow : d.lowPc.or v.lowPc = some low) (hsi : d.highPc.or v.funcSize = some size)
    (hna : d.name = some name) :
    Tracks strings addrs (before ++ [d]) ⟨some low, some size, some name, v.funcNames ++ [name],
      v.functions ++ [⟨strings name, low, size⟩]⟩ := by
  have hn : matchedNames addrs (before ++ [d]) = matchedNames addrs before ++ [name] := by
    rw [matchedNames_append, if_pos hm, hna]
    rfl
  have hin : d.info strings = some ⟨strings name, low, size⟩ := by
    obtain ⟨-, low', hl', size', hs', -⟩ := hm
    rw [mem_def] at hl' hs'
    rw [hl', some_or, some.injEq] at hlow
    rw [hs', some_or, some.injEq] at hsi
    simp [Die.info, hna, hl', hs', hlow, hsi]
  exact {
    lowPc := by rw [lastOf_append _ _ hm.1, ← ht.lowPc, hlow]
    funcSize := by rw [lastOf_append _ _ hm.1, ← ht.funcSize, hsi]
    funcName := by simp [hn]
    unnamed := fun h => nomatch h
    funcNames := by rw [hn, ht.funcNames]
    functions := by
      rw [filter_append, filter_cons_of_pos (by simp [hm]), filter_nil,
        map_append, map_append, ht.functions]
      simp [hin] }

theorem Tracks.visit_clear (hne : addrs ≠ [])
    (htag : d.tag = .subprogram) (hc : Clear addrs before d) :
    ∃ v', visit strings addrs v d = .ok v' ∧ Tracks strings addrs (before ++ [d]) v' := by
  obtain ⟨low, hlow, size, hsi, hc⟩ := hc
  rw [mem_def, lastOf_append _ _ htag, ← ht.lowPc] at hlow
  rw [mem_def, lastOf_append _ _ htag, ← ht.funcSize] at hsi
  rw [visit_eq htag hne hlow hsi, listIf]
  split at hc
  · next hm =>
    obtain ⟨hhit, name, hna, hf⟩ := hc
    rw [mem_def] at hna
    rw [← ht.funcNames] at hf
    simp only [hhit, if_true, hna, some_or, Vars.list, hf, if_false]
    exact ⟨_, rfl, ht.listed hm hlow hsi hna⟩
  · next hm =>
    cases hhit : addrs.any (covers low size) with
    | false => exact ⟨_, rfl, ht.unlisted htag hm hlow hsi ht.funcName ht.unnamed⟩
    | true =>
      have hna : ∃ name, d.name.or v.funcName = some name ∧ name ∈ matchedNames addrs before := by
        rcases hc with hc | ⟨name, hna, hmem⟩ | ⟨hno, hne⟩
        · exact absurd (hhit.symm.trans hc) (by simp)
        · exact ⟨name, by rw [mem_def.1 hna, some_or], hmem⟩
        · cases hn : v.funcName with
          | none => exact absurd (ht.unnamed hn) hne
          | some name => exact ⟨name, by rw [hno, none_or], ht.funcName name hn⟩
      obtain ⟨name, hna, hmem⟩ := hna
      rw [if_pos rfl, hna]
      simp only [Vars.list, ht.funcNames, hmem, if_true]
      rw [← ht.funcNames]
      refine ⟨_, rfl, ?_⟩
      apply ht.unlisted htag hm hlow hsi
      · intro n hn
        rw [← some.inj hn]
        exact hmem
      · exact fun h => nomatch h

end

theorem visitAll_append (v : Vars) (ds ds' : List Die) : visitAll strings addrs v (ds ++ ds') =
    (visitAll strings addrs v ds).bind fun v' => visitAll strings addrs v' ds' :=
  foldlM_append

theorem visitAll_singleton (v : Vars) (d : Die) :
    visitAll strings addrs v [d] = visit strings addrs v d := by
  rw [visitAll_cons]
  cases visit strings addrs v d <;> rfl

theorem tracks_of_clear (hne : addrs ≠ []) (ds : List Die)
    (hc : ∀ before d after, ds = before ++ d :: after → d.tag = .subprogram →
      Clear addrs before d) :
    ∃ v, visitAll strings addrs .init ds = .ok v ∧ Tracks strings addrs ds v := by
  induction ds using reverseRecOn with
  | nil => exact ⟨.init, rfl, Tracks.init⟩
  | append_singleton ds d ih =>
    obtain ⟨v, hv, ht⟩ := ih fun before d' after h htag =>
      hc before d' (after ++ [d]) (by rw [h]; simp) htag
    rw [visitAll_append, hv, Except.bind, visitAll_singleton]
    by_cases htag : d.tag = .subprogram
    · exact ht.visit_clear hne htag (hc ds d [] rfl htag)
    · exact ⟨v, visit_other htag, ht.visit_other htag⟩

theorem visitAll_no_address (v : Vars) (ds : List Die) : visitAll strings [] v ds = .ok v := by
  induction ds with
  | nil => rfl
  | cons d ds ih =>
    have hv : visit strings [] v d = .ok v := by
      unfold visit
      split <;> rfl
    rw [visitAll_cons, hv, Except.bind, ih]

theorem not_matches_nil (d : Die) : ¬ d.Matches [] := by
  intro h
  obtain ⟨-, low, -, size, -, a, ha, -⟩ := h
  exact absurd ha not_mem_nil

end

theorem getLineModification_eq (strings : Nat → List Char) (table : Option (List LineRow))
    (hp : ¬ (elfFilePath = curlPath ∧ line = 276)) (hl : 0 ≤ line) :
    getLineModification strings elfFilePath unit table line =
      (Loop.run strings (lineAddresses table line) unit.size
        ⟨⟨unit, []⟩, [], true, true, .init⟩).bind fun s =>
          .ok ⟨(line % 2 ^ 64).toNat, lineAddresses table line, s.vars.functions⟩ := by
  have hneg : ¬ (table.getD [] ≠ [] ∧ line < 0) := fun h => by omega
  simp only [getLineModification, if_neg hp, if_neg hneg]
  rfl

theorem Ends.unit_perm (he : Ends ⟨unit, []⟩ [] visited left) :
    unit.dies.Perm (visited ++ left.dies) := by
  have hp := he.perm
  rw [flatMap_nil, append_nil] at hp
  have hu : (⟨unit, []⟩ : Handle).dies = unit.dies := append_nil _
  rwa [hu] at hp

theorem Answerable.exact (strings : Nat → List Char)
    (ha : Answerable elfFilePath unit table line) (hint : line < 2 ^ 31) :
    ∃ r, getLineModification strings elfFilePath unit table line = .ok r ∧
      Exact strings unit table line r := by
  obtain ⟨visited, left, he, hle, hc⟩ := ha.walk
  rw [getLineModification_eq _ _ ha.path ha.nonneg,
    he.run_eq strings _ _ he.length_le true true .init rfl]
  have hl : (((line % 2 ^ 64).toNat : Nat) : Int) = line := by
    have := ha.nonneg
    omega
  have hv : ∃ v, visitAll strings (lineAddresses table line) .init visited = .ok v ∧
      v.functions.map some = (visited.filter fun d =>
        d.Matches (lineAddresses table line)).map (Die.info strings) := by
    by_cases hne : lineAddresses table line = []
    · rw [hne]
      refine ⟨.init, visitAll_no_address _ _, ?_⟩
      rw [filter_eq_nil_iff.2 fun d _ => by simp [not_matches_nil]]
      rfl
    · obtain ⟨v, hv, ht⟩ := tracks_of_clear hne visited (hc hne)
      exact ⟨v, hv, ht.functions⟩
  obtain ⟨v, hv, hf⟩ := hv
  rw [hv]
  refine ⟨_, rfl, hl, rfl, ?_⟩
  have hn : left.dies.filter (fun d => d.Matches (lineAddresses table line)) = [] :=
    filter_eq_nil_iff.2 fun d hd => by simp [hle d hd]
  have hp := he.unit_perm.filter fun d => d.Matches (lineAddresses table line)
  rw [filter_append, hn, append_nil] at hp
  rw [hf]
  exact (hp.map _).symm

end Attune.Dwarf
