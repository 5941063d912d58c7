import Attune.MuplayDwarfReader

namespace Attune.Dwarf

structure CuEntry where
  name : List Char
  tree : DieTree
  table : Option (List LineRow)

def CuEntry.isCompileUnit (u : CuEntry) : Bool := u.tree.die.tag == .compileUnit

def hasRootName : List Char → Bool
  | '/' :: '/' :: c :: _ => c != '/'
  | _ => false

/-- The last component of a path as the library iterates: `.` behind a slash at the end, except for
the root. -/
def getFilename (path : List Char) : List Char :=
  let last := (path.reverse.takeWhile (· != '/')).reverse
  let afterRoot := (path.drop 2).dropWhile (· != '/')
  if path.all (· == '/') then path
  else if hasRootName path && afterRoot.isEmpty then path
  else if hasRootName path && afterRoot.all (· == '/') then ['/']
  else if last.isEmpty then ['.']
  else last

variable (searchPath : List Char)

def CuEntry.matchesPath (u : CuEntry) : Bool :=
  u.isCompileUnit && (u.name == searchPath || getFilename u.name == getFilename searchPath)

def findCu (units : List CuEntry) : Option CuEntry :=
  units.find? (·.matchesPath searchPath)

def findCuName (units : List CuEntry) : List Char :=
  match findCu searchPath units with
  | some u => u.name
  | none => []

/-- The first compile unit whose name has the given one in it; there is `FATAL` if there is none. -/
def findDwarfDie (srcFileName : List Char) (units : List CuEntry) : Option CuEntry :=
  units.find? fun u => u.isCompileUnit && decide (srcFileName <:+: u.name)

/-- The two searches agree, and a unit with the name of the file is the one that is found. -/
structure FindsUnit (path : List Char) (units : List CuEntry) : Prop where
  agree : ∀ u, findCu path units = some u → findDwarfDie (findCuName path units) units = some u
  exact : ∀ u ∈ units, u.isCompileUnit → u.name = path → findCu path units = some u

/-- No unit before the one looked for is taken for it by either search. -/
structure InOrder (path : List Char) (units : List CuEntry) : Prop where
  contained : ∀ before u after, units = before ++ u :: after → u.isCompileUnit →
    getFilename u.name = getFilename path →
    (∀ v ∈ before, v.isCompileUnit → getFilename v.name ≠ getFilename path) →
    ∀ v ∈ before, v.isCompileUnit → ¬ u.name <:+: v.name
  shared : ∀ before u after, units = before ++ u :: after → u.isCompileUnit → u.name = path →
    ∀ v ∈ before, v.isCompileUnit → getFilename v.name ≠ getFilename path

theorem CuEntry.matchesPath_iff {u : CuEntry} : u.matchesPath path ↔
    u.isCompileUnit ∧ getFilename u.name = getFilename path := by
  rw [CuEntry.matchesPath, Bool.and_eq_true, Bool.or_eq_true, beq_iff_eq, beq_iff_eq]
  constructor
  · rintro ⟨hu, hn | hf⟩
    · exact ⟨hu, congrArg getFilename hn⟩
    · exact ⟨hu, hf⟩
  · rintro ⟨hu, hf⟩
    exact ⟨hu, .inr hf⟩

theorem findCu_eq_some_iff : findCu path units = some u ↔
    (u.isCompileUnit ∧ getFilename u.name = getFilename path) ∧ ∃ before after,
      units = before ++ u :: after ∧
        ∀ v ∈ before, v.isCompileUnit → getFilename v.name ≠ getFilename path := by
  rw [findCu, List.find?_eq_some_iff_append, CuEntry.matchesPath_iff]
  simp only [Bool.not_eq_true', ← Bool.not_eq_true, CuEntry.matchesPath_iff, not_and]

theorem findDwarfDie_eq_some_iff : findDwarfDie name units = some u ↔
    (u.isCompileUnit ∧ name <:+: u.name) ∧ ∃ before after,
      units = before ++ u :: after ∧ ∀ v ∈ before, v.isCompileUnit → ¬ name <:+: v.name := by
  rw [findDwarfDie, List.find?_eq_some_iff_append]
  simp only [Bool.and_eq_true, decide_eq_true_eq, Bool.not_eq_true', ← Bool.not_eq_true, not_and]

theorem findCuName_of_findCu (h : findCu path units = some u) : findCuName path units = u.name := by
  rw [findCuName, h]

def cuNames (units : List CuEntry) : List (List Char) :=
  (units.filter (·.isCompileUnit)).map CuEntry.name

theorem mem_cuNames (hu : u ∈ units) (hc : u.isCompileUnit) : u.name ∈ cuNames units :=
  List.mem_map_of_mem (List.mem_filter.2 ⟨hu, hc⟩)

theorem cuNames_cons (hc : u.isCompileUnit = true) :
    cuNames (u :: units) = u.name :: cuNames units := by
  rw [cuNames, List.filter_cons_of_pos hc, List.map_cons]
  rfl

theorem nodup_tail (hn : (cuNames (v :: units)).Nodup) : (cuNames units).Nodup := by
  by_cases hv : v.isCompileUnit = true
  · rw [cuNames_cons hv] at hn
    exact hn.of_cons
  · rw [cuNames, List.filter_cons_of_neg hv] at hn
    exact hn

theorem before_unique (hn : (cuNames (before ++ u :: after)).Nodup) (hu : u.isCompileUnit)
    (h : before ++ u :: after = before' ++ u :: after') : before = before' := by
  have hf : ∀ b l : List CuEntry, (cuNames (u :: (b ++ u :: l))).Nodup → False := by
    intro b l hl
    rw [cuNames_cons hu, List.nodup_cons] at hl
    exact hl.1 (mem_cuNames (List.mem_append_right _ List.mem_cons_self) hu)
  induction before generalizing before' with
  | nil =>
    cases before' with
    | nil => rfl
    | cons w b =>
      rw [h] at hn
      rw [List.nil_append, List.cons_append, List.cons.injEq] at h
      rw [← h.1] at hn
      exact absurd hn (hf b after')
  | cons v before ih =>
    cases before' with
    | nil =>
      rw [List.nil_append, List.cons_append, List.cons.injEq] at h
      rw [List.cons_append, h.1] at hn
      exact absurd hn (hf before after)
    | cons w b =>
      rw [List.cons_append, List.cons_append, List.cons.injEq] at h
      rw [h.1, ih (nodup_tail hn) h.2]

theorem FindsUnit.inOrder (hn : (cuNames units).Nodup) (h : FindsUnit path units) :
    InOrder path units := by
  constructor
  · intro before u after hsp hu hfi hb
    have hf : findCu path units = some u :=
      findCu_eq_some_iff.2 ⟨⟨hu, hfi⟩, before, after, hsp, hb⟩
    have hdie := h.agree u hf
    rw [findCuName_of_findCu hf] at hdie
    obtain ⟨_, before', after', hs', hno⟩ := findDwarfDie_eq_some_iff.1 hdie
    have hp : before = before' := before_unique (hsp ▸ hn) hu (hsp.symm.trans hs')
    rw [hp]
    exact hno
  · intro before u after hsp hu hna
    have hmem : u ∈ units := hsp ▸ List.mem_append_right _ List.mem_cons_self
    obtain ⟨_, before', after', hs', hno⟩ := findCu_eq_some_iff.1 (h.exact u hmem hu hna)
    have hp : before = before' := before_unique (hsp ▸ hn) hu (hsp.symm.trans hs')
    rw [hp]
    exact hno

theorem InOrder.findsUnit (h : InOrder path units) : FindsUnit path units := by
  constructor
  · intro u hf
    obtain ⟨⟨hu, hfi⟩, before, after, hsp, hb⟩ := findCu_eq_some_iff.1 hf
    rw [findCuName_of_findCu hf]
    apply findDwarfDie_eq_some_iff.2
    exact ⟨⟨hu, List.infix_rfl⟩, before, after, hsp,
      h.contained before u after hsp hu hfi hb⟩
  · intro u hmem hu hn
    obtain ⟨before, after, hsp⟩ := List.append_of_mem hmem
    apply findCu_eq_some_iff.2
    exact ⟨⟨hu, congrArg getFilename hn⟩, before, after, hsp,
      h.shared before u after hsp hu hn⟩

theorem finds_unit_iff (units : List CuEntry) (hn : (cuNames units).Nodup) (path : List Char) :
    FindsUnit path units ↔ InOrder path units :=
  ⟨fun h => h.inOrder hn, fun h => h.findsUnit⟩

def bareUnit (name : List Char) : CuEntry := ⟨name, .node ⟨.compileUnit, none, none, none⟩ [], none⟩

theorem finds_unit_iff_two_units :
    let units := [bareUnit "src/foo.c".toList, bareUnit "src/bar.c".toList]
    (cuNames units).Nodup ∧
      (FindsUnit "/src/bar.c".toList units ↔ InOrder "/src/bar.c".toList units) :=
  ⟨by decide, finds_unit_iff _ (by decide) _⟩

/-- `foo.c` is found in the name of the unit before it, and of two with one file name the first is
taken. -/
theorem finds_other_unit : let units := [bareUnit "src/xfoo.c".toList, bareUnit "foo.c".toList]
    let units' := [bareUnit "/a/util.c".toList, bareUnit "/b/util.c".toList]
    ((cuNames units).Nodup ∧ findCuName "/foo.c".toList units = "foo.c".toList ∧
      (findDwarfDie "foo.c".toList units).map CuEntry.name = some "src/xfoo.c".toList) ∧
    (cuNames units').Nodup ∧ findCuName "/b/util.c".toList units' = "/a/util.c".toList := by
  decide

end Attune.Dwarf
