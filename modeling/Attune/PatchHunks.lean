import Attune.PatchExact

namespace Attune.Patch
open List Option

def Hunk.bare (hk : Hunk) : Hunk := { hk with insertionLines := [], deletionLines := [] }

namespace Diff

/-- What `filterdiff` gives for the `i`-th section: nothing for one without hunks. -/
def sectionLines (d : Diff) (i : Nat) : List Line :=
  match d.files[i - 1]? with
  | some f => if f.hunks = [] then [] else f.lines
  | none => []

def namedHunks (d : Diff) : List (Line × DiffHunk) :=
  d.files.flatMap fun f => f.hunks.map fun h => (f.name, h)

/-- The patch is read, with every hunk once and in order under the name of its section, its ranges
and its lines. -/
def ReadInOrder (d : Diff) : Prop :=
  ∃ pt, readFile d.sectionLines d.text = some pt ∧
    pt.hunks.map Hunk.bare = d.namedHunks.map (fun e => e.2.raw e.1) ∧
    pt.hdFileName = (d.files.filter (·.hunks ≠ [])).map DiffFile.name

/-- No other line mentions `diff --git`, every section has hunks, and the names have the words
looked for. -/
structure Sectioned (d : Diff) : Prop where
  gitLines : ∀ l ∈ d.preamble ++ d.files.flatMap DiffFile.otherLines,
    findText "diff --git".toList l = none
  hunks : ∀ f ∈ d.files, f.hunks ≠ []
  names : ∀ f ∈ d.files, f.wordsName = f.name

end Diff

theorem hkGenLineNum_bare (hk : Hunk) : (hkGenLineNum hk).bare = hk.bare := by
  rw [hkGenLineNum]
  split
  · rfl
  · split <;> rfl

theorem Diff.sectionLines_eq {d : Diff} (hne : ∀ f ∈ d.files, f.hunks ≠ []) :
    d.sectionLines = d.filterdiff := by
  funext i
  rw [Diff.sectionLines, Diff.filterdiff]
  cases hf : d.files[i - 1]? with
  | none => rfl
  | some f => exact if_neg (hne f (mem_of_getElem? hf))

theorem filesHunks_eq {fs : List DiffFile} (hne : ∀ f ∈ fs, f.hunks ≠ [])
    (hn : ∀ f ∈ fs, f.wordsName = f.name) :
    filesHunks (fs.map DiffFile.wordsName) fs =
      (fs.flatMap fun f => f.hunks.map fun h => (f.name, h)).map
        fun e => hkGenLineNum (e.2.raw e.1) := by
  induction fs with
  | nil => rfl
  | cons f fs ih =>
    have hr := ih (fun f hf => hne f (mem_cons_of_mem _ hf))
      fun f hf => hn f (mem_cons_of_mem _ hf)
    have hse : sectionHunks f.wordsName f.hunks =
        (f.hunks.map fun h => (f.name, h)).map fun e => hkGenLineNum (e.2.raw e.1) := by
      rw [hn f List.mem_cons_self, List.map_map]
      cases hh : f.hunks with
      | nil => exact absurd hh (hne f mem_cons_self)
      | cons h hs => rfl
    rw [map_cons, filesHunks, hr, hse, flatMap_cons, map_append]

theorem Diff.Sectioned.readFile_eq {d : Diff} (hs : d.Sectioned) (hw : d.WellFormed)
    (hc : ∀ f ∈ d.files, ∀ h ∈ f.hunks, h.Counted) :
    ∃ cur, readFile d.sectionLines d.text = some (MuplayPatch.getAllModLinesForFiles
      ⟨d.wordsNames, d.namedHunks.map fun e => hkGenLineNum (e.2.raw e.1), cur, []⟩) := by
  obtain ⟨cur, hr⟩ := readFile_filesHunks hw hc
  have hh : filesHunks d.wordsNames d.files = _ := filesHunks_eq hs.hunks hs.names
  rw [← Diff.sectionLines_eq hs.hunks, hw.readNames_eq hs.gitLines, hh] at hr
  exact ⟨cur, hr⟩

section
variable {pt pt' : MuplayPatch}

theorem getHunkCode_hdFileName (s : Line) : (pt.getHunkCode s).hdFileName = pt.hdFileName := by
  rw [MuplayPatch.getHunkCode]
  split <;> rfl

theorem whetherHunkFinish_hdFileName : pt.whetherHunkFinish.hdFileName = pt.hdFileName := by
  rw [MuplayPatch.whetherHunkFinish]
  split <;> rfl

theorem getHunkContent_hdFileName (h : pt.getHunkContent name s = some pt') :
    pt'.hdFileName = pt.hdFileName := by
  obtain ⟨ranges, _, hpt⟩ := bind_eq_some_iff.1 h
  cases hpt
  rfl

theorem header_hdFileName (h : pt.whetherHunkFinish.getHunkContent name s = some pt') (s' : Line) :
    (pt'.getHunkCode s').hdFileName = pt.hdFileName := by
  rw [getHunkCode_hdFileName, getHunkContent_hdFileName h, whetherHunkFinish_hdFileName]

theorem readLines_hdFileName (h : readLines name lines pt = some pt') :
    pt'.hdFileName = pt.hdFileName := by
  induction lines, pt using readLines.induct with
  | case1 pt =>
    cases h
    rfl
  | case2 s pt hs =>
    rw [readLines, if_pos hs] at h
    obtain ⟨pt₁, hc, h⟩ := bind_eq_some_iff.1 h
    cases h
    exact header_hdFileName hc []
  | case3 s pt hs =>
    rw [readLines, if_neg hs] at h
    cases h
    exact getHunkCode_hdFileName s
  | case4 s s' rest pt hs ih =>
    rw [readLines, if_pos hs] at h
    obtain ⟨pt₁, hc, h⟩ := bind_eq_some_iff.1 h
    exact (ih pt₁ h).trans (header_hdFileName hc s')
  | case5 s s' rest pt hs ih =>
    rw [readLines, if_neg hs] at h
    exact (ih h).trans (getHunkCode_hdFileName s)

theorem readHunk_hdFileName (h : readHunk file name pt = some pt') :
    pt'.hdFileName = pt.hdFileName := by
  obtain ⟨pt₁, hr, h⟩ := bind_eq_some_iff.1 h
  cases h
  have hn := readLines_hdFileName hr
  exact hn

theorem readHunks_hdFileName (h : readHunks output i names pt = some pt') :
    pt'.hdFileName = pt.hdFileName := by
  induction names generalizing i pt with
  | nil =>
    cases h
    rfl
  | cons name names ih =>
    obtain ⟨pt₁, hr, h⟩ := bind_eq_some_iff.1 h
    exact (ih h).trans (readHunk_hdFileName hr)

end

theorem Diff.readFile_hdFileName {d : Diff} (h : readFile output d.text = some pt) :
    pt.hdFileName = d.readNames := by
  obtain ⟨pt₁, hr, h⟩ := bind_eq_some_iff.1 h
  cases h
  exact readHunks_hdFileName hr

/-- As many names as sections with hunks: no stray line has one, and no section is without hunks. -/
theorem Diff.sectioned_of_names {d : Diff} (hw : d.WellFormed)
    (h : d.readNames = (d.files.filter (·.hunks ≠ [])).map DiffFile.name) : d.Sectioned := by
  have hlen := congrArg length h
  rw [length_map] at hlen
  have hle := length_filter_le (fun f : DiffFile => decide (f.hunks ≠ [])) d.files
  have hge := d.readNames_length
  have hgit := d.readNames_length_eq.1 (by omega)
  have hall : d.files.filter (·.hunks ≠ []) = d.files := by
    apply filter_eq_self.2
    apply length_filter_eq_length_iff.1
    omega
  refine ⟨hgit, ?_, ?_⟩
  · intro f hf
    exact of_decide_eq_true (filter_eq_self.1 hall f hf)
  · rw [hw.readNames_eq hgit, hall] at h
    exact map_inj_left.1 h

theorem Diff.Sectioned.readInOrder {d : Diff} (hs : d.Sectioned) (hw : d.WellFormed)
    (hc : ∀ f ∈ d.files, ∀ h ∈ f.hunks, h.Counted) : d.ReadInOrder := by
  obtain ⟨cur, hr⟩ := hs.readFile_eq hw hc
  refine ⟨_, hr, ?_, ?_⟩
  · rw [MuplayPatch.getAllModLinesForFiles, List.map_map]
    apply map_congr_left
    intro e _
    exact hkGenLineNum_bare _
  · have hall : d.files.filter (·.hunks ≠ []) = d.files :=
      filter_eq_self.2 fun f hf => decide_eq_true (hs.hunks f hf)
    rw [hall]
    exact map_congr_left hs.names

theorem Diff.ReadInOrder.sectioned {d : Diff} (hr : d.ReadInOrder) (hw : d.WellFormed) :
    d.Sectioned := by
  obtain ⟨pt, hre, _, hn⟩ := hr
  apply Diff.sectioned_of_names hw
  rw [← Diff.readFile_hdFileName hre, hn]

/-- The hunks are read one for one, each under the name of its section, for these patches and no
others. -/
theorem hunks_read_in_order_iff (d : Diff) (hw : d.WellFormed)
    (hc : ∀ f ∈ d.files, ∀ h ∈ f.hunks, h.Counted) : d.ReadInOrder ↔ d.Sectioned :=
  ⟨fun hr => hr.sectioned hw, fun hs => hs.readInOrder hw hc⟩

instance (h : DiffHunk) : Decidable h.WellFormed :=
  decidable_of_iff (h.body ≠ [] ∧ (h.Has .deletion → 1 ≤ h.oldStart) ∧
      (h.Has .insertion → 1 ≤ h.newStart) ∧ (h.oldStart ≤ intMax ∧ h.oldCount.getD 1 ≤ intMax) ∧
      h.newStart ≤ intMax ∧ h.newCount.getD 1 ≤ intMax)
    ⟨fun ⟨hb, ho, hn, hof, hnf⟩ => ⟨hb, ho, hn, hof, hnf⟩,
      fun ⟨hb, ho, hn, hof, hnf⟩ => ⟨hb, ho, hn, hof, hnf⟩⟩

instance (f : DiffFile) : Decidable f.WellFormed :=
  decidable_of_iff (f.oldName.head?.any (!isSpace ·) = true ∧
      f.newName.head?.any (!isSpace ·) = true ∧
      (∀ l ∈ f.headers, "@@".toList.isPrefixOf l = false) ∧ ∀ h ∈ f.hunks, h.WellFormed) <| by
    simp only [Option.any_eq_true, Bool.not_eq_true']
    constructor
    · rintro ⟨⟨c, hc, ho⟩, ⟨c', hc', hn⟩, hl, hh⟩
      exact ⟨⟨c, hc, ho⟩, ⟨c', hc', hn⟩, hl, hh⟩
    · rintro ⟨⟨c, hc, ho⟩, ⟨c', hc', hn⟩, hl, hh⟩
      exact ⟨⟨c, hc, ho⟩, ⟨c', hc', hn⟩, hl, hh⟩

instance (d : Diff) : Decidable d.WellFormed :=
  inferInstanceAs (Decidable (∀ f ∈ d.files, f.WellFormed))

def twoFiles : Diff :=
  ⟨["Fix both".toList],
    [⟨"a/x.c".toList, "b/x.c".toList, ["--- a/x.c".toList, "+++ b/x.c".toList],
      [⟨1, some 1, 1, some 1, [], [⟨.deletion, "@@ f".toList⟩, ⟨.insertion, "++ g".toList⟩]⟩]⟩,
    ⟨"a/y.c".toList, "b/y.c".toList, ["--- a/y.c".toList, "+++ b/y.c".toList],
      [⟨7, some 1, 7, some 1, [], [⟨.deletion, "-- h".toList⟩, ⟨.insertion, "k".toList⟩]⟩]⟩]⟩

theorem hunks_read_in_order_iff_two_files :
    twoFiles.WellFormed ∧ twoFiles.Sectioned ∧ twoFiles.ReadInOrder := by
  have hw : twoFiles.WellFormed := by decide
  have hc : ∀ f ∈ twoFiles.files, ∀ h ∈ f.hunks, h.Counted := by decide
  have hs : twoFiles.Sectioned := ⟨by decide +kernel, by decide +kernel, by decide +kernel⟩
  exact ⟨hw, hs, (hunks_read_in_order_iff twoFiles hw hc).2 hs⟩

def changedMode : Diff :=
  ⟨[], changedLine.files ++ [⟨"a/run.sh".toList, "b/run.sh".toList,
    ["old mode 100644".toList, "new mode 100755".toList], []⟩]⟩

def nestedPatch : Diff :=
  oneHunk 1 2 [⟨.context, "int x;".toList⟩, ⟨.insertion, "diff --git a/y.c b/y.c".toList⟩]

/-- Both leave a hunk without a name and a name without a hunk. -/
theorem hunks_misread :
    (changedMode.WellFormed ∧ (readFile changedMode.sectionLines changedMode.text).map
      (fun pt => (pt.hdFileName, pt.hunks.map Hunk.fileName)) =
        some (["/src/x.c".toList, "/run.sh".toList], ["/src/x.c".toList, []]) ∧
      ¬ changedMode.ReadInOrder) ∧
    nestedPatch.WellFormed ∧ (readFile nestedPatch.sectionLines nestedPatch.text).map
      (fun pt => (pt.hdFileName, pt.hunks.map Hunk.fileName)) =
        some (["/src/x.c".toList, "/y.c".toList], ["/src/x.c".toList, []]) ∧
      ¬ nestedPatch.ReadInOrder := by
  refine ⟨⟨by decide +kernel, by decide +kernel, ?_⟩, by decide +kernel, by decide +kernel, ?_⟩
  · intro hr
    exact absurd (hr.sectioned (by decide +kernel)).hunks (by decide +kernel)
  · intro hr
    exact absurd (hr.sectioned (by decide +kernel)).gitLines (by decide +kernel)

end Attune.Patch
