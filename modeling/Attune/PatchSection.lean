import Attune.UnifiedDiff

namespace Attune.Patch
open MuplayPatch Option Bool

variable {h : DiffHunk} {pt : MuplayPatch} {f : DiffFile} {d : Diff} {hs : List DiffHunk}
  {ls : List Line}

theorem scanNumbers_digits (hds : ∀ c ∈ ds, c.isDigit = true) :
    scanNumbers (ds ++ s) count (some n) = scanNumbers s count (some (Nat.ofDigitChars 10 ds n)) := by
  induction ds generalizing n with
  | nil => rfl
  | cons c ds ih =>
    have hc := hds c List.mem_cons_self
    simp only [List.cons_append, scanNumbers, hc, if_true, Nat.ofDigitChars_cons]
    rw [ih fun c hc => hds c (List.mem_cons_of_mem _ hc), Nat.mul_comm]
    rfl

theorem decimal_digits (n : Nat) : ∀ c ∈ decimal n, c.isDigit = true := by
  intro c hc
  exact Nat.isDigit_of_mem_toDigits (by decide) (by decide) hc

theorem isSpace_of_isDigit (hc : c.isDigit = true) : isSpace c = false ∧ c ≠ '@' := by
  have h : 48 ≤ c.toNat ∧ c.toNat ≤ 57 := by
    simp only [Char.isDigit, and_eq_true, decide_eq_true_eq, ge_iff_le,
      UInt32.le_iff_toNat_le] at hc
    exact hc
  constructor
  · have hb : c ≠ ' ' := by
      intro e
      subst e
      simp at h
    have h13 : ¬ c.toNat ≤ 13 := by omega
    simp [isSpace, hb, h13]
  · intro e
    subst e
    simp at h

theorem scanNumbers_decimal (hco : count ≤ 3) :
    scanNumbers (decimal n ++ s) count none = scanNumbers s count (some n) := by
  have hn : Nat.ofDigitChars 10 (decimal n) 0 = n := Nat.ofDigitChars_ten_toDigits
  have hdi := decimal_digits n
  cases hd : decimal n with
  | nil => exact absurd hd Nat.toDigits_ne_nil
  | cons c ds =>
    rw [hd] at hn hdi
    have hc := hdi c List.mem_cons_self
    obtain ⟨hsp, hat⟩ := isSpace_of_isDigit hc
    simp only [List.cons_append, scanNumbers, scanChar, hsp, hat, hc, if_true, if_false,
      false_eq_true, show ¬ 3 < count by omega]
    rw [scanNumbers_digits fun c hc => hdi c (List.mem_cons_of_mem _ hc)]
    simp only [Nat.ofDigitChars_cons, Nat.mul_zero, Nat.zero_add] at hn
    rw [digitValue, hn]

theorem scanNumbers_end (hc : c.isDigit = false) (hn : n ≤ intMax) :
    scanNumbers (c :: s) count (some n) = (n : Int) :: scanNumbers (c :: s) count none := by
  simp only [scanNumbers, hc, false_eq_true, if_false, show ¬ intMax < n by omega]

theorem scanNumbers_range (hc : c.isDigit = false) (hco : k ≤ 3) (hst : start ≤ intMax)
    (hlen : len.getD 1 ≤ intMax) :
    scanNumbers (renderRange start len ++ c :: s) k none =
      (start :: len.toList).map Int.ofNat ++ scanNumbers (c :: s) k none := by
  cases len with
  | none =>
    rw [renderRange, scanNumbers_decimal hco, scanNumbers_end hc hst]
    rfl
  | some len =>
    rw [renderRange, List.append_assoc, scanNumbers_decimal hco, List.cons_append,
      scanNumbers_end (by decide) hst]
    have hcom : ∀ s, scanNumbers (',' :: s) k none = scanNumbers s k none := by
      intro s
      simp [scanNumbers, scanChar, show ¬ 3 < k by omega, show isSpace ',' = false by decide]
    have hlen : len ≤ intMax := hlen
    rw [hcom, scanNumbers_decimal hco, scanNumbers_end hc hlen]
    rfl

theorem scanNumbers_done : scanNumbers s 4 none = [] := by
  induction s with
  | nil => rfl
  | cons c s ih =>
    simp only [scanNumbers, scanChar, ih]
    split <;> rfl

structure DiffHunk.Fits (h : DiffHunk) : Prop where
  old : h.oldStart ≤ intMax ∧ h.oldCount.getD 1 ≤ intMax
  new : h.newStart ≤ intMax ∧ h.newCount.getD 1 ≤ intMax

theorem DiffHunk.WellFormed.fits (hw : h.WellFormed) : h.Fits :=
  ⟨hw.oldFits, hw.newFits⟩

theorem DiffHunk.Fits.scan_header (hf : h.Fits) :
    scanNumbers h.header 0 none = (h.oldStart :: h.oldCount.toList).map Int.ofNat ++
      (h.newStart :: h.newCount.toList).map Int.ofNat := by
  have ho : ∀ s, scanNumbers ("@@ -".toList ++ s) 0 none = scanNumbers s 2 none := fun _ => rfl
  have hp : ∀ s, scanNumbers (' ' :: '+' :: s) 2 none = scanNumbers s 2 none := fun _ => rfl
  have hc : ∀ s, scanNumbers (' ' :: '@' :: '@' :: s) 2 none = scanNumbers s 4 none :=
    fun _ => rfl
  simp only [DiffHunk.header]
  rw [ho]
  simp only [String.reduceToList, List.cons_append, List.nil_append]
  rw [scanNumbers_range (by decide) (by decide) hf.old.1 hf.old.2, hp,
    scanNumbers_range (by decide) (by decide) hf.new.1 hf.new.2, hc, scanNumbers_done,
    List.append_nil]

def DiffHunk.Counted (h : DiffHunk) : Prop := h.oldCount.isSome ∧ h.newCount.isSome

instance (h : DiffHunk) : Decidable h.Counted :=
  inferInstanceAs (Decidable (h.oldCount.isSome ∧ h.newCount.isSome))

theorem DiffHunk.Fits.getLineNum_header (hf : h.Fits) : getLineNum h.header = if h.Counted then
      some (((h.oldStart : Int), (h.oldCount.getD 0 : Int)), ((h.newStart : Int),
        (h.newCount.getD 0 : Int))) else none := by
  rw [getLineNum, hf.scan_header]
  cases ho : h.oldCount with
  | none => cases hn : h.newCount <;> simp [DiffHunk.Counted, ho, hn]
  | some c =>
    cases hn : h.newCount with
    | none | some c' => simp [DiffHunk.Counted, ho, hn]

/-- The ranges that a header announces, where a length that is left out is 1. -/
def DiffHunk.ranges (h : DiffHunk) : (Int × Int) × (Int × Int) :=
  ((h.oldStart, (h.oldCount.getD 1 : Nat)), (h.newStart, (h.newCount.getD 1 : Nat)))

def DiffHunk.announced (name : Line) (h : DiffHunk) : Hunk :=
  { Hunk.empty with fileName := name, delLine := h.ranges.1, insLine := h.ranges.2 }

/-- A header gives its ranges to the current hunk exactly when no length is left out of it. -/
theorem hunk_header_read_iff (h : DiffHunk) (hf : h.Fits) (name : Line) (pt : MuplayPatch) :
    (getLineNum h.header = some h.ranges ∧
      pt.getHunkContent name h.header = some { pt with currenthk := h.announced name }) ↔
      h.Counted := by
  have hl := hf.getLineNum_header
  constructor
  · intro ⟨hr, _⟩
    by_contra hc
    rw [hl, if_neg hc] at hr
    cases hr
  · intro hc
    obtain ⟨b, hb⟩ := isSome_iff_exists.1 hc.1
    obtain ⟨d, hd⟩ := isSome_iff_exists.1 hc.2
    have hr : getLineNum h.header = some h.ranges := by
      rw [hl, if_pos hc, DiffHunk.ranges, hb, hd]
      rfl
    refine ⟨hr, ?_⟩
    rw [getHunkContent, hr]
    rfl

/-- Digits and `@` in the heading are not taken for a range. -/
theorem hunk_header_read_iff_heading :
    let h : DiffHunk := ⟨3, some 4, 5, some 6, " int f@@(7, 8)".toList, []⟩
    h.Fits ∧ getLineNum h.header = some ((3, 4), (5, 6)) := by
  intro h
  have hf : h.Fits := ⟨by decide, by decide⟩
  exact ⟨hf, ((hunk_header_read_iff h hf [] .new).2 (by decide)).1⟩

/-- The hunk that changes the only line of a file: two numbers are found where four are taken. -/
theorem hunk_header_misread : let h : DiffHunk := ⟨1, none, 1, none, " int f(7, 8)".toList, []⟩
    h.Fits ∧ h.header = "@@ -1 +1 @@ int f(7, 8)".toList ∧ h.ranges = ((1, 1), (1, 1)) ∧
      scanNumbers h.header 0 none = [1, 1] ∧ getLineNum h.header = none ∧
      MuplayPatch.new.getHunkContent [] h.header = none :=
  ⟨⟨by decide, by decide⟩, rfl, rfl, rfl, rfl, rfl⟩

def DiffHunk.raw (name : Line) (h : DiffHunk) : Hunk :=
  ⟨name, (h.oldStart, (h.oldCount.getD 0 : Nat)), (h.newStart, (h.newCount.getD 0 : Nat)),
    h.body.map DiffLine.render, [], []⟩

def sectionHunks (name : Line) : List DiffHunk → List Hunk
  | [] => [hkGenLineNum .empty]
  | hs => hs.map fun h => hkGenLineNum (h.raw name)

theorem readLines_cons (hs : "@@".toList.isPrefixOf s = false) :
    readLines name (s :: rest) pt = readLines name rest (pt.getHunkCode s) := by
  cases rest with
  | nil | cons s' rest => simp only [readLines, hs, false_eq_true, if_false]

theorem readLines_code (hls : ∀ l ∈ ls, "@@".toList.isPrefixOf l = false) :
    readLines name (ls ++ rest) pt = readLines name rest (ls.foldl MuplayPatch.getHunkCode pt) := by
  induction ls generalizing pt with
  | nil => rfl
  | cons l ls ih =>
    rw [List.cons_append, readLines_cons (hls l List.mem_cons_self),
      ih fun l hl => hls l (List.mem_cons_of_mem _ hl)]
    rfl

theorem foldl_getHunkCode_unnumbered (hpt : hkWhetherGetNumber pt.currenthk = false) :
    ls.foldl MuplayPatch.getHunkCode pt = pt := by
  induction ls with
  | nil => rfl
  | cons l ls ih =>
    have hst : pt.getHunkCode l = pt := by simp [getHunkCode, hpt]
    rw [List.foldl_cons, hst, ih]

theorem foldl_getHunkCode (hpt : hkWhetherGetNumber pt.currenthk = true) :
    ls.foldl MuplayPatch.getHunkCode pt =
      { pt with currenthk := { pt.currenthk with diffCode := pt.currenthk.diffCode ++ ls } } := by
  induction ls generalizing pt with
  | nil => simp
  | cons l ls ih =>
    have hst : pt.getHunkCode l = { pt with currenthk :=
        { pt.currenthk with diffCode := pt.currenthk.diffCode ++ [l] } } := by
      simp [getHunkCode, hpt]
    rw [List.foldl_cons, hst, ih]
    · simp
    · exact hpt

theorem render_not_header (l : DiffLine) : "@@".toList.isPrefixOf l.render = false := by
  obtain ⟨kind, text⟩ := l
  cases kind <;> rfl

theorem raw_numbered (name : Line) (h : DiffHunk) (code : List Line) :
    hkWhetherGetNumber { h.raw name with diffCode := code } = true := by
  have h0 : (((h.oldStart : Int), ((h.oldCount.getD 0 : Nat) : Int)) == (-1, -1)) = false := by
    rw [beq_eq_false_iff_ne]
    intro e
    have hst := congrArg Prod.fst e
    simp at hst
  simp only [hkWhetherGetNumber, DiffHunk.raw, h0, Bool.false_and, Bool.not_false]

theorem DiffHunk.WellFormed.readLines_hunk (hw : h.WellFormed) (hc : h.Counted) :
    readLines name (h.lines ++ rest) pt =
      readLines name rest { pt.whetherHunkFinish with currenthk := h.raw name } := by
  have hli := hw.fits.getLineNum_header
  rw [if_pos hc] at hli
  cases hb : h.body with
  | nil => exact absurd hb hw.body
  | cons l body =>
    have hh : "@@".toList.isPrefixOf h.header = true := rfl
    simp only [DiffHunk.lines, hb, List.map_cons, List.cons_append, readLines, hh, if_true,
      getHunkContent, hli, bind_eq_bind, bind_some, pure_def]
    have hco : ∀ l ∈ body.map DiffLine.render, "@@".toList.isPrefixOf l = false := by
      intro l hl
      obtain ⟨m, -, rfl⟩ := List.mem_map.1 hl
      exact render_not_header m
    rw [readLines_code hco, ← List.foldl_cons (f := getHunkCode),
      foldl_getHunkCode (raw_numbered name h [])]
    simp [DiffHunk.raw, Hunk.empty, hb]

theorem DiffHunk.WellFormed.readLines_uncounted (hw : h.WellFormed)
    (hc : ¬ h.Counted) : readLines name (h.lines ++ rest) pt = none := by
  have hl := hw.fits.getLineNum_header
  rw [if_neg hc] at hl
  have hh : "@@".toList.isPrefixOf h.header = true := rfl
  cases hb : h.body with
  | nil => exact absurd hb hw.body
  | cons l body =>
    simp only [DiffHunk.lines, hb, List.map_cons, List.cons_append, readLines, hh, if_true,
      getHunkContent, hl, bind_eq_bind, bind_none]

def MuplayPatch.closeHunk (pt : MuplayPatch) : MuplayPatch :=
  addHunkVec { pt with currenthk := hkGenLineNum pt.currenthk }

theorem readLines_hunks {pt : MuplayPatch} {hs : List DiffHunk} (hw : ∀ h ∈ hs, h.WellFormed)
    (hc : ∀ h ∈ hs, h.Counted) (hpt : pt.currenthk = h₀.raw name) :
    ∃ cur, (readLines name (hs.flatMap DiffHunk.lines) pt).map MuplayPatch.closeHunk =
      some { pt with
        hunks := pt.hunks ++ (h₀ :: hs).map fun h => hkGenLineNum (h.raw name)
        currenthk := cur } := by
  induction hs generalizing pt h₀ with
  | nil =>
    use hkGenLineNum (h₀.raw name)
    simp [readLines, closeHunk, addHunkVec, hpt]
  | cons h hs ih =>
    have hwh := hw h List.mem_cons_self
    have hf : pt.whetherHunkFinish = pt.closeHunk := by
      simp [whetherHunkFinish, hpt, raw_numbered name h₀ _, closeHunk]
    rw [List.flatMap_cons, hwh.readLines_hunk (hc h List.mem_cons_self)]
    obtain ⟨cur, hcur⟩ := @ih h { pt.whetherHunkFinish with currenthk := h.raw name }
      (fun h hh => hw h (List.mem_cons_of_mem _ hh)) (fun h hh => hc h (List.mem_cons_of_mem _ hh)) rfl
    use cur
    rw [hcur, hf]
    simp [closeHunk, addHunkVec, hpt]

theorem readLines_hunks_uncounted (hw : ∀ h ∈ hs, h.WellFormed) (hh : h ∈ hs)
    (hc : ¬ h.Counted) : readLines name (hs.flatMap DiffHunk.lines) pt = none := by
  induction hs generalizing pt with
  | nil => exact absurd hh List.not_mem_nil
  | cons h' hs ih =>
    have hwh := hw h' List.mem_cons_self
    rw [List.flatMap_cons]
    by_cases hc' : h'.Counted
    · rw [hwh.readLines_hunk hc']
      rcases List.mem_cons.1 hh with e | hmem
      · exact absurd (e ▸ hc') hc
      · exact ih (fun h hh => hw h (List.mem_cons_of_mem _ hh)) hmem
    · exact hwh.readLines_uncounted hc'

theorem DiffFile.WellFormed.readHunk_eq (hw : f.WellFormed) (name : Line) (pt : MuplayPatch) :
    readHunk f.lines name pt = (readLines name (f.hunks.flatMap DiffHunk.lines)
      { pt with currenthk := .empty }).map MuplayPatch.closeHunk := by
  have hh : ∀ l ∈ f.gitLine :: f.headers, "@@".toList.isPrefixOf l = false := by
    intro l hl
    rcases List.mem_cons.1 hl with rfl | hl
    · rfl
    · exact hw.headers l hl
  have hr : readLines name f.lines { pt with currenthk := .empty } =
      readLines name (f.hunks.flatMap DiffHunk.lines) { pt with currenthk := .empty } := by
    rw [DiffFile.lines, DiffFile.otherLines, ← List.cons_append, readLines_code hh,
      foldl_getHunkCode_unnumbered rfl]
  rw [readHunk, hr]
  cases readLines name (f.hunks.flatMap DiffHunk.lines) { pt with currenthk := .empty } <;> rfl

theorem DiffFile.WellFormed.readHunk_section (hw : f.WellFormed)
    (hc : ∀ h ∈ f.hunks, h.Counted) (name : Line) (pt : MuplayPatch) :
    ∃ cur, readHunk f.lines name pt = some { pt with
      hunks := pt.hunks ++ sectionHunks name f.hunks
      currenthk := cur } := by
  rw [hw.readHunk_eq]
  have hwh := hw.hunks
  cases hf : f.hunks with
  | nil => exact ⟨_, rfl⟩
  | cons h hs =>
    rw [hf] at hc hwh
    rw [List.flatMap_cons, (hwh h List.mem_cons_self).readLines_hunk (hc h List.mem_cons_self)]
    exact readLines_hunks (fun h hh => hwh h (List.mem_cons_of_mem _ hh))
      (fun h hh => hc h (List.mem_cons_of_mem _ hh)) rfl

theorem DiffFile.WellFormed.readHunk_uncounted (hw : f.WellFormed) (hh : h ∈ f.hunks)
    (hc : ¬ h.Counted) (name : Line) (pt : MuplayPatch) : readHunk f.lines name pt = none := by
  rw [hw.readHunk_eq, readLines_hunks_uncounted hw.hunks hh hc]
  rfl

/-- The hunks when names and sections have been paired; a name too many reads an empty section. -/
def filesHunks : List Line → List DiffFile → List Hunk
  | [], _ => []
  | _ :: names, [] => hkGenLineNum .empty :: filesHunks names []
  | name :: names, f :: files => sectionHunks name f.hunks ++ filesHunks names files

theorem Diff.filterdiff_drop (hd : d.files.drop i = f :: fs) :
    d.filterdiff (i + 1) = f.lines ∧ d.files.drop (i + 1) = fs := by
  constructor
  · have hget : d.files[i]? = some f := by
      rw [← List.head?_drop, hd]
      rfl
    simp [Diff.filterdiff, hget]
  · rw [← List.tail_drop, hd]
    rfl

theorem Diff.filterdiff_end (hd : d.files.drop i = []) :
    d.filterdiff (i + 1) = [] ∧ d.files.drop (i + 1) = [] := by
  have hlen : d.files.length ≤ i := List.drop_eq_nil_iff.1 hd
  constructor
  · simp [Diff.filterdiff, List.getElem?_eq_none hlen]
  · exact List.drop_eq_nil_iff.2 (Nat.le_succ_of_le hlen)

theorem readHunks_files (hw : d.WellFormed)
    (hc : ∀ f ∈ d.files, ∀ h ∈ f.hunks, h.Counted) (names : List Line) (i : Nat)
    (pt : MuplayPatch) :
    ∃ cur, readHunks d.filterdiff (i + 1) names pt = some { pt with
      hunks := pt.hunks ++ filesHunks names (d.files.drop i)
      currenthk := cur } := by
  induction names generalizing i pt with
  | nil => exact ⟨pt.currenthk, by simp [readHunks, filesHunks]⟩
  | cons name names ih =>
    cases hd : d.files.drop i with
    | nil =>
      obtain ⟨hl, hre⟩ := Diff.filterdiff_end hd
      obtain ⟨cur, hcur⟩ := ih (i + 1) ({ pt with currenthk := .empty } : MuplayPatch).closeHunk
      use cur
      have hr : readHunk [] name pt =
          some ({ pt with currenthk := .empty } : MuplayPatch).closeHunk := rfl
      rw [readHunks, hl, hr, bind_eq_bind, bind_some, hcur, hre]
      simp [filesHunks, closeHunk, addHunkVec]
    | cons f files =>
      obtain ⟨hl, hre⟩ := Diff.filterdiff_drop hd
      have hf : f ∈ d.files := List.mem_of_mem_drop (hd ▸ List.mem_cons_self)
      obtain ⟨cur, hr⟩ := (hw f hf).readHunk_section (hc f hf) name pt
      rw [readHunks, hl, hr, bind_eq_bind, bind_some]
      obtain ⟨cur', hcur⟩ := ih (i + 1) _
      use cur'
      rw [hcur, hre]
      simp [filesHunks]

theorem readHunks_uncounted (hw : d.WellFormed) (hh : h ∈ f.hunks) (hc : ¬ h.Counted)
    (names : List Line) (i : Nat) (hf : f ∈ (d.files.drop i).take names.length)
    (pt : MuplayPatch) : readHunks d.filterdiff (i + 1) names pt = none := by
  induction names generalizing i pt with
  | nil => exact absurd hf List.not_mem_nil
  | cons name names ih =>
    cases hd : d.files.drop i with
    | nil =>
      rw [hd, List.take_nil] at hf
      exact absurd hf List.not_mem_nil
    | cons f' files =>
      obtain ⟨hl, hre⟩ := Diff.filterdiff_drop hd
      have hf' : f' ∈ d.files := List.mem_of_mem_drop (hd ▸ List.mem_cons_self)
      rw [hd, List.length_cons, List.take_succ_cons] at hf
      rw [readHunks, hl]
      cases hr : readHunk f'.lines name pt with
      | none => rfl
      | some pt' =>
        rcases List.mem_cons.1 hf with rfl | hmem
        · rw [(hw f hf').readHunk_uncounted hh hc] at hr
          exact absurd hr (by simp)
        · exact ih (i + 1) (hre ▸ hmem) pt'

variable (entries : List (Line × FileLines))

theorem lookup_setLines (name name' : Line) (v : FileLines) :
    (MuplayPatch.setLines entries name v).lookup name' =
      if name' = name then some v else entries.lookup name' := by
  by_cases hn : name' = name
  · simp [setLines, hn]
  have hf : (entries.filter (·.1 != name)).lookup name' = entries.lookup name' := by
    induction entries with
    | nil => rfl
    | cons e entries ih =>
      obtain ⟨n, w⟩ := e
      by_cases he : n = name
      · have hne : (name' == n) = false := beq_eq_false_iff_ne.2 (he ▸ hn)
        simp [he, ih, List.lookup_cons, he ▸ hne]
      · simp only [bne_iff_ne, ne_eq, he, not_false_eq_true, List.filter_cons_of_pos,
          List.lookup_cons, ih]
  simp only [setLines, List.lookup_cons, beq_eq_false_iff_ne.2 hn, hn, if_false,
    hf]

def hunkNumbers (listed : Hunk → List Int) (hunks : List Hunk) (name : Line) : List Int :=
  (hunks.filter (·.fileName == name)).flatMap listed

theorem lookup_addModLines (hk : Hunk) (name : Line) :
    ((MuplayPatch.addModLines entries hk).lookup name).getD ⟨[], []⟩ =
      let old := (entries.lookup name).getD ⟨[], []⟩
      ⟨old.ins ++ hunkNumbers Hunk.insertionLines [hk] name,
        old.del ++ hunkNumbers Hunk.deletionLines [hk] name⟩ := by
  by_cases hn : name = hk.fileName
  · subst hn
    cases hl : entries.lookup hk.fileName <;>
      simp [addModLines, hl, lookup_setLines, hunkNumbers]
  · have hne : (hk.fileName == name) = false := beq_eq_false_iff_ne.2 (Ne.symm hn)
    cases hl : entries.lookup hk.fileName <;>
      simp [addModLines, hl, lookup_setLines, hunkNumbers, hn, hne]

theorem lookup_foldl_addModLines (hunks : List Hunk) (entries : List (Line × FileLines))
    (name : Line) :
    ((hunks.foldl MuplayPatch.addModLines entries).lookup name).getD ⟨[], []⟩ =
      let old := (entries.lookup name).getD ⟨[], []⟩
      ⟨old.ins ++ hunkNumbers Hunk.insertionLines hunks name,
        old.del ++ hunkNumbers Hunk.deletionLines hunks name⟩ := by
  induction hunks generalizing entries with
  | nil => simp [hunkNumbers]
  | cons hk hunks ih =>
    rw [List.foldl_cons, ih, lookup_addModLines]
    have hc : ∀ listed, hunkNumbers listed (hk :: hunks) name =
        hunkNumbers listed [hk] name ++ hunkNumbers listed hunks name := by
      intro listed
      rw [hunkNumbers, ← List.singleton_append, List.filter_append, List.flatMap_append]
      rfl
    simp only [hc, List.append_assoc]

end Attune.Patch
