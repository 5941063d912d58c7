import Attune.PatchSection

namespace Attune.Patch
open List Option LineKind

def markerToo (counts : LineKind → Bool) (kind : LineKind) : Bool :=
  counts kind || decide (kind = .noNewline)

theorem lineNumbers_length (kind : LineKind) (counts : LineKind → Bool) (n : Nat)
    (body : List DiffLine) :
    (lineNumbers kind counts n body).length = body.countP (·.kind = kind) := by
  induction body generalizing n with
  | nil => rfl
  | cons l body ih =>
    by_cases hl : l.kind = kind <;> simp [lineNumbers, hl, ih]

theorem lineNumbers_ne_nil : lineNumbers kind counts n body ≠ [] ↔ ∃ l ∈ body, l.kind = kind := by
  rw [← length_pos_iff, lineNumbers_length, countP_pos_iff]
  simp

theorem le_of_mem_lineNumbers (hm : m ∈ lineNumbers kind counts n body) : n ≤ m := by
  induction body generalizing n with
  | nil => exact absurd hm not_mem_nil
  | cons l body ih =>
    by_cases hl : l.kind = kind
    · simp only [lineNumbers, hl, if_true] at hm
      rcases mem_cons.1 hm with rfl | hm
      · exact Nat.le_refl _
      · exact Nat.le_trans (Nat.le_add_right _ _) (ih hm)
    · simp only [lineNumbers, hl, if_false] at hm
      exact Nat.le_trans (Nat.le_add_right _ _) (ih hm)

theorem toNat_le_markerToo (counts : LineKind → Bool) (kind : LineKind) :
    (counts kind).toNat ≤ (markerToo counts kind).toNat := by
  cases hk : counts kind <;> simp [markerToo, hk]

theorem MarkersLast.lineNumbers_eq (hb : MarkersLast kind body)
    (counts : LineKind → Bool) (n : Nat) :
    lineNumbers kind (markerToo counts) n body = lineNumbers kind counts n body := by
  induction body generalizing n with
  | nil => rfl
  | cons l body ih =>
    obtain ⟨hl, hb⟩ := hb
    by_cases hm : l.kind = .noNewline
    · have hn : ¬ ∃ m ∈ body, m.kind = kind := by
        intro ⟨m, hmem, e⟩
        exact hl hm m hmem e
      have hnil : ∀ counts n, lineNumbers kind counts n body = [] := by
        intro counts n
        exact not_not.1 (mt lineNumbers_ne_nil.1 hn)
      simp only [lineNumbers, hnil]
    · have hsa : markerToo counts l.kind = counts l.kind := by simp [markerToo, hm]
      simp only [lineNumbers, hsa, ih hb]

theorem sum_lineNumbers (kind : LineKind) (counts : LineKind → Bool)
    (hco : counts .noNewline = false) (body : List DiffLine) (hmn : m ≤ n) :
    (lineNumbers kind counts m body).sum ≤ (lineNumbers kind (markerToo counts) n body).sum ∧
    ((m < n ∧ ∃ l ∈ body, l.kind = kind) ∨ ¬ MarkersLast kind body →
      (lineNumbers kind counts m body).sum < (lineNumbers kind (markerToo counts) n body).sum) := by
  induction body generalizing m n with
  | nil =>
    refine ⟨Nat.le_refl _, ?_⟩
    rintro (⟨_, _, hl, _⟩ | hb)
    · exact absurd hl not_mem_nil
    · exact absurd trivial hb
  | cons l body ih =>
    have hma := toNat_le_markerToo counts l.kind
    obtain ⟨hle, hlt⟩ := ih (Nat.add_le_add hmn hma)
    have hr (hb : ¬ MarkersLast kind (l :: body)) := by
      apply hlt
      by_cases hbo : MarkersLast kind body
      · simp only [MarkersLast, hbo, and_true, Classical.not_imp, not_forall, not_not] at hb
        obtain ⟨hm, l', hl', hki⟩ := hb
        refine .inl ⟨?_, l', hl', hki⟩
        simp only [hm, hco, markerToo, Bool.false_or, decide_true, Bool.toNat_false,
          Bool.toNat_true]
        omega
      · exact .inr hbo
    by_cases hl : l.kind = kind
    · simp only [lineNumbers, hl, if_true, sum_cons] at hle hr ⊢
      refine ⟨by omega, ?_⟩
      rintro (⟨hmn, _⟩ | hb)
      · omega
      · have := hr hb
        omega
    · simp only [lineNumbers, hl, if_false]
      refine ⟨hle, ?_⟩
      rintro (⟨hmn, hk⟩ | hb)
      · exact hlt (.inl ⟨Nat.add_lt_add_of_lt_of_le hmn hma, by simpa [hl] using hk⟩)
      · exact hr hb

namespace DiffHunk

def countedDeleted (h : DiffHunk) : List Nat :=
  lineNumbers .deletion (markerToo LineKind.inOld) h.oldStart h.body

def countedInserted (h : DiffHunk) : List Nat :=
  lineNumbers .insertion (markerToo LineKind.inNew) h.newStart h.body

end DiffHunk

theorem foldl_genLine {hk : Hunk} {o n : Nat} (ho : hk.delLine.1 = o) (hn : hk.insLine.1 = n)
    (body : List DiffLine) (g : GenState) :
    let g' := (body.map DiffLine.render).foldl (genLine hk) g
    g'.deletionLines = g.deletionLines ++
      (lineNumbers .deletion (markerToo LineKind.inOld) (o + g.delOffset) body).map Int.ofNat ∧
    g'.insertionLines = g.insertionLines ++
      (lineNumbers .insertion (markerToo LineKind.inNew) (n + g.insOffset) body).map Int.ofNat ∧
    g'.delSize = g.delSize + body.countP (·.kind = .deletion) ∧
    g'.insSize = g.insSize + body.countP (·.kind = .insertion) := by
  induction body generalizing g with
  | nil => simp [lineNumbers]
  | cons l body ih =>
    obtain ⟨kind, text⟩ := l
    have hr := ih (genLine hk g (DiffLine.render ⟨kind, text⟩))
    cases kind with
    | context =>
      simpa [genLine, DiffLine.render, lineNumbers, markerToo, inOld, inNew,
        Nat.add_assoc] using hr
    | deletion =>
      simpa [genLine, DiffLine.render, lineNumbers, markerToo, inOld, inNew, ho,
        Nat.add_assoc, Nat.add_comm, Nat.add_left_comm] using hr
    | insertion =>
      simpa [genLine, DiffLine.render, lineNumbers, markerToo, inOld, inNew, hn,
        Nat.add_assoc, Nat.add_comm, Nat.add_left_comm] using hr
    | noNewline =>
      simpa [genLine, DiffLine.render, lineNumbers, markerToo, inOld, inNew,
        Nat.add_assoc] using hr

theorem DiffHunk.has_iff_countP (h : DiffHunk) (kind : LineKind) :
    h.Has kind ↔ h.body.countP (·.kind = kind) ≠ 0 := by
  rw [← Nat.pos_iff_ne_zero, countP_pos_iff]
  simp [DiffHunk.Has]

theorem hkGenLineNum_raw {h : DiffHunk} (hb : h.Has .deletion ∧ h.Has .insertion) (name : Line) :
    hkGenLineNum (h.raw name) = { h.raw name with
      deletionLines := h.countedDeleted.map Int.ofNat
      insertionLines := h.countedInserted.map Int.ofNat } := by
  obtain ⟨hdel, hins, hde, hin⟩ :=
    @foldl_genLine (h.raw name) h.oldStart h.newStart rfl rfl h.body ⟨0, 0, [], [], 0, 0⟩
  have hd := (h.has_iff_countP .deletion).1 hb.1
  have hi := (h.has_iff_countP .insertion).1 hb.2
  rw [← Nat.zero_add (countP _ _), ← hde] at hd
  rw [← Nat.zero_add (countP _ _), ← hin] at hi
  simp only [nil_append, Nat.add_zero] at hdel hins
  calc
    hkGenLineNum (h.raw name) = _ := (if_neg hd).trans (if_neg hi)
    _ = _ := congrArg₂ (fun ins del =>
      { h.raw name with insertionLines := ins, deletionLines := del }) hins hdel

theorem zero_mem_hkGenLineNum {h : DiffHunk} (hb : ¬ (h.Has .deletion ∧ h.Has .insertion))
    (name : Line) : 0 ∈ (hkGenLineNum (h.raw name)).insertionLines ∨
      0 ∈ (hkGenLineNum (h.raw name)).deletionLines := by
  obtain ⟨-, -, hde, hin⟩ :=
    @foldl_genLine (h.raw name) h.oldStart h.newStart rfl rfl h.body ⟨0, 0, [], [], 0, 0⟩
  rw [h.has_iff_countP, h.has_iff_countP] at hb
  simp only [Nat.zero_add] at hde hin
  rw [← hde, ← hin] at hb
  rw [hkGenLineNum]
  split
  · exact .inr (mem_append_right _ (mem_singleton.2 rfl))
  · split
    · exact .inl (mem_append_right _ (mem_singleton.2 rfl))
    · rename_i hd hi
      exact absurd ⟨hd, hi⟩ hb

@[simp] theorem hkGenLineNum_fileName (hk : Hunk) : (hkGenLineNum hk).fileName = hk.fileName := by
  rw [hkGenLineNum]
  split
  · rfl
  · split <;> rfl

theorem hunkNumbers_append (listed : Hunk → List Int) (hunks hu' : List Hunk) (name : Line) :
    hunkNumbers listed (hunks ++ hu') name =
      hunkNumbers listed hunks name ++ hunkNumbers listed hu' name := by
  rw [hunkNumbers, filter_append, flatMap_append]
  rfl

theorem numbersAs_cons (numbers : DiffFile → List Nat) (n : Line) (ns : List Line) (f : DiffFile)
    (fs : List DiffFile) (name : Line) : Diff.numbersAs (n :: ns) (f :: fs) numbers name =
      (if n = name then numbers f else []) ++ Diff.numbersAs ns fs numbers name := by
  by_cases hn : n = name
  · simp [Diff.numbersAs, hn]
  · simp [Diff.numbersAs, hn]

theorem hunkNumbers_section {listed : Hunk → List Int} {counted : DiffHunk → List Nat}
    {hs : List DiffHunk}
    (hl : ∀ h ∈ hs, ∀ name, listed (hkGenLineNum (h.raw name)) = (counted h).map Int.ofNat)
    (hne : hs ≠ []) (n name : Line) :
    hunkNumbers listed (sectionHunks n hs) name =
      (if n = name then hs.flatMap counted else []).map Int.ofNat := by
  have hse : sectionHunks n hs = hs.map fun h => hkGenLineNum (h.raw n) := by
    cases hs with
    | nil => exact absurd rfl hne
    | cons h hs => rfl
  rw [hse]
  clear hse hne
  induction hs with
  | nil => simp [hunkNumbers]
  | cons h hs ih =>
    have hr := ih fun h hh => hl h (mem_cons_of_mem _ hh)
    have hhe : hunkNumbers listed [hkGenLineNum (h.raw n)] name =
        (if n = name then counted h else []).map Int.ofNat := by
      have hna : (h.raw n).fileName = n := rfl
      by_cases hn : n = name
      · subst hn
        simp [hunkNumbers, hna, ← hl h mem_cons_self n]
      · simp [hunkNumbers, hna, hn, beq_eq_false_iff_ne.2 hn]
    rw [map_cons, ← singleton_append, hunkNumbers_append, hhe, hr, ← map_append]
    split <;> simp

variable {fs : List DiffFile}

theorem hunkNumbers_filesHunks {listed : Hunk → List Int} {counted : DiffHunk → List Nat} {ns : List Line}
    (hl : ∀ f ∈ fs, ∀ h ∈ f.hunks, ∀ name,
      listed (hkGenLineNum (h.raw name)) = (counted h).map Int.ofNat)
    (hne : ∀ f ∈ fs, f.hunks ≠ []) (hlen : ns.length = fs.length) (name : Line) :
    hunkNumbers listed (filesHunks ns fs) name =
      (Diff.numbersAs ns fs (fun f => f.hunks.flatMap counted) name).map Int.ofNat := by
  induction fs generalizing ns with
  | nil =>
    cases ns with
    | nil => rfl
    | cons n ns => exact absurd hlen (by simp)
  | cons f fs ih =>
    cases ns with
    | nil => exact absurd hlen (by simp)
    | cons n ns =>
      have hr := ih (fun f hf => hl f (mem_cons_of_mem _ hf))
        (fun f hf => hne f (mem_cons_of_mem _ hf)) (Nat.succ.inj hlen)
      rw [filesHunks, hunkNumbers_append, hr, numbersAs_cons, map_append,
        hunkNumbers_section (hl f mem_cons_self) (hne f mem_cons_self)]

/-- Without a line 0 there is a section for every name, and every hunk deletes and inserts. -/
theorem both_of_no_zero {ns : List Line} (hlen : fs.length ≤ ns.length)
    (h0 : ∀ hk ∈ filesHunks ns fs, 0 ∉ hk.insertionLines ∧ 0 ∉ hk.deletionLines) :
    ns.length = fs.length ∧ ∀ f ∈ fs, f.hunks ≠ [] ∧
      ∀ h ∈ f.hunks, h.Has .deletion ∧ h.Has .insertion := by
  have he : 0 ∈ (hkGenLineNum .empty).deletionLines := mem_singleton.2 rfl
  induction fs generalizing ns with
  | nil =>
    cases ns with
    | nil => exact ⟨rfl, fun f hf => absurd hf not_mem_nil⟩
    | cons n ns => exact absurd he (h0 _ mem_cons_self).2
  | cons f fs ih =>
    cases ns with
    | nil => exact absurd hlen (by simp)
    | cons n ns =>
      obtain ⟨hl', hr⟩ := ih (Nat.le_of_succ_le_succ hlen) fun hk hhk =>
        h0 hk (mem_append_right _ hhk)
      have hne : f.hunks ≠ [] := by
        intro hnil
        apply (h0 (hkGenLineNum .empty) _).2 he
        rw [filesHunks, hnil]
        exact mem_cons_self
      have hb : ∀ h ∈ f.hunks, h.Has .deletion ∧ h.Has .insertion := by
        intro h hh
        have hmem : hkGenLineNum (h.raw n) ∈ filesHunks (n :: ns) (f :: fs) := by
          apply mem_append_left
          cases hf : f.hunks with
          | nil => exact absurd hf hne
          | cons h' hs => exact mem_map.2 ⟨h, hf ▸ hh, rfl⟩
        by_contra hno
        rcases zero_mem_hkGenLineNum hno n with hz | hz
        · exact (h0 _ hmem).1 hz
        · exact (h0 _ hmem).2 hz
      constructor
      · rw [length_cons, length_cons, hl']
      · intro f' hf'
        rcases mem_cons.1 hf' with rfl | hmem
        · exact ⟨hne, hb⟩
        · exact hr f' hmem

theorem gitNames_length (old new : Line) (ls : List Line) : (gitNames old new ls).length =
    ls.countP fun l => (findText "diff --git".toList l).isSome := by
  induction ls generalizing old new with
  | nil => rfl
  | cons l ls ih =>
    by_cases hl : (findText "diff --git".toList l).isSome = true
    · simp only [gitNames, hl, if_true, length_cons, ih, countP_cons_of_pos]
    · simp only [gitNames, hl, if_false, ih, not_false_eq_true, countP_cons_of_neg,
        Bool.false_eq_true]

theorem countP_lines (fs : List DiffFile) :
    ((fs.flatMap DiffFile.lines).countP fun l => (findText "diff --git".toList l).isSome) =
      fs.length + (fs.flatMap DiffFile.otherLines).countP
        fun l => (findText "diff --git".toList l).isSome := by
  induction fs with
  | nil => rfl
  | cons f fs ih =>
    have hgit : (findText "diff --git".toList f.gitLine).isSome = true := rfl
    simp only [flatMap_cons, countP_append, DiffFile.lines, hgit, length_cons, ih,
      countP_cons_of_pos]
    omega

def Diff.readNames (d : Diff) : List Line := gitNames [] [] d.text

theorem Diff.readNames_length (d : Diff) : d.readNames.length = d.files.length +
    (d.preamble ++ d.files.flatMap DiffFile.otherLines).countP
      fun l => (findText "diff --git".toList l).isSome := by
  rw [Diff.readNames, gitNames_length, Diff.text, countP_append, countP_lines,
    countP_append]
  omega

theorem Diff.readNames_length_eq (d : Diff) : d.readNames.length = d.files.length ↔
    ∀ l ∈ d.preamble ++ d.files.flatMap DiffFile.otherLines,
      findText "diff --git".toList l = none := by
  have hz : (d.preamble ++ d.files.flatMap DiffFile.otherLines).countP
      (fun l => (findText "diff --git".toList l).isSome) = 0 ↔
      ∀ l ∈ d.preamble ++ d.files.flatMap DiffFile.otherLines,
        findText "diff --git".toList l = none := by
    rw [countP_eq_zero]
    simp only [not_isSome_iff_eq_none]
  rw [← hz, d.readNames_length]
  omega

theorem words_append_space (a b acc : Line) :
    words (a ++ ' ' :: b) acc = words a acc ++ words b [] := by
  induction a generalizing acc with
  | nil =>
    have hsp : isSpace ' ' = true := rfl
    simp only [nil_append, words, hsp, if_true]
    split <;> rfl
  | cons c a ih =>
    simp only [cons_append, words, ih]
    split
    · split <;> rfl
    · rfl

theorem words_ne_nil (hacc : acc ≠ []) : words s acc ≠ [] := by
  induction s generalizing acc with
  | nil => simp [words, hacc]
  | cons c s ih =>
    simp only [words, List.isEmpty_iff, hacc, if_false]
    split
    · exact List.cons_ne_nil _ _
    · exact ih (by simp)

theorem words_of_head {s : Line} (hs : ∃ c ∈ s.head?, isSpace c = false) : words s [] ≠ [] := by
  obtain ⟨c, hc, hsp⟩ := hs
  cases s with
  | nil => exact absurd hc (by simp)
  | cons c' s =>
    obtain rfl : c' = c := some.inj hc
    simp only [words, hsp, Bool.false_eq_true, if_false]
    exact words_ne_nil (by simp)

theorem words_gitLine (f : DiffFile) : words f.gitLine [] =
    "diff".toList :: "--git".toList :: (words f.oldName [] ++ words f.newName []) := by
  rw [← words_append_space]
  rfl

/-- The git line of a section has its four words, so none is left over from the section before. -/
theorem DiffFile.WellFormed.gitName_gitLine {f : DiffFile} (hw : f.WellFormed) (old new : Line) :
    getFileName (gitName old new f.gitLine).1 (gitName old new f.gitLine).2 = f.wordsName := by
  have hold := words_of_head hw.oldName
  have hnew := words_of_head hw.newName
  rw [gitName, DiffFile.wordsName, words_gitLine]
  cases ho : words f.oldName [] with
  | nil => exact absurd ho hold
  | cons w ws =>
    cases ws with
    | nil =>
      cases hn : words f.newName [] with
      | nil => exact absurd hn hnew
      | cons w' ws' => rfl
    | cons w' ws' => rfl

theorem gitNames_none (hls : ∀ l ∈ ls, findText "diff --git".toList l = none) :
    gitNames old new (ls ++ rest) = gitNames old new rest := by
  induction ls with
  | nil => rfl
  | cons l ls ih =>
    rw [cons_append, gitNames, hls l mem_cons_self]
    exact ih fun l hl => hls l (mem_cons_of_mem _ hl)

theorem gitNames_files (hw : ∀ f ∈ fs, f.WellFormed)
    (hls : ∀ l ∈ fs.flatMap DiffFile.otherLines, findText "diff --git".toList l = none)
    (old new : Line) : gitNames old new (fs.flatMap DiffFile.lines) = fs.map DiffFile.wordsName := by
  induction fs generalizing old new with
  | nil => rfl
  | cons f fs ih =>
    have hgit : (findText "diff --git".toList f.gitLine).isSome = true := rfl
    simp only [flatMap_cons, mem_append] at hls
    have hn := (hw f mem_cons_self).gitName_gitLine old new
    have hr := ih (fun f hf => hw f (mem_cons_of_mem _ hf)) fun l hl => hls l (.inr hl)
    rw [flatMap_cons, DiffFile.lines, cons_append, gitNames, if_pos hgit]
    simp only [gitNames_none fun l hl => hls l (.inl hl), hn, hr, map_cons]

variable {d : Diff}

theorem Diff.WellFormed.readNames_eq (hw : d.WellFormed)
    (hls : ∀ l ∈ d.preamble ++ d.files.flatMap DiffFile.otherLines,
      findText "diff --git".toList l = none) : d.readNames = d.wordsNames := by
  rw [Diff.readNames, Diff.text, gitNames_none fun l hl => hls l (mem_append_left _ hl),
    gitNames_files hw fun l hl => hls l (mem_append_right _ hl)]
  rfl

theorem zero_not_mem_numbersAs {start : DiffHunk → Nat} (hst : ∀ f ∈ fs, ∀ h ∈ f.hunks,
      (∃ l ∈ h.body, l.kind = kind) → 1 ≤ start h) (ns : List Line) (name : Line) :
    (0 : Int) ∉ (Diff.numbersAs ns fs (fun f => f.hunks.flatMap fun h =>
      lineNumbers kind counts (start h) h.body) name).map Int.ofNat := by
  intro h
  obtain ⟨m, hm, hz⟩ := mem_map.1 h
  obtain ⟨e, he, hm⟩ := mem_flatMap.1 hm
  obtain ⟨hk, hhk, hm⟩ := mem_flatMap.1 hm
  have hone := hst e.2 (of_mem_zip (mem_of_mem_filter he)).2 hk hhk
    (lineNumbers_ne_nil.1 (ne_nil_of_mem hm))
  have hle := le_of_mem_lineNumbers hm
  have : m = 0 := Int.ofNat_eq_zero.1 hz
  omega

theorem Diff.WellFormed.positive (hw : d.WellFormed) (name : Line) :
    (0 : Int) ∉ (d.insertedIn name).map Int.ofNat ∧ (0 : Int) ∉ (d.deletedIn name).map Int.ofNat :=
  ⟨zero_not_mem_numbersAs (fun f hf h hh => ((hw f hf).hunks h hh).newStart) _ _,
    zero_not_mem_numbersAs (fun f hf h hh => ((hw f hf).hunks h hh).oldStart) _ _⟩

theorem sum_by_key [DecidableEq α] (S : Finset α) (L : List (α × Nat)) (hS : ∀ e ∈ L, e.1 ∈ S) :
    (L.map Prod.snd).sum = ∑ k ∈ S, ((L.filter (·.1 = k)).map Prod.snd).sum := by
  induction L with
  | nil => simp
  | cons e L ih =>
    have hst : ∀ k, (((e :: L).filter (·.1 = k)).map Prod.snd).sum =
        (if e.1 = k then e.2 else 0) + ((L.filter (·.1 = k)).map Prod.snd).sum := by
      intro k
      by_cases hk : e.1 = k <;> simp [hk]
    rw [map_cons, sum_cons, ih fun e he => hS e (mem_cons_of_mem _ he),
      Finset.sum_congr rfl fun k _ => hst k, Finset.sum_add_distrib, Finset.sum_ite_eq,
      if_pos (hS e mem_cons_self)]

theorem sum_flatMap (g : α → List Nat) (l : List α) :
    (l.flatMap g).sum = (l.map fun a => (g a).sum).sum := by
  rw [List.flatMap, List.sum_flatten, List.map_map]
  rfl

theorem sum_numbersAs {S : Finset Line} (hlen : ns.length = fs.length) (hS : ∀ n ∈ ns, n ∈ S)
    (numbers : DiffFile → List Nat) :
    (fs.map fun f => (numbers f).sum).sum = ∑ k ∈ S, (Diff.numbersAs ns fs numbers k).sum := by
  have hk : ∀ e ∈ (ns.zip fs).map (fun e => (e.1, (numbers e.2).sum)), e.1 ∈ S := by
    intro e he
    obtain ⟨e', he', rfl⟩ := List.mem_map.1 he
    exact hS _ (of_mem_zip he').1
  have hsnd : ((ns.zip fs).map fun e => (e.1, (numbers e.2).sum)).map Prod.snd =
      fs.map fun f => (numbers f).sum := by
    rw [List.map_map, ← List.map_snd_zip (Nat.le_of_eq hlen.symm), List.map_map]
    simp only [map_snd_zip (Nat.le_of_eq hlen.symm)]
    rfl
  rw [← hsnd, sum_by_key S _ hk]
  apply Finset.sum_congr rfl
  intro k _
  rw [Diff.numbersAs, sum_flatMap, List.filter_map, List.map_map]
  rfl

/-- When the sums with the markers counted are those without, no marker makes a difference. -/
theorem markersLast_of_sum {counts : LineKind → Bool} (hco : counts .noNewline = false)
    (start : DiffHunk → Nat) (fs : List DiffFile)
    (hsum : (fs.map fun f => (f.hunks.flatMap fun h =>
        lineNumbers kind (markerToo counts) (start h) h.body).sum).sum =
      (fs.map fun f => (f.hunks.flatMap fun h => lineNumbers kind counts (start h) h.body).sum).sum) :
    ∀ f ∈ fs, ∀ h ∈ f.hunks, MarkersLast kind h.body := by
  intro f hf h hh
  by_contra hl
  have hle : ∀ h : DiffHunk, (lineNumbers kind counts (start h) h.body).sum ≤
      (lineNumbers kind (markerToo counts) (start h) h.body).sum := fun h =>
    (sum_lineNumbers kind counts hco h.body (Nat.le_refl _)).1
  simp only [sum_flatMap] at hsum
  apply Nat.ne_of_gt _ hsum
  apply sum_lt_sum
  · intro f _
    exact sum_le_sum fun h _ => hle h
  · use f, hf
    apply sum_lt_sum _ _ fun h _ => hle h
    exact ⟨h, hh, (sum_lineNumbers kind counts hco h.body (Nat.le_refl _)).2 (.inr hl)⟩

section

variable (hw : d.WellFormed) (hc : ∀ f ∈ d.files, ∀ h ∈ f.hunks, h.Counted)
include hw hc

theorem readFile_filesHunks :
    ∃ cur, readFile d.filterdiff d.text = some (MuplayPatch.getAllModLinesForFiles
      ⟨d.readNames, filesHunks d.readNames d.files, cur, []⟩) := by
  obtain ⟨cur, hr⟩ := readHunks_files hw hc d.readNames 0
    { MuplayPatch.new with hdFileName := d.readNames }
  use cur
  rw [Diff.readNames] at hr
  simp only [readFile, hr, Option.bind_eq_bind, Option.bind_some, Option.pure_def]
  rfl

theorem readFile_counted : ∃ pt, readFile d.filterdiff d.text = some pt ∧ ∀ name, pt.lines name =
      ⟨hunkNumbers Hunk.insertionLines (filesHunks d.readNames d.files) name,
        hunkNumbers Hunk.deletionLines (filesHunks d.readNames d.files) name⟩ := by
  obtain ⟨cur, hr⟩ := readFile_filesHunks hw hc
  refine ⟨_, hr, ?_⟩
  intro name
  exact lookup_foldl_addModLines _ [] name

end

theorem Diff.ReadExactly.counted (hw : d.WellFormed) (hr : d.ReadExactly) :
    ∀ f ∈ d.files, ∀ h ∈ f.hunks, h.Counted := by
  intro f hf h hh
  by_contra hc
  obtain ⟨pt, hre, -⟩ := hr
  have hlen : d.files.length ≤ d.readNames.length := by
    rw [d.readNames_length]
    exact Nat.le_add_right _ _
  have hmem : f ∈ (d.files.drop 0).take d.readNames.length := by
    rw [drop_zero, take_of_length_le hlen]
    exact hf
  have hn := readHunks_uncounted hw hh hc d.readNames 0 hmem
    { MuplayPatch.new with hdFileName := d.readNames }
  rw [Diff.readNames] at hn
  simp only [readFile, hn, bind_eq_bind, bind_none] at hre
  exact absurd hre (by simp)

theorem listed_eq (hb : ∀ f ∈ fs, ∀ h ∈ f.hunks, h.Has .deletion ∧
    h.Has .insertion) (hne : ∀ f ∈ fs, f.hunks ≠ []) (hlen : ns.length = fs.length) (name : Line) :
    hunkNumbers Hunk.insertionLines (filesHunks ns fs) name = (Diff.numbersAs ns fs
      (fun f => f.hunks.flatMap DiffHunk.countedInserted) name).map Int.ofNat ∧
    hunkNumbers Hunk.deletionLines (filesHunks ns fs) name = (Diff.numbersAs ns fs
      (fun f => f.hunks.flatMap DiffHunk.countedDeleted) name).map Int.ofNat := by
  constructor
  all_goals
    apply hunkNumbers_filesHunks _ hne hlen
    intro f hf h hh name
    rw [hkGenLineNum_raw (hb f hf h hh)]

theorem map_ofNat_injective {l l' : List Nat} (h : l.map Int.ofNat = l'.map Int.ofNat) : l = l' :=
  map_injective_iff.2 (fun _ _ => Int.ofNat.inj) h

theorem numbersAs_congr {g g' : DiffFile → List Nat} (hg : ∀ f ∈ fs, g f = g' f) (ns : List Line)
    (name : Line) : Diff.numbersAs ns fs g name = Diff.numbersAs ns fs g' name := by
  rw [Diff.numbersAs, Diff.numbersAs, flatMap_congr]
  intro e he
  exact hg e.2 (of_mem_zip (mem_of_mem_filter he)).2

theorem flatMap_counted (counts : LineKind → Bool) (start : DiffHunk → Nat)
    (hl : ∀ f ∈ fs, ∀ h ∈ f.hunks, MarkersLast kind h.body) :
    ∀ f ∈ fs, (f.hunks.flatMap fun h => lineNumbers kind (markerToo counts) (start h) h.body) =
      f.hunks.flatMap fun h => lineNumbers kind counts (start h) h.body := by
  intro f hf
  apply flatMap_congr
  intro h hh
  exact (hl f hf h hh).lineNumbers_eq counts (start h)

theorem Diff.Readable.readExactly (hw : d.WellFormed) (hr : d.Readable) : d.ReadExactly := by
  obtain ⟨pt, hre, hli⟩ := readFile_counted hw hr.counts
  refine ⟨pt, hre, fun name => ?_⟩
  have hl := listed_eq hr.both hr.hunks (d.readNames_length_eq.2 hr.gitLines) name
  rw [hw.readNames_eq hr.gitLines] at hli hl
  have hins := flatMap_counted inNew DiffHunk.newStart
    fun f hf h hh => (hr.markers f hf h hh).2
  have hdel := flatMap_counted inOld DiffHunk.oldStart
    fun f hf h hh => (hr.markers f hf h hh).1
  rw [hli name]
  constructor
  · rw [← (hr.names name).1]
    exact hl.1.trans (congrArg _ (numbersAs_congr hins d.wordsNames name))
  · rw [← (hr.names name).2]
    exact hl.2.trans (congrArg _ (numbersAs_congr hdel d.wordsNames name))

theorem hunkNumbers_of_mem (hk : k ∈ hunks) (hm : m ∈ listed k) :
    m ∈ hunkNumbers listed hunks k.fileName :=
  mem_flatMap.2 ⟨k, mem_filter.2 ⟨hk, beq_self_eq_true _⟩, hm⟩

theorem sum_files_eq {g g' : DiffFile → List Nat} {ns ns' : List Line}
    (hlen : ns.length = fs.length) (hl' : ns'.length = fs.length)
    (h : ∀ name, Diff.numbersAs ns fs g name = Diff.numbersAs ns' fs g' name) :
    (fs.map fun f => (g f).sum).sum = (fs.map fun f => (g' f).sum).sum := by
  have hS : ∀ n ∈ ns, n ∈ (ns ++ ns').toFinset := fun n hn =>
    mem_toFinset.2 (mem_append_left _ hn)
  have hS' : ∀ n ∈ ns', n ∈ (ns ++ ns').toFinset := fun n hn =>
    mem_toFinset.2 (mem_append_right _ hn)
  rw [sum_numbersAs hlen hS, sum_numbersAs hl' hS']
  exact Finset.sum_congr rfl fun k _ => congrArg sum (h k)

theorem Diff.ReadExactly.readable (hw : d.WellFormed) (hr : d.ReadExactly) : d.Readable := by
  have hc := hr.counted hw
  obtain ⟨pt, hre, hlin⟩ := readFile_counted hw hc
  obtain ⟨pt', hr', he⟩ := hr
  obtain rfl : pt = pt' := some.inj (hre.symm.trans hr')
  simp only [hlin] at he
  -- a line 0 would be listed under the name of its hunk
  have hz : ∀ hk ∈ filesHunks d.readNames d.files,
      0 ∉ hk.insertionLines ∧ 0 ∉ hk.deletionLines := by
    intro hk hhk
    obtain ⟨hins, hdel⟩ := he hk.fileName
    constructor
    · intro h
      exact (hw.positive hk.fileName).1 (hins ▸ hunkNumbers_of_mem hhk h)
    · intro h
      exact (hw.positive hk.fileName).2 (hdel ▸ hunkNumbers_of_mem hhk h)
  obtain ⟨hlen, hfs⟩ := both_of_no_zero (by rw [d.readNames_length]; omega) hz
  have hgit := d.readNames_length_eq.1 hlen
  rw [hw.readNames_eq hgit] at hlen he
  have hli := listed_eq (fun f hf => (hfs f hf).2) (fun f hf => (hfs f hf).1) hlen
  have hins : ∀ name, numbersAs d.wordsNames d.files
      (fun f => f.hunks.flatMap DiffHunk.countedInserted) name = d.insertedIn name := fun name =>
    map_ofNat_injective ((hli name).1.symm.trans (he name).1)
  have hdel : ∀ name, numbersAs d.wordsNames d.files
      (fun f => f.hunks.flatMap DiffHunk.countedDeleted) name = d.deletedIn name := fun name =>
    map_ofNat_injective ((hli name).2.symm.trans (he name).2)
  -- under whatever names, all the numbers together have the right sum
  have hn : d.names.length = d.files.length := length_map _
  have hla := markersLast_of_sum rfl DiffHunk.newStart d.files (sum_files_eq hlen hn hins)
  have hl := markersLast_of_sum rfl DiffHunk.oldStart d.files (sum_files_eq hlen hn hdel)
  exact {
    gitLines := hgit
    hunks := fun f hf => (hfs f hf).1
    counts := hc
    both := fun f hf => (hfs f hf).2
    markers := fun f hf h hh => ⟨hl f hf h hh, hla f hf h hh⟩
    names := fun name => ⟨
      (numbersAs_congr (flatMap_counted inNew DiffHunk.newStart hla) _ _).symm.trans
        (hins name),
      (numbersAs_congr (flatMap_counted inOld DiffHunk.oldStart hl) _ _).symm.trans
        (hdel name)⟩ }

def oneHunk (oldCount newCount : Nat) (body : List DiffLine) : Diff :=
  ⟨[], [⟨"a/src/x.c".toList, "b/src/x.c".toList, ["--- a/src/x.c".toList, "+++ b/src/x.c".toList],
    [⟨1, some oldCount, 1, some newCount, [], body⟩]⟩]⟩

theorem oneHunk_wellFormed (hb : body ≠ []) (hold : oldCount ≤ intMax) (hnew : newCount ≤ intMax) :
    (oneHunk oldCount newCount body).WellFormed := by
  intro f hf
  obtain rfl := mem_singleton.1 hf
  have hone : 1 ≤ intMax := by decide
  exact {
    oldName := ⟨'a', rfl, rfl⟩
    newName := ⟨'b', rfl, rfl⟩
    headers := by
      intro l hl
      simp only [mem_cons, not_mem_nil, or_false] at hl
      rcases hl with rfl | rfl <;> rfl
    hunks := by
      intro h hh
      obtain rfl := mem_singleton.1 hh
      exact ⟨hb, fun _ => Nat.le_refl 1, fun _ => Nat.le_refl 1, ⟨hone, hold⟩, ⟨hone, hnew⟩⟩ }

def changedLine : Diff :=
  oneHunk 3 3 [⟨.context, "int x;".toList⟩, ⟨.deletion, "f();".toList⟩, ⟨.insertion, "g();".toList⟩,
    ⟨.context, "h();".toList⟩, ⟨.noNewline, []⟩]

def addedNewline : Diff :=
  oneHunk 1 1 [⟨.deletion, "h();".toList⟩, ⟨.noNewline, []⟩, ⟨.insertion, "h();".toList⟩]

def insertedLine : Diff := oneHunk 1 2 [⟨.context, "int x;".toList⟩, ⟨.insertion, "g();".toList⟩]

end Attune.Patch
