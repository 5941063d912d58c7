import Attune.PackChoice

namespace Attune.Pack
open Trace OrderedMap Bool

section Copies

variable {fileInfo : List (FileName × FileInfo)}

/-- How the chosen name of a hash changes when the file may have been copied. -/
def Moved (fileInfo : List (FileName × FileInfo)) (t t' : TraceFiles)
    (p p' : FileHash × FileName) : Prop :=
  p'.1 = p.1 ∧
    (staysInTrace fileInfo t.dir p.2 = true ∧ p'.2 = p.2 ∨
      staysInTrace fileInfo t.dir p.2 = false ∧
      ∃ j, p'.2 = t.dir ++ '/' :: packName j (copiedComponent p.2) ∧
        t'.entries.lookup (packName j (copiedComponent p.2)) = t.read p.2)

/-- Everything else stays as it is, and each copy has the contents of a file that could not stay. -/
theorem copyChosen_spec (l : List (FileHash × FileName)) (t₀ t : TraceFiles) (k : Nat)
    (h₀ : Extends t₀ t) (hr : ∀ p ∈ l, ∃ c, t₀.read p.2 = some c) :
    ∃ l' t', copyChosen fileInfo t₀.dir l t k = some (l', t') ∧ Extends t t' ∧
      List.Forall₂ (Moved fileInfo t₀ t') l l' ∧
      ∀ e c, e ∉ t.entries.map Prod.fst → t'.entries.lookup e = some c →
        (∃ j component, e = packName j component) ∧
        ∃ p ∈ l, staysInTrace fileInfo t₀.dir p.2 = false ∧ t₀.read p.2 = some c := by
  induction l generalizing t k with
  | nil =>
    refine ⟨[], t, rfl, .refl t, .nil, fun e c hnew he => ?_⟩
    rw [lookup_eq_none_iff.mpr hnew] at he
    cases he
  | cons p l ih =>
    obtain ⟨hash, name⟩ := p
    have hre : ∀ p ∈ l, ∃ c, t₀.read p.2 = some c := fun p hp =>
      hr p (List.mem_cons_of_mem _ hp)
    cases hst : staysInTrace fileInfo t₀.dir name with
    | true =>
      obtain ⟨l', t', hco, hext, hm, hnew⟩ := ih t k h₀ hre
      refine ⟨(hash, name) :: l', t', ?_, hext, .cons ⟨rfl, .inl ⟨hst, rfl⟩⟩ hm, ?_⟩
      · rw [copyChosen, if_pos hst, hco]
        rfl
      · intro e c he hc
        obtain ⟨hn, p, hp, hp'⟩ := hnew e c he hc
        exact ⟨hn, p, List.mem_cons_of_mem _ hp, hp'⟩
    | false =>
      obtain ⟨c₀, hc₀⟩ := hr _ List.mem_cons_self
      obtain ⟨j, t₁, hc₁, hex₁, hl₁⟩ := copyIntoTrace_spec (h₀.read hc₀) k
      obtain ⟨l', t', hco, hext, hm, hnew⟩ := ih t₁ (j + 1) (h₀.trans hex₁) hre
      have hmi : t'.entries.lookup (packName j (copiedComponent name)) = some c₀ := by
        apply hext.lookup
        rw [hl₁, if_pos rfl]
      refine ⟨(hash, t₀.dir ++ '/' :: packName j (copiedComponent name)) :: l', t', ?_,
        hex₁.trans hext, .cons ⟨rfl, .inr ⟨hst, j, rfl, hmi.trans hc₀.symm⟩⟩ hm, ?_⟩
      · rw [copyChosen, if_neg (by rw [hst]; exact false_ne_true), hc₁, h₀.dir]
        simp only [Option.bind_eq_bind, Option.bind_some, hco, Option.pure_def]
      · intro e c he hc
        by_cases hn : e = packName j (copiedComponent name)
        · rw [hn, hmi] at hc
          cases hc
          exact ⟨⟨j, _, hn⟩, _, List.mem_cons_self, hst, hc₀⟩
        · have he₁ : e ∉ t₁.entries.map Prod.fst := by
            rw [← lookup_eq_none_iff, hl₁, if_neg hn, lookup_eq_none_iff]
            exact he
          obtain ⟨hpa, p, hp, hp'⟩ := hnew e c he₁ hc
          exact ⟨hpa, p, List.mem_cons_of_mem _ hp, hp'⟩

end Copies

section Deletes

theorem unlink_spec {t : TraceFiles} (h : name ∈ t.entries.map Prod.fst) :
    ∃ t', t.unlink name = some t' ∧ t'.dir = t.dir ∧ t'.mmaps = t.mmaps ∧
      ∀ e, t'.entries.lookup e = if e = name then none else t.entries.lookup e :=
  ⟨_, if_pos h, rfl, rfl, fun e => lookup_filter_ne name e⟩

theorem foldlM_unlink (l : List FileName) (t : TraceFiles) (hn : l.Nodup)
    (hsub : ∀ name ∈ l, name ∈ t.entries.map Prod.fst) :
    ∃ t', l.foldlM TraceFiles.unlink t = some t' ∧ t'.dir = t.dir ∧ t'.mmaps = t.mmaps ∧
      ∀ e, t'.entries.lookup e = if e ∈ l then none else t.entries.lookup e := by
  induction l generalizing t with
  | nil => exact ⟨t, rfl, rfl, rfl, fun e => (if_neg List.not_mem_nil).symm⟩
  | cons name l ih =>
    obtain ⟨hna, hn⟩ := List.nodup_cons.mp hn
    obtain ⟨t₁, hu, hdir, hm, hlo⟩ := unlink_spec (hsub name List.mem_cons_self)
    obtain ⟨t', hf, hd', hm', hl'⟩ := ih t₁ hn fun e he => by
      have hmem := hsub e (List.mem_cons_of_mem name he)
      have hne : e ≠ name := ne_of_mem_of_not_mem he hna
      apply Classical.byContradiction
      intro hg
      rw [← lookup_eq_none_iff, hlo, if_neg hne, lookup_eq_none_iff] at hg
      exact hg hmem
    refine ⟨t', ?_, hd'.trans hdir, hm'.trans hm, fun e => ?_⟩
    · rw [List.foldlM_cons, hu]
      exact hf
    · rw [hl', hlo]
      by_cases he : e = name
      · rw [if_pos he, if_pos (List.mem_cons.mpr (.inl he)), ite_self]
      · rw [if_neg he]
        by_cases hl : e ∈ l
        · rw [if_pos hl, if_pos (List.mem_cons_of_mem name hl)]
        · rw [if_neg hl, if_neg fun h => (List.mem_cons.mp h).elim he hl]

theorem deleteUnnecessaryFiles_spec (fileMap : List (FileName × FileName)) (t : TraceFiles) :
    ∃ t', deleteUnnecessaryFiles fileMap t = some t' ∧ t'.dir = t.dir ∧ t'.mmaps = t.mmaps ∧
      ∀ e ∈ fileMap.map Prod.snd, t'.entries.lookup e = t.entries.lookup e := by
  obtain ⟨t', hf, hdir, hm, hl⟩ := foldlM_unlink ((t.entries.map Prod.fst).filter
    fun name => startsWith name "mmap_".toList && !(fileMap.map Prod.snd).contains name) t
      (t.distinct.filter _) fun name h => (List.mem_filter.mp h).1
  refine ⟨t', hf, hdir, hm, fun e he => ?_⟩
  rw [hl, if_neg]
  intro hmem
  have hg := (List.mem_filter.mp hmem).2
  rw [and_eq_true, not_eq_true', List.contains_iff_mem.mpr he] at hg
  cases hg.2

end Deletes

section Canonical

def HashesTell (sys : System) (t : TraceFiles) (rs : List MappedRegion) : Prop :=
  ∀ n n' c c', Named rs n → Named rs n' → t.read n = some c → t.read n' = some c' →
    sys.blake2b c = sys.blake2b c' → c = c'

/-- The directory with the copies, the file chosen for each mapped file, and its new name. -/
structure Canonical (t t₁ : TraceFiles) (rs : List MappedRegion) (choice newName : FileName → FileName) :
    Prop where
  more : Extends t t₁
  named : ∀ n, Named rs n → Named rs (choice n) ∧ t.read (choice n) = t.read n
  least : ∀ n n', Named rs n → Named rs n' → t.read n' = t.read n → taken t.dir n' = true →
    taken t.dir (choice n) = true ∧ choice n ≤ n'
  stays : ∀ n, Named rs n → taken t.dir (choice n) = true → newName n = baseFileName (choice n)
  moves : ∀ n, Named rs n → taken t.dir (choice n) = false →
    ∃ j, newName n = packName j (copiedComponent (choice n)) ∧
      t₁.entries.lookup (newName n) = t.read n
  shared : ∀ n n', Named rs n → Named rs n' → t.read n = t.read n' → newName n = newName n'
  created : ∀ e c, e ∉ t.entries.map Prod.fst → t₁.entries.lookup e = some c →
    (∃ j component, e = packName j component) ∧
      ∀ n, Named rs n → t.read n = some c → taken t.dir (choice n) = false

theorem Described.read (hd : Described t rs) (h : Named rs n) : ∃ c, t.read n = some c := by
  obtain ⟨r, hr, hso, rfl⟩ := h
  obtain ⟨c, hc, _⟩ := hd.files r hr hso
  exact ⟨c, hc⟩

theorem slash_mem_of_startsWith {t : TraceFiles} (h : startsWith name t.dir = true) : '/' ∈ name := by
  have hdir : '/' ∈ t.dir := List.mem_of_mem_head? t.absolute
  exact (List.isPrefixOf_iff_prefix.mp h).subset hdir

theorem startsWith_append (dir rest : FileName) : startsWith (dir ++ rest) dir = true :=
  List.isPrefixOf_iff_prefix.mpr (List.prefix_append dir rest)

theorem forall₂_moved {l l' : List (FileHash × FileName)} {hash : FileHash}
    (h : List.Forall₂ (Moved fileInfo t t') l l') (hl : Sorted l) (hget : get hash l = some name) :
    ∃ name', get hash l' = some name' ∧ Moved fileInfo t t' (hash, name) (hash, name') := by
  have hk : l'.map Prod.fst = l.map Prod.fst := by
    clear hl hget
    induction h with
    | nil => rfl
    | cons hp _ ih => rw [List.map_cons, List.map_cons, hp.1, ih]
  have hl' : Sorted l' := by
    rw [Sorted, ← List.pairwise_map (R := (· < ·)), hk, List.pairwise_map]
    exact hl
  rw [hl.get_eq_some] at hget
  have hex : ∃ p' ∈ l', Moved fileInfo t t' (hash, name) p' := by
    clear hk hl hl'
    induction h with
    | nil => exact absurd hget List.not_mem_nil
    | cons hp hr ih =>
      rcases List.mem_cons.mp hget with rfl | hmem
      · exact ⟨_, List.mem_cons_self, hp⟩
      · obtain ⟨p', hp', hm⟩ := ih hmem
        exact ⟨p', List.mem_cons_of_mem _ hp', hm⟩
  obtain ⟨⟨ha', name'⟩, hp', hm⟩ := hex
  obtain rfl : ha' = hash := hm.1
  exact ⟨name', hl'.get_eq_some.mpr hp', hm⟩

theorem foldlM_eq_foldl {f : β → α → Option β} (g : β → α → β) (l : List α)
    (h : ∀ a ∈ l, ∀ b, f b a = some (g b a)) (b : β) : l.foldlM f b = some (l.foldl g b) := by
  induction l generalizing b with
  | nil => rfl
  | cons a l ih =>
    rw [List.foldlM_cons, h a List.mem_cons_self, List.foldl_cons]
    exact ih (fun a' ha' => h a' (List.mem_cons_of_mem a ha')) _

theorem exists_chosen (hh : HashesTell sys t rs) (hd : Described t rs) (hso : Sorted info)
    (hinf : ∀ n v, get n info = some v ↔ Named rs n ∧ v = infoOf sys t n) (hn : Named rs n) :
    ∃ name, get (infoOf sys t n).hash (chooseNames info t.dir) = some name ∧ Named rs name ∧
      t.read name = t.read n ∧ staysInTrace info t.dir name = taken t.dir name ∧
      ∀ n', Named rs n' → t.read n' = t.read n → taken t.dir n' = true →
        taken t.dir name = true ∧ name ≤ n' := by
  have hmem (q : FileName × FileInfo) (hq : q ∈ info) : Named rs q.1 ∧ q.2 = infoOf sys t q.1 :=
    (hinf q.1 q.2).mp (hso.get_eq_some.mpr hq)
  have hin (n' : FileName) (hn' : Named rs n') : (n', infoOf sys t n') ∈ info :=
    hso.get_eq_some.mp ((hinf n' _).mpr ⟨hn', rfl⟩)
  obtain ⟨_, hsom, hno⟩ := @chooseNames_spec info t.dir hso fun q hq => by
    rw [(hmem q hq).2]
    rfl
  cases hget : get (infoOf sys t n).hash (chooseNames info t.dir) with
  | none => exact absurd rfl (hno _ hget _ (hin n hn))
  | some name =>
    obtain ⟨⟨q, hq, rfl, heq⟩, hl⟩ := hsom _ _ hget
    obtain ⟨hna, hq2⟩ := hmem q hq
    obtain ⟨c, hc⟩ := hd.read hn
    obtain ⟨c', hc'⟩ := hd.read hna
    rw [hq2, infoOf, infoOf, hc, hc'] at heq
    refine ⟨q.1, rfl, hna, ?_, ?_, fun n' hn' hr ht => ?_⟩
    · rw [hc, hc', hh _ _ _ _ hna hn hc' hc heq]
    · apply staysInTrace_eq (hso.get_eq_some.mpr hq)
      rw [hq2]
      rfl
    · apply hl _ (hin n' hn') _ ht
      rw [infoOf, infoOf, hr]

theorem mapFile_eq {t : TraceFiles} {l : List (FileHash × FileName)} (hget : get p.2.hash l = some name)
    (hin : startsWith name t.dir = true) (fileMap : List (FileName × FileName)) :
    mapFile t.dir l fileMap p = some (assign less p.1 (baseFileName name) fileMap) := by
  have hsl : name.contains '/' = true :=
    List.contains_iff_mem.mpr (slash_mem_of_startsWith hin)
  rw [mapFile, hget]
  simp only [Option.bind_eq_bind, Option.bind_some, isInTraceDir, hin, Bool.not_true,
    false_eq_true, if_false, afterLastSlash, hsl, if_true, Option.pure_def]

theorem computeCanonicalMmappedFiles_spec (hd : Described t rs) (hh : HashesTell sys t rs) :
    ∃ fileMap t₁ choice newName, computeCanonicalMmappedFiles sys t = some (fileMap, t₁) ∧
      Canonical t t₁ rs choice newName ∧ Sorted fileMap ∧
      ∀ n name, get n fileMap = some name ↔ Named rs n ∧ name = newName n := by
  obtain ⟨info, hg, hso, hinf⟩ := gatherFileInfo_spec sys hd
  have hmem (q : FileName × FileInfo) (hq : q ∈ info) : Named rs q.1 ∧ q.2 = infoOf sys t q.1 :=
    (hinf q.1 q.2).mp (hso.get_eq_some.mpr hq)
  have hch {n} (hn : Named rs n) := exists_chosen hh hd hso hinf hn
  obtain ⟨hcho, hsom, _⟩ := @chooseNames_spec info t.dir hso fun q hq => by
    rw [(hmem q hq).2]
    rfl
  have hr : ∀ p ∈ chooseNames info t.dir, ∃ c, t.read p.2 = some c := by
    intro p hp
    obtain ⟨⟨q, hq, hnam, _⟩, _⟩ := hsom p.1 p.2 (hcho.get_eq_some.mpr hp)
    rw [← hnam]
    exact hd.read (hmem q hq).1
  obtain ⟨l', t₁, hco, hmor, hm, hcr⟩ :=
    copyChosen_spec (chooseNames info t.dir) t t 0 (.refl t) hr
  -- what became of the name chosen for a mapped file
  have hmo {n} (hn : Named rs n) : ∃ name name',
      get (infoOf sys t n).hash (chooseNames info t.dir) = some name ∧
      get (infoOf sys t n).hash l' = some name' ∧ startsWith name' t.dir = true ∧
      (taken t.dir name = true ∧ name' = name ∨ taken t.dir name = false ∧
        ∃ j, name' = t.dir ++ '/' :: packName j (copiedComponent name) ∧
          t₁.entries.lookup (packName j (copiedComponent name)) = t.read n) := by
    obtain ⟨name, hnam, _, hsa, hst, _⟩ := hch hn
    obtain ⟨name', hn', _, hca⟩ := forall₂_moved hm hcho hnam
    rw [hst, hsa] at hca
    refine ⟨name, name', hnam, hn', ?_, hca⟩
    rcases hca with ⟨ht, rfl⟩ | ⟨_, j, rfl, _⟩
    · rw [taken, and_eq_true] at ht
      exact ht.2
    · exact startsWith_append _ _
  let choice (n : FileName) := (get (infoOf sys t n).hash (chooseNames info t.dir)).getD []
  let newName (n : FileName) := baseFileName ((get (infoOf sys t n).hash l').getD [])
  have hloo : info.foldlM (mapFile t.dir l') [] = some ((info.map Prod.fst).foldl
      (fun m n => assign less n (newName n) m) []) := by
    rw [List.foldl_map]
    apply foldlM_eq_foldl
    intro q hq m
    obtain ⟨hn, hq2⟩ := hmem q hq
    obtain ⟨name, name', _, hg', hin, _⟩ := hmo hn
    have hnew : newName q.1 = baseFileName name' := by
      simp only [newName, hg', Option.getD_some]
    rw [hnew]
    apply mapFile_eq _ hin
    rw [hq2]
    exact hg'
  obtain ⟨hmap, hsp⟩ := foldl_assign newName (info.map Prod.fst) (m := []) .nil
    fun _ _ hg => by cases hg
  refine ⟨_, t₁, choice, newName, ?_, ?_, hmap, fun n name => ?_⟩
  · rw [computeCanonicalMmappedFiles, hg]
    simp only [Option.bind_eq_bind, Option.bind_some, hco, hloo, Option.pure_def]
  · have hpi {n} (hn : Named rs n) : Named rs (choice n) ∧ t.read (choice n) = t.read n ∧
        ∀ n', Named rs n' → t.read n' = t.read n → taken t.dir n' = true →
          taken t.dir (choice n) = true ∧ choice n ≤ n' := by
      obtain ⟨name, hnam, hna, hsa, _, hl⟩ := hch hn
      simp only [choice, hnam, Option.getD_some]
      exact ⟨hna, hsa, hl⟩
    refine ⟨hmor, ?_, ?_, ?_, ?_, ?_, ?_⟩
    · intro n hn
      exact ⟨(hpi hn).1, (hpi hn).2.1⟩
    · intro n n' hn
      exact (hpi hn).2.2 n'
    · intro n hn ht
      obtain ⟨name, name', hget, hg', _, hca⟩ := hmo hn
      simp only [choice, newName, hget, hg', Option.getD_some] at ht ⊢
      rcases hca with ⟨_, rfl⟩ | ⟨hnot, _⟩
      · rfl
      · rw [ht] at hnot
        cases hnot
    · intro n hn ht
      obtain ⟨name, name', hget, hg', _, hca⟩ := hmo hn
      simp only [choice, newName, hget, hg', Option.getD_some] at ht ⊢
      rcases hca with ⟨hyes, _⟩ | ⟨_, j, rfl, hlo⟩
      · rw [ht] at hyes
        cases hyes
      have hb : baseFileName (t.dir ++ '/' :: packName j (copiedComponent name)) =
          packName j (copiedComponent name) := by
        apply baseFileName_append
        apply slash_not_mem_packName
        intro hsl
        exact slash_not_mem_baseFileName name (mem_copiedComponent hsl)
      rw [hb]
      exact ⟨j, rfl, hlo⟩
    · intro n n' _ _ hr
      simp only [newName, infoOf, hr]
    · intro e c he hc
      obtain ⟨hpa, p, hp, hst, hpr⟩ := hcr e c he hc
      refine ⟨hpa, fun n hn hnr => ?_⟩
      obtain ⟨name, hnam, _, _, hs', _⟩ := hch hn
      -- the copied file has the hash of this one, so it is the one chosen for it
      have heq : name = p.2 := by
        have hp' := hcho.get_eq_some.mpr hp
        obtain ⟨⟨q, hq, hqn, hqh⟩, _⟩ := hsom _ _ hp'
        rw [(hmem q hq).2, hqn, infoOf, hpr] at hqh
        rw [infoOf, hnr, hqh, hp'] at hnam
        exact (Option.some.inj hnam).symm
      simp only [choice, hnam, Option.getD_some]
      rw [← hs', heq]
      exact hst
  · rw [hsp, List.mem_map]
    apply and_congr_left
    intro _
    apply Iff.intro
    · rintro (⟨q, hq, rfl⟩ | h)
      · exact (hmem q hq).1
      · cases h
    · intro hn
      exact .inl ⟨(n, infoOf sys t n), hso.get_eq_some.mp ((hinf n _).mpr ⟨hn, rfl⟩), rfl⟩

end Canonical

def newSource (newName : FileName → FileName) (r : MappedRegion) : SourceMsg :=
  match r.data.source with
  | .sourceZero => .zero
  | .sourceTrace => .trace
  | .sourceFile => .file (newName r.data.fileName)

/-- The same regions, each file now in the directory, no hard link, with the contents it had. -/
structure PackedAs (newName : FileName → FileName) (t t' : TraceFiles) (rs : List MappedRegion) :
    Prop where
  regions : t'.readMappedRegions =
    some (rs.map fun r => renamed r (t.dir ++ '/' :: newName r.data.fileName))
  sources : t'.mmaps.map MMapMsg.source = rs.map (newSource newName)
  files : ∀ n, Named rs n → '/' ∉ newName n ∧ hardlinkName (newName n) = false ∧
    ∃ c, t.read n = some c ∧ t'.entries.lookup (newName n) = some c
  shared : ∀ n n', Named rs n → Named rs n' → t.read n = t.read n' → newName n = newName n'

/-- No stream is left over, and a chosen file that is taken for one of the trace is there under its
last name. -/
structure Packable (t : TraceFiles) (rs : List MappedRegion) : Prop where
  fresh : "pack_mmaps".toList ∉ t.entries.map Prod.fst
  direct : ∀ n, Named rs n → taken t.dir n = true →
    (∀ n', Named rs n' → t.read n' = t.read n → taken t.dir n' = true → n ≤ n') →
      t.entries.lookup (baseFileName n) = t.read n

theorem Described.region (hd : Described t rs) (hr : r ∈ rs) :
    ∃ m, Typed m ∧ MMapMsg.region t.place .validate m = some r := by
  have hall := hd.regions
  rw [readMappedRegions_eq, mapM_eq_some_iff_forall₂] at hall
  have ht := hd.typed
  clear hd
  generalize t.mmaps = l at hall ht
  induction hall with
  | nil => exact absurd hr List.not_mem_nil
  | cons hm hre ih =>
    rcases List.mem_cons.mp hr with rfl | hr
    · exact ⟨_, ht _ List.mem_cons_self, hm⟩
    · exact ih hr fun m hmem => ht m (List.mem_cons_of_mem _ hmem)

theorem Described.null_not_mem (hd : Described t rs) (hn : Named rs n) :
    Char.ofNat 0 ∉ baseFileName n := by
  obtain ⟨r, hr, hso, rfl⟩ := hn
  obtain ⟨m, _, hm⟩ := hd.region hr
  obtain ⟨_, _, hca⟩ := mappedData_cases (region_cases hm).1
  rcases hca with ⟨hne, _⟩ | ⟨_, _, _, _, name, hnu, hna⟩
  · exact absurd hso hne
  rw [hna, TraceDir.resolve]
  intro hmem
  split at hmem
  · exact hnu (mem_of_mem_baseFileName hmem)
  · next habs =>
    rw [baseFileName_append_slash] at hmem
    rcases List.mem_cons.mp (mem_of_mem_baseFileName hmem) with heq | hmem
    · exact absurd heq (by decide)
    · exact hnu hmem

theorem renameRegion_eq {newName : FileName → FileName}
    (hmap : ∀ n name, get n fileMap = some name ↔ Named rs n ∧ name = newName n) (hr : r ∈ rs) :
    renameRegion fileMap r = some (renamed r (newName r.data.fileName)) := by
  rw [renameRegion, renamed]
  by_cases hso : r.data.source = .sourceFile
  · have hn := (hmap r.data.fileName (newName r.data.fileName)).mpr ⟨⟨r, hr, hso, rfl⟩, rfl⟩
    rw [if_pos hso, if_pos hso, hn]
    rfl
  · rw [if_neg hso, if_neg hso]

section Rewrite

variable {t t₁ : TraceFiles} {rs : List MappedRegion} {choice newName : FileName → FileName}
  (hd : Described t rs) (hc : Canonical t t₁ rs choice newName)
include hd hc

theorem Canonical.newName_ok (hn : Named rs n) :
    Char.ofNat 0 ∉ newName n ∧ '/' ∉ newName n ∧ hardlinkName (newName n) = false := by
  have hna := (hc.named n hn).1
  cases ht : taken t.dir (choice n) with
  | true =>
    rw [hc.stays n hn ht]
    rw [taken, and_eq_true, not_eq_true', isHardlink, isInTraceDir] at ht
    refine ⟨hd.null_not_mem hna, slash_not_mem_baseFileName _, ?_⟩
    have hsl : (choice n).contains '/' = true :=
      List.contains_iff_mem.mpr (slash_mem_of_startsWith ht.2)
    rw [hsl, Bool.true_and] at ht
    exact ht.1
  | false =>
    obtain ⟨j, hnam, _⟩ := hc.moves n hn ht
    rw [hnam]
    refine ⟨null_not_mem_packName fun hmem => ?_, slash_not_mem_packName fun hmem => ?_,
      hardlinkName_packName _ _⟩
    · exact hd.null_not_mem hna (mem_copiedComponent hmem)
    · exact slash_not_mem_baseFileName _ (mem_copiedComponent hmem)

omit hd in
theorem Canonical.mem_pack_mmaps : "pack_mmaps".toList ∈ t₁.entries.map Prod.fst ↔
    "pack_mmaps".toList ∈ t.entries.map Prod.fst := by
  apply Iff.intro
  · intro hmem
    apply Classical.byContradiction
    intro hnew
    cases hl : t₁.entries.lookup "pack_mmaps".toList with
    | none => exact lookup_eq_none_iff.mp hl hmem
    | some c =>
      obtain ⟨⟨j, component, heq⟩, _⟩ := hc.created _ c hnew hl
      have hle := length_packName j component
      rw [← heq] at hle
      exact absurd hle (by decide)
  · intro hmem
    apply Classical.byContradiction
    intro hnew
    rw [← lookup_eq_none_iff] at hnew
    cases hl : t.entries.lookup "pack_mmaps".toList with
    | none => exact lookup_eq_none_iff.mp hl hmem
    | some c =>
      rw [hc.more.lookup _ c hl] at hnew
      cases hnew

theorem Canonical.readMappedRegions {t' : TraceFiles} (hdir : t'.dir = t.dir)
    (hmm : t'.mmaps = rs.map fun r =>
      writeMappedRegionToAlternativeStream (renamed r (newName r.data.fileName))) :
    t'.readMappedRegions = some (rs.map fun r => renamed r (t.dir ++ '/' :: newName r.data.fileName)) := by
  rw [readMappedRegions_eq, hmm, List.mapM_map]
  apply mapM_of_forall_eq_some
  intro r hr
  obtain ⟨m, ht, hm⟩ := hd.region hr
  rw [← hdir]
  apply region_alternative ht hm
  intro hso
  obtain ⟨hn, hsl, _⟩ := hc.newName_ok hd ⟨r, hr, hso, rfl⟩
  exact ⟨hn, hsl⟩

/-- Where the chosen files are in the directory, each new name stands for the old contents. -/
theorem Canonical.lookup_newName (hp : Packable t rs) (hn : Named rs n) :
    t₁.entries.lookup (newName n) = t.read n := by
  cases ht : taken t.dir (choice n) with
  | false =>
    obtain ⟨_, _, hl⟩ := hc.moves n hn ht
    exact hl
  | true =>
    obtain ⟨hna, hsa⟩ := hc.named n hn
    have hdi := hp.direct (choice n) hna ht fun n' hn' hr ht' =>
      (hc.least n n' hn hn' (hr.trans hsa) ht').2
    obtain ⟨c, hr⟩ := hd.read hn
    rw [hc.stays n hn ht, hr]
    apply hc.more.lookup
    rw [hdi, hsa, hr]

/-- A file that was chosen for itself and found under its last name was there from the start. -/
theorem Canonical.lookup_direct (hn : Named rs n) (ht : taken t.dir n = true)
    (hlea : ∀ n', Named rs n' → t.read n' = t.read n → taken t.dir n' = true → n ≤ n')
    (hl : t₁.entries.lookup (newName n) = t.read n) :
    t.entries.lookup (baseFileName n) = t.read n := by
  obtain ⟨ht', hle⟩ := hc.least n n hn hn rfl ht
  obtain ⟨hna, hsa⟩ := hc.named n hn
  have hse : choice n = n := le_antisymm hle (hlea _ hna hsa ht')
  obtain ⟨c, hr⟩ := hd.read hn
  rw [hc.stays n hn ht', hse, hr] at hl
  rw [hr]
  cases hold : t.entries.lookup (baseFileName n) with
  | none =>
    have hf := (hc.created _ c (lookup_eq_none_iff.mp hold) hl).2 n hn hr
    rw [ht'] at hf
    cases hf
  | some c' =>
    rw [hc.more.lookup _ c' hold] at hl
    exact hl

end Rewrite

theorem source_writeMappedRegion (newName : FileName → FileName) (r : MappedRegion) :
    (writeMappedRegionToAlternativeStream (renamed r (newName r.data.fileName))).source =
      newSource newName r := by
  obtain ⟨km, ⟨time, source, fileName, dataOffset, size⟩, extraFds, skip⟩ := r
  cases source <;> rfl

/-- A run stops at a stream left over, or ends with the new stream and every file it names. -/
theorem pack_spec (hd : Described t rs) (hh : HashesTell sys t rs) :
    ∃ t₁ choice newName, Canonical t t₁ rs choice newName ∧
      if "pack_mmaps".toList ∈ t.entries.map Prod.fst then pack sys t = none
      else ∃ t', pack sys t = some t' ∧ t'.dir = t.dir ∧
        t'.mmaps = rs.map (fun r =>
          writeMappedRegionToAlternativeStream (renamed r (newName r.data.fileName))) ∧
        ∀ n, Named rs n → t'.entries.lookup (newName n) = t₁.entries.lookup (newName n) := by
  obtain ⟨fileMap, t₁, choice, newName, hco, hc, hso, hmap⟩ :=
    computeCanonicalMmappedFiles_spec hd hh
  have hre : t₁.readMappedRegions = some rs := hc.more.readMappedRegions hd.regions
  have hren := mapM_of_forall_eq_some _ rs fun r hr => renameRegion_eq hmap hr
  refine ⟨t₁, choice, newName, hc, ?_⟩
  have hrew : rewriteMmaps fileMap t₁ =
      if "pack_mmaps".toList ∈ t₁.entries.map Prod.fst then none
      else some { t₁ with
        mmaps := (rs.map fun r => renamed r (newName r.data.fileName)).map
          writeMappedRegionToAlternativeStream } := by
    rw [rewriteMmaps, hre, Option.bind_eq_bind, Option.bind_some, hren,
      Option.bind_some]
    rfl
  rw [pack, hco, Option.bind_eq_bind, Option.bind_some]
  dsimp only
  rw [hrew]
  split
  · next hl =>
    rw [if_pos (hc.mem_pack_mmaps.mpr hl)]
    rfl
  next hl =>
  rw [if_neg (hl ∘ hc.mem_pack_mmaps.mp)]
  obtain ⟨t', hde, hdir, hm, hret⟩ := deleteUnnecessaryFiles_spec fileMap
    { t₁ with
      mmaps := (rs.map fun r => renamed r (newName r.data.fileName)).map
        writeMappedRegionToAlternativeStream }
  refine ⟨t', hde, hdir.trans hc.more.dir, hm.trans List.map_map, fun n hn => ?_⟩
  apply hret
  have hget := (hmap n (newName n)).mpr ⟨hn, rfl⟩
  exact List.mem_map.mpr ⟨_, hso.get_eq_some.mp hget, rfl⟩

def identityHost : System := ⟨1, id, by decide⟩

theorem hashesTell_identityHost (t : TraceFiles) (rs : List MappedRegion) :
    HashesTell identityHost t rs := fun _ _ _ _ _ _ _ _ h => h

def pageOf (name : String) : MMapMsg :=
  ⟨1, 4096, 8192, name.toList, 1, 1, 1, 2, 0, 33188, 0, 0, 1, 0, .file name.toList, [], false⟩

/-- A directory with one file, beside another one whose name goes on where its own ends. -/
def onePage (name : String) : TraceFiles where
  dir := "/t".toList
  mmaps := [pageOf name]
  entries := [("mmap_clone_1_y".toList, [9])]
  outside := fun path => if path = "/tb/x".toList then some [7] else none
  absolute := rfl
  distinct := by decide
  apart := by decide

def onePageRegion (name : String) : MappedRegion :=
  ⟨⟨⟨4096, 8192⟩, name.toList, 1, 1, 1, 2, 0⟩, ⟨1, .sourceFile, name.toList, 0, 1⟩, [], false⟩

theorem typed_pageOf (name : String) : Typed (pageOf name) := by
  have hone : (-2 ^ 63 : Int) ≤ 1 ∧ (1 : Int) < 2 ^ 63 := by decide
  have hz : (-2 ^ 63 : Int) ≤ 0 ∧ (0 : Int) < 2 ^ 63 := by decide
  exact ⟨hone, hz⟩

end Attune.Pack
