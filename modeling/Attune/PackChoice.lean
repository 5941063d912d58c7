import Attune.PackFiles

namespace Attune.Pack
open Trace OrderedMap List Option

def Named (rs : List MappedRegion) (name : FileName) : Prop :=
  ∃ r ∈ rs, r.data.source = .sourceFile ∧ r.data.fileName = name

/-- Every record can be read, and every file it names is there with the recorded size. -/
structure Described (t : TraceFiles) (rs : List MappedRegion) : Prop where
  typed : ∀ m ∈ t.mmaps, Typed m
  regions : t.readMappedRegions = some rs
  files : ∀ r ∈ rs, r.data.source = .sourceFile →
    ∃ c, t.read r.data.fileName = some c ∧ c.length = r.data.fileSizeBytes

def infoOf (sys : System) (t : TraceFiles) (name : FileName) : FileInfo :=
  ⟨sys.blake2b ((t.read name).getD []), ((t.read name).getD []).length, isHardlink name⟩

section Unique

theorem mem_uniqueFrom (eq : α → α → Bool) (a : α) (l : List α) (h : x ∈ uniqueFrom eq a l) :
    x ∈ a :: l := by
  induction l generalizing a with
  | nil => exact h
  | cons b l ih =>
    rw [uniqueFrom] at h
    split at h
    · rcases mem_cons.mp (ih a h) with rfl | hx
      · exact mem_cons_self
      · exact mem_cons_of_mem _ (mem_cons_of_mem _ hx)
    · rcases mem_cons.mp h with rfl | hx
      · exact mem_cons_self
      · exact mem_cons_of_mem _ (ih b hx)

theorem exists_uniqueFrom [BEq β] [LawfulBEq β] (f : α → β) (a : α) (l : List α) (h : x ∈ a :: l) :
    ∃ y ∈ uniqueFrom (fun a b => f a == f b) a l, f y = f x := by
  induction l generalizing a x with
  | nil => exact ⟨x, h, rfl⟩
  | cons b l ih =>
    rw [uniqueFrom]
    split
    · next hab =>
      rcases mem_cons.mp h with rfl | hx
      · exact ih x mem_cons_self
      · rcases mem_cons.mp hx with rfl | hx
        · obtain ⟨y, hy, heq⟩ := ih (x := a) a mem_cons_self
          exact ⟨y, hy, heq.trans (eq_of_beq hab)⟩
        · exact ih a (mem_cons_of_mem a hx)
    · rcases mem_cons.mp h with rfl | hx
      · exact ⟨x, mem_cons_self, rfl⟩
      · obtain ⟨y, hy, heq⟩ := ih b hx
        exact ⟨y, mem_cons_of_mem a hy, heq⟩

theorem mem_unique (eq : α → α → Bool) (l : List α) (h : x ∈ unique eq l) : x ∈ l := by
  cases l with
  | nil => exact h
  | cons a l => exact mem_uniqueFrom eq a l h

theorem exists_unique_mem [BEq β] [LawfulBEq β] (f : α → β) (l : List α) (h : x ∈ l) :
    ∃ y ∈ unique (fun a b => f a == f b) l, f y = f x := by
  cases l with
  | nil => exact absurd h not_mem_nil
  | cons a l => exact exists_uniqueFrom f a l h

end Unique

section Gather

theorem mem_mappedFiles (h : d ∈ mappedFiles rs) :
    ∃ r ∈ rs, r.data.source = .sourceFile ∧ r.data = d := by
  rw [mappedFiles, List.mem_insertionSort] at h
  have hmem := mem_unique _ _ h
  rw [List.mem_insertionSort, List.mem_filter, List.mem_map] at hmem
  obtain ⟨⟨r, hr, rfl⟩, hso⟩ := hmem
  exact ⟨r, hr, of_decide_eq_true hso, rfl⟩

theorem exists_mappedFiles (h : Named rs name) : ∃ d ∈ mappedFiles rs, d.fileName = name := by
  obtain ⟨r, hr, hso, rfl⟩ := h
  have hmem : r.data ∈ ((rs.map (·.data)).filter (·.source = .sourceFile)).insertionSort
      fun d1 d2 => ¬ d2.fileName < d1.fileName := by
    rw [mem_insertionSort, mem_filter]
    exact ⟨mem_map_of_mem hr, decide_eq_true hso⟩
  obtain ⟨d, hd, heq⟩ := exists_unique_mem MappedData.fileName _ hmem
  refine ⟨d, ?_, heq⟩
  rw [mappedFiles, mem_insertionSort]
  exact hd

theorem mem_flatten_threadFiles (sys : System) (files : List MappedData) :
    d ∈ (threadFiles sys files).flatten ↔ d ∈ files := by
  rw [threadFiles, mem_flatten]
  apply Iff.intro
  · rintro ⟨part, hpa, hd⟩
    obtain ⟨i, _, rfl⟩ := mem_map.mp hpa
    obtain ⟨p, hp, rfl⟩ := mem_map.mp hd
    exact fst_mem_of_mem_zipIdx (mem_filter.mp hp).1
  · intro hd
    obtain ⟨i, hi, rfl⟩ := mem_iff_getElem.mp hd
    have hpos : 0 < min files.length (min 20 sys.cpus) := by
      have := sys.cpus_pos
      omega
    refine ⟨_, mem_map.mpr ⟨i % min files.length (min 20 sys.cpus),
      mem_range.mpr (Nat.mod_lt _ hpos), rfl⟩, ?_⟩
    refine mem_map.mpr ⟨(files[i], i), mem_filter.mpr ⟨?_, decide_eq_true rfl⟩, rfl⟩
    rw [mem_zipIdx_iff_getElem?, getElem?_eq_getElem hi]

theorem mapM_of_forall_eq_some {g : α → Option β} (f : α → β) (l : List α)
    (h : ∀ a ∈ l, g a = some (f a)) : l.mapM g = some (l.map f) := by
  induction l with
  | nil => rfl
  | cons a l ih =>
    rw [mapM_cons, h a mem_cons_self, ih fun b hb => h b (mem_cons_of_mem a hb)]
    rfl

theorem foldl_assign [LinearOrder K] (f : K → V) (l : List K) {m : List (K × V)} (hm : Sorted m)
    (hf : ∀ k v, get k m = some v → v = f k) :
    Sorted (l.foldl (fun m k => assign less k (f k) m) m) ∧
      ∀ k v, get k (l.foldl (fun m k => assign less k (f k) m) m) = some v ↔
        (k ∈ l ∨ (get k m).isSome = true) ∧ v = f k := by
  induction l generalizing m with
  | nil =>
    refine ⟨hm, fun k v => ?_⟩
    rw [foldl_nil, or_iff_right not_mem_nil, isSome_iff_exists]
    apply Iff.intro
    · intro h
      exact ⟨⟨v, h⟩, hf k v h⟩
    · rintro ⟨⟨w, hw⟩, rfl⟩
      rw [hw, hf k w hw]
  | cons a l ih =>
    have hget := hm.get_assign a
    obtain ⟨hso, hsp⟩ := ih (hm.assign a (f a)) fun k v h => by
      rw [hget] at h
      split at h
      · next hk =>
        rw [hk]
        exact (some.inj h).symm
      · exact hf k v h
    refine ⟨hso, fun k v => ?_⟩
    rw [foldl_cons, hsp, hget, mem_cons]
    by_cases hk : k = a
    · simp [hk]
    · simp [hk]

theorem gatherFileInfo_spec (sys : System) (hd : Described t rs) :
    ∃ info, gatherFileInfo sys t = some info ∧ Sorted info ∧
      ∀ name v, get name info = some v ↔ Named rs name ∧ v = infoOf sys t name := by
  have hp : ∀ d ∈ mappedFiles rs,
      (processFile sys t d).map (fun info => (d.fileName, info)) =
        some (d.fileName, infoOf sys t d.fileName) := by
    intro d hmem
    obtain ⟨r, hr, hso, rfl⟩ := mem_mappedFiles hmem
    obtain ⟨c, hre, hl⟩ := hd.files r hr hso
    rw [processFile, hre]
    simp only [bind_eq_bind, bind_some, if_neg (not_not_intro hl), infoOf, hre,
      getD_some, map_some]
  have ht : (threadFiles sys (mappedFiles rs)).mapM (fun files => files.mapM fun data =>
      (processFile sys t data).map fun info => (data.fileName, info)) =
        some ((threadFiles sys (mappedFiles rs)).map fun files =>
          files.map fun d => (d.fileName, infoOf sys t d.fileName)) := by
    apply mapM_of_forall_eq_some
    intro files hf
    apply mapM_of_forall_eq_some
    intro d hmem
    exact hp d ((mem_flatten_threadFiles sys _).mp (mem_flatten.mpr ⟨files, hf, hmem⟩))
  have hfo : ((threadFiles sys (mappedFiles rs)).map fun files =>
      files.map fun d => (d.fileName, infoOf sys t d.fileName)).flatten.foldl
        (fun fileInfo f => assign less f.1 f.2 fileInfo) [] =
      (((threadFiles sys (mappedFiles rs)).flatten.map MappedData.fileName).foldl
        (fun m name => assign less name (infoOf sys t name) m) []) := by
    rw [← map_flatten, foldl_map, foldl_map]
  obtain ⟨hsor, hsp⟩ := foldl_assign (infoOf sys t)
    ((threadFiles sys (mappedFiles rs)).flatten.map MappedData.fileName) (m := []) .nil nofun
  refine ⟨_, ?_, hsor, fun name v => ?_⟩
  · rw [gatherFileInfo, hd.regions]
    simp only [Option.bind_eq_bind, Option.bind_some, ht, Option.pure_def, hfo]
  · rw [hsp, List.mem_map]
    apply and_congr_left
    intro _
    apply Iff.intro
    · rintro (⟨d, hmem, rfl⟩ | h)
      · obtain ⟨r, hr, hso, rfl⟩ := mem_mappedFiles ((mem_flatten_threadFiles sys _).mp hmem)
        exact ⟨r, hr, hso, rfl⟩
      · cases h
    · intro hn
      obtain ⟨d, hmem, heq⟩ := exists_mappedFiles hn
      exact .inl ⟨d, (mem_flatten_threadFiles sys _).mpr hmem, heq⟩

end Gather

section Choice

def taken (dir name : FileName) : Bool := !isHardlink name && isInTraceDir name dir

variable {fileInfo : List (FileName × FileInfo)} {dir : FileName}

theorem staysInTrace_eq (h : get name fileInfo = some info)
    (hl : info.isHardlink = isHardlink name) : staysInTrace fileInfo dir name = taken dir name := by
  rw [staysInTrace, h, any_some, hl, taken]

/-- A name for a hash: one of the files, and the least of those taken for files of the trace if there
are any. -/
structure Chosen (dir : FileName) (l : List (FileName × FileInfo)) (hash : FileHash)
    (name : FileName) : Prop where
  mem : ∃ p ∈ l, p.1 = name ∧ p.2.hash = hash
  least : ∀ q ∈ l, q.2.hash = hash → taken dir q.1 = true → taken dir name = true ∧ name ≤ q.1

theorem chooseName_spec {acc : List (FileHash × FileName)} {l : List (FileName × FileInfo)}
    (hin : ∀ q ∈ l, get q.1 fileInfo = some q.2 ∧ q.2.isHardlink = isHardlink q.1)
    (haf : ∀ q ∈ l, q.1 < p.1) (hso : Sorted acc)
    (hsom : ∀ hash name, get hash acc = some name → Chosen dir l hash name)
    (hnon : ∀ hash, get hash acc = none → ∀ q ∈ l, q.2.hash ≠ hash) :
    let acc' := chooseName fileInfo dir acc p
    Sorted acc' ∧ (∀ hash name, get hash acc' = some name → Chosen dir (l ++ [p]) hash name) ∧
      ∀ hash, get hash acc' = none → ∀ q ∈ l ++ [p], q.2.hash ≠ hash := by
  intro acc'
  -- the name of the new file is taken when none of the others can stay
  have ha (hno : ∀ q ∈ l, q.2.hash = p.2.hash → ¬ taken dir q.1 = true) :
      Sorted (assign less p.2.hash p.1 acc) ∧
      (∀ hash name, get hash (assign less p.2.hash p.1 acc) = some name →
        Chosen dir (l ++ [p]) hash name) ∧
      ∀ hash, get hash (assign less p.2.hash p.1 acc) = none → ∀ q ∈ l ++ [p], q.2.hash ≠ hash := by
    refine ⟨hso.assign _ _, fun hash name hget => ?_, fun hash hget q hq => ?_⟩
    · rw [hso.get_assign] at hget
      split at hget
      · next hh =>
        cases hget
        refine ⟨⟨p, mem_append_right _ mem_cons_self, rfl, hh.symm⟩, fun q hq heq hg => ?_⟩
        rcases mem_append.mp hq with hq | hq
        · exact absurd hg (hno q hq (heq.trans hh))
        · cases mem_singleton.mp hq
          exact ⟨hg, le_refl _⟩
      · next hh =>
        obtain ⟨⟨p', hp', hn, heq'⟩, hl⟩ := hsom hash name hget
        refine ⟨⟨p', mem_append_left _ hp', hn, heq'⟩, fun q hq heq hg => ?_⟩
        rcases mem_append.mp hq with hq | hq
        · exact hl q hq heq hg
        · cases mem_singleton.mp hq
          exact absurd heq.symm hh
    · rw [hso.get_assign] at hget
      split at hget
      · cases hget
      · next hh =>
        rcases mem_append.mp hq with hq | hq
        · exact hnon hash hget q hq
        · cases mem_singleton.mp hq
          exact Ne.symm hh
  simp only [acc', chooseName]
  cases hget : get p.2.hash acc with
  | none =>
    apply ha
    intro q hq heq
    exact absurd heq (hnon _ hget q hq)
  | some existing =>
    obtain ⟨⟨p', hp', hn, heq'⟩, hl⟩ := hsom _ _ hget
    have hst : staysInTrace fileInfo dir existing = taken dir existing := by
      rw [← hn]
      exact staysInTrace_eq (hin p' hp').1 (hin p' hp').2
    dsimp only
    rw [hst]
    split
    · next hg =>
      refine ⟨hso, fun hash name hg' => ?_, fun hash hg' q hq => ?_⟩
      · obtain ⟨⟨p'', hp'', hn'', he''⟩, hl'⟩ := hsom hash name hg'
        refine ⟨⟨p'', mem_append_left _ hp'', hn'', he''⟩, fun q hq heq hq' => ?_⟩
        rcases mem_append.mp hq with hq | hq
        · exact hl' q hq heq hq'
        · cases mem_singleton.mp hq
          rw [heq, hg'] at hget
          cases hget
          rw [← hn]
          exact ⟨hn ▸ hg, le_of_lt (haf p' hp')⟩
      · rcases mem_append.mp hq with hq | hq
        · exact hnon hash hg' q hq
        · cases mem_singleton.mp hq
          rintro rfl
          rw [hget] at hg'
          cases hg'
    · next hg =>
      apply ha
      intro q hq heq hq'
      exact hg (hl q hq heq hq').1

theorem chooseNames_spec (hso : Sorted fileInfo)
    (hli : ∀ q ∈ fileInfo, q.2.isHardlink = isHardlink q.1) :
    Sorted (chooseNames fileInfo dir) ∧
      (∀ hash name, get hash (chooseNames fileInfo dir) = some name →
        Chosen dir fileInfo hash name) ∧
      ∀ hash, get hash (chooseNames fileInfo dir) = none → ∀ q ∈ fileInfo, q.2.hash ≠ hash := by
  have hrun : ∀ l, l <+: fileInfo →
      Sorted (l.foldl (chooseName fileInfo dir) []) ∧
      (∀ hash name, get hash (l.foldl (chooseName fileInfo dir) []) = some name →
        Chosen dir l hash name) ∧
      ∀ hash, get hash (l.foldl (chooseName fileInfo dir) []) = none → ∀ q ∈ l, q.2.hash ≠ hash := by
    intro l hl
    induction l using reverseRecOn with
    | nil => exact ⟨.nil, nofun, nofun⟩
    | append_singleton l p ih =>
      have hp : l <+: fileInfo := (prefix_append l [p]).trans hl
      obtain ⟨hs, hsom, hn⟩ := ih hp
      have hpa : (l ++ [p]).Pairwise fun a b => a.1 < b.1 := hso.sublist hl.sublist
      rw [foldl_append, foldl_cons, foldl_nil]
      apply chooseName_spec _ _ hs hsom hn
      · intro q hq
        have hmem := hp.subset hq
        exact ⟨hso.get_eq_some.mpr hmem, hli q hmem⟩
      · intro q hq
        exact (pairwise_append.mp hpa).2.2 q hq p mem_cons_self
  exact hrun fileInfo (prefix_refl _)

end Choice

end Attune.Pack
