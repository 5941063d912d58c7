import Attune.PackCommand
import Attune.TraceFaithful

namespace Attune.Pack
open Trace OrderedMap List Option Bool KernelMapping

section Names

theorem slash_not_mem_baseFileName (name : FileName) : '/' ∉ baseFileName name := by
  intro h
  rw [baseFileName, mem_reverse] at h
  have hne := all_eq_true.mp all_takeWhile '/' h
  exact absurd hne (by decide)

theorem mem_of_mem_baseFileName (h : c ∈ baseFileName name) : c ∈ name := by
  rw [baseFileName, mem_reverse] at h
  exact mem_reverse.mp ((takeWhile_sublist _).subset h)

theorem baseFileName_append (hn : '/' ∉ name) (dir : FileName) :
    baseFileName (dir ++ '/' :: name) = name := by
  have hall : ∀ c ∈ name.reverse, (c != '/') = true := by
    intro c hc
    rw [bne_iff_ne]
    rintro rfl
    exact hn (mem_reverse.mp hc)
  rw [baseFileName, reverse_append, reverse_cons, append_assoc,
    takeWhile_append_of_pos hall, singleton_append,
    takeWhile_cons_of_neg (by decide), append_nil, reverse_reverse]

theorem baseFileName_append_slash (dir name : FileName) :
    baseFileName (dir ++ '/' :: name) = baseFileName ('/' :: name) := by
  have hst : ∀ rest : FileName, ((name.reverse ++ '/' :: rest).takeWhile (· != '/')) =
      (name.reverse ++ ['/']).takeWhile (· != '/') := by
    intro rest
    induction name.reverse with
    | nil => rfl
    | cons c l ih =>
      rw [cons_append, cons_append, takeWhile_cons, takeWhile_cons, ih]
  rw [baseFileName, baseFileName, reverse_append, reverse_cons, append_assoc,
    singleton_append, hst]

theorem mem_copiedComponent (h : c ∈ copiedComponent name) : c ∈ baseFileName name := by
  rw [copiedComponent] at h
  split at h
  · have hd : ((baseFileName name).drop 14).dropWhile (· != '_') <:+ baseFileName name :=
      (dropWhile_suffix _).trans (drop_suffix _ _)
    generalize ((baseFileName name).drop 14).dropWhile (· != '_') = rest at h hd
    split at h
    · exact hd.subset (mem_cons_of_mem _ h)
    · exact hd.subset h
  · exact h

theorem numbered_injective (front back : FileName)
    (h : front ++ Nat.toDigits 10 i ++ back = front ++ Nat.toDigits 10 j ++ back) : i = j := by
  rw [append_assoc, append_assoc, append_cancel_left_eq,
    append_cancel_right_eq] at h
  have hi := Nat.ofDigitChars_toDigits (b := 10) (n := i) (by decide) (by decide)
  have hj := Nat.ofDigitChars_toDigits (b := 10) (n := j) (by decide) (by decide)
  rw [← hi, h, hj]

theorem not_mem_numbered {front back : FileName} (hf : c ∉ front)
    (hd : c ∉ Nat.toDigits 10 i) (hb : c ∉ back) :
    c ∉ front ++ Nat.toDigits 10 i ++ back := by
  rw [mem_append, mem_append]
  exact not_or.mpr ⟨not_or.mpr ⟨hf, hd⟩, hb⟩

theorem packName_injective (h : packName i component = packName j component) : i = j :=
  numbered_injective _ _ h

theorem slash_not_mem_packName (h : '/' ∉ component) : '/' ∉ packName i component := by
  apply not_mem_numbered (by decide)
  · intro hmem
    have hd := Nat.isDigit_of_mem_toDigits (by decide) (by decide) hmem
    exact absurd hd (by decide)
  · intro hmem
    rcases mem_cons.mp hmem with heq | hmem
    · exact absurd heq (by decide)
    · exact h hmem

theorem null_not_mem_packName (h : Char.ofNat 0 ∉ component) :
    Char.ofNat 0 ∉ packName i component := by
  apply not_mem_numbered (by decide) not_mem_toDigits
  intro hmem
  rcases mem_cons.mp hmem with heq | hmem
  · exact absurd heq (by decide)
  · exact h hmem

theorem length_numbered (front back : FileName) (i : Nat) :
    front.length < (front ++ Nat.toDigits 10 i ++ '_' :: back).length := by
  simp only [length_append, length_cons]
  generalize (Nat.toDigits 10 i).length = n
  omega

theorem length_packName (i : Nat) (component : FileName) : 10 < (packName i component).length :=
  length_numbered "mmap_pack_".toList component i

theorem hardlinkName_packName (i : Nat) (component : FileName) :
    hardlinkName (packName i component) = false := rfl

end Names

section Entries

variable {l : List (FileName × Contents)}

theorem lookup_eq_none_iff : l.lookup name = none ↔ name ∉ l.map Prod.fst := by
  rw [List.lookup_eq_none_iff, List.mem_map]
  constructor
  · rintro h ⟨e, he, rfl⟩
    exact absurd (h e he) (by simp)
  · intro h e he
    rw [bne_iff_ne]
    rintro rfl
    exact h ⟨e, he, rfl⟩

theorem lookup_append_new (h : name ∉ l.map Prod.fst) (contents : Contents) (e : FileName) :
    (l ++ [(name, contents)]).lookup e = if e = name then some contents else l.lookup e := by
  rw [lookup_append, lookup_cons, lookup_nil]
  by_cases he : e = name
  · rw [he, lookup_eq_none_iff.mpr h, if_pos rfl, BEq.rfl, none_or]
  · rw [if_neg he, beq_false_of_ne he, or_none]

theorem lookup_map_writeEntry (name : FileName) (contents : Contents) (e : FileName) :
    (l.map (TraceFiles.writeEntry name contents)).lookup e =
      if e = name then (l.lookup e).map fun _ => contents else l.lookup e := by
  induction l with
  | nil => by_cases he : e = name <;> simp [he]
  | cons x l ih =>
    rw [map_cons, lookup_cons, lookup_cons, ih, TraceFiles.writeEntry]
    by_cases hx : x.1 = name
    · rw [if_pos hx]
      by_cases he : e = name
      · rw [if_pos he, if_pos he, he, hx, BEq.rfl]
        rfl
      · rw [if_neg he, if_neg he, beq_false_of_ne fun h => he (h.trans hx)]
    · rw [if_neg hx]
      by_cases he : e = name
      · rw [if_pos he, if_pos he, beq_false_of_ne fun h => hx (h.symm.trans he)]
      · rw [if_neg he, if_neg he]

theorem lookup_filter_ne (name e : FileName) :
    (l.filter fun x => x.1 != name).lookup e = if e = name then none else l.lookup e := by
  induction l with
  | nil => by_cases he : e = name <;> simp [he]
  | cons x l ih =>
    rw [filter_cons, lookup_cons]
    by_cases hx : x.1 = name
    · rw [if_neg (by simp [hx]), ih]
      by_cases he : e = name
      · rw [if_pos he, if_pos he]
      · rw [if_neg he, if_neg he, beq_false_of_ne fun h => he (h.trans hx)]
    · rw [if_pos (bne_iff_ne.mpr hx), lookup_cons, ih]
      by_cases he : e = name
      · rw [if_pos he, if_pos he, beq_false_of_ne fun h => hx (h.symm.trans he)]
      · rw [if_neg he, if_neg he]

end Entries

structure Extends (t t' : TraceFiles) : Prop where
  dir : t'.dir = t.dir
  mmaps : t'.mmaps = t.mmaps
  outside : t'.outside = t.outside
  lookup : ∀ e c, t.entries.lookup e = some c → t'.entries.lookup e = some c

theorem Extends.refl (t : TraceFiles) : Extends t t := ⟨rfl, rfl, rfl, fun _ _ h => h⟩

theorem Extends.trans (h : Extends t t₁) (h' : Extends t₁ t₂) : Extends t t₂ :=
  ⟨h'.dir.trans h.dir, h'.mmaps.trans h.mmaps, h'.outside.trans h.outside,
    fun e c he => h'.lookup e c (h.lookup e c he)⟩

theorem Extends.read (h : Extends t t') (hr : t.read path = some c) : t'.read path = some c := by
  have hn : t'.entryName path = t.entryName path := by
    rw [TraceFiles.entryName, h.dir, TraceFiles.entryName]
  rw [TraceFiles.read] at hr ⊢
  rw [hn]
  cases he : t.entryName path with
  | none =>
    rw [he] at hr
    rw [h.outside]
    exact hr
  | some e =>
    rw [he] at hr
    exact h.lookup e c hr

theorem create_new {t : TraceFiles} (hm : name ≠ "mmaps".toList)
    (hnew : name ∉ t.entries.map Prod.fst) :
    ∃ t', t.create name = some t' ∧ t'.dir = t.dir ∧ t'.mmaps = t.mmaps ∧ t'.outside = t.outside ∧
      t'.entries = t.entries ++ [(name, [])] :=
  ⟨_, dif_neg (not_or.mpr ⟨hm, hnew⟩), rfl, rfl, rfl, rfl⟩

theorem packName_ne_mmaps (i : Nat) (component : FileName) :
    packName i component ≠ "mmaps".toList := by
  intro h
  have hl := length_packName i component
  rw [h] at hl
  exact absurd hl (by decide)

theorem exists_new_packName (t : TraceFiles) (component : FileName) (k : Nat) :
    ∃ j < t.entries.length + 1, packName (k + j) component ∉ t.entries.map Prod.fst := by
  apply Classical.byContradiction
  intro h
  have hall : ∀ j < t.entries.length + 1, packName (k + j) component ∈ t.entries.map Prod.fst := by
    intro j hj
    apply Classical.byContradiction
    intro hnew
    exact h ⟨j, hj, hnew⟩
  have hn : ((range (t.entries.length + 1)).map
      fun j => packName (k + j) component).Nodup := by
    apply List.Nodup.map _ nodup_range
    intro i j hij
    exact Nat.add_left_cancel (packName_injective hij)
  have hsu : (range (t.entries.length + 1)).map (fun j => packName (k + j) component) ⊆
      t.entries.map Prod.fst := by
    intro name hna
    obtain ⟨j, hj, rfl⟩ := mem_map.mp hna
    exact hall j (mem_range.mp hj)
  have hl := (subperm_of_subset hn hsu).length_le
  rw [length_map, length_map, length_range] at hl
  exact Nat.not_succ_le_self _ hl

theorem createNew_spec (component : FileName) (t : TraceFiles) (fuel k : Nat)
    (h : ∃ j < fuel, packName (k + j) component ∉ t.entries.map Prod.fst) :
    ∃ j t', createNew component t fuel k = some (packName j component, t', j + 1) ∧
      packName j component ∉ t.entries.map Prod.fst ∧
      t'.dir = t.dir ∧ t'.mmaps = t.mmaps ∧ t'.outside = t.outside ∧
      t'.entries = t.entries ++ [(packName j component, [])] := by
  induction fuel generalizing k with
  | zero =>
    obtain ⟨j, hj, _⟩ := h
    exact absurd hj (Nat.not_lt_zero j)
  | succ fuel ih =>
    rw [createNew]
    by_cases hnew : packName k component ∈ t.entries.map Prod.fst
    · have hn : t.create (packName k component) = none := dif_pos (.inr hnew)
      rw [hn]
      apply ih
      obtain ⟨j, hj, hf⟩ := h
      cases j with
      | zero => exact absurd hnew hf
      | succ j => exact ⟨j, by omega, by rwa [Nat.add_assoc, Nat.add_comm 1]⟩
    · obtain ⟨t', hc, hr⟩ := create_new (packName_ne_mmaps k component) hnew
      rw [hc]
      exact ⟨k, t', rfl, hnew, hr⟩

theorem copyIntoTrace_spec (hr : t.read fileName = some c) (k : Nat) :
    ∃ j t', copyIntoTrace t fileName k =
        some (t.dir ++ '/' :: packName j (copiedComponent fileName), t', j + 1) ∧
      Extends t t' ∧ ∀ e, t'.entries.lookup e =
        if e = packName j (copiedComponent fileName) then some c else t.entries.lookup e := by
  obtain ⟨j, t₁, hc, hnew, hdir, hm, ho, hen⟩ :=
    createNew_spec _ t _ k (exists_new_packName t (copiedComponent fileName) k)
  have hl₁ (e : FileName) : t₁.entries.lookup e =
      if e = packName j (copiedComponent fileName) then some [] else t.entries.lookup e := by
    rw [hen, lookup_append_new hnew]
  have hold {e c} (he : t.entries.lookup e = some c) : e ≠ packName j (copiedComponent fileName) := by
    rintro rfl
    rw [lookup_eq_none_iff.mpr hnew] at he
    cases he
  have he₁ : Extends t t₁ := by
    refine ⟨hdir, hm, ho, fun e c he => ?_⟩
    rw [hl₁, if_neg (hold he), he]
  have hl (e : FileName) :
      (t₁.write (packName j (copiedComponent fileName)) c).entries.lookup e =
        if e = packName j (copiedComponent fileName) then some c else t.entries.lookup e := by
    rw [TraceFiles.write, lookup_map_writeEntry, hl₁]
    by_cases he : e = packName j (copiedComponent fileName)
    · rw [if_pos he, if_pos he, if_pos he, map_some]
    · rw [if_neg he, if_neg he, if_neg he]
  refine ⟨j, t₁.write (packName j (copiedComponent fileName)) c, ?_, ?_, hl⟩
  · rw [copyIntoTrace, hc]
    simp only [Option.bind_eq_bind, Option.bind_some, he₁.read hr, Option.pure_def]
  · refine ⟨hdir, hm, ho, fun e c' he => ?_⟩
    rw [hl, if_neg (hold he), he]

section Regions

theorem mapM_eq_some_iff_forall₂ {g : α → Option β} {l : List α} {cs : List β} :
    l.mapM g = some cs ↔ List.Forall₂ (fun a c => g a = some c) l cs := by
  induction l generalizing cs with
  | nil =>
    rw [mapM_nil, Option.pure_def, Option.some.injEq, forall₂_nil_left_iff, eq_comm]
  | cons a l ih =>
    rw [mapM_cons]
    apply Iff.intro
    · intro h
      obtain ⟨c, hc, h⟩ := bind_eq_some_iff.mp h
      obtain ⟨cs', hcs, h⟩ := bind_eq_some_iff.mp h
      cases h
      exact .cons hc (ih.mp hcs)
    · intro h
      cases h with
      | cons hc hcs => simp only [hc, ih.mpr hcs, Option.bind_eq_bind, Option.bind_some,
          Option.pure_def]

theorem readMappedRegion_cons (place : TraceDir) (m : MMapMsg) (l : List MMapMsg) :
    readMappedRegion place 1 .validate .anyTime (.ofList (m :: l)) =
      (m.region place .validate).map fun r => (some r, .ofList l) := by
  have hm : ¬ (MessageStream.ofList (m :: l)).atEnd = true := false_ne_true
  rw [readMappedRegion, if_neg hm]
  dsimp only [MessageStream.next, MessageStream.ofList, bind_eq_bind, bind_some]
  cases m.region place .validate <;> rfl

theorem readLoop_eq (place : TraceDir) (l : List MMapMsg) (fuel : Nat) (h : l.length < fuel) :
    TraceFiles.readLoop place fuel (.ofList l) = l.mapM (MMapMsg.region place .validate) := by
  induction l generalizing fuel with
  | nil =>
    obtain ⟨fuel, rfl⟩ : ∃ n, fuel = n + 1 := ⟨fuel - 1, by simp at h; omega⟩
    rfl
  | cons m l ih =>
    obtain ⟨fuel, rfl⟩ : ∃ n, fuel = n + 1 := ⟨fuel - 1, by simp at h; omega⟩
    rw [TraceFiles.readLoop, readMappedRegion_cons, mapM_cons]
    cases m.region place .validate with
    | none => rfl
    | some r =>
      dsimp only [map_some, bind_eq_bind, bind_some]
      rw [ih fuel (by simpa using h)]
      cases l.mapM (MMapMsg.region place .validate) <;> rfl

theorem readMappedRegions_eq (t : TraceFiles) :
    t.readMappedRegions = t.mmaps.mapM (MMapMsg.region t.place .validate) :=
  readLoop_eq t.place t.mmaps _ (Nat.lt_succ_self _)

theorem Extends.region (h : Extends t t') (hr : MMapMsg.region t.place .validate m = some r) :
    MMapMsg.region t'.place .validate m = some r := by
  have hdir : t'.place.dir = t.place.dir := h.dir
  have hst : ∀ path, t.place.statOk path = true → t'.place.statOk path = true := by
    intro path hp
    obtain ⟨c, hc⟩ := isSome_iff_exists.mp hp
    exact isSome_iff_exists.mpr ⟨c, h.read hc⟩
  have hda (data : MappedData) (hd : m.mappedData t.place .validate = some data) :
      m.mappedData t'.place .validate = some data := by
    rw [MMapMsg.mappedData] at hd ⊢
    obtain ⟨ht, hd⟩ := ite_none_left_eq_some.mp hd
    rw [if_neg ht]
    cases hso : m.source with
    | zero | trace =>
      rw [hso] at hd
      exact hd
    | file backing =>
      rw [hso] at hd
      simp only [bind_eq_bind, bind_eq_some_iff] at hd ⊢
      obtain ⟨name, hna, hd⟩ := hd
      refine ⟨name, hna, ?_⟩
      have hre : t'.place.resolve name = t.place.resolve name := by
        rw [TraceDir.resolve, hdir, TraceDir.resolve]
      rw [hre]
      obtain ⟨hsi, hd⟩ := ite_none_left_eq_some.mp hd
      rw [if_neg hsi]
      obtain ⟨hn, hd⟩ := ite_none_left_eq_some.mp hd
      rw [if_neg, hd]
      intro hn'
      rw [and_eq_true, not_eq_true'] at hn hn'
      refine hn ⟨hn'.1, ?_⟩
      apply eq_false_iff.mpr
      intro hok
      rw [hst _ hok] at hn'
      cases hn'.2
  rw [MMapMsg.region] at hr ⊢
  obtain ⟨data, hd, hr⟩ := bind_eq_some_iff.mp hr
  exact bind_eq_some_iff.mpr ⟨data, hda data hd, hr⟩

theorem Extends.readMappedRegions (h : Extends t t') (hrs : t.readMappedRegions = some rs) :
    t'.readMappedRegions = some rs := by
  rw [readMappedRegions_eq, mapM_eq_some_iff_forall₂] at hrs ⊢
  rw [h.mmaps]
  exact hrs.imp fun _ _ hr => h.region hr

def Typed (m : MMapMsg) : Prop :=
  (-2 ^ 63 ≤ m.statSize ∧ m.statSize < 2 ^ 63) ∧
    -2 ^ 63 ≤ m.fileOffsetBytes ∧ m.fileOffsetBytes < 2 ^ 63

theorem mappedData_cases (h : MMapMsg.mappedData place .validate m = some data) :
    data.time ≠ 0 ∧ data.fileSizeBytes = uint64Of m.statSize ∧
    (data.source ≠ .sourceFile ∧ data.fileName = [] ∧ data.dataOffsetBytes = 0 ∨
      data.source = .sourceFile ∧ 0 ≤ m.statSize ∧ 0 ≤ m.fileOffsetBytes ∧
      data.dataOffsetBytes = uint64Of m.fileOffsetBytes ∧
      ∃ name, Char.ofNat 0 ∉ name ∧ data.fileName = place.resolve name) := by
  rw [MMapMsg.mappedData] at h
  obtain ⟨ht, h⟩ := ite_none_left_eq_some.mp h
  cases hso : m.source with
  | zero | trace =>
    rw [hso] at h
    cases h
    exact ⟨ht, rfl, .inl ⟨(fun he => by cases he), rfl, rfl⟩⟩
  | file backing =>
    rw [hso] at h
    simp only [bind_eq_bind, bind_eq_some_iff] at h
    obtain ⟨name, hna, h⟩ := h
    have hnu : Char.ofNat 0 ∉ name := by
      rw [dataToStr] at hna
      obtain ⟨hmem, hna⟩ := ite_none_left_eq_some.mp hna
      cases hna
      exact hmem
    obtain ⟨hsi, h⟩ := ite_none_left_eq_some.mp h
    obtain ⟨hn, h⟩ := ite_none_left_eq_some.mp h
    obtain ⟨ho, h⟩ := ite_none_left_eq_some.mp h
    cases h
    exact ⟨ht, rfl, .inr ⟨rfl, Int.not_lt.mp hsi, Int.not_lt.mp ho, rfl, name, hnu, rfl⟩⟩

def renamed (r : MappedRegion) (name : FileName) : MappedRegion :=
  if r.data.source = .sourceFile then { r with data := { r.data with fileName := name } } else r

theorem uint64Of_lt (i : Int) : uint64Of i < 2 ^ 64 := BitVec.isLt _

theorem uint64Of_lt_of_nonneg (h : 0 ≤ i) (h' : i < 2 ^ 63) : uint64Of i < 2 ^ 63 := by
  rw [uint64Of, BitVec.toNat_ofInt]
  omega

theorem region_cases (h : MMapMsg.region place .validate m = some r) :
    MMapMsg.mappedData place .validate m = some r.data ∧ Char.ofNat 0 ∉ r.km.fsname ∧
      r.km.offset = uint64Of m.fileOffsetBytes ∧
      new r.km.start r.km.end_ r.km.fsname r.km.device r.km.inode r.km.prot r.km.flags
        r.km.offset = r.km := by
  rw [MMapMsg.region] at h
  obtain ⟨data, hd, h⟩ := bind_eq_some_iff.mp h
  obtain ⟨fsname, hf, h⟩ := bind_eq_some_iff.mp h
  cases h
  refine ⟨hd, ?_, Nat.mod_eq_of_lt (uint64Of_lt _), ?_⟩
  · rw [dataToStr] at hf
    obtain ⟨hmem, hf⟩ := ite_none_left_eq_some.mp hf
    cases hf
    exact hmem
  · simp only [new, Nat.mod_mod, BitVec.and_assoc, BitVec.and_self]

theorem resolve_relative (place : TraceDir) (h : '/' ∉ name) :
    place.resolve name = place.dir ++ '/' :: name := by
  rw [TraceDir.resolve, if_neg]
  intro hh
  exact h (mem_of_mem_head? hh)

theorem region_alternative (ht : Typed m) (hr : MMapMsg.region place .validate m = some r)
    (hn : r.data.source = .sourceFile → Char.ofNat 0 ∉ name ∧ '/' ∉ name) (place' : TraceDir) :
    (writeMappedRegionToAlternativeStream (renamed r name)).region place' .validate =
      some (renamed r (place'.dir ++ '/' :: name)) := by
  obtain ⟨hda, hf, ho, hnew⟩ := region_cases hr
  obtain ⟨km, ⟨time, source, fileName, dataOffset, size⟩, extraFds, skip⟩ := r
  obtain ⟨hti, hsiz, hc⟩ := mappedData_cases hda
  dsimp only at hf ho hnew hti hsiz hc hn
  have ho64 : uint64Of (int64Of km.offset) = km.offset := by
    rw [ho]
    exact uint64Of_int64Of (uint64Of_lt _)
  have hs64 : uint64Of (int64Of size) = size := by
    rw [hsiz]
    exact uint64Of_int64Of (uint64Of_lt _)
  rcases hc with ⟨hso, rfl, rfl⟩ | ⟨rfl, hpos, hoff, hd, _⟩
  · have hsa (n : FileName) : renamed ⟨km, ⟨time, source, [], 0, size⟩, extraFds, skip⟩ n =
        ⟨km, ⟨time, source, [], 0, size⟩, extraFds, skip⟩ := if_neg hso
    have hm : (writeMappedRegionToAlternativeStream
        ⟨km, ⟨time, source, [], 0, size⟩, extraFds, skip⟩).mappedData place' .validate =
          some ⟨time, source, [], 0, size⟩ := by
      rw [MMapMsg.mappedData, if_neg (by exact hti)]
      cases source with
      | sourceFile => exact absurd rfl hso
      | sourceZero | sourceTrace => simp only [writeMappedRegionToAlternativeStream, hs64]
    rw [hsa, hsa, MMapMsg.region, hm]
    simp only [writeMappedRegionToAlternativeStream, dataToStr_eq hf, bind_eq_bind,
      Option.bind_some, ho64, hnew, Option.pure_def]
  · obtain ⟨hnu, hsl⟩ := hn rfl
    have hsa (n : FileName) :
        renamed ⟨km, ⟨time, .sourceFile, fileName, dataOffset, size⟩, extraFds, skip⟩ n =
          ⟨km, ⟨time, .sourceFile, n, dataOffset, size⟩, extraFds, skip⟩ := if_pos rfl
    have hsi : ¬ int64Of size < 0 := by
      rw [hsiz]
      exact Int.not_lt.mpr (int64Of_nonneg (uint64Of_lt_of_nonneg hpos ht.1.2))
    have hof : ¬ int64Of km.offset < 0 := by
      rw [ho]
      exact Int.not_lt.mpr (int64Of_nonneg (uint64Of_lt_of_nonneg hoff ht.2.2))
    have hm : (writeMappedRegionToAlternativeStream
        ⟨km, ⟨time, .sourceFile, name, dataOffset, size⟩, extraFds, skip⟩).mappedData place'
          .validate = some ⟨time, .sourceFile, place'.dir ++ '/' :: name, dataOffset, size⟩ := by
      rw [MMapMsg.mappedData, if_neg (by exact hti)]
      simp only [writeMappedRegionToAlternativeStream, dataToStr_eq hnu, bind_eq_bind,
        bind_some, if_neg hsi, if_neg hof, MMapMsg.needsStat, bne_self_eq_false,
        Bool.or_self, Bool.and_false, Bool.false_and, Bool.false_eq_true, if_false, ho64,
        hs64, resolve_relative place' hsl, hd, ← ho]
    rw [hsa, hsa, MMapMsg.region, hm]
    simp only [writeMappedRegionToAlternativeStream, dataToStr_eq hf, bind_eq_bind,
      Option.bind_some, ho64, hnew, Option.pure_def]

end Regions

end Attune.Pack
