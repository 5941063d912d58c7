import Attune.PatchHunks

namespace Attune.Patch
open List

namespace MuplayPatch

/-- The loop of the two counters: what is listed for a hunk's file is added for every hunk, as
`unsigned`. -/
def countListed (listed : FileLines → List Int) (pt : MuplayPatch) : Nat :=
  pt.hunks.foldl (fun res hk => (res + (listed (pt.lines hk.fileName)).length) % 2 ^ 32) 0

def getNumInsertedLines (pt : MuplayPatch) : Nat := pt.countListed FileLines.ins

def getNumDeletedLines (pt : MuplayPatch) : Nat := pt.countListed FileLines.del

end MuplayPatch

/-- The patch that holds the given hunks, each with the name of its file, after they were read. -/
def patchOf (hs : List (Line × DiffHunk)) : MuplayPatch :=
  MuplayPatch.getAllModLinesForFiles
    { MuplayPatch.new with hunks := hs.map fun e => hkGenLineNum (e.2.raw e.1) }

def numLines (kind : LineKind) (hs : List (Line × DiffHunk)) : Nat :=
  (hs.map fun e => e.2.body.countP (·.kind = kind)).sum

section Recounting
variable {α : Type} [DecidableEq α]

def weight (l : List (α × Nat)) (k : α) : Nat := ((l.filter (·.1 = k)).map Prod.snd).sum

/-- What is added too often when every entry adds all the values under its key. -/
def recounted : List (α × Nat) → Nat
  | [] => 0
  | e :: l => weight l e.1 + e.2 * (l.map Prod.fst).count e.1 + recounted l

theorem weight_cons (e : α × Nat) (l : List (α × Nat)) (k : α) :
    weight (e :: l) k = (if e.1 = k then e.2 else 0) + weight l k := by
  by_cases he : e.1 = k <;> simp [weight, he]

theorem sum_if_key (e : α × Nat) (l : List (α × Nat)) :
    (l.map fun e' => if e.1 = e'.1 then e.2 else 0).sum = e.2 * (l.map Prod.fst).count e.1 := by
  induction l with
  | nil => simp
  | cons e' l ih =>
    rw [map_cons, sum_cons, ih, map_cons, count_cons]
    by_cases he : e.1 = e'.1
    · simp [he, Nat.mul_add, Nat.add_comm]
    · have hne : (e'.1 == e.1) = false := beq_eq_false_iff_ne.2 (Ne.symm he)
      simp [he, hne]

theorem sum_weight (l : List (α × Nat)) :
    (l.map fun e => weight l e.1).sum = (l.map Prod.snd).sum + recounted l := by
  induction l with
  | nil => rfl
  | cons e l ih =>
    have hl : (l.map fun e' => weight (e :: l) e'.1) =
        l.map fun e' => (if e.1 = e'.1 then e.2 else 0) + weight l e'.1 :=
      map_congr_left fun e' _ => weight_cons e l e'.1
    rw [map_cons, sum_cons, hl, sum_map_add, sum_if_key, ih, weight_cons, if_pos rfl,
      recounted, map_cons, sum_cons]
    omega

theorem recounted_of_nodup {l : List (α × Nat)} (h : (l.map Prod.fst).Nodup) : recounted l = 0 := by
  induction l with
  | nil => rfl
  | cons e l ih =>
    rw [map_cons, nodup_cons] at h
    have hw : weight l e.1 = 0 := by
      have hf : l.filter (·.1 = e.1) = [] := by
        apply filter_eq_nil_iff.2
        intro e' he' hk
        exact h.1 (of_decide_eq_true hk ▸ mem_map_of_mem he')
      rw [weight, hf]
      rfl
    rw [recounted, hw, count_eq_zero.2 h.1, ih h.2, Nat.mul_zero]

theorem nodup_of_recounted {l : List (α × Nat)} (hpos : ∀ e ∈ l, 0 < e.2)
    (h : recounted l = 0) : (l.map Prod.fst).Nodup := by
  induction l with
  | nil => exact nodup_nil
  | cons e l ih =>
    rw [recounted] at h
    have hc : e.2 * (l.map Prod.fst).count e.1 = 0 := by omega
    have hz := (Nat.mul_eq_zero.1 hc).resolve_left
      (Nat.ne_of_gt (hpos e mem_cons_self))
    rw [map_cons, nodup_cons]
    exact ⟨count_eq_zero.1 hz, ih (fun e he => hpos e (mem_cons_of_mem _ he)) (by omega)⟩

end Recounting

/-- The line 0 that `hk_gen_line_num` lists for want of a deletion, or of an insertion. -/
def DiffHunk.placeholder (h : DiffHunk) : LineKind → Nat
  | .deletion => if h.Has .deletion then 0 else 1
  | .insertion => if h.Has .deletion ∧ ¬ h.Has .insertion then 1 else 0
  | _ => 0

/-- What is counted too much: the lines 0, and a file's lines once more for every other hunk. -/
def surplus (kind : LineKind) (hs : List (Line × DiffHunk)) : Nat :=
  (hs.map fun e => e.2.placeholder kind).sum +
    recounted (hs.map fun e => (e.1, e.2.body.countP (·.kind = kind) + e.2.placeholder kind))

theorem hkGenLineNum_lengths (h : DiffHunk) (name : Line) :
    (hkGenLineNum (h.raw name)).insertionLines.length =
      h.body.countP (·.kind = .insertion) + h.placeholder .insertion ∧
    (hkGenLineNum (h.raw name)).deletionLines.length =
      h.body.countP (·.kind = .deletion) + h.placeholder .deletion := by
  obtain ⟨hdel, hins, hde, hin⟩ :=
    @foldl_genLine (h.raw name) h.oldStart h.newStart rfl rfl h.body ⟨0, 0, [], [], 0, 0⟩
  have hdels := congrArg length hdel
  have hinss := congrArg length hins
  simp only [nil_append, length_map, lineNumbers_length] at hdels hinss
  simp only [Nat.zero_add] at hde hin
  rw [hkGenLineNum]
  simp only [DiffHunk.placeholder, h.has_iff_countP, ← hde, ← hin]
  split
  next hd => simp_all [DiffHunk.raw]
  next hd =>
    split
    next hi => simp_all [DiffHunk.raw]
    next hi => simp_all [DiffHunk.raw]

theorem foldl_add_mod (f : α → Nat) (m : Nat) (l : List α) (res : Nat) (hres : res < m) :
    l.foldl (fun res a => (res + f a) % m) res = (res + (l.map f).sum) % m := by
  induction l generalizing res with
  | nil => simp [Nat.mod_eq_of_lt hres]
  | cons a l ih =>
    rw [foldl_cons, ih _ (Nat.mod_lt _ (Nat.zero_lt_of_lt hres)), map_cons, sum_cons,
      Nat.mod_add_mod, Nat.add_assoc]

variable (hs : List (Line × DiffHunk))

theorem patchOf_lines (name : Line) : (patchOf hs).lines name =
      ⟨hunkNumbers Hunk.insertionLines (patchOf hs).hunks name,
        hunkNumbers Hunk.deletionLines (patchOf hs).hunks name⟩ :=
  lookup_foldl_addModLines _ [] name

@[simp] theorem raw_fileName (name : Line) (h : DiffHunk) : (h.raw name).fileName = name := rfl

theorem length_hunkNumbers {listed : Hunk → List Int} {len : DiffHunk → Nat}
    (hl : ∀ h name, (listed (hkGenLineNum (DiffHunk.raw name h))).length = len h)
    (hs : List (Line × DiffHunk)) (name : Line) :
    (hunkNumbers listed (patchOf hs).hunks name).length =
      weight (hs.map fun e => (e.1, len e.2)) name := by
  have hh : ∀ hs : List (Line × DiffHunk),
      (patchOf hs).hunks = hs.map fun e => hkGenLineNum (e.2.raw e.1) := fun _ => rfl
  rw [hh]
  induction hs with
  | nil => rfl
  | cons e hs ih =>
    rw [map_cons, map_cons, weight_cons, ← ih, ← hl e.2 e.1]
    by_cases he : e.1 = name
    · simp [hunkNumbers, he]
    · simp [hunkNumbers, he]

theorem countListed_patchOf {listed : FileLines → List Int} {listedIn : Hunk → List Int}
    {kind : LineKind}
    (hli : ∀ hs name,
      listed ((patchOf hs).lines name) = hunkNumbers listedIn (patchOf hs).hunks name)
    (hl : ∀ h name, (listedIn (hkGenLineNum (DiffHunk.raw name h))).length =
      h.body.countP (·.kind = kind) + h.placeholder kind)
    (hs : List (Line × DiffHunk)) :
    (patchOf hs).countListed listed = (numLines kind hs + surplus kind hs) % 2 ^ 32 := by
  have hmap : ((patchOf hs).hunks.map fun hk => (listed ((patchOf hs).lines hk.fileName)).length) =
      (hs.map fun e => (e.1, e.2.body.countP (·.kind = kind) + e.2.placeholder kind)).map
        fun e => weight (hs.map fun e => (e.1, e.2.body.countP (·.kind = kind) +
          e.2.placeholder kind)) e.1 := by
    simp only [hli, length_hunkNumbers hl]
    have hh : (patchOf hs).hunks = hs.map fun e => hkGenLineNum (e.2.raw e.1) := rfl
    rw [hh, map_map, map_map]
    apply map_congr_left
    intro e _
    simp only [Function.comp_apply, hkGenLineNum_fileName, raw_fileName]
  rw [MuplayPatch.countListed, foldl_add_mod _ _ _ _ (by decide), hmap, sum_weight, map_map,
    Nat.zero_add, surplus, numLines, ← Nat.add_assoc, ← sum_map_add]
  rfl

theorem getNumInsertedLines_eq : (patchOf hs).getNumInsertedLines =
      (numLines .insertion hs + surplus .insertion hs) % 2 ^ 32 :=
  countListed_patchOf (fun hs name => congrArg FileLines.ins (patchOf_lines hs name))
    (fun h name => (hkGenLineNum_lengths h name).1) hs

theorem getNumDeletedLines_eq : (patchOf hs).getNumDeletedLines =
      (numLines .deletion hs + surplus .deletion hs) % 2 ^ 32 :=
  countListed_patchOf (fun hs name => congrArg FileLines.del (patchOf_lines hs name))
    (fun h name => (hkGenLineNum_lengths h name).2) hs

/-- Every file has one hunk, and every hunk deletes lines and inserts lines. -/
structure CountedOnce (hs : List (Line × DiffHunk)) : Prop where
  files : (hs.map Prod.fst).Nodup
  both : ∀ e ∈ hs, e.2.Has .deletion ∧ e.2.Has .insertion

theorem CountedOnce.surplus_eq (hs : CountedOnce l) :
    surplus .insertion l = 0 ∧ surplus .deletion l = 0 := by
  have hp : ∀ kind, (l.map fun e => e.2.placeholder kind).sum = 0 := by
    intro kind
    apply sum_eq_zero
    intro n hn
    obtain ⟨e, he, rfl⟩ := mem_map.1 hn
    obtain ⟨hd, hi⟩ := hs.both e he
    cases kind <;> simp [DiffHunk.placeholder, hd, hi]
  have hr : ∀ f : Line × DiffHunk → Nat, recounted (l.map fun e => (e.1, f e)) = 0 := by
    intro f
    apply recounted_of_nodup
    rw [map_map]
    exact hs.files
  exact ⟨by rw [surplus, hp, hr], by rw [surplus, hp, hr]⟩

theorem countedOnce_of_surplus (hi : surplus .insertion l = 0) (hd : surplus .deletion l = 0) :
    CountedOnce l := by
  rw [surplus, Nat.add_eq_zero_iff] at hi hd
  have hdel : ∀ e ∈ l, e.2.Has .deletion := by
    intro e he
    by_contra hno
    have hz := sum_eq_zero_iff.1 hd.1 _ (mem_map_of_mem he)
    simp [DiffHunk.placeholder, hno] at hz
  refine ⟨?_, fun e he => ⟨hdel e he, ?_⟩⟩
  · have hn := nodup_of_recounted ?_ hd.2
    · rw [map_map] at hn
      exact hn
    · intro p hp
      obtain ⟨e, he, rfl⟩ := mem_map.1 hp
      have hpos := (e.2.has_iff_countP .deletion).1 (hdel e he)
      exact Nat.add_pos_left (Nat.pos_of_ne_zero hpos) _
  · by_contra hno
    have hz := sum_eq_zero_iff.1 hi.1 _ (mem_map_of_mem he)
    simp [DiffHunk.placeholder, hno, hdel e he] at hz

def WrapsAway : Prop :=
  2 ^ 32 ∣ surplus .insertion hs ∧ 2 ^ 32 ∣ surplus .deletion hs ∧
    0 < surplus .insertion hs + surplus .deletion hs

theorem add_mod_eq_iff {m : Nat} (hm : 0 < m) (a s : Nat) : (a + s) % m = a ↔ a < m ∧ m ∣ s := by
  constructor
  · intro h
    have hlt : a < m := h ▸ Nat.mod_lt _ hm
    have hdiv := Nat.mod_add_div (a + s) m
    exact ⟨hlt, (a + s) / m, by omega⟩
  · rintro ⟨hlt, k, rfl⟩
    rw [Nat.add_mul_mod_self_left, Nat.mod_eq_of_lt hlt]

/-- The counts are right when every file has one hunk with lines of both kinds, else only if the
surplus is lost. -/
theorem patch_line_counts_iff : ((patchOf hs).getNumInsertedLines = numLines .insertion hs ∧
      (patchOf hs).getNumDeletedLines = numLines .deletion hs) ↔
    (numLines .insertion hs < 2 ^ 32 ∧ numLines .deletion hs < 2 ^ 32) ∧
      (CountedOnce hs ∨ WrapsAway hs) := by
  have hsu : (CountedOnce hs ∨ WrapsAway hs) ↔
      2 ^ 32 ∣ surplus .insertion hs ∧ 2 ^ 32 ∣ surplus .deletion hs := by
    constructor
    · rintro (hc | hw)
      · obtain ⟨hi, hd⟩ := hc.surplus_eq
        rw [hi, hd]
        exact ⟨Nat.dvd_zero _, Nat.dvd_zero _⟩
      · exact ⟨hw.1, hw.2.1⟩
    · intro h
      rcases Nat.eq_zero_or_pos (surplus .insertion hs + surplus .deletion hs) with h0 | hpos
      · obtain ⟨hi, hd⟩ := Nat.add_eq_zero_iff.1 h0
        exact .inl (countedOnce_of_surplus hi hd)
      · exact .inr ⟨h.1, h.2, hpos⟩
  rw [getNumInsertedLines_eq, getNumDeletedLines_eq, add_mod_eq_iff (by decide),
    add_mod_eq_iff (by decide), hsu]
  tauto

/-- Two hunks of one file, each with a line of both kinds: the counts are four and four. -/
theorem patch_line_counts_wrong : let h : DiffHunk :=
      ⟨1, some 1, 1, some 1, [], [⟨.deletion, "f();".toList⟩, ⟨.insertion, "g();".toList⟩]⟩
    let hs := [("x.c".toList, h), ("x.c".toList, h)]
    numLines .insertion hs = 2 ∧ numLines .deletion hs = 2 ∧
      (patchOf hs).getNumInsertedLines = 4 ∧ (patchOf hs).getNumDeletedLines = 4 := by
  decide

end Attune.Patch
