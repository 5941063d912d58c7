import Attune.SourceNames

namespace Attune.Sources
open Files List Option FileTree

def answer : Except Errno Place → Path
  | .ok q => render q
  | .error _ => []

def targetPath (dir : List Name) (target : Path) : Path :=
  if target.head? = some '/' then target else absolute dir ++ '/' :: target

inductive Met (fs : FileTree) (calls : List Path) : Path → Prop
  | call : s ∈ calls → Met fs calls s
  | link : Met fs calls s → components s = pre ++ c :: post → fs.Resolves pre (.ok cur) →
      fs.lookupName cur c = .ok (.link target) → Met fs calls (targetPath pre target)

/-- On the way along such a path, in front of a component. -/
structure At (fs : FileTree) (calls : List Path) (s : Path) (pre : List Name) (c : Name)
    (post : List Name) (cur : Place) : Prop where
  met : Met fs calls s
  parts : components s = pre ++ c :: post
  dir : fs.Resolves pre (.ok cur)

def Located (fs : FileTree) (pre : List Name) (q : Place) : Prop :=
  ∃ dir c cur, pre = dir ++ [c] ∧ fs.Resolves dir (.ok cur) ∧ q = spot cur c ∧
    fs.node cur = some .directory ∧ fs.node q ≠ none

inductive Key (fs : FileTree) (calls : List Path) : Path → Prop
  | root : Met fs calls ['/'] → Key fs calls ['/']
  | path : Met fs calls s → components s = pre ++ post → Located fs pre q →
      Key fs calls (absolute pre)
  | place : Met fs calls s → components s = pre ++ post → Located fs pre q →
      Key fs calls (absolute q)

/-- What the paths must avoid: empty components, dots behind a file or to the root, relative links
in the root, and prefixes that are remembered. -/
structure Plain (fs : FileTree) (calls : List Path) : Prop where
  names : ∀ s, Met fs calls s → s = ['/'] ∨ s ≠ [] ∧ s = absolute (components s)
  dots : ∀ s pre c post cur, At fs calls s pre c post cur → c = dot ∨ c = dotdot →
    fs.node cur = some .directory ∧ spot cur c ≠ []
  links : ∀ s pre c post cur target, At fs calls s pre c post cur →
    fs.lookupName cur c = .ok (.link target) → (target.head? ≠ some '/' → pre ≠ []) ∧
      (post ≠ [] → ∃ q, q ≠ [] ∧ fs.Resolves (pre ++ [c]) (.ok q))
  prefixes : ∀ s p, Met fs calls s → s[p + 1]? = some '/' → ¬ Key fs calls (s.take p)

section Places

variable {fs : FileTree}

theorem resolves_unique (h : fs.Resolves cs r) (h' : fs.Resolves cs r') : r = r' := by
  obtain ⟨n, h⟩ := h
  obtain ⟨n', h'⟩ := h'
  exact (h.unique h').2

theorem resolves_physical (h : fs.Resolves cs (.ok q)) : fs.Physical q := by
  obtain ⟨n, h⟩ := h
  exact h.physical (.inl node_nil)

theorem walk_of_resolves_concat (hdir : fs.Resolves pre (.ok cur)) (h : fs.Resolves (pre ++ cs) r) :
    ∃ n, fs.Walk n cur cs r := by
  obtain ⟨n, h⟩ := h
  rcases h.split with ⟨e, rfl, he⟩ | ⟨n₁, n₂, q, _, hf, hl⟩
  · cases resolves_unique hdir ⟨n, he⟩
  · cases resolves_unique hdir ⟨n₁, hf⟩
    exact ⟨n₂, hl⟩

/-- The place to which a link at a place leads, or the place itself. -/
inductive Final (fs : FileTree) (q : Place) : Except Errno Place → Prop
  | here : fs.Physical q → Final fs q (.ok q)
  | link : fs.node q = some (.symlink target) →
      fs.Walk n (startOf q.dropLast target) (components target) r → Final fs q r

theorem Final.unique (h : Final fs q r) (h' : Final fs q r') : r = r' := by
  cases h with
  | here hq =>
    cases h' with
    | here => rfl
    | link hl => rcases hq with hq | hq <;> cases hl.symm.trans hq
  | link hl hw =>
    cases h' with
    | here hq => rcases hq with hq | hq <;> cases hl.symm.trans hq
    | link hl' hw' =>
      cases hl.symm.trans hl'
      exact (hw.unique hw').2

theorem final_of_walk (hdir : fs.node cur = some .directory) (hq : fs.node (spot cur c) ≠ none)
    (h : fs.Walk n cur [c] r) : Final fs (spot cur c) r := by
  cases h with
  | fail hfa =>
    obtain ⟨found, hf⟩ := lookupName_eq_ok hdir hq
    cases hf.symm.trans hfa
  | move hm hr =>
    obtain ⟨_, rfl, hp⟩ := lookupName_eq_here hm
    cases hr
    exact .here hp
  | follow hl hr =>
    rw [append_nil] at hr
    obtain ⟨_, hn⟩ := lookupName_eq_link hl
    apply Final.link hn
    rw [proper_of_link hl, dropLast_concat]
    exact hr

theorem Located.final (h : Located fs pre q) (hr : fs.Resolves pre r) : Final fs q r := by
  obtain ⟨dir, c, cur, rfl, hdir, rfl, hcur, hq⟩ := h
  obtain ⟨n, hw⟩ := walk_of_resolves_concat hdir hr
  exact final_of_walk hcur hq hw

theorem Located.proper (h : Located fs pre q) : ∀ c ∈ q, ProperName c := by
  obtain ⟨_, _, _, _, _, _, _, hq⟩ := h
  obtain ⟨v, hv⟩ := ne_none_iff_exists'.mp hq
  exact properName_of_node hv

theorem Located.self (h : Located fs (dir ++ [c]) q) (hdir : fs.Physical dir) (hc : ProperName c) :
    q = dir ++ [c] := by
  obtain ⟨dir', c', cur, heq, hr, rfl, _, _⟩ := h
  obtain ⟨rfl, hcs⟩ := append_inj' heq rfl
  obtain rfl : c = c' := singleton_inj.mp hcs
  cases resolves_unique hr ⟨0, walk_physical hdir⟩
  exact spot_of_proper hc _

end Places

section Components

variable {fs : FileTree} {calls : List Path} (hplain : Plain fs calls)
  (h : At fs calls s pre c post cur)
include h

theorem At.isName : ∀ b ∈ pre ++ c :: post, IsName b := fun _ hb =>
  isName_components (h.parts ▸ hb)

theorem At.isName_self : IsName c := h.isName c (mem_append_right pre mem_cons_self)

theorem At.isName_pre : ∀ b ∈ pre ++ [c], IsName b := by
  intro b hb
  apply h.isName b
  rcases mem_append.mp hb with hb | hb
  · exact mem_append_left _ hb
  · rw [mem_singleton.mp hb]
    exact mem_append_right pre mem_cons_self

theorem At.proper : ∀ b ∈ cur, ProperName b := by
  obtain ⟨v, hv⟩ := (resolves_physical h.dir).node
  exact properName_of_node hv

theorem At.located (hdir : fs.node cur = some .directory) (hq : fs.node (spot cur c) ≠ none) :
    Located fs (pre ++ [c]) (spot cur c) := ⟨pre, c, cur, rfl, h.dir, rfl, hdir, hq⟩

include hplain

/-- A component leads to a place below a physical one, and `readlink` tells what is there. -/
theorem At.spot : ∃ dir b, spot cur c = dir ++ [b] ∧ ProperName b ∧ fs.Physical dir ∧
    fs.lookupName dir b = fs.lookupName cur c := by
  have hup {q : Place} (hq : q ≠ []) (hn : fs.node q = some .directory)
      (hsp : Files.spot cur c = q) (hcur : fs.node cur = some .directory) :
      ∃ dir b, Files.spot cur c = dir ++ [b] ∧ ProperName b ∧ fs.Physical dir ∧
        fs.lookupName dir b = fs.lookupName cur c := by
    obtain ⟨dir, b, rfl⟩ := eq_nil_or_concat q |>.resolve_left hq
    rw [concat_eq_append] at hn hsp
    have hb : ProperName b := properName_of_node hn b (by simp)
    have hdir := node_dropLast hn
    rw [dropLast_concat] at hdir
    refine ⟨dir, b, hsp, hb, .inl hdir, ?_⟩
    have hh := spot_of_proper hb dir
    rw [lookupName_of_physical hdir (.inl (hh ▸ hn)),
      lookupName_of_physical hcur (.inl (hsp ▸ hn)), hh, hsp]
  by_cases hdot : c = dot
  · obtain ⟨hcur, hne⟩ := hplain.dots s pre c post cur h (.inl hdot)
    have hsp : Files.spot cur c = cur := if_pos hdot
    exact hup (hsp ▸ hne) hcur hsp hcur
  by_cases hd : c = dotdot
  · obtain ⟨hcur, hne⟩ := hplain.dots s pre c post cur h (.inr hd)
    have hsp : Files.spot cur c = cur.dropLast := by rw [Files.spot, if_neg hdot, if_pos hd]
    exact hup (hsp ▸ hne) (node_dropLast hcur) hsp hcur
  · have hc : ProperName c := ⟨h.isName_self, hdot, hd⟩
    exact ⟨cur, c, spot_of_proper hc cur, hc, resolves_physical h.dir, rfl⟩

theorem At.readlink :
    fs.readlink (absolute (Files.spot cur c)) = targetOf (fs.lookupName cur c) := by
  obtain ⟨dir, b, hsp, hb, hdir, hl⟩ := h.spot hplain
  rw [hsp, readlink_absolute hdir hb.isName, hl]

theorem At.appendPart :
    appendPart (absolute cur) ('/' :: c) = some (absolute (Files.spot cur c)) := by
  rw [Sources.appendPart]
  by_cases hdot : c = dot
  · rw [if_pos (.inl (by rw [hdot])), hdot, normalizeFileName_last h.proper (.inl rfl)]
    rfl
  by_cases hdo : c = dotdot
  · obtain ⟨_, hne⟩ := hplain.dots s pre c post cur h (.inr hdo)
    have hsp : Files.spot cur c = cur.dropLast := by rw [Files.spot, if_neg hdot, if_pos hdo]
    have hcur : cur ≠ [] := by
      rintro rfl
      exact hne hsp
    rw [hsp, if_pos (.inr (by rw [hdo])), hdo]
    exact normalizeFileName_last h.proper (.inr ⟨rfl, hcur⟩)
  · have ho : ¬ ('/' :: c = '/' :: dot ∨ '/' :: c = '/' :: dotdot) := by
      rintro (heq | heq)
      · exact hdot (cons.inj heq).2
      · exact hdo (cons.inj heq).2
    rw [if_neg ho, spot_of_proper ⟨h.isName_self, hdot, hdo⟩, absolute_concat]

theorem At.linkTarget (hl : fs.lookupName cur c = .ok (.link target)) :
    linkTarget (absolute (pre ++ [c])) target = targetPath pre target := by
  rw [Sources.linkTarget, targetPath]
  by_cases habs : target.head? = some '/'
  · rw [if_neg (not_not_intro habs), if_pos habs]
  have hpre := (hplain.links s pre c post cur target h hl).1 habs
  have hlen : (absolute pre).length > 1 := by
    cases pre with
    | nil => exact absurd rfl hpre
    | cons b pre =>
      have hb := (h.isName b mem_cons_self).1
      rw [absolute_cons, cons_append, length_cons, length_append]
      have hpos := length_pos_iff.mpr hb
      omega
  have hp : parentDir (absolute (pre ++ [c])) = absolute pre := by
    rw [parentDir, absolute_concat, rfindSlash_append h.isName_self.2]
    dsimp only
    rw [if_pos (by omega), take_left]
  rw [if_pos habs, if_neg habs, hp]
  dsimp only
  rw [if_pos hlen, append_assoc]
  rfl

end Components

section Cache

variable {fs : FileTree} {calls : List Path}

inductive Remembered (fs : FileTree) (calls : List Path) : Path → Path → Prop
  | root : Met fs calls ['/'] → Remembered fs calls ['/'] ['/']
  | path : Met fs calls s → components s = pre ++ post → Located fs pre q → fs.Resolves pre r →
      Remembered fs calls (absolute pre) (answer r)
  | place : Met fs calls s → components s = pre ++ post → Located fs pre q → fs.Resolves pre r →
      Remembered fs calls (absolute q) (answer r)

def Sound (fs : FileTree) (calls : List Path) (t : Resolved) : Prop :=
  ∀ k v, t.resolvedDirs.lookup k = some v → Remembered fs calls k v

theorem Remembered.key (h : Remembered fs calls k v) : Key fs calls k := by
  cases h with
  | root hmet => exact .root hmet
  | path hmet hp hl => exact .path hmet hp hl
  | place hmet hp hl => exact .place hmet hp hl

theorem absolute_ne_root (h : ∀ c ∈ q, IsName c) : absolute q ≠ ['/'] := by
  cases q with
  | nil => exact cons_ne_nil _ _ |>.symm
  | cons c q =>
    intro heq
    rw [absolute_cons, cons_append, cons.injEq, append_eq_nil_iff] at heq
    exact (h c mem_cons_self).1 heq.2.1

theorem Key.root_eq (h : Key fs calls k) (hk : k = ['/']) : Met fs calls ['/'] := by
  cases h with
  | root hmet => exact hmet
  | path _ hp =>
    exact absurd hk (absolute_ne_root fun b hb =>
      isName_components (hp ▸ mem_append_left _ hb))
  | place _ _ hl =>
    exact absurd hk (absolute_ne_root fun b hb => (hl.proper b hb).isName)

theorem Remembered.root_eq (h : Remembered fs calls k v) (hk : k = ['/']) : v = ['/'] := by
  cases h with
  | root => rfl
  | path _ hp =>
    exact absurd hk (absolute_ne_root fun b hb =>
      isName_components (hp ▸ mem_append_left _ hb))
  | place _ _ hl =>
    exact absurd hk (absolute_ne_root fun b hb => (hl.proper b hb).isName)

theorem Remembered.final (h : Remembered fs calls k v) (hk : k = absolute (dir ++ [c]))
    (hdir : fs.Physical dir) (hc : ProperName c) :
    ∃ r, Final fs (dir ++ [c]) r ∧ v = answer r ∧ fs.node (dir ++ [c]) ≠ none := by
  have hn : ∀ b ∈ dir ++ [c], IsName b := by
    obtain ⟨v, hv⟩ := hdir.node
    intro b hb
    rcases mem_append.mp hb with hb | hb
    · exact (properName_of_node hv b hb).isName
    · rw [mem_singleton.mp hb]
      exact hc.isName
  have hf {pre : List Name} {q : Place} {r : Except Errno Place} (hl : Located fs pre q)
      (hr : fs.Resolves pre r) (hq : q = dir ++ [c]) :
      ∃ r', Final fs (dir ++ [c]) r' ∧ answer r = answer r' ∧ fs.node (dir ++ [c]) ≠ none := by
    subst hq
    refine ⟨r, hl.final hr, rfl, ?_⟩
    obtain ⟨_, _, _, _, _, _, _, hno⟩ := hl
    exact hno
  cases h with
  | root => exact absurd hk.symm (absolute_ne_root hn)
  | path _ hp hl hr =>
    have hpre := absolute_injective (fun b hb => isName_components
      (hp ▸ mem_append_left _ hb)) hn hk
    exact hf hl hr ((hpre ▸ hl).self hdir hc)
  | place _ _ hl hr =>
    exact hf hl hr (absolute_injective (fun b hb => (hl.proper b hb).isName) hn hk)

theorem sound_empty : Sound fs calls .empty := by
  intro k v h
  cases h

theorem Sound.insertDir (h : Sound fs calls t) (hnew : Remembered fs calls dir v) :
    Sound fs calls (t.insertDir dir v) := by
  rw [Resolved.insertDir]
  cases hold : t.resolvedDirs.lookup dir with
  | some _ => exact h
  | none =>
    intro k v' hk
    by_cases hkey : k = dir
    · rw [hkey, lookup_cons_self, some_inj] at hk
      rw [hkey, ← hk]
      exact hnew
    · apply h k v'
      have hne : (k == dir) = false := beq_eq_false_iff_ne.mpr hkey
      rw [lookup_cons, hne] at hk
      exact hk

theorem Sound.rememberDir (h : Sound fs calls t) (hp : Remembered fs calls resolvedBase v)
    (hb : Remembered fs calls base v) :
    Sound fs calls (rememberDir fs resolvedBase base v t) := by
  have hc : Sound fs calls (checkVcsRoot fs v t) := by
    rw [checkVcsRoot]
    split
    · rw [Resolved.insertVcsDir]
      split <;> exact h
    · exact h
  exact (hc.insertDir hp).insertDir hb

end Cache

section Calls

variable {fs : FileTree} {calls : List Path} (hplain : Plain fs calls)
include hplain

theorem At.resolveBase (h : At fs calls s pre c post cur) (hr : fs.Resolves (pre ++ [c]) r)
    (hs : Sound fs calls t)
    (hc : ∀ target, fs.lookupName cur c = .ok (.link target) → ∀ f t, Sound fs calls t →
      ∃ t', resolve (targetPath pre target) f t = some (answer r, t') ∧ Sound fs calls t')
    (f last : Bool) :
    ∃ t₁, Sound fs calls t₁ ∧
      resolveBase fs resolve (absolute (pre ++ [c])) (absolute (Files.spot cur c)) f last t =
        some ((fs.lookupName cur c).toOption.map fun _ => answer r, t₁) := by
  have hp : components s = (pre ++ [c]) ++ post := by
    rw [h.parts, append_assoc]
    rfl
  have hl {found : Found} (hf : fs.lookupName cur c = .ok found) :
      Located fs (pre ++ [c]) (Files.spot cur c) := by
    obtain ⟨hdir, hq⟩ := node_of_lookupName hf
    exact h.located hdir hq
  have hre {found : Found} (hf : fs.lookupName cur c = .ok found) {t : Resolved}
      (hs : Sound fs calls t) : Sound fs calls
        (rememberDir fs (absolute (Files.spot cur c)) (absolute (pre ++ [c])) (answer r) t) :=
    hs.rememberDir (.place h.met hp (hl hf) hr) (.path h.met hp (hl hf) hr)
  obtain ⟨dir, b, hsp, hb, hdir, hlo⟩ := h.spot hplain
  rw [Sources.resolveBase]
  cases hhit : t.resolvedDirs.lookup (absolute (Files.spot cur c)) with
  | some v =>
    obtain ⟨r', hfi, rfl, hn⟩ := (hs _ _ hhit).final (congrArg absolute hsp) hdir hb
    obtain ⟨w, hw⟩ := ne_none_iff_exists'.mp hn
    have hd := node_dropLast hw
    rw [dropLast_concat] at hd
    obtain ⟨found, hf⟩ : ∃ found, fs.lookupName cur c = .ok found := by
      rw [← hlo]
      apply lookupName_eq_ok hd
      rw [spot_of_proper hb]
      exact hn
    have hsa : r' = r := hfi.unique (hsp ▸ (hl hf).final hr)
    refine ⟨_, ?_, by rw [hf, hsa]; rfl⟩
    split
    · exact hs
    · exact hs.insertDir (.path h.met hp (hl hf) hr)
  | none =>
    rw [h.readlink hplain]
    cases hf : fs.lookupName cur c with
    | error e =>
      rcases lookupName_eq_error hf with rfl | rfl
      · exact ⟨t, hs, rfl⟩
      · exact ⟨t, hs, rfl⟩
    | ok found =>
      cases found with
      | here q =>
        obtain ⟨_, rfl, hph⟩ := lookupName_eq_here hf
        have ha : answer r = absolute (Files.spot cur c) := by
          rw [((hl hf).final hr).unique (.here hph), hsp]
          exact if_neg (concat_ne_nil b dir)
        have hrem := hre hf hs
        rw [ha] at hrem
        refine ⟨_, ?_, by rw [ha]; rfl⟩
        split
        · exact hs
        · exact hrem
      | link target =>
        obtain ⟨t', hres, hs'⟩ := hc target hf f t hs
        have hpu : Sound fs calls (t'.pushSymlink (absolute (Files.spot cur c)) (answer r)) := hs'
        dsimp only [targetOf]
        rw [h.linkTarget hplain hf, hres]
        refine ⟨_, ?_, rfl⟩
        split
        · exact hpu
        · exact hre hf hpu

omit hplain in
theorem At.link_walk (h : At fs calls s pre c post cur)
    (hl : fs.lookupName cur c = .ok (.link target)) (hw : fs.Walk n [] (components s) r) :
    ∃ m r₁, m < n ∧ fs.Walk m [] (components (targetPath pre target)) r₁ ∧
      fs.Resolves (pre ++ [c]) r₁ := by
  rw [h.parts] at hw
  obtain ⟨n₁, n₂, hn, hpre, hwa⟩ : ∃ n₁ n₂, n = n₁ + n₂ ∧ fs.Walk n₁ [] pre (.ok cur) ∧
      fs.Walk n₂ cur (c :: post) r := by
    rcases hw.split with ⟨e, rfl, he⟩ | ⟨n₁, n₂, q, hn, hf, hla⟩
    · cases resolves_unique h.dir ⟨n, he⟩
    · cases resolves_unique h.dir ⟨n₁, hf⟩
      exact ⟨n₁, n₂, hn, hf, hla⟩
  obtain ⟨n₃, hn₂, hfo⟩ : ∃ n₃, n₂ = n₃ + 1 ∧
      fs.Walk n₃ (startOf cur target) (components target ++ post) r := by
    cases hwa with
    | fail hfa => cases hl.symm.trans hfa
    | move hmo => cases hl.symm.trans hmo
    | follow hl' hre =>
      cases hl.symm.trans hl'
      exact ⟨_, rfl, hre⟩
  obtain ⟨m, r₁, hm, ht⟩ : ∃ m r₁, m ≤ n₃ ∧
      fs.Walk m (startOf cur target) (components target) r₁ := by
    rcases hfo.split with ⟨e, _, he⟩ | ⟨n₄, n₅, q, hn₃, hf, _⟩
    · exact ⟨n₃, .error e, Nat.le_refl n₃, he⟩
    · exact ⟨n₄, .ok q, by omega, hf⟩
  have hse : fs.Walk (m + 1) cur [c] r₁ := by
    apply FileTree.Walk.follow hl
    rw [append_nil]
    exact ht
  have hr : fs.Resolves (pre ++ [c]) r₁ := ⟨n₁ + (m + 1), hpre.append hse⟩
  rw [targetPath]
  by_cases habs : target.head? = some '/'
  · rw [startOf, if_pos habs] at ht
    rw [if_pos habs]
    exact ⟨m, r₁, by omega, ht, hr⟩
  · have hne := target_ne_nil (lookupName_eq_link hl).2
    rw [startOf, if_neg habs] at ht
    rw [if_neg habs, components_join (fun b hb => h.isName_pre b (mem_append_left _ hb)) hne habs]
    exact ⟨n₁ + m, r₁, by omega, hpre.append ht, hr⟩

omit hplain in
theorem At.outcome (h : At fs calls s pre c post cur) (hw : fs.Walk n [] (components s) r) :
    ∃ r₁, fs.Resolves (pre ++ [c]) r₁ ∧ (post = [] → r = r₁) ∧ ∀ e, r₁ = .error e → r = .error e := by
  rw [h.parts, append_cons] at hw
  rcases hw.split with ⟨e, rfl, her⟩ | ⟨n₁, n₂, q, _, hf, hl⟩
  · exact ⟨.error e, ⟨n, her⟩, fun _ => rfl, fun _ he => he⟩
  · refine ⟨.ok q, ⟨n₁, hf⟩, ?_, fun e he => by cases he⟩
    rintro rfl
    cases hl
    rfl

omit hplain in
theorem At.last_part (h : At fs calls s pre c [] cur) (hs : s = absolute (components s)) :
    findSlash s ((absolute pre).length + 1) = none ∧ s.drop (absolute pre).length = '/' :: c := by
  have hs' : s = absolute pre ++ '/' :: c := by
    rw [hs, h.parts]
    exact absolute_concat pre c
  rw [hs']
  exact ⟨findSlash_last h.isName_self.2 _, drop_left⟩

omit hplain in
theorem At.next_part (h : At fs calls s pre c (d :: post) cur) (hs : s = absolute (components s)) :
    findSlash s ((absolute pre).length + 1) = some (absolute (pre ++ [c])).length ∧
      (s.take (absolute (pre ++ [c])).length).drop (absolute pre).length = '/' :: c := by
  have hs' : s = absolute pre ++ '/' :: (c ++ '/' :: (d ++ absolute post)) := by
    rw [hs, h.parts, absolute_append, absolute_cons, absolute_cons]
    simp
  apply And.intro
  · rw [hs', absolute_concat]
    exact findSlash_next h.isName_self.2 _ _
  · have ht : s.take (absolute (pre ++ [c])).length = absolute (pre ++ [c]) := by
      rw [hs, h.parts, append_cons pre c (d :: post), absolute_append (pre ++ [c]),
        take_left]
    rw [ht, absolute_concat, drop_left]

omit hplain in
theorem At.resolves_error (h : At fs calls s pre c post cur) (hf : fs.lookupName cur c = .error e) :
    fs.Resolves (pre ++ [c]) (.error e) := by
  obtain ⟨n, hdir⟩ := h.dir
  exact ⟨n + 0, hdir.append (.fail hf)⟩

theorem At.goes_on (h : At fs calls s pre c post cur) (hp : post ≠ [])
    (hf : fs.lookupName cur c = .ok found) :
    ∃ q, q ≠ [] ∧ fs.Resolves (pre ++ [c]) (.ok q) := by
  cases found with
  | link target => exact (hplain.links s pre c post cur target h hf).2 hp
  | here q =>
    obtain ⟨dir, b, hsp, _⟩ := h.spot hplain
    obtain ⟨_, rfl, _⟩ := lookupName_eq_here hf
    obtain ⟨n, hdir⟩ := h.dir
    exact ⟨_, hsp ▸ concat_ne_nil b dir, n + 0, hdir.append (.move hf .done)⟩

theorem resolveLoop_spec {resolve : Path → Bool → Resolved → Option (Path × Resolved)}
    (hc : ∀ s m r f t, Met fs calls s → fs.Walk m [] (components s) r → m < n →
      Sound fs calls t → ∃ t', resolve s f t = some (answer r, t') ∧ Sound fs calls t')
    (hs : s = absolute (components s)) (hw : fs.Walk n [] (components s) r) (isFile : Bool)
    (h : At fs calls s pre c post cur) (ht : Sound fs calls t) (hfu : post.length < fuel) :
    ∃ t', resolveLoop fs resolve isFile s fuel (absolute pre).length (absolute pre) (absolute cur) t =
      some (answer r, t') ∧ Sound fs calls t' := by
  have hl {pre : List Name} {c : Name} {post : List Name} {cur : Place} {r₁ : Except Errno Place}
      (h : At fs calls s pre c post cur) (hr₁ : fs.Resolves (pre ++ [c]) r₁) (target : Path)
      (hf : fs.lookupName cur c = .ok (.link target)) (f : Bool) (t : Resolved)
      (ht : Sound fs calls t) :
      ∃ t', resolve (targetPath pre target) f t = some (answer r₁, t') ∧ Sound fs calls t' := by
    obtain ⟨m, r₂, hm, hwa, hr₂⟩ := h.link_walk hf hw
    cases resolves_unique hr₁ hr₂
    exact hc _ m r₁ f t (.link h.met h.parts h.dir hf) hwa hm ht
  induction post generalizing pre c cur t fuel with
  | nil =>
    obtain ⟨fuel, rfl⟩ := Nat.exists_eq_add_one_of_ne_zero (Nat.ne_of_gt hfu)
    obtain ⟨hn, hpa⟩ := h.last_part hs
    obtain ⟨r₁, hr₁, hla, he⟩ := h.outcome hw
    obtain ⟨t₁, ht₁, hb⟩ := h.resolveBase hplain hr₁ ht (hl h hr₁) (true && isFile) true
    rw [resolveLoop, hn]
    simp only [getD_none, take_length, hpa, h.appendPart hplain, ← absolute_concat,
      isNone_none, hb, bind_eq_bind, bind_some]
    cases hf : fs.lookupName cur c with
    | error e =>
      rw [he e (resolves_unique hr₁ (h.resolves_error hf))]
      exact ⟨t₁, rfl, ht₁⟩
    | ok found =>
      rw [hla rfl]
      exact ⟨t₁, rfl, ht₁⟩
  | cons d post ih =>
    obtain ⟨fuel, rfl⟩ := Nat.exists_eq_add_one_of_ne_zero (Nat.ne_of_gt (Nat.zero_lt_of_lt hfu))
    obtain ⟨hn, hpa⟩ := h.next_part hs
    obtain ⟨r₁, hr₁, _, he⟩ := h.outcome hw
    obtain ⟨t₁, ht₁, hb⟩ := h.resolveBase hplain hr₁ ht (hl h hr₁) (false && isFile) false
    rw [resolveLoop, hn]
    simp only [getD_some, hpa, h.appendPart hplain, ← absolute_concat, isNone_some,
      hb, bind_eq_bind, bind_some]
    cases hf : fs.lookupName cur c with
    | error e =>
      rw [he e (resolves_unique hr₁ (h.resolves_error hf))]
      exact ⟨t₁, rfl, ht₁⟩
    | ok found =>
      obtain ⟨q, hq, hr⟩ := h.goes_on hplain (cons_ne_nil d post) hf
      have ha : answer r₁ = absolute q := by
        rw [resolves_unique hr₁ hr]
        exact if_neg hq
      have hp : components s = (pre ++ [c]) ++ d :: post := by
        rw [h.parts]
        exact append_cons pre c (d :: post)
      dsimp only [Except.toOption, map_some]
      rw [ha]
      exact ih ⟨h.met, hp, hr⟩ ht₁ (Nat.lt_of_succ_lt_succ hfu)

omit hplain in
theorem findBase_miss {path : Path} (hh : path.head? = some '/')
    (hm : ∀ p, path[p + 1]? = some '/' → 0 < p ∧ t.resolvedDirs.lookup (path.take p) = none)
    (hk : 0 < k) (hf : k < fuel) :
    findBase t path fuel (path.take k) = some ([], [], path) := by
  induction fuel generalizing k with
  | zero => cases hf
  | succ fuel ih =>
    have hmem : '/' ∈ path.take k := by
      apply mem_of_mem_head?
      rw [head?_take, if_neg (Nat.ne_of_gt hk), hh]
      rfl
    obtain ⟨p, hp⟩ := rfindSlash_isSome hmem
    rw [findBase, hp]
    cases p with
    | zero => rfl
    | succ p =>
      have hat := rfindSlash_spec hp
      obtain ⟨hlt, _⟩ := List.getElem?_eq_some_iff.mp hat
      rw [length_take] at hlt
      have hpk : p + 1 < k := by omega
      rw [getElem?_take_of_lt hpk] at hat
      obtain ⟨hpos, hn⟩ := hm p hat
      have ht : (path.take k).take p = path.take p := by
        rw [take_take, Nat.min_eq_left (by omega)]
      dsimp only
      rw [ht, hn]
      exact ih hpos (by omega)

theorem findBase_spec (hmet : Met fs calls s) (ht : Sound fs calls t) :
    findBase t s (s.length + 1) s = some ([], [], s) := by
  have hh : s.head? = some '/' ∧ s[1]? ≠ some '/' := by
    rcases hplain.names s hmet with rfl | ⟨hne, hs⟩
    · exact ⟨rfl, by decide⟩
    cases hcs : components s with
    | nil =>
      rw [hcs] at hs
      exact absurd hs hne
    | cons c cs =>
      obtain ⟨hc, hsl⟩ : IsName c := isName_components (hcs ▸ mem_cons_self)
      rw [hs, hcs, absolute_cons]
      refine ⟨rfl, ?_⟩
      cases c with
      | nil => exact absurd rfl hc
      | cons x c =>
        intro hx
        exact hsl (some.inj hx ▸ mem_cons_self)
  have hm : ∀ p, s[p + 1]? = some '/' → 0 < p ∧ t.resolvedDirs.lookup (s.take p) = none := by
    intro p hp
    apply And.intro
    · apply Nat.pos_of_ne_zero
      rintro rfl
      exact hh.2 hp
    · cases hhit : t.resolvedDirs.lookup (s.take p) with
      | none => rfl
      | some v => exact absurd (ht _ _ hhit).key (hplain.prefixes s p hmet hp)
  have hpos : 0 < s.length := by
    apply length_pos_iff.mpr
    rintro rfl
    cases hh.1
  have hf := findBase_miss hh.1 hm hpos (Nat.lt_succ_self _)
  rw [take_length] at hf
  exact hf

end Calls

theorem length_le_absolute (q : Place) : q.length ≤ (absolute q).length := by
  induction q with
  | nil => exact Nat.le_refl 0
  | cons c q ih =>
    rw [absolute_cons, cons_append, length_cons, length_cons, length_append]
    omega

section Runs

variable {fs : FileTree} {calls : List Path} (hplain : Plain fs calls)
include hplain

omit hplain in
theorem resolveLoop_root (hmet : Met fs calls ['/']) (ht : Sound fs calls t)
    (resolve : Path → Bool → Resolved → Option (Path × Resolved)) (isFile : Bool) :
    ∃ t', resolveLoop fs resolve isFile ['/'] 2 0 [] [] t = some (['/'], t') ∧ Sound fs calls t' := by
  have hr : Sound fs calls (rememberDir fs ['/'] ['/'] ['/'] t) :=
    ht.rememberDir (.root hmet) (.root hmet)
  have hb : ∃ t', resolveBase fs resolve ['/'] ['/'] isFile true t = some (some ['/'], t') ∧
      Sound fs calls t' := by
    rw [resolveBase]
    cases hhit : t.resolvedDirs.lookup ['/'] with
    | some v =>
      rw [(ht _ _ hhit).root_eq rfl]
      exact ⟨t, rfl, ht⟩
    | none =>
      refine ⟨_, rfl, ?_⟩
      split
      · exact ht
      · exact hr
  obtain ⟨t', hre, ht'⟩ := hb
  refine ⟨t', ?_, ht'⟩
  have hn : findSlash ['/'] 1 = none := rfl
  have hp : appendPart [] ['/'] = some ['/'] := rfl
  rw [resolveLoop, hn]
  simp only [getD_none, length_singleton, take_succ_cons, take_zero,
    drop_zero, nil_append, hp, isNone_none, Bool.true_and, hre,
    bind_eq_bind, bind_some]
  rfl

theorem resolveSymlinks_spec (hmet : Met fs calls s) (hw : fs.Walk n [] (components s) r)
    (ht : Sound fs calls t) (hf : n < fuel) (isFile : Bool) :
    ∃ t', resolveSymlinks fs fuel s isFile t = some (answer r, t') ∧ Sound fs calls t' := by
  induction n using Nat.strongRecOn generalizing s r t fuel isFile with
  | ind n ih =>
    obtain ⟨fuel, rfl⟩ := Nat.exists_eq_add_one_of_ne_zero (Nat.ne_of_gt (Nat.zero_lt_of_lt hf))
    rw [resolveSymlinks, findBase_spec hplain hmet ht]
    rcases hplain.names s hmet with rfl | ⟨hne, hs⟩
    · cases hw
      exact resolveLoop_root hmet ht _ isFile
    cases hcs : components s with
    | nil =>
      rw [hcs] at hs
      exact absurd hs hne
    | cons c cs =>
      have hat : At fs calls s [] c cs [] := ⟨hmet, hcs, 0, .done⟩
      have hc : ∀ s m r f t, Met fs calls s → fs.Walk m [] (components s) r → m < n →
          Sound fs calls t →
            ∃ t', resolveSymlinks fs fuel s f t = some (answer r, t') ∧ Sound fs calls t' := by
        intro s m r f t hmet hw hm ht
        exact ih m hm hmet hw ht (Nat.lt_of_lt_of_le hm (Nat.le_of_lt_succ hf)) f
      have hlen : cs.length < s.length + 1 := by
        have hle := length_le_absolute (components s)
        rw [← hs, hcs, length_cons] at hle
        omega
      exact resolveLoop_spec hplain hc hs hw isFile hat ht hlen

theorem resolveAll_spec (ha : fs.Acyclic) (l : List (Path × Bool))
    (hmet : ∀ p ∈ l, Met fs calls p.1) :
    ∃ depth, ∀ fuel, depth ≤ fuel → ∀ t, Sound fs calls t →
      ∃ answers t', resolveAll fs fuel l t = some (answers, t') ∧ List.Forall₂ (fun p s =>
        ∃ r, fs.Resolves (components p.1) r ∧ s = answer r) l answers := by
  induction l with
  | nil => exact ⟨0, fun fuel _ t _ => ⟨[], t, rfl, .nil⟩⟩
  | cons p l ih =>
    obtain ⟨depth, hr⟩ := ih fun p hp => hmet p (mem_cons_of_mem _ hp)
    obtain ⟨n, r, hw⟩ := ha [] (components p.1)
    refine ⟨max (n + 1) depth, fun fuel hfu t ht => ?_⟩
    obtain ⟨hn, hd⟩ := Nat.max_le.mp hfu
    obtain ⟨t₁, hf, ht₁⟩ :=
      resolveSymlinks_spec hplain (hmet p mem_cons_self) hw ht hn p.2
    obtain ⟨answers, t', ho, hall⟩ := hr fuel hd t₁ ht₁
    refine ⟨answer r :: answers, t', ?_, .cons ⟨r, ⟨n, hw⟩, rfl⟩ hall⟩
    obtain ⟨path, isFile⟩ := p
    rw [resolveAll, hf, bind_eq_bind, bind_some]
    dsimp only
    rw [ho]
    rfl

end Runs

/-- The right answer for a path: its canonical path, or none where it does not resolve. -/
def Correct (fs : FileTree) (path s : Path) : Prop :=
  (∃ q, fs.Resolves (components path) (.ok q) ∧ fs.Physical q ∧ s = render q) ∨
    ∃ e, fs.Resolves (components path) (.error e) ∧ s = []

theorem correct_answer (h : fs.Resolves (components path) r) : Correct fs path (answer r) := by
  cases r with
  | ok q => exact .inl ⟨q, h, resolves_physical h, rfl⟩
  | error e => exact .inr ⟨e, h, rfl⟩

theorem resolves_to_canonical (fs : FileTree) (calls : List (Path × Bool)) (hacyclic : fs.Acyclic)
    (hplain : Plain fs (calls.map Prod.fst)) :
    ∃ depth, ∀ fuel, depth ≤ fuel → ∃ answers t, resolveAll fs fuel calls .empty = some (answers, t) ∧
      List.Forall₂ (fun call s => Correct fs call.1 s) calls answers := by
  obtain ⟨depth, hrun⟩ := resolveAll_spec hplain hacyclic calls fun p hp =>
    .call (mem_map_of_mem hp)
  refine ⟨depth, fun fuel hf => ?_⟩
  obtain ⟨answers, t, hall, ha⟩ := hrun fuel hf .empty sound_empty
  refine ⟨answers, t, hall, ha.imp ?_⟩
  rintro call s ⟨r, hr, rfl⟩
  exact correct_answer hr

def linkedFile : FileTree where
  entries := [([['d']], .directory), ([['d'], ['f']], .file), ([['d'], ['l']], .symlink ['f'])]
  names := by decide
  parents := by decide
  targets := by decide

theorem linkedFile_link (h : linkedFile.lookupName cur c = .ok (.link target)) :
    cur = [['d']] ∧ c = ['l'] ∧ target = ['f'] := by
  obtain ⟨_, hn⟩ := lookupName_eq_link h
  rw [proper_of_link h, node_of_ne_nil (concat_ne_nil c cur)] at hn
  have hmem := mem_of_lookup_eq_some hn
  have hca : cur ++ [c] = [['d']] ++ [['l']] ∧ target = ['f'] := by
    simpa [linkedFile] using hmem
  obtain ⟨rfl, hc⟩ := append_inj' hca.1 rfl
  exact ⟨rfl, singleton_inj.mp hc, hca.2⟩

theorem linkedFile_acyclic : linkedFile.Acyclic := by
  apply acyclic_of_links
  intro cur c target hl
  obtain ⟨rfl, rfl, rfl⟩ := linkedFile_link hl
  exact ⟨0, .ok [['d'], ['f']], .move (by decide) .done⟩

theorem two_parts {l : List Name} (hl : l = [a, b]) (h : l = pre ++ c :: post) :
    (pre = [] ∧ c = a ∧ post = [b]) ∨ (pre = [a] ∧ c = b ∧ post = []) := by
  rw [hl] at h
  rcases pre with _ | ⟨x, _ | ⟨y, pre⟩⟩
  · obtain ⟨hc, hp⟩ := cons.inj h
    exact .inl ⟨rfl, hc.symm, hp.symm⟩
  · simp only [cons_append, nil_append, cons.injEq] at h
    exact .inr ⟨by rw [h.1], h.2.1.symm, h.2.2.symm⟩
  · simp at h

def linkedCalls : List Path := ["/d/l".toList, "/d/f".toList]

theorem linkedCalls_parts (h : s ∈ linkedCalls) :
    components s = [['d'], ['l']] ∨ components s = [['d'], ['f']] := by
  rcases mem_cons.mp h with rfl | h
  · exact .inl (by decide)
  · rw [mem_singleton.mp h]
    exact .inr (by decide)

theorem linkedFile_met (h : Met linkedFile linkedCalls s) : s ∈ linkedCalls := by
  induction h with
  | call hs => exact hs
  | link _ hp _ hl ih =>
    obtain ⟨rfl, rfl, rfl⟩ := linkedFile_link hl
    rcases linkedCalls_parts ih with hs | hs
    · rcases two_parts hs hp with ⟨_, hc, _⟩ | ⟨rfl, _, _⟩
      · exact absurd hc (by decide)
      · decide
    · rcases two_parts hs hp with ⟨_, hc, _⟩ | ⟨_, hc, _⟩
      · exact absurd hc (by decide)
      · exact absurd hc (by decide)

theorem linkedFile_at (h : At linkedFile linkedCalls s pre c post cur) :
    (c = ['d'] ∨ c = ['l'] ∨ c = ['f']) ∧ (c = ['l'] → pre = [['d']] ∧ post = []) := by
  rcases linkedCalls_parts (linkedFile_met h.met) with hs | hs
  · rcases two_parts hs h.parts with ⟨_, rfl, _⟩ | ⟨rfl, rfl, rfl⟩ <;> simp
  · rcases two_parts hs h.parts with ⟨_, rfl, _⟩ | ⟨rfl, rfl, rfl⟩ <;> simp

theorem linkedFile_plain : Plain linkedFile linkedCalls where
  names s hs := by
    rcases mem_cons.mp (linkedFile_met hs) with rfl | hs
    · exact .inr ⟨by decide, by decide⟩
    · rw [mem_singleton.mp hs]
      exact .inr ⟨by decide, by decide⟩
  dots s pre c post cur h hd := by
    obtain ⟨hc, _⟩ := linkedFile_at h
    rcases hd with rfl | rfl <;> exact absurd hc (by decide)
  links s pre c post cur target h hl := by
    obtain ⟨_, hc, _⟩ := linkedFile_link hl
    obtain ⟨hpre, hpo⟩ := (linkedFile_at h).2 hc
    exact ⟨fun _ => hpre ▸ cons_ne_nil _ _, fun h => absurd hpo h⟩
  prefixes s p hs hp hkey := by
    have hcut : s.take p = ['/'] := by
      rcases mem_cons.mp (linkedFile_met hs) with rfl | hs
      · rcases p with _ | _ | _ | p <;> first | rfl | cases hp
      · rw [mem_singleton.mp hs] at hp ⊢
        rcases p with _ | _ | _ | p <;> first | rfl | cases hp
    exact absurd (linkedFile_met (hkey.root_eq hcut)) (by decide)

theorem resolves_to_canonical_link : ∃ depth, ∀ fuel, depth ≤ fuel → ∃ answers t,
    resolveAll linkedFile fuel (linkedCalls.map fun path => (path, true)) .empty = some (answers, t) ∧
      List.Forall₂ (fun call s => Correct linkedFile call.1 s)
        (linkedCalls.map fun path => (path, true)) answers :=
  resolves_to_canonical linkedFile (linkedCalls.map fun path => (path, true)) linkedFile_acyclic
    linkedFile_plain

/-- Two directories, one named like the other without its last letter. -/
def likeNamed : FileTree where
  entries := [([['a']], .directory), ([['a'], ['x']], .file), ([['a', 'b']], .directory),
    ([['a', 'b'], ['x']], .file)]
  names := by decide
  parents := by decide
  targets := by decide

theorem likeNamed_acyclic : likeNamed.Acyclic := by
  apply acyclic_of_links
  intro cur c target hl
  obtain ⟨_, hn⟩ := lookupName_eq_link hl
  rw [proper_of_link hl, node_of_ne_nil (concat_ne_nil c cur)] at hn
  have hmem := mem_of_lookup_eq_some hn
  simp [likeNamed] at hmem

theorem resolved_in_other_directory : ∃ (fs : FileTree) (calls : List (Path × Bool)), fs.Acyclic ∧
    (∀ call ∈ calls, call.1.head? = some '/') ∧
    ¬ ∃ depth, ∀ fuel, depth ≤ fuel → ∃ answers t, resolveAll fs fuel calls .empty = some (answers, t) ∧
      List.Forall₂ (fun call s => Correct fs call.1 s) calls answers := by
  refine ⟨likeNamed, [("/a/x".toList, true), ("/ab/x".toList, true)], likeNamed_acyclic, by decide, ?_⟩
  rintro ⟨depth, hrun⟩
  obtain ⟨answers, t, hall, hc⟩ := hrun (depth + 1) (Nat.le_succ depth)
  have hr' : (resolveAll likeNamed (depth + 1) [("/a/x".toList, true), ("/ab/x".toList, true)]
      .empty).map Prod.fst = some ["/a/x".toList, "/a/x".toList] := rfl
  rw [hall, map_some, some_inj] at hr'
  rw [show answers = _ from hr'] at hc
  have hw : likeNamed.Resolves (components "/ab/x".toList) (.ok [['a', 'b'], ['x']]) :=
    ⟨0, walk_physical (.inr (by decide))⟩
  cases hc with
  | cons _ hr =>
    cases hr with
    | cons hse _ =>
      rcases hse with ⟨q, hq, _, hs⟩ | ⟨e, he, _⟩
      · cases resolves_unique hq hw
        exact absurd hs (by decide)
      · cases resolves_unique he hw

end Attune.Sources
