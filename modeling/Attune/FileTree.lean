import Mathlib

namespace Attune.Files
open List Option

abbrev Name := List Char

abbrev Place := List Name

inductive Node where
  | directory
  | file
  | symlink (target : List Char)
  deriving DecidableEq

def dot : Name := ['.']

def dotdot : Name := ['.', '.']

def ProperName (c : Name) : Prop := (c ≠ [] ∧ '/' ∉ c) ∧ c ≠ dot ∧ c ≠ dotdot

instance : DecidablePred ProperName := fun _ => inferInstanceAs (Decidable (_ ∧ _))

structure FileTree where
  entries : List (Place × Node)
  names : ∀ e ∈ entries, ∀ c ∈ e.1, ProperName c
  parents : ∀ e ∈ entries, e.1.dropLast = [] ∨ entries.lookup e.1.dropLast = some .directory
  targets : ∀ e ∈ entries, e.2 ≠ .symlink []

inductive Errno where
  | noEntry
  | notDirectory
  | access
  | invalid
  | loop
  deriving DecidableEq

section Paths

def parts : List Char → List Name
  | [] => [[]]
  | ch :: s =>
    if ch = '/' then [] :: parts s
    else
      match parts s with
      | [] => [[ch]]
      | part :: rest => (ch :: part) :: rest

/-- The components of a path. A slash at the end asks for a directory, as a dot does. -/
def components (s : List Char) : List Name :=
  let names := (parts s).filter (· ≠ [])
  if names ≠ [] ∧ s.getLast? = some '/' then names ++ [dot] else names

/-- A path without symbolic links or redundant parts; it is empty for the root. -/
def absolute (q : Place) : List Char := q.flatMap fun c => '/' :: c

def render (q : Place) : List Char := if q = [] then ['/'] else absolute q

end Paths

inductive Found where
  | here (q : Place)
  | link (target : List Char)
  deriving DecidableEq

def targetOf : Except Errno Found → Except Errno (List Char)
  | .error e => .error e
  | .ok (.here _) => .error .invalid
  | .ok (.link target) => .ok target

def spot (cur : Place) (c : Name) : Place :=
  if c = dot then cur else if c = dotdot then cur.dropLast else cur ++ [c]

def startOf (cur : Place) (target : List Char) : Place :=
  if target.head? = some '/' then [] else cur

namespace FileTree

variable (fs : FileTree)

def node (q : Place) : Option Node := if q = [] then some .directory else fs.entries.lookup q

def lookupName (cur : Place) (c : Name) : Except Errno Found :=
  if fs.node cur = some .directory then
    match fs.node (spot cur c) with
    | none => .error .noEntry
    | some (.symlink target) => .ok (.link target)
    | some _ => .ok (.here (spot cur c))
  else .error .notDirectory

/-- How the components of a path are looked up, with the number of links followed. -/
inductive Walk : Nat → Place → List Name → Except Errno Place → Prop
  | done : Walk 0 cur [] (.ok cur)
  | fail : fs.lookupName cur c = .error e → Walk 0 cur (c :: rest) (.error e)
  | move : fs.lookupName cur c = .ok (.here q) → Walk n q rest r → Walk n cur (c :: rest) r
  | follow : fs.lookupName cur c = .ok (.link target) →
      Walk n (startOf cur target) (components target ++ rest) r → Walk (n + 1) cur (c :: rest) r

def Resolves (cs : List Name) (r : Except Errno Place) : Prop := ∃ n, fs.Walk n [] cs r

/-- Without cycles every walk comes to an end. -/
def Acyclic : Prop := ∀ cur cs, ∃ n r, fs.Walk n cur cs r

def walkWith (follow : Place → List Name → Except Errno Place) :
    Place → List Name → Except Errno Place
  | cur, [] => .ok cur
  | cur, c :: rest => do
    match ← fs.lookupName cur c with
    | .here q => walkWith follow q rest
    | .link target => follow (startOf cur target) (components target ++ rest)

def walk : Nat → Place → List Name → Except Errno Place
  | 0 => fs.walkWith fun _ _ => .error .loop
  | links + 1 => fs.walkWith (walk links)

def maxSymlinks : Nat := 40

def readlink (s : List Char) : Except Errno (List Char) :=
  match (components s).getLast? with
  | none => if s = [] then .error .noEntry else .error .invalid
  | some c => do
    let cur ← fs.walk maxSymlinks [] (components s).dropLast
    targetOf (fs.lookupName cur c)

def exists_ (s : List Char) : Bool :=
  s ≠ [] && (fs.walk maxSymlinks [] (components s)).isOk

end FileTree

section Paths

def IsName (c : Name) : Prop := c ≠ [] ∧ '/' ∉ c

theorem ProperName.isName (h : ProperName c) : IsName c := h.1

theorem absolute_nil : absolute [] = [] := rfl

theorem absolute_cons (c : Name) (q : Place) : absolute (c :: q) = '/' :: c ++ absolute q := rfl

theorem absolute_append (p q : Place) : absolute (p ++ q) = absolute p ++ absolute q :=
  flatMap_append

theorem absolute_concat (q : Place) (c : Name) : absolute (q ++ [c]) = absolute q ++ '/' :: c := by
  rw [absolute_append, absolute_cons, absolute_nil, append_nil]

theorem parts_of_not_mem (h : '/' ∉ c) : parts c = [c] := by
  induction c with
  | nil => rfl
  | cons ch c ih =>
    have hch : ch ≠ '/' := fun heq => h (heq ▸ mem_cons_self)
    rw [parts, if_neg hch, ih fun hc => h (mem_cons_of_mem ch hc)]

theorem parts_append_slash (h : '/' ∉ c) (s : List Char) : parts (c ++ '/' :: s) = c :: parts s := by
  induction c with
  | nil => exact if_pos rfl
  | cons ch c ih =>
    have hch : ch ≠ '/' := fun heq => h (heq ▸ mem_cons_self)
    rw [cons_append, parts, if_neg hch, ih fun hc => h (mem_cons_of_mem ch hc)]

theorem parts_absolute (h : ∀ c ∈ q, '/' ∉ c) (s : List Char) :
    parts (absolute q ++ '/' :: s) = [] :: (q ++ parts s) := by
  induction q with
  | nil => exact if_pos rfl
  | cons c q ih =>
    have hr := ih fun b hb => h b (mem_cons_of_mem c hb)
    have hsl : ∃ s', absolute q ++ '/' :: s = '/' :: s' := by
      cases q with
      | nil => exact ⟨s, rfl⟩
      | cons b q => exact ⟨b ++ absolute q ++ '/' :: s, rfl⟩
    obtain ⟨s', hs'⟩ := hsl
    rw [hs', parts, if_pos rfl, cons.injEq] at hr
    rw [absolute_cons, cons_append, cons_append, parts, if_pos rfl, append_assoc, hs',
      parts_append_slash (h c mem_cons_self), hr.2]
    rfl

theorem slash_not_mem_parts (h : c ∈ parts s) : '/' ∉ c := by
  induction s generalizing c with
  | nil =>
    rw [mem_singleton.mp h]
    exact not_mem_nil
  | cons ch s ih =>
    rw [parts] at h
    split at h
    · rcases mem_cons.mp h with rfl | h
      · exact not_mem_nil
      · exact ih h
    next hch =>
    split at h
    · rw [mem_singleton.mp h]
      exact fun hmem => hch (mem_singleton.mp hmem).symm
    next part rest hp =>
    rcases mem_cons.mp h with rfl | h
    · intro hmem
      rcases mem_cons.mp hmem with heq | hmem
      · exact hch heq.symm
      · exact ih (hp ▸ mem_cons_self) hmem
    · exact ih (hp ▸ mem_cons_of_mem part h)

theorem isName_components (h : c ∈ components s) : IsName c := by
  rw [components] at h
  have hn (hc : c ∈ (parts s).filter (· ≠ [])) : IsName c := by
    obtain ⟨hmem, hne⟩ := mem_filter.mp hc
    exact ⟨of_decide_eq_true hne, slash_not_mem_parts hmem⟩
  split at h
  · rcases mem_append.mp h with h | h
    · exact hn h
    · rw [mem_singleton.mp h]
      exact ⟨by decide, by decide⟩
  · exact hn h

theorem filter_names {q : Place} (h : ∀ c ∈ q, IsName c) : q.filter (· ≠ []) = q := by
  rw [filter_eq_self]
  intro c hc
  exact decide_eq_true (h c hc).1

theorem getLast?_absolute_ne (h : ∀ c ∈ q, IsName c) : (absolute q).getLast? ≠ some '/' := by
  rcases eq_nil_or_concat q with rfl | ⟨dir, c, rfl⟩
  · exact some_ne_none _ |>.symm
  obtain ⟨hne, hsl⟩ := h c (by simp)
  rw [concat_eq_append, absolute_concat]
  intro hl
  obtain ⟨c', ch, rfl⟩ := eq_nil_or_concat c |>.resolve_left hne
  rw [concat_eq_append, ← cons_append, ← append_assoc, getLast?_concat] at hl
  exact hsl (by simp [some.inj hl])

theorem components_absolute (h : ∀ c ∈ q, IsName c) : components (absolute q) = q := by
  rw [components]
  rcases eq_nil_or_concat q with rfl | ⟨dir, c, rfl⟩
  · rfl
  rw [concat_eq_append] at h ⊢
  have hp : parts (absolute (dir ++ [c])) = [] :: (dir ++ [c]) := by
    rw [absolute_concat, parts_absolute fun b hb => (h b (mem_append_left _ hb)).2,
      parts_of_not_mem (h c (mem_append_right _ (mem_singleton_self c))).2]
  have hn : (parts (absolute (dir ++ [c]))).filter (· ≠ []) = dir ++ [c] := by
    rw [hp, filter_cons_of_neg (by simp), filter_names h]
  rw [hn, if_neg fun hbo => getLast?_absolute_ne h hbo.2]

theorem absolute_injective (hp : ∀ c ∈ p, IsName c) (hq : ∀ c ∈ q, IsName c)
    (h : absolute p = absolute q) : p = q := by
  rw [← components_absolute hp, h, components_absolute hq]

theorem components_join (hp : ∀ c ∈ p, IsName c) (hne : t ≠ []) (hrel : t.head? ≠ some '/') :
    components (absolute p ++ '/' :: t) = p ++ components t := by
  have hn : (parts t).filter (· ≠ []) ≠ [] := by
    cases t with
    | nil => exact absurd rfl hne
    | cons ch t =>
      have hch : ch ≠ '/' := fun heq => hrel (congrArg some heq)
      rw [parts, if_neg hch]
      cases parts t <;> simp
  have hl : (absolute p ++ '/' :: t).getLast? = t.getLast? := by
    rw [getLast?_append, getLast?_cons]
    cases ht : t.getLast? with
    | none => exact absurd (getLast?_eq_none_iff.mp ht) hne
    | some ch => rfl
  rw [components, components, parts_absolute fun c hc => (hp c hc).2, hl]
  have hf : ([] :: (p ++ parts t)).filter (· ≠ []) = p ++ (parts t).filter (· ≠ []) := by
    rw [filter_cons_of_neg (by simp), filter_append, filter_names hp]
  rw [hf]
  by_cases hdir : t.getLast? = some '/'
  · rw [if_pos ⟨append_ne_nil_of_right_ne_nil p hn, hdir⟩, if_pos ⟨hn, hdir⟩,
      append_assoc]
  · rw [if_neg fun h => hdir h.2, if_neg fun h => hdir h.2]

end Paths

namespace FileTree

variable {fs : FileTree}

section Nodes

theorem mem_of_lookup_eq_some {l : List (Place × Node)} (h : l.lookup q = some v) : (q, v) ∈ l := by
  induction l with
  | nil => cases h
  | cons e l ih =>
    rw [lookup_cons] at h
    split at h
    · next heq =>
      obtain rfl : v = e.2 := (some.inj h).symm
      rw [eq_of_beq heq]
      exact mem_cons_self
    · exact mem_cons_of_mem e (ih h)

theorem node_nil : fs.node [] = some .directory := if_pos rfl

theorem node_of_ne_nil (h : q ≠ []) : fs.node q = fs.entries.lookup q := if_neg h

theorem properName_of_node (h : fs.node q = some v) : ∀ c ∈ q, ProperName c := by
  by_cases hq : q = []
  · rw [hq]
    intro c hc
    cases hc
  · rw [node_of_ne_nil hq] at h
    exact fs.names (q, v) (mem_of_lookup_eq_some h)

theorem node_dropLast (h : fs.node q = some v) : fs.node q.dropLast = some .directory := by
  by_cases hq : q = []
  · rw [hq]
    exact node_nil
  rw [node_of_ne_nil hq] at h
  rcases fs.parents (q, v) (mem_of_lookup_eq_some h) with hnil | hdir
  · rw [show q.dropLast = [] from hnil]
    exact node_nil
  · by_cases hnil : q.dropLast = []
    · rw [hnil]
      exact node_nil
    · rw [node_of_ne_nil hnil]
      exact hdir

theorem target_ne_nil (h : fs.node q = some (.symlink target)) : target ≠ [] := by
  rintro rfl
  by_cases hq : q = []
  · rw [hq, node_nil] at h
    cases h
  · rw [node_of_ne_nil hq] at h
    exact fs.targets _ (mem_of_lookup_eq_some h) rfl

/-- A place that is reached without following a link. -/
def Physical (fs : FileTree) (q : Place) : Prop :=
  fs.node q = some .directory ∨ fs.node q = some .file

theorem Physical.node (h : fs.Physical q) : ∃ v, fs.node q = some v := by
  rcases h with h | h
  · exact ⟨_, h⟩
  · exact ⟨_, h⟩

end Nodes

section Lookup

theorem lookupName_eq_here (h : fs.lookupName cur c = .ok (.here q)) :
    fs.node cur = some .directory ∧ q = spot cur c ∧ fs.Physical q := by
  rw [lookupName] at h
  split at h
  · next hdir =>
    split at h
    · cases h
    · cases h
    next v hl hn =>
    obtain rfl : spot cur c = q := by
      cases h
      rfl
    refine ⟨hdir, rfl, ?_⟩
    cases v with
    | directory => exact .inl hn
    | file => exact .inr hn
    | symlink target => exact absurd rfl (hl target)
  · cases h

theorem lookupName_eq_link (h : fs.lookupName cur c = .ok (.link target)) :
    fs.node cur = some .directory ∧ fs.node (spot cur c) = some (.symlink target) := by
  rw [lookupName] at h
  split at h
  · next hdir =>
    split at h
    · cases h
    · next hn =>
      cases h
      exact ⟨hdir, hn⟩
    · cases h
  · cases h

theorem lookupName_of_physical (hdir : fs.node cur = some .directory)
    (h : fs.Physical (spot cur c)) : fs.lookupName cur c = .ok (.here (spot cur c)) := by
  rw [lookupName, if_pos hdir]
  rcases h with h | h <;> rw [h]

theorem lookupName_eq_ok (hdir : fs.node cur = some .directory) (h : fs.node (spot cur c) ≠ none) :
    ∃ found, fs.lookupName cur c = .ok found := by
  rw [lookupName, if_pos hdir]
  split
  · next hn => exact absurd hn h
  · exact ⟨_, rfl⟩
  · exact ⟨_, rfl⟩

theorem lookupName_eq_error (h : fs.lookupName cur c = .error e) :
    e = .noEntry ∨ e = .notDirectory := by
  rw [lookupName] at h
  split at h
  · split at h
    · exact .inl (Except.error.inj h).symm
    · cases h
    · cases h
  · exact .inr (Except.error.inj h).symm

theorem node_of_lookupName (h : fs.lookupName cur c = .ok found) :
    fs.node cur = some .directory ∧ fs.node (spot cur c) ≠ none := by
  cases found with
  | here q =>
    obtain ⟨hdir, rfl, hq⟩ := lookupName_eq_here h
    obtain ⟨v, hv⟩ := hq.node
    exact ⟨hdir, ne_none_iff_exists'.mpr ⟨v, hv⟩⟩
  | link target =>
    obtain ⟨hdir, hn⟩ := lookupName_eq_link h
    exact ⟨hdir, ne_none_iff_exists'.mpr ⟨_, hn⟩⟩

theorem spot_of_proper (h : ProperName c) (cur : Place) : spot cur c = cur ++ [c] := by
  rw [spot, if_neg h.2.1, if_neg h.2.2]

theorem proper_of_link (h : fs.lookupName cur c = .ok (.link target)) : spot cur c = cur ++ [c] := by
  obtain ⟨hdir, hn⟩ := lookupName_eq_link h
  rw [spot] at hn ⊢
  split at hn
  · rw [hdir] at hn
    cases hn
  · split at hn
    · rw [node_dropLast hdir] at hn
      cases hn
    · next hdot hd => rw [if_neg hdot, if_neg hd]

end Lookup

section Walks

theorem Walk.unique (h : fs.Walk n cur cs r) (h' : fs.Walk n' cur cs r') : n = n' ∧ r = r' := by
  induction h generalizing n' r' with
  | done =>
    cases h'
    exact ⟨rfl, rfl⟩
  | fail hf =>
    cases h' with
    | fail hf' => exact ⟨rfl, by rw [Except.error.inj (hf.symm.trans hf')]⟩
    | move hm => cases hf.symm.trans hm
    | follow hl => cases hf.symm.trans hl
  | move hm _ ih =>
    cases h' with
    | fail hf => cases hm.symm.trans hf
    | move hm' hre =>
      cases hm.symm.trans hm'
      exact ih hre
    | follow hl => cases hm.symm.trans hl
  | follow hl _ ih =>
    cases h' with
    | fail hf => cases hl.symm.trans hf
    | move hm => cases hl.symm.trans hm
    | follow hl' hre =>
      cases hl.symm.trans hl'
      obtain ⟨hn, hr⟩ := ih hre
      exact ⟨congrArg (· + 1) hn, hr⟩

theorem Walk.append (h : fs.Walk n cur a (.ok q)) (hre : fs.Walk m q b r) :
    fs.Walk (n + m) cur (a ++ b) r := by
  generalize hr : Except.ok q = r' at h
  induction h with
  | done =>
    cases hr
    rw [Nat.zero_add]
    exact hre
  | fail => cases hr
  | move hm _ ih => exact .move hm (ih hr)
  | @follow cur c target n rest _ hl _ ih =>
    rw [cons_append, Nat.add_right_comm]
    apply Walk.follow hl
    rw [← append_assoc]
    exact ih hr

theorem Walk.split (h : fs.Walk n cur (a ++ b) r) :
    (∃ e, r = .error e ∧ fs.Walk n cur a (.error e)) ∨
      ∃ n₁ n₂ q, n = n₁ + n₂ ∧ fs.Walk n₁ cur a (.ok q) ∧ fs.Walk n₂ q b r := by
  generalize hcs : a ++ b = cs at h
  induction h generalizing a with
  | done =>
    obtain ⟨rfl, rfl⟩ := append_eq_nil_iff.mp hcs
    exact .inr ⟨0, 0, _, rfl, .done, .done⟩
  | @fail cur c e rest hfa =>
    rcases append_eq_cons_iff.mp hcs with ⟨rfl, rfl⟩ | ⟨a, rfl, rfl⟩
    · exact .inr ⟨0, 0, _, rfl, .done, .fail hfa⟩
    · exact .inl ⟨e, rfl, .fail hfa⟩
  | @move cur c q n rest r hm hr ih =>
    rcases append_eq_cons_iff.mp hcs with ⟨rfl, rfl⟩ | ⟨a, rfl, rfl⟩
    · exact .inr ⟨0, n, _, (Nat.zero_add n).symm, .done, .move hm hr⟩
    · rcases ih rfl with ⟨e, he, hw⟩ | ⟨n₁, n₂, q', hn, hf, hse⟩
      · exact .inl ⟨e, he, .move hm hw⟩
      · exact .inr ⟨n₁, n₂, q', hn, .move hm hf, hse⟩
  | @follow cur c target n rest r hl hr ih =>
    rcases append_eq_cons_iff.mp hcs with ⟨rfl, rfl⟩ | ⟨a, rfl, rfl⟩
    · exact .inr ⟨0, n + 1, _, (Nat.zero_add _).symm, .done, .follow hl hr⟩
    · rcases ih (append_assoc _ a b) with ⟨e, he, hw⟩ | ⟨n₁, n₂, q', hn, hf, hse⟩
      · exact .inl ⟨e, he, .follow hl hw⟩
      · refine .inr ⟨n₁ + 1, n₂, q', ?_, .follow hl hf, hse⟩
        omega

theorem Walk.append_error (h : fs.Walk n cur a (.error e)) (b : List Name) :
    fs.Walk n cur (a ++ b) (.error e) := by
  generalize hr : Except.error e = r at h
  induction h with
  | done => cases hr
  | fail hf => exact .fail hf
  | move hm _ ih => exact .move hm (ih hr)
  | follow hl _ ih =>
    rw [cons_append]
    apply Walk.follow hl
    rw [← append_assoc]
    exact ih hr

theorem acyclic_of_links (h : ∀ cur c target, fs.lookupName cur c = .ok (.link target) →
    ∃ n r, fs.Walk n (startOf cur target) (components target) r) : fs.Acyclic := by
  intro cur cs
  induction cs generalizing cur with
  | nil => exact ⟨0, _, .done⟩
  | cons c cs ih =>
    cases hf : fs.lookupName cur c with
    | error e => exact ⟨0, _, .fail hf⟩
    | ok found =>
      cases found with
      | here q =>
        obtain ⟨n, r, hw⟩ := ih q
        exact ⟨n, r, .move hf hw⟩
      | link target =>
        obtain ⟨n, r, ht⟩ := h cur c target hf
        cases r with
        | error e => exact ⟨n + 1, _, .follow hf (ht.append_error cs)⟩
        | ok q =>
          obtain ⟨m, r, hw⟩ := ih q
          exact ⟨n + m + 1, r, .follow hf (ht.append hw)⟩

theorem Walk.physical (h : fs.Walk n cur cs (.ok q)) (hcur : fs.Physical cur) : fs.Physical q := by
  generalize hr : Except.ok q = r at h
  induction h with
  | done =>
    cases hr
    exact hcur
  | fail => cases hr
  | move hm _ ih => exact ih (lookupName_eq_here hm).2.2 hr
  | @follow cur c target _ _ _ hl _ ih =>
    apply ih _ hr
    rw [startOf]
    split
    · exact .inl node_nil
    · exact .inl (lookupName_eq_link hl).1

theorem walk_physical (h : fs.Physical q) : fs.Walk 0 [] q (.ok q) := by
  induction q using reverseRecOn with
  | nil => exact .done
  | append_singleton dir c ih =>
    obtain ⟨v, hv⟩ := h.node
    have hdir := node_dropLast hv
    rw [dropLast_concat] at hdir
    have hsp := spot_of_proper (properName_of_node hv c (by simp)) dir
    rw [← hsp] at h
    have hl : fs.Walk 0 dir [c] (.ok (dir ++ [c])) := by
      rw [← hsp]
      exact .move (lookupName_of_physical hdir h) .done
    exact (ih (.inl hdir)).append hl

theorem Walk.walk_eq (h : fs.Walk n cur cs r) (hn : n ≤ links) : fs.walk links cur cs = r := by
  have hw : ∀ links, fs.walk links = fs.walkWith fun cur cs =>
      match links with
      | 0 => .error .loop
      | links + 1 => fs.walk links cur cs := by
    intro links
    cases links <;> rfl
  induction h generalizing links with
  | done =>
    rw [hw]
    rfl
  | fail hf =>
    rw [hw, walkWith, hf]
    rfl
  | move hm _ ih =>
    rw [hw, walkWith, hm]
    have hr := ih hn
    rw [hw] at hr
    exact hr
  | follow hl _ ih =>
    rw [hw, walkWith, hl]
    cases links with
    | zero => cases hn
    | succ links => exact ih (Nat.le_of_succ_le_succ hn)

theorem readlink_absolute (hdir : fs.Physical dir) (hc : IsName c) :
    fs.readlink (absolute (dir ++ [c])) = targetOf (fs.lookupName dir c) := by
  obtain ⟨v, hv⟩ := hdir.node
  have hn : ∀ b ∈ dir ++ [c], IsName b := by
    rw [forall_mem_append, forall_mem_singleton]
    exact ⟨fun b hb => (properName_of_node hv b hb).isName, hc⟩
  rw [readlink, components_absolute hn, getLast?_concat, dropLast_concat]
  dsimp only
  rw [(walk_physical hdir).walk_eq (Nat.zero_le _)]
  rfl

end Walks

end FileTree

end Attune.Files
