import Attune.Neighbours
import Attune.SourcePaths

namespace Attune.Sources
open Files List Option

section Text

theorem rfindSlash_append (h : '/' ∉ c) (a : Path) : rfindSlash (a ++ '/' :: c) = some a.length := by
  have hrev : (a ++ '/' :: c).reverse = c.reverse ++ '/' :: a.reverse := by simp
  have hlen : (a ++ '/' :: c).length - 1 - c.reverse.length = a.length := by
    rw [length_append, length_cons, length_reverse]
    omega
  rw [rfindSlash, hrev, findIdx?_first (by simpa using h), map_some, hlen]

theorem rfindSlash_spec (h : rfindSlash s = some p) : s[p]? = some '/' := by
  obtain ⟨i, hi, rfl⟩ := map_eq_some_iff.mp h
  obtain ⟨hlt, hch, _⟩ := findIdx?_eq_some_iff_getElem.mp hi
  rw [length_reverse] at hlt
  rw [getElem_reverse, beq_iff_eq] at hch
  rw [getElem?_eq_getElem (by omega), hch]

theorem rfindSlash_isSome (h : '/' ∈ s) : ∃ p, rfindSlash s = some p := by
  rw [rfindSlash]
  cases hf : s.reverse.findIdx? (· == '/') with
  | none =>
    have ha := findIdx?_eq_none_iff.mp hf '/' (mem_reverse.mpr h)
    cases ha
  | some i => exact ⟨_, rfl⟩

theorem drop_past_slash (a c : Path) : (a ++ '/' :: c).drop (a.length + 1) = c := by
  rw [← drop_drop, drop_left]
  rfl

theorem findSlash_last (h : '/' ∉ c) (a : Path) : findSlash (a ++ '/' :: c) (a.length + 1) = none := by
  rw [findSlash, drop_past_slash, findIdx?_absent h]
  rfl

theorem findSlash_next (h : '/' ∉ c) (a rest : Path) :
    findSlash (a ++ '/' :: (c ++ '/' :: rest)) (a.length + 1) = some (a ++ '/' :: c).length := by
  have hlen : a.length + 1 + c.length = (a ++ '/' :: c).length := by
    rw [length_append, length_cons]
    omega
  rw [findSlash, drop_past_slash, findIdx?_first h, map_some, hlen]

theorem isComponent_append (hc : '/' ∉ c) (hd : '/' ∉ d) (hr : rest = [] ∨ rest.head? = some '/') :
    isComponent (c ++ rest) d = decide (c = d) := by
  induction d generalizing c with
  | nil =>
    cases c with
    | nil => rcases hr with rfl | hr <;> simp [isComponent, *]
    | cons ch c =>
      have hch : ch ≠ '/' := fun heq => hc (heq ▸ mem_cons_self)
      simp [isComponent, hch]
  | cons ch' d ih =>
    have hch' : ch' ≠ '/' := fun heq => hd (heq ▸ mem_cons_self)
    cases c with
    | nil =>
      rcases hr with rfl | hr
      · rfl
      obtain ⟨rest, rfl⟩ : ∃ rest', rest = '/' :: rest' := by
        cases rest with
        | nil => cases hr
        | cons ch rest =>
          rw [head?_cons, some_inj] at hr
          exact ⟨rest, by rw [hr]⟩
      simp [isComponent, hch'.symm]
    | cons ch c =>
      have hrec := ih (c := c) (fun h => hc (mem_cons_of_mem ch h))
        fun h => hd (mem_cons_of_mem ch' h)
      rw [cons_append, isComponent, hrec]
      by_cases heq : ch = ch' <;> simp [heq]

end Text

section Normalize

theorem drop_eq_cons {s : List α} (h : s.drop i = x :: l) : s[i]? = some x ∧ s.drop (i + 1) = l := by
  apply And.intro
  · rw [← head?_drop, h]
    rfl
  · rw [← drop_drop, h]
    rfl

theorem normalizeLoop_copy (hx : s[i]? = some x) (ho : out ≤ i)
    (hp : x = '/' → s[i + 1]? ≠ some '/' ∧ isComponent (s.drop (i + 1)) dot = false ∧
      isComponent (s.drop (i + 1)) dotdot = false) (fuel : Nat) :
    normalizeLoop s.length (fuel + 1) s i out =
      normalizeLoop s.length fuel (s.set out x) (i + 1) (out + 1) := by
  have hi : i < s.length := (List.getElem?_eq_some_iff.mp hx).1
  rw [normalizeLoop, if_pos hi, hx]
  dsimp only
  rw [if_pos (Nat.lt_of_le_of_lt ho hi)]
  by_cases hsl : x = '/'
  · obtain ⟨hn, hdot, hd⟩ := hp hsl
    rw [if_pos (congrArg some hsl), if_neg hn, hdot, hd]
    rfl
  · rw [if_neg fun h => hsl (some.inj h)]

/-- What a store at `out` leaves: the unread text, and the result one character longer. -/
theorem set_unread {s : Path} (ho : out ≤ i) (hi : i < s.length) (x : Char) :
    (s.set out x).length = s.length ∧ (s.set out x).drop (i + 1) = s.drop (i + 1) ∧
      (s.set out x).take (out + 1) = s.take out ++ [x] := by
  refine ⟨length_set, drop_set_of_lt (by omega), ?_⟩
  rw [take_set, take_add_one, set_append_right _ _ (by rw [length_take]; omega), length_take,
    Nat.min_eq_left (by omega), Nat.sub_self, getElem?_eq_getElem (by omega)]
  rfl

theorem normalizeLoop_name (h : '/' ∉ c) (hs : s.drop i = c ++ rest) (ho : out ≤ i) (fuel : Nat) :
    ∃ s', normalizeLoop s.length (fuel + c.length) s i out =
        normalizeLoop s.length fuel s' (i + c.length) (out + c.length) ∧ s'.length = s.length ∧
      s'.drop (i + c.length) = rest ∧ s'.take (out + c.length) = s.take out ++ c := by
  induction c generalizing s i out with
  | nil => exact ⟨s, rfl, rfl, hs, (append_nil _).symm⟩
  | cons x c ih =>
    have hx : x ≠ '/' := fun heq => h (heq ▸ mem_cons_self)
    obtain ⟨hat, hd⟩ := drop_eq_cons hs
    obtain ⟨hlen, hun, ht⟩ := set_unread ho (List.getElem?_eq_some_iff.mp hat).1 x
    obtain ⟨s', hl, hl', hr, hout⟩ := ih (s := s.set out x) (fun hc => h (mem_cons_of_mem x hc))
      (hun.trans hd) (Nat.add_le_add_right ho 1)
    have hadd (k : Nat) : k + (x :: c).length = k + 1 + c.length := by rw [length_cons]; omega
    rw [hadd i, hadd out]
    refine ⟨s', ?_, hl'.trans hlen, hr, by rw [hout, ht, append_assoc]; rfl⟩
    rw [length_cons, ← Nat.add_assoc, normalizeLoop_copy hat ho fun heq => absurd heq hx, ← hlen, hl]

/-- What one component does to the components in front of it. -/
def normalStep (q : Place) (c : Name) : Place :=
  if c = [] ∨ c = dot then q else if c = dotdot then q.dropLast else q ++ [c]

/-- Whether some `..` comes where no component is left. -/
def climbs : Place → List Name → Bool
  | _, [] => false
  | q, c :: cs => (c == dotdot && q.isEmpty) || climbs (normalStep q c) cs

def trailing (cs : List Name) : Path := if cs.getLast? = some [] then ['/'] else []

theorem trailing_cons (h : c ≠ [] ∨ cs ≠ []) : trailing (c :: cs) = trailing cs := by
  cases cs with
  | nil =>
    have hc := h.resolve_right fun hne => hne rfl
    exact if_neg fun heq => hc (some.inj heq)
  | cons b cs => rfl

theorem normalStep_proper (hq : ∀ b ∈ q, ProperName b) (hc : '/' ∉ c) :
    ∀ b ∈ normalStep q c, ProperName b := by
  rw [normalStep]
  split
  · exact hq
  next hno =>
  rw [not_or] at hno
  split
  · exact fun b hb => hq b ((dropLast_sublist q).mem hb)
  next hdd =>
  intro b hb
  rcases mem_append.mp hb with hb | hb
  · exact hq b hb
  · rw [mem_singleton.mp hb]
    exact ⟨⟨hno.1, hc⟩, hno.2, hdd⟩

theorem normalizeLoop_absolute (hcs : ∀ c ∈ cs, '/' ∉ c) (hs : s.drop i = absolute cs)
    (hi : i ≤ s.length) (hq : ∀ b ∈ q, ProperName b) (ho : (absolute q).length ≤ i)
    (hout : s.take (absolute q).length = absolute q) (hro : climbs q cs = false)
    (hf : s.length < i + fuel) :
    normalizeLoop s.length fuel s i (absolute q).length =
      some (absolute (cs.foldl normalStep q) ++ trailing cs) := by
  obtain ⟨fuel, rfl⟩ := Nat.exists_eq_add_one_of_ne_zero (show fuel ≠ 0 by omega)
  induction cs generalizing s i q fuel with
  | nil =>
    rw [normalizeLoop, if_neg (Nat.not_lt.mpr (drop_eq_nil_iff.mp hs)), hout]
    exact congrArg some (append_nil _).symm
  | cons c cs ih =>
    have hc := hcs c mem_cons_self
    rw [absolute_cons, cons_append] at hs
    obtain ⟨hat, hdr⟩ := drop_eq_cons hs
    have hlt := (List.getElem?_eq_some_iff.mp hat).1
    have hh : absolute cs = [] ∨ (absolute cs).head? = some '/' := by
      cases cs with
      | nil => exact .inl rfl
      | cons b cs => exact .inr rfl
    have his {d : Name} (hd : '/' ∉ d) : isComponent (s.drop (i + 1)) d = decide (c = d) := by
      rw [hdr, isComponent_append hc hd hh]
    have hn : c ≠ [] → s[i + 1]? ≠ some '/' := by
      intro hne
      rw [← head?_drop, hdr]
      cases c with
      | nil => exact absurd rfl hne
      | cons x c =>
        intro hx
        exact hc (some.inj hx ▸ mem_cons_self)
    have hlen : i + 1 + c.length ≤ s.length := by
      have hl := congrArg length hdr
      rw [length_drop, length_append] at hl
      omega
    have hend : s.drop (i + 1 + c.length) = absolute cs := by rw [← drop_drop, hdr, drop_left]
    have hcs' : ∀ b ∈ cs, '/' ∉ b := fun b hb => hcs b (mem_cons_of_mem c hb)
    obtain ⟨hup, hr'⟩ := Bool.or_eq_false_iff.mp hro
    -- the cases in which nothing is copied go on behind the component with a shorter result
    have hsk {q' : Place} {k : Nat} (hst : normalStep q c = q') (hle : (absolute q').length ≤ i)
        (hres : s.take (absolute q').length = absolute q') (hca : c ≠ [] ∨ cs ≠ [])
        (hk : k = i + 1 + c.length) :
        normalizeLoop s.length fuel s k (absolute q').length =
          some (absolute ((c :: cs).foldl normalStep q) ++ trailing (c :: cs)) := by
      subst hk
      rw [foldl_cons, trailing_cons hca, hst]
      have hq' := normalStep_proper hq hc
      rw [hst] at hq' hr'
      obtain ⟨fuel, rfl⟩ := Nat.exists_eq_add_one_of_ne_zero (show fuel ≠ 0 by omega)
      exact ih hcs' hend hlen hq' (by omega) hres hr' fuel (by omega)
    by_cases he : c = []
    · subst he
      cases cs with
      | nil =>
        have hla : i + 1 = s.length := by
          have hl := drop_eq_nil_iff.mp hdr
          omega
        obtain ⟨hl₁, -, ht⟩ := set_unread ho hlt '/'
        obtain ⟨fuel, rfl⟩ := Nat.exists_eq_add_one_of_ne_zero (show fuel ≠ 0 by omega)
        rw [normalizeLoop_copy hat ho fun _ => ⟨?_, his (by decide), his (by decide)⟩,
          normalizeLoop, if_neg (by omega), ht, hout]
        · rfl
        · rw [hla, getElem?_eq_none (Nat.le_refl _)]
          exact nofun
      | cons b cs =>
        have hsl : s[i + 1]? = some '/' := by
          rw [← head?_drop, hdr]
          rfl
        rw [normalizeLoop, if_pos hlt, if_pos hat, if_pos hsl]
        exact hsk (if_pos (.inl rfl)) ho hout (.inr (cons_ne_nil b cs)) rfl
    by_cases hdot : c = dot
    · rw [normalizeLoop, if_pos hlt, if_pos hat, if_neg (hn he), his (by decide),
        if_pos (decide_eq_true hdot)]
      exact hsk (if_pos (.inr hdot)) ho hout (.inl he) (by rw [hdot]; rfl)
    have hno : ¬ (c = [] ∨ c = dot) := fun h => h.elim he hdot
    by_cases hdd : c = dotdot
    · obtain ⟨q, b, rfl⟩ := (eq_nil_or_concat q).resolve_left fun hnil => by
        simp [hnil, hdd] at hup
      rw [concat_eq_append] at hq ho hout hsk ⊢
      have hb := hq b (mem_append_right q mem_cons_self)
      have hle : (absolute q).length < (absolute (q ++ [b])).length := by
        rw [absolute_concat, length_append, length_cons]
        omega
      have hp : rfindSlash (absolute (q ++ [b])) = some (absolute q).length := by
        rw [absolute_concat]
        exact rfindSlash_append hb.1.2 _
      have hres : s.take (absolute q).length = absolute q := by
        rw [← Nat.min_eq_left (Nat.le_of_lt hle), ← take_take, hout, absolute_concat, take_left]
      rw [normalizeLoop, if_pos hlt, if_pos hat, if_neg (hn he), his (by decide),
        if_neg (by simpa using hdot), his (by decide), if_pos (decide_eq_true hdd),
        if_neg (by omega), hout, hp]
      refine hsk ?_ (by omega) hres (.inl he) (by rw [hdd]; rfl)
      rw [normalStep, if_neg hno, if_pos hdd, dropLast_concat]
    · have hst : normalStep q c = q ++ [c] := by rw [normalStep, if_neg hno, if_neg hdd]
      have hq' := normalStep_proper hq hc
      obtain ⟨hl₁, hun, ht⟩ := set_unread ho hlt '/'
      obtain ⟨k, rfl⟩ : ∃ k, fuel = k + 1 + c.length := ⟨fuel - 1 - c.length, by omega⟩
      obtain ⟨s', hl, hl₂, hr, ho'⟩ := normalizeLoop_name hc (hun.trans hdr)
        (Nat.add_le_add_right ho 1) (k + 1)
      have he' : (absolute q).length + 1 + c.length = (absolute (q ++ [c])).length := by
        rw [absolute_concat, length_append, length_cons]
        omega
      rw [normalizeLoop_copy hat ho fun _ => ⟨hn he, ?_, ?_⟩, ← hl₁, hl, he', foldl_cons,
        trailing_cons (.inl he), hst, ← hl₂]
      · rw [hst] at hq' hr'
        rw [ht, hout, append_assoc, he', singleton_append, ← absolute_concat] at ho'
        exact ih hcs' hr (by omega) hq' (by omega) ho' hr' k (by omega)
      · rw [his (by decide), decide_eq_false hdot]
      · rw [his (by decide), decide_eq_false hdd]

theorem normalizeFileName_absolute (hcs : ∀ c ∈ cs, '/' ∉ c) (hr : climbs [] cs = false) :
    normalizeFileName (absolute cs) = some (absolute (cs.foldl normalStep []) ++ trailing cs) :=
  normalizeLoop_absolute (q := []) hcs rfl (Nat.zero_le _) nofun (Nat.zero_le _) rfl hr (by omega)

theorem foldl_proper (hq : ∀ b ∈ q, ProperName b) (p : Place) (cs : List Name) :
    (q ++ cs).foldl normalStep p = cs.foldl normalStep (p ++ q) ∧
      climbs p (q ++ cs) = climbs (p ++ q) cs := by
  induction q generalizing p with
  | nil => exact ⟨by rw [append_nil]; rfl, by rw [append_nil]; rfl⟩
  | cons c q ih =>
    obtain ⟨⟨he, -⟩, hdot, hdd⟩ := hq c mem_cons_self
    have hst : normalStep p c = p ++ [c] := by
      rw [normalStep, if_neg fun h => h.elim he hdot, if_neg hdd]
    have hr := ih (fun b hb => hq b (mem_cons_of_mem c hb)) (p ++ [c])
    rw [append_assoc, singleton_append] at hr
    rw [cons_append, foldl_cons, climbs, hst, beq_eq_false_iff_ne.mpr hdd]
    exact hr

theorem normalizeFileName_last (hq : ∀ b ∈ q, ProperName b) (hd : d = dot ∨ d = dotdot ∧ q ≠ []) :
    normalizeFileName (absolute q ++ '/' :: d) = some (absolute (normalStep q d)) := by
  obtain ⟨hf, hup⟩ := foldl_proper hq [] [d]
  have hcs : ∀ c ∈ q ++ [d], '/' ∉ c := by
    intro c hc
    rcases mem_append.mp hc with hc | hc
    · exact (hq c hc).1.2
    · rw [mem_singleton.mp hc]
      rcases hd with rfl | ⟨rfl, -⟩ <;> decide
  have hl : trailing (q ++ [d]) = [] := by
    rw [trailing, getLast?_concat]
    rcases hd with rfl | ⟨rfl, -⟩ <;> rfl
  rw [← absolute_concat, normalizeFileName_absolute hcs, hf, hl, append_nil]
  · rfl
  · rw [hup]
    rcases hd with rfl | ⟨rfl, hne⟩
    · rfl
    · simp [climbs, hne]

/-- The components of the lexical normal form of an absolute path. -/
def normalForm (s : Path) : Place := (parts s).foldl normalStep []

theorem parts_eq_cons (s : Path) : ∃ c cs, parts s = c :: cs ∧ s = c ++ absolute cs := by
  induction s with
  | nil => exact ⟨[], [], rfl, rfl⟩
  | cons ch s ih =>
    obtain ⟨c, cs, hp, hs⟩ := ih
    rw [parts]
    split
    · next hsl =>
      refine ⟨[], parts s, rfl, ?_⟩
      rw [hsl, hp, absolute_cons, nil_append, cons_append, ← hs]
    · rw [hp]
      exact ⟨ch :: c, cs, rfl, congrArg (ch :: ·) hs⟩

theorem foldl_normalStep_proper {cs : List Name} {q : Place} (hcs : ∀ c ∈ cs, '/' ∉ c)
    (hq : ∀ b ∈ q, ProperName b) : ∀ b ∈ cs.foldl normalStep q, ProperName b := by
  induction cs generalizing q with
  | nil => exact hq
  | cons c cs ih =>
    exact ih (fun b hb => hcs b (mem_cons_of_mem c hb)) (normalStep_proper hq (hcs c mem_cons_self))

/-- A path that does not climb above the root comes out in normal form. -/
theorem normalizes_of_not_climbs (s : Path) (hs : s.head? = some '/')
    (hroot : climbs [] (parts s) = false) :
    normalizeFileName s = some (absolute (normalForm s) ++ trailing (parts s)) ∧
      ∀ c ∈ normalForm s, ProperName c := by
  have hcs : ∀ c ∈ parts s, '/' ∉ c := fun c => slash_not_mem_parts
  refine ⟨?_, foldl_normalStep_proper hcs nofun⟩
  obtain ⟨c, cs, hp, heq⟩ := parts_eq_cons s
  have hc : c = [] := by
    cases c with
    | nil => rfl
    | cons x c =>
      rw [heq] at hs
      cases hs
      exact absurd mem_cons_self (hcs _ (hp ▸ mem_cons_self))
  subst hc
  rw [nil_append] at heq
  have hne : cs ≠ [] := by
    rintro rfl
    rw [heq] at hs
    cases hs
  rw [hp] at hcs hroot
  rw [normalForm, hp, trailing_cons (.inr hne)]
  exact heq ▸ normalizeFileName_absolute (fun b hb => hcs b (mem_cons_of_mem [] hb)) hroot

theorem normalizes_of_not_climbs_dots :
    normalizeFileName "/a/./b//../c/".toList = some "/a/c/".toList :=
  (normalizes_of_not_climbs "/a/./b//../c/".toList rfl (by decide)).1

/-- With nothing in front of `..` the last slash of the whole path is taken. -/
theorem normalizes_above_root : normalForm "/../a".toList = [['a']] ∧
    normalizeFileName "/../a".toList = some "/../a".toList := by
  decide

theorem normalizeFileName_proper {q : Place} (hq : ∀ b ∈ q, ProperName b) (cs : List Name) :
    normalizeFileName (absolute q ++ trailing cs) = some (absolute q ++ trailing cs) := by
  rw [trailing]
  split
  · have hcs : ∀ c ∈ q ++ [[]], '/' ∉ c := by
      intro c hc
      rcases mem_append.mp hc with hc | hc
      · exact (hq c hc).1.2
      · rw [mem_singleton.mp hc]
        exact not_mem_nil
    obtain ⟨hf, hup⟩ := foldl_proper hq [] [[]]
    rw [← absolute_concat, normalizeFileName_absolute hcs (hup.trans rfl), hf, trailing,
      getLast?_concat, absolute_concat]
    rfl
  · obtain ⟨hf, hup⟩ := foldl_proper hq [] []
    rw [append_nil] at hf hup
    have hlast : q.getLast? ≠ some [] := fun h => (hq [] (mem_of_getLast? h)).1.1 rfl
    rw [append_nil, normalizeFileName_absolute (fun c hc => (hq c hc).1.2) (hup.trans rfl), hf,
      trailing, if_neg hlast, append_nil]
    rfl

/-- What comes out of normalization is left alone by it. -/
theorem normalizes_once (cs : List Name) (hcs : ∀ c ∈ cs, '/' ∉ c) (hroot : climbs [] cs = false) :
    ∃ out, normalizeFileName (absolute cs) = some out ∧ normalizeFileName out = some out := by
  refine ⟨_, normalizeFileName_absolute hcs hroot, normalizeFileName_proper ?_ cs⟩
  exact foldl_normalStep_proper hcs fun b hb => absurd hb not_mem_nil

theorem normalizes_once_dots : ∃ out, normalizeFileName "/a/./b//../c/".toList = some out ∧
    normalizeFileName out = some out :=
  normalizes_once ["a".toList, dot, "b".toList, [], dotdot, "c".toList, []] (by decide) (by decide)

end Normalize

end Attune.Sources
