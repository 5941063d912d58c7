import Attune.MuplayDwarfReader

namespace Attune.Dwarf

def DieTree.group (t : DieTree) : List Handle := (dwarfChild ⟨t, []⟩).toList

/-- The walk visits these DIEs and ends at a last sibling without children, leaving one waiting
group. -/
inductive Ends : Handle → List Handle → List Die → Handle → Prop
  | sibling {t t' : DieTree} {ts : List DieTree} {queue : List Handle} {visited : List Die}
      {left : Handle} : Ends ⟨t', ts⟩ (queue ++ t.group) visited left →
      Ends ⟨t, t' :: ts⟩ queue (t.die :: visited) left
  | next {t : DieTree} {h : Handle} {queue rest : List Handle} {visited : List Die} {left : Handle} :
      queue ++ t.group = h :: rest → (rest ≠ [] ∨ t.children ≠ []) → Ends h rest visited left →
      Ends ⟨t, []⟩ queue (t.die :: visited) left
  | stop {t : DieTree} {left : Handle} : t.children = [] → Ends ⟨t, []⟩ [left] [t.die] left

theorem dwarfChild_isSome (h : Handle) : (dwarfChild h).isSome = true ↔ h.tree.children ≠ [] := by
  unfold dwarfChild
  split
  · rename_i hc
    simp [hc]
  · rename_i hc
    simp [hc]

theorem DieTree.group_nil {t : DieTree} (ht : t.children = []) : t.group = [] := by
  simp [DieTree.group, dwarfChild, ht]

section
variable (strings : Nat → List Char) (addrs : List Nat)

def visitAll (v : Vars) (ds : List Die) : Except Stop Vars := ds.foldlM (visit strings addrs) v

theorem visitAll_cons (v : Vars) (d : Die) (ds : List Die) : visitAll strings addrs v (d :: ds) =
      (visit strings addrs v d).bind fun v' => visitAll strings addrs v' ds := rfl

theorem body_sibling (t t' : DieTree) (ts : List DieTree) (queue : List Handle) (sib chi : Bool)
    (v : Vars) : Loop.body strings addrs ⟨⟨t, t' :: ts⟩, queue, sib, chi, v⟩ =
      (visit strings addrs v t.die).bind fun v' =>
        .ok ⟨⟨t', ts⟩, queue ++ t.group, true, (dwarfChild ⟨t, t' :: ts⟩).isSome, v'⟩ := rfl

theorem body_last (t : DieTree) (queue : List Handle) (sib chi : Bool) (v : Vars)
    (hq : queue ++ t.group = h :: rest) :
    Loop.body strings addrs ⟨⟨t, []⟩, queue, sib, chi, v⟩ =
      (visit strings addrs v t.die).bind fun v' =>
        .ok ⟨h, rest, false, (dwarfChild ⟨t, []⟩).isSome, v'⟩ := by
  simp only [DieTree.group] at hq
  simp only [Loop.body, dwarfSiblingof, hq]
  rfl

theorem body_empty (t : DieTree) (queue : List Handle) (sib chi : Bool) (v : Vars)
    (hq : queue ++ t.group = []) (s : Loop) :
    Loop.body strings addrs ⟨⟨t, []⟩, queue, sib, chi, v⟩ ≠ .ok s := by
  simp only [DieTree.group] at hq
  simp only [Loop.body, dwarfSiblingof, hq]
  cases visit strings addrs v t.die with
  | error e | ok v' => exact fun h => nomatch h

theorem run_of_goesOn (fuel : Nat) (s : Loop) (hs : s.goesOn = true) :
    Loop.run strings addrs (fuel + 1) s =
      (Loop.body strings addrs s).bind (Loop.run strings addrs fuel) := by
  rw [Loop.run, if_pos hs]
  rfl

theorem bind_bind_ok (x : Except Stop Vars) (f : Vars → Loop) (g : Loop → Except Stop Loop) :
    (x.bind fun v => .ok (f v)).bind g = x.bind fun v => g (f v) := by
  cases x <;> rfl

theorem Ends.run_eq (he : Ends g queue visited left) (fuel : Nat) (hf : visited.length ≤ fuel)
    (sib chi : Bool) (v : Vars) (hs : (⟨g, queue, sib, chi, v⟩ : Loop).goesOn = true) :
    Loop.run strings addrs fuel ⟨g, queue, sib, chi, v⟩ =
      (visitAll strings addrs v visited).bind fun v' => .ok ⟨left, [], false, false, v'⟩ := by
  induction he generalizing fuel sib chi v with
  | sibling he ih =>
    rename_i t t' ts queue visited left
    cases fuel with
    | zero => exact absurd hf (by simp)
    | succ fuel =>
      rw [run_of_goesOn _ _ _ _ hs, body_sibling, bind_bind_ok, visitAll_cons]
      cases visit strings addrs v t.die with
      | error e => rfl
      | ok v' => exact ih fuel (Nat.le_of_succ_le_succ hf) true _ v' rfl
  | next hq hgo he ih =>
    rename_i t h queue rest visited left
    cases fuel with
    | zero => exact absurd hf (by simp)
    | succ fuel =>
      rw [run_of_goesOn _ _ _ _ hs, body_last _ _ _ _ _ _ _ hq, bind_bind_ok, visitAll_cons]
      cases visit strings addrs v t.die with
      | error e => rfl
      | ok v' =>
        apply ih fuel (Nat.le_of_succ_le_succ hf) false _ v'
        rcases hgo with hr | hc
        · simp [Loop.goesOn, hr]
        · simp [Loop.goesOn, (dwarfChild_isSome ⟨t, []⟩).2 hc]
  | stop hc =>
    rename_i t left
    cases fuel with
    | zero => exact absurd hf (by simp)
    | succ fuel =>
      have hq : [left] ++ t.group = [left] := by rw [DieTree.group_nil hc, List.append_nil]
      have hn : (dwarfChild ⟨t, []⟩).isSome = false := by simp [dwarfChild, hc]
      rw [run_of_goesOn _ _ _ _ hs, body_last _ _ _ _ _ _ _ hq, bind_bind_ok, visitAll_cons, hn]
      cases visit strings addrs v t.die with
      | error e => rfl
      | ok v' => cases fuel <;> rfl

theorem ends_of_run (fuel : Nat) (g : Handle) (queue : List Handle) (sib chi : Bool) (v : Vars)
    (hs : (⟨g, queue, sib, chi, v⟩ : Loop).goesOn = true)
    (hrun : Loop.run strings addrs fuel ⟨g, queue, sib, chi, v⟩ = .ok s) :
    ∃ visited left, Ends g queue visited left := by
  induction fuel generalizing g queue sib chi v with
  | zero =>
    rw [Loop.run, if_pos hs] at hrun
    exact nomatch hrun
  | succ fuel ih =>
    rw [run_of_goesOn _ _ _ _ hs] at hrun
    obtain ⟨t, ts⟩ := g
    cases ts with
    | cons t' ts =>
      rw [body_sibling, bind_bind_ok] at hrun
      cases hv : visit strings addrs v t.die with
      | error e =>
        rw [hv] at hrun
        exact nomatch hrun
      | ok v' =>
        rw [hv] at hrun
        obtain ⟨visited, left, he⟩ := ih _ _ _ _ _ rfl hrun
        exact ⟨_, _, .sibling he⟩
    | nil =>
      cases hq : queue ++ t.group with
      | nil =>
        cases hb : Loop.body strings addrs ⟨⟨t, []⟩, queue, sib, chi, v⟩ with
        | error e =>
          rw [hb] at hrun
          exact nomatch hrun
        | ok s' => exact absurd hb (body_empty _ _ _ _ _ _ _ hq _)
      | cons h rest =>
        rw [body_last _ _ _ _ _ _ _ hq, bind_bind_ok] at hrun
        by_cases hst : rest = [] ∧ t.children = []
        · obtain ⟨rfl, hc⟩ := hst
          rw [DieTree.group_nil hc, List.append_nil] at hq
          subst hq
          exact ⟨_, _, .stop hc⟩
        · have hgo : rest ≠ [] ∨ t.children ≠ [] := by
            rw [not_and_or] at hst
            exact hst
          cases hv : visit strings addrs v t.die with
          | error e =>
            rw [hv] at hrun
            exact nomatch hrun
          | ok v' =>
            rw [hv] at hrun
            have hg : (⟨h, rest, false, (dwarfChild ⟨t, []⟩).isSome, v'⟩ : Loop).goesOn = true := by
              rcases hgo with hr | hc
              · simp [Loop.goesOn, hr]
              · simp [Loop.goesOn, (dwarfChild_isSome ⟨t, []⟩).2 hc]
            obtain ⟨visited, left, he⟩ := ih _ _ _ _ _ hg hrun
            exact ⟨_, _, .next hq hgo he⟩

end

end Attune.Dwarf
