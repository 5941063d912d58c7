import Attune.NeighbourRuns
import Attune.CoalesceFaces

namespace Attune
open Segments Runs List KernelMapping

structure NamedBy (stack recordedStack : BitVec 32 → Nat → Nat → Bool)
    (e : MemoryRange × Mapping) : Prop where
  map : isStackName e.2.map.fsname = stack e.2.map.flags e.2.map.device e.2.map.inode
  recorded : isStackName e.2.recordedMap.fsname =
    recordedStack e.2.recordedMap.flags e.2.recordedMap.device e.2.recordedMap.inode

structure Tidy (stack recordedStack : BitVec 32 → Nat → Nat → Bool) (e : MemoryRange × Mapping) :
    Prop where
  normal : NormalEntry e
  named : NamedBy stack recordedStack e

section Merge

variable {stack recordedStack : BitVec 32 → Nat → Nat → Bool} {first y : MemoryRange × Mapping}
  {T : MemoryMap}

theorem goesOn_self (hok : EntryOk y) (hn : NormalEntry y) :
    y.1.start ≤ y.1.end_ ∧ y.2.map.GoesOn y.2.map ∧ y.2.recordedMap.GoesOn y.2.recordedMap := by
  have hne := hok.nonempty
  have hb := hok.bound
  rw [hok.key] at hne hb ⊢
  refine ⟨Nat.le_of_lt hne, .refl (Nat.le_of_lt hne) hb, .refl ?_ ?_⟩
  · rw [hn.range]
    exact Nat.le_of_lt hne
  · rw [hn.range]
    exact hb

theorem stackName_eq {k m : KernelMapping} (h : k.rightFace.Meets m.leftFace)
    (hk : isStackName k.fsname = stack k.flags k.device k.inode)
    (hm : isStackName m.fsname = stack m.flags m.device m.inode) :
    isStackName k.fsname = isStackName m.fsname := by
  have hf : k.flags = m.flags := h.flags
  have hd : k.device = m.device := h.device
  have hin : k.inode = m.inode := h.inode
  rw [hk, hm, hf, hd, hin]

theorem goesOn_of_run (hwf : WellFormed (first :: T))
    (hti : ∀ x ∈ first :: T, Tidy stack recordedStack x)
    (hc : (first :: T).IsChain Coalescable) :
    ∀ x ∈ first :: T, first.1.start ≤ x.1.end_ ∧ first.2.map.GoesOn x.2.map ∧
      first.2.recordedMap.GoesOn x.2.recordedMap ∧ first.2.flags = x.2.flags := by
  induction T generalizing first with
  | nil =>
    intro x hx
    rw [mem_singleton.mp hx]
    obtain ⟨hle, hgo, hgo'⟩ := goesOn_self (hwf.entries first mem_cons_self)
      (hti first mem_cons_self).normal
    exact ⟨hle, hgo, hgo', rfl⟩
  | cons z T ih =>
    have hco : WellFormed ([first] ++ (z :: T)) := hwf
    have hok := hwf.entries first mem_cons_self
    have hzok := hco.right.entries z mem_cons_self
    have ht := hti first mem_cons_self
    have hz := hti z (mem_cons_of_mem first mem_cons_self)
    have hne := hok.nonempty
    have hb := hok.bound
    obtain ⟨hj, hre⟩ := isChain_cons_cons.mp hc
    obtain ⟨hmap, hr, hf⟩ := coalescable_iff.mp hj
    have hbe := hco.between mem_cons_self mem_cons_self
    intro x hx
    cases mem_cons.mp hx with
    | inl heq =>
      rw [heq]
      obtain ⟨hle, hgo, hgo'⟩ := goesOn_self hok ht.normal
      exact ⟨hle, hgo, hgo', rfl⟩
    | inr hin =>
      obtain ⟨hle, hgo, hgo', hf'⟩ := ih hco.right
        (fun w hw => hti w (mem_cons_of_mem first hw)) hre x hin
      have hxok := hco.right.entries x hin
      have hxn := (hti x (mem_cons_of_mem first hin)).normal
      have hst := stackName_eq hmap ht.named.map hz.named.map
      have hs' := stackName_eq hr ht.named.recorded hz.named.recorded
      refine ⟨by omega, ?_, ?_, hf.trans hf'⟩
      · rw [hok.key] at hne hb
        rw [hzok.key, hxok.key] at hle
        exact .cons hmap hst hgo (Nat.le_of_lt hne) hb hle
      · rw [hok.key, ← ht.normal.range] at hne hb
        rw [hzok.key, hxok.key, ← hz.normal.range, ← hxn.range] at hle
        exact .cons hr hs' hgo' (Nat.le_of_lt hne) hb hle

theorem left_mergedEntry (hok : EntryOk first) (hn : NormalEntry first) :
    (mergedEntry first T).2.left = first.2.left := by
  simp only [mergedEntry, mergedMapping, Mapping.left,
    leftFace_extend hok.tracked hn.offset,
    leftFace_extend hn.tracked hn.recordedOffset]

/-- What follows a merged run may be merged with it when it may be merged with the last entry. -/
theorem coalescable_mergedEntry_iff (hwf : WellFormed (first :: T))
    (ht : ∀ x ∈ first :: T, Tidy stack recordedStack x)
    (hc : (first :: T).IsChain Coalescable) :
    Coalescable (mergedEntry first T) y ↔
      Coalescable ((first :: T).getLast (cons_ne_nil first T)) y := by
  obtain ⟨last, hl⟩ : ∃ last, last = (first :: T).getLast (cons_ne_nil first T) := ⟨_, rfl⟩
  have hmem : last ∈ first :: T := by
    rw [hl]
    exact getLast_mem _
  obtain ⟨hle, hgo, hgo', hf⟩ := goesOn_of_run hwf ht hc last hmem
  have hok := hwf.entries first mem_cons_self
  have hn := (ht first mem_cons_self).normal
  have hlok := hwf.entries last hmem
  have hln := (ht last hmem).normal
  have hb := hlok.bound
  rw [hok.key, hlok.key] at hle
  rw [hlok.key] at hb
  have hmap := hgo.extend_meets_iff (r := y.2.map.leftFace) hok.tracked hle hb
  have hr := hgo'.extend_meets_iff (r := y.2.recordedMap.leftFace) hn.tracked
    (by rw [hn.range, hln.range]; exact hle) (by rw [hln.range]; exact hb)
  rw [hln.range] at hr
  have hend : last.2.map.end_ = last.1.end_ := by rw [hlok.key]
  rw [hend] at hmap hr
  rw [coalescable_iff, coalescable_iff, mergedEntry, ← hl]
  constructor
  · intro h
    exact ⟨hmap.mp h.map, hr.mp h.recorded, hf.symm.trans h.flags⟩
  · intro h
    exact ⟨hmap.mpr h.map, hr.mpr h.recorded, hf.trans h.flags⟩

namespace AddressSpace

variable {s s' : AddressSpace} {A B : MemoryMap} {e : MemoryRange × Mapping}

/-- Afterwards no neighbours may be merged exactly when, up to the entry, those that could were the
last ones. -/
theorem coalesceAround_unrelated_iff (hs : s.mem = A ++ e :: B) (hwf : WellFormed s.mem)
    (ht : ∀ x ∈ s.mem, Tidy stack recordedStack x) (hB : Unrelated Coalescable B)
    (h : s.coalesceAround e.1 = some s') :
    Unrelated Coalescable s'.mem ↔ UpClosed Coalescable (A ++ [e]) := by
  obtain ⟨L, first, T, R, hrun, rfl⟩ := coalesceAround_run hs hwf h
  have hmem := hs.trans hrun.split
  have hwf' : WellFormed (L ++ ((first :: T) ++ R)) := hmem ▸ hwf
  have hr : WellFormed (first :: T) := hwf'.right.left
  have ht' : ∀ x ∈ first :: T, Tidy stack recordedStack x := by
    intro x hx
    apply ht x
    rw [hmem]
    exact mem_append_right L (mem_append_left R hx)
  obtain ⟨C, D, rfl, rfl, hl⟩ := hrun.around
  rw [append_assoc]
  split
  · next hT =>
    subst hT
    rw [hmem]
    exact unrelated_merged_iff hl hrun.coalescable hrun.low hB (fun _ => Iff.rfl) hrun.high
  · refine unrelated_merged_iff hl hrun.coalescable hrun.low hB (fun z => ?_) (fun y hy => ?_)
    · exact coalescable_congr_right (left_mergedEntry
        (hr.entries first mem_cons_self) (ht' first mem_cons_self).normal)
    · rw [coalescable_mergedEntry_iff hr ht' hrun.coalescable]
      exact hrun.high y hy

end AddressSpace

end Merge

end Attune
