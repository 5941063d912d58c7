import Attune.SyscallbufReceive

namespace Attune.Syscallbuf
open WriteState List

theorem bytesFor_eq {data : List UInt8} (h : ∀ i < data.length, m (addr + i) = data.getD i 0) :
    bytesFor m addr data.length = data := by
  apply ext_getElem length_bytesFor
  intro i h₁ h₂
  have hi := h i h₂
  rw [getD_eq_getElem?_getD, getElem?_eq_getElem h₂] at hi
  simp only [bytesFor, getElem_map, getElem_range]
  exact hi

theorem overlay_getD {data : List UInt8} (hi : i < data.length) :
    overlay m addr data (addr + i) = data.getD i 0 := by
  rw [overlay, if_pos (by omega), Nat.add_sub_cancel_left]

theorem overlay_outside (h : a < addr ∨ addr + data.length ≤ a) : overlay m addr data a = m a := by
  rw [overlay, if_neg (by omega)]

theorem overlayGaps_outside (h : a < addr ∨ addr + data.length ≤ a) :
    overlayGaps m addr data a = m a := by
  rw [overlayGaps]
  split
  · rw [getD_eq_getElem?_getD, getElem?_eq_none (by omega)]
    rfl
  · rfl

theorem overlayGaps_getElem {data : List (Option UInt8)} (hi : data[i]? = some (some b)) :
    overlayGaps m addr data (addr + i) = b := by
  rw [overlayGaps, if_pos (by omega), Nat.add_sub_cancel_left, getD_eq_getElem?_getD, hi]
  rfl

theorem map_some_eq_iff {data : List (Option UInt8)}
    (hm : ∀ i b, data[i]? = some (some b) → m (addr + i) = b) :
    (bytesFor m addr data.length).map some = data ↔ none ∉ data := by
  constructor
  · intro h hn
    rw [← h] at hn
    obtain ⟨b, _, hb⟩ := mem_map.mp hn
    exact nomatch hb
  · intro hn
    apply ext_getElem (by rw [length_map, length_bytesFor])
    intro i h₁ h₂
    cases hi : data[i] with
    | none => exact absurd (hi ▸ getElem_mem h₂) hn
    | some b =>
      have hb := hm i b (by rw [getElem?_eq_getElem h₂, hi])
      simp only [bytesFor, getElem_map, getElem_range, hb]

theorem toInt_eq (h₁ : -4096 < n) (h₂ : n < 2 ^ 31) : toInt n = n := by
  rw [toInt]
  exact Int.bmod_eq_of_le (by omega) (by omega)

section
variable {r : Received}

section

variable (a : RecvfromArgs) (hr : r.Allowed a.request) (m : Nat → UInt8) (ptr : Nat)
include hr

theorem RecvfromArgs.wrapped_name : (a.wrapped m ptr r).name = r.name := by
  simp only [RecvfromArgs.wrapped]
  by_cases hok : r.Ok
  · by_cases hsrc : a.srcAddr = 0
    · rw [if_neg (fun h => h.2 hsrc)]
      exact ((hr.unnamed (by simp [request, hsrc])).1).symm
    · have hlen : r.name.length = min r.nameLen (a.addrlen.getD 0) :=
        hr.cut hok (by simp [request, hsrc])
      rw [if_pos ⟨hok, hsrc⟩, ← hlen]
      apply bytesFor_eq
      intro i hi
      have hn : overlay m ptr r.name (ptr + i) = r.name.getD i 0 := overlay_getD hi
      simp only [ne_eq, hsrc, not_false_eq_true, if_true]
      split
      · rw [overlay_outside]
        · exact hn
        · split <;> omega
      · exact hn
  · rw [if_neg (fun h => hok h.1)]
    exact (hr.failed hok).2.1.symm

theorem RecvfromArgs.wrapped_nameLen : (a.wrapped m ptr r).nameLen = r.nameLen := by
  simp only [RecvfromArgs.wrapped]
  by_cases hok : r.Ok
  · by_cases hlen : a.addrlen.isSome = true
    · rw [if_pos ⟨hok, hlen⟩]
    · rw [if_neg (fun h => hlen h.2)]
      have hsrc : a.srcAddr = 0 := by
        by_contra hsrc
        exact hlen (a.named hsrc)
      exact ((hr.unnamed (by simp [request, hsrc])).2).symm
  · rw [if_neg (fun h => hok h.1)]
    exact (hr.failed hok).2.2.2.1.symm

theorem RecvfromArgs.wrapped_data : (a.wrapped m ptr r).data = [r.data] ↔ a.Faithful r := by
  have hint : toInt r.ret = r.ret := toInt_eq hr.small.1 hr.small.2
  simp only [RecvfromArgs.wrapped, hint, cons.injEq, and_true]
  by_cases hbuf : a.buf ≠ 0 ∧ 0 < a.len
  · by_cases hok : r.Ok
    · have hc := hr.counted hok
      by_cases hpos : 0 < r.ret
      · rw [if_pos ⟨hbuf, hpos, hok.2⟩, if_pos hbuf]
        constructor
        · intro h _ _ _
          rw [← h, length_bytesFor]
        · intro h
          rw [← h hbuf.1 hbuf.2 hok]
          exact bytesFor_eq fun i hi => overlay_getD hi
      · rw [if_neg (fun h => hpos h.2.1)]
        have hnil : r.data = [] := length_eq_zero_iff.mp (by omega)
        constructor
        · intro _ _ _ _
          rw [hnil, length_nil]
          omega
        · exact fun _ => hnil.symm
    · have hn : ¬ ((a.buf ≠ 0 ∧ 0 < a.len) ∧ 0 < r.ret ∧ r.failedDuringPreparation = false) :=
        fun h => hok ⟨by omega, h.2.2⟩
      rw [if_neg hn, (hr.failed hok).1]
      exact ⟨fun _ _ _ h => absurd h hok, fun _ => rfl⟩
  · have hsp := hr.space
    have hnil : r.data = [] := by
      apply length_eq_zero_iff.mp
      simp only [request] at hsp
      split at hsp <;> omega
    rw [if_neg (fun h => hbuf h.1), hnil]
    exact ⟨fun _ h₁ h₂ => absurd ⟨h₁, h₂⟩ hbuf, fun _ => rfl⟩

/-- What `recvfrom` copies back is what the kernel wrote, if it wrote all that it counts. -/
theorem recvfrom_exact : a.wrapped m ptr r = a.direct r ↔ a.Faithful r := by
  rw [← a.wrapped_data hr m ptr]
  constructor
  · intro h
    rw [h]
    rfl
  · intro h
    have hn := a.wrapped_name hr m ptr
    have hlen := a.wrapped_nameLen hr m ptr
    generalize hw : a.wrapped m ptr r = w at *
    have hre : w.control = [] ∧ w.controlLen = 0 ∧ w.msgFlags = 0 := by
      rw [← hw]
      exact ⟨rfl, rfl, rfl⟩
    obtain ⟨data, name, nameLen, control, controlLen, msgFlags⟩ := w
    simp only at h hn hlen hre
    rw [h, hn, hlen, hre.1, hre.2.1, hre.2.2]
    rfl

end

theorem copyIov_eq_splitIov {data : List UInt8}
    (hm : ∀ i < data.length, m (ptr + i) = data.getD i 0)
    (hlen : data.length = min bytes (iov.map Prod.snd).sum) :
    Msghdr.copyIov m ptr bytes iov = splitIov data iov := by
  induction iov generalizing ptr bytes data with
  | nil => rfl
  | cons e iov ih =>
    obtain ⟨base, len⟩ := e
    simp only [map_cons, sum_cons] at hlen
    have hc : (if bytes < len then bytes else len) = (data.take len).length := by
      rw [length_take]
      split <;> omega
    rw [Msghdr.copyIov, splitIov, hc]
    congr 1
    · apply bytesFor_eq
      intro i hi
      rw [length_take] at hi
      rw [hm i (by omega), getD_eq_getElem?_getD, getD_eq_getElem?_getD,
        getElem?_take_of_lt (by omega)]
    · apply ih
      · intro i hi
        rw [length_drop] at hi
        rw [Nat.add_assoc, hm (len + i) (by omega), getD_eq_getElem?_getD,
          getD_eq_getElem?_getD, getElem?_drop]
      · rw [length_drop, length_take]
        omega

theorem length_copyIov : (Msghdr.copyIov m ptr bytes iov).flatten.length =
    min bytes (iov.map Prod.snd).sum := by
  induction iov generalizing ptr bytes with
  | nil => exact (Nat.min_zero _).symm
  | cons e iov ih =>
    obtain ⟨base, len⟩ := e
    rw [Msghdr.copyIov, flatten_cons, length_append, length_bytesFor, ih, map_cons, sum_cons]
    split <;> omega

theorem flatten_splitIov {data : List UInt8} (hlen : data.length ≤ (iov.map Prod.snd).sum) :
    (splitIov data iov).flatten = data := by
  induction iov generalizing data with
  | nil => exact (length_eq_zero_iff.mp (Nat.le_zero.mp hlen)).symm
  | cons e iov ih =>
    obtain ⟨base, len⟩ := e
    rw [map_cons, sum_cons] at hlen
    rw [splitIov, flatten_cons, ih (by rw [length_drop]; omega), take_append_drop]

theorem splitIov_nil (iov : List (Nat × Nat)) : splitIov [] iov = iov.map fun _ => [] := by
  induction iov with
  | nil => rfl
  | cons e iov ih =>
    rw [splitIov, take_nil, drop_nil, ih]
    rfl

section
variable {msg : Msghdr} {msgFlags : Nat} {m : Nat → UInt8} (hr : r.Allowed (msg.request msgFlags))
include hr

theorem recvmsg_data (start : Nat) :
    Msghdr.copyIov (overlay m start r.data) start r.ret.toNat msg.iov = splitIov r.data msg.iov ↔
      r.data.length = min r.ret.toNat (msg.iov.map Prod.snd).sum := by
  constructor
  · intro h
    have hlen := congrArg (fun l => l.flatten.length) h
    simp only [length_copyIov] at hlen
    rw [flatten_splitIov hr.space] at hlen
    exact hlen.symm
  · exact copyIov_eq_splitIov fun i hi => overlay_getD hi

theorem recvmsg_name (hok : r.Ok)
    (hm : msg.name ≠ 0 → ∀ i < r.name.length, m (addr + i) = r.name.getD i 0) :
    (if msg.name ≠ 0 then bytesFor m addr r.nameLen else []) = r.name ↔
      (msg.name ≠ 0 → r.nameLen ≤ msg.nameLen) := by
  by_cases hn : msg.name = 0
  · have hnil := (hr.unnamed (by simp [Msghdr.request, hn])).1
    rw [if_neg (fun h => h hn), hnil]
    exact ⟨fun _ h => absurd hn h, fun _ => rfl⟩
  have hcut : r.name.length = min r.nameLen msg.nameLen :=
    hr.cut hok (by simp [Msghdr.request, hn])
  rw [if_pos hn]
  constructor
  · intro h _
    have hlen := congrArg length h
    rw [length_bytesFor] at hlen
    omega
  · intro h
    have hlen : r.nameLen = r.name.length := by
      have := h hn
      omega
    rw [hlen]
    exact bytesFor_eq (hm hn)

theorem recvmsg_control (hok : r.Ok)
    (hm : msg.control ≠ 0 → ∀ i b, r.control[i]? = some (some b) → m (addr + i) = b) :
    (if msg.control ≠ 0 then (bytesFor m addr r.controlLen).map some else []) = r.control ↔
      none ∉ r.control := by
  by_cases hc : msg.control = 0
  · have hnil := hr.uncontrolled (by simp [Msghdr.request, hc])
    rw [if_neg (fun h => h hc), hnil]
    exact ⟨fun _ => not_mem_nil, fun _ => rfl⟩
  · have hlen := (hr.control hok (by simp [Msghdr.request, hc])).1
    rw [if_pos hc, ← hlen]
    exact map_some_eq_iff (hm hc)

/-- `recvmsg` copies back what the kernel wrote if the name fits, the control bytes have no gap and
all counted data is written. -/
theorem recvmsg_exact (ptr : Nat) :
    msg.wrapped msgFlags m ptr r = msg.direct r ↔ (r.Ok → msg.Faithful r) := by
  rw [Msghdr.wrapped]
  by_cases hok : r.Ok
  · generalize hn2 : ptr + 56 + 16 * msg.iov.length = name2
    generalize hc2 : (if msg.name ≠ 0 then name2 + msg.nameLen else name2) = control2
    generalize hst : (if msg.control ≠ 0 then control2 + msg.controlLen else control2) = start
    generalize hm₁ : (if msg.name ≠ 0 then overlay m name2 r.name else m) = m₁
    generalize hm₂ : (if msg.control ≠ 0 then overlayGaps m₁ control2 r.control else m₁) = m₂
    have hle : control2 ≤ start := by
      rw [← hst]
      split <;> omega
    have hna : (if msg.name ≠ 0 then bytesFor (overlay m₂ start r.data) name2 r.nameLen else []) =
        r.name ↔ (msg.name ≠ 0 → r.nameLen ≤ msg.nameLen) := by
      apply recvmsg_name hr hok
      intro hne i hi
      have hcut : r.name.length = min r.nameLen msg.nameLen :=
        hr.cut hok (by simp [Msghdr.request, hne])
      rw [if_pos hne] at hc2 hm₁
      -- the name is written before the control bytes and the data
      have hm₂' : m₂ (name2 + i) = m₁ (name2 + i) := by
        rw [← hm₂]
        split
        · exact overlayGaps_outside (.inl (by omega))
        · rfl
      rw [overlay_outside (.inl (by omega)), hm₂', ← hm₁, overlay_getD hi]
    have hc : (if msg.control ≠ 0 then
        (bytesFor (overlay m₂ start r.data) control2 r.controlLen).map some else []) =
        r.control ↔ none ∉ r.control := by
      apply recvmsg_control hr hok
      intro hne i b hb
      have hlen := hr.control hok (by simp [Msghdr.request, hne])
      have hi := (List.getElem?_eq_some_iff.mp hb).1
      have hmax : r.controlLen ≤ msg.controlLen := hlen.2
      rw [if_pos hne] at hst hm₂
      rw [overlay_outside (.inl (by omega)), ← hm₂, overlayGaps_getElem hb]
    have hd := recvmsg_data (m := m₂) hr start
    rw [if_pos hok, Msghdr.direct]
    simp only [Outputs.mk.injEq, hna, hc, hd, true_and, and_true]
    exact ⟨fun h _ => ⟨h.2.1, h.2.2, h.1⟩, fun h => ⟨(h hok).data, (h hok).name, (h hok).control⟩⟩
  · obtain ⟨hd, hna, hc, hn, hco, hf⟩ := hr.failed hok
    rw [if_neg hok, Msghdr.direct, hd, hna, hc, hn, hco, hf, splitIov_nil]
    exact ⟨fun _ h => absurd h hok, fun _ => rfl⟩

end

def fourBytes : RecvfromArgs := ⟨8192, 4, 0, none, fun h => absurd rfl h⟩

def fourReceived (ret : Int) : Received := ⟨ret, false, [1, 2, 3, 4], [], 0, [], 0, 0⟩

theorem fourReceived_allowed (h₁ : 4 ≤ ret) (h₂ : ret < 2 ^ 31) :
    (fourReceived ret).Allowed fourBytes.request where
  small := ⟨by simp only [fourReceived]; omega, h₂⟩
  failed hok := absurd ⟨by simp only [fourReceived]; omega, rfl⟩ hok
  counted _ := by
    simp only [fourReceived, length_cons, length_nil]
    omega
  space := Nat.le_refl 4
  unnamed _ := ⟨rfl, rfl⟩
  cut _ h := absurd h (by decide)
  uncontrolled _ := rfl
  control _ h := absurd h (by decide)

/-- A message whose sender's name is longer than the two bytes for it. -/
def longName : Received := ⟨1, false, [7], [1, 2], 4, [], 0, 0⟩

def twoByteName : Msghdr := ⟨12288, 2, [(8192, 1)], 0, 0⟩

theorem longName_allowed : longName.Allowed (twoByteName.request 0) where
  small := by decide
  failed hok := absurd (by decide) hok
  counted _ := by decide
  space := by decide
  unnamed h := absurd h (by decide)
  cut _ _ := by decide
  uncontrolled _ := rfl
  control _ h := absurd h (by decide)

end

end Attune.Syscallbuf
