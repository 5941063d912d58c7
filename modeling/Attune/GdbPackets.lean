import Attune.GdbConnection

namespace Attune.Gdb
open List Option GdbConnection Bool Function

inductive Item where
  | interrupt
  | packet (content : Bytes)
  deriving DecidableEq

def nextItem (s : Bytes) : Option (Item × Bytes) :=
  let u := skipTo s
  if u = [] then none
  else if u.head? = some interruptChar then some (.interrupt, u.drop 1)
  else if hash ∈ u then
    some (.packet ((u.take (u.idxOf hash)).drop 1), u.drop (u.idxOf hash + 1))
  else none

structure Wire where
  rest : Bytes
  noAck : Bool
  going : Bool
  log : List Event
  deriving DecidableEq

def Wire.start (stream : Bytes) : Wire := ⟨stream, false, true, []⟩

def Wire.step (exits : Bytes → Bool) (w : Wire) : Wire :=
  if w.going = false then w
  else
    match nextItem w.rest with
    | none => { w with going := false }
    | some (.interrupt, r) => { w with rest := r, log := w.log ++ [.interrupt] }
    | some (.packet content, r) =>
      ⟨r, w.noAck || GdbConnection.startsNoAckMode content, !exits content,
        w.log ++ (if w.noAck then [] else [.ack]) ++ [.packet content]⟩

def Wire.AtBareSelect (w : Wire) : Prop :=
  w.going = true ∧ ∃ r, nextItem w.rest = some (.packet (bytes "H"), r)

def GdbConnection.unread (c : GdbConnection) : Bytes := c.inbuf ++ c.incoming.flatten

theorem skipTo_append (a b : Bytes) :
    skipTo (a ++ b) = if skipTo a = [] then skipTo b else skipTo a ++ b := by
  rw [skipTo, dropWhile_append]
  simp only [List.isEmpty_iff]
  rfl

theorem skipTo_idem (a : Bytes) : skipTo (skipTo a) = skipTo a := by
  induction a with
  | nil => rfl
  | cons b a ih =>
    by_cases hb : startsPacket b = true
    · simp [skipTo, hb]
    · simpa [skipTo, hb] using ih

theorem skipTo_skipTo_append (a b : Bytes) : skipTo (skipTo a ++ b) = skipTo (a ++ b) := by
  rw [skipTo_append, skipTo_append a, skipTo_idem]

theorem nextItem_congr (h : skipTo s = skipTo s') : nextItem s = nextItem s' := by
  rw [nextItem, nextItem, h]

def Ones (chunks : List Bytes) : Prop := ∀ chunk ∈ chunks, chunk.length = 1

structure OneByte (c : GdbConnection) : Prop where
  inbuf : c.inbuf = []
  incoming : Ones c.incoming

section
variable {c : GdbConnection}

theorem awaitStart_lost (hin : c.incoming = chunks) (halive : c.connectionAlive = true)
    (h : skipTo c.unread = []) :
    GdbConnection.awaitStart chunks c =
      { c with inbuf := [], incoming := [], connectionAlive := false } := by
  induction chunks generalizing c with
  | nil =>
    rw [unread, hin, flatten_nil, append_nil] at h
    simp [awaitStart, skipToPacketStart, h, halive, hin]
  | cons chunk rest ih =>
    rw [unread, hin, skipTo_append] at h
    split at h
    next hsk =>
      have hr := @ih { c with inbuf := chunk, incoming := rest } rfl halive h
      simpa [awaitStart, skipToPacketStart, hsk, halive] using hr
    next hsk => exact absurd (append_eq_nil_iff.1 h).1 hsk

theorem awaitStart_found (hin : c.incoming = chunks) (halive : c.connectionAlive = true)
    (h : skipTo c.unread ≠ []) : ∃ inbuf incoming, inbuf ≠ [] ∧
      GdbConnection.awaitStart chunks c = { c with inbuf := inbuf, incoming := incoming } ∧
      inbuf ++ incoming.flatten = skipTo c.unread ∧
      (Ones chunks → Ones incoming ∧ (c.inbuf.length ≤ 1 → inbuf.length ≤ 1)) := by
  have hlen : (skipTo c.inbuf).length ≤ c.inbuf.length := (dropWhile_sublist _).length_le
  induction chunks generalizing c with
  | nil =>
    rw [unread, hin, flatten_nil, append_nil] at h
    refine ⟨skipTo c.inbuf, [], h, ?_, ?_, fun ho => ⟨ho, Nat.le_trans hlen⟩⟩
    · simp [awaitStart, skipToPacketStart, h, ← hin]
    · rw [unread, hin, flatten_nil, append_nil, append_nil]
  | cons chunk rest ih =>
    by_cases hsk : skipTo c.inbuf = []
    · have hu : skipTo c.unread = skipTo (chunk ++ rest.flatten) := by
        rw [unread, hin, skipTo_append, if_pos hsk, flatten_cons]
      rw [hu] at h ⊢
      obtain ⟨inbuf, incoming, hne, ha, heq, hon⟩ :=
        @ih { c with inbuf := chunk, incoming := rest } rfl halive h
          (dropWhile_sublist _).length_le
      refine ⟨inbuf, incoming, hne, ?_, heq, fun ho => ?_⟩
      · simpa [awaitStart, skipToPacketStart, hsk, halive] using ha
      · obtain ⟨hc, hr⟩ := forall_mem_cons.mp ho
        exact ⟨(hon hr).1, fun _ => (hon hr).2 (Nat.le_of_eq hc)⟩
    · refine ⟨skipTo c.inbuf, chunk :: rest, hsk, ?_, ?_, fun ho => ⟨ho, Nat.le_trans hlen⟩⟩
      · simp [awaitStart, skipToPacketStart, hsk, ← hin]
      · rw [unread, hin, skipTo_append, if_neg hsk]

theorem idxOf_drop_none {inbuf : Bytes} (h : hash ∉ inbuf) (k : Nat) : (inbuf.drop k).idxOf? hash = none :=
  idxOf?_eq_none_iff.2 fun hm => h (mem_of_mem_drop hm)

theorem awaitEnd_lost (hin : c.incoming = chunks) (h : hash ∉ c.unread) (k : Nat) :
    ∃ inbuf incoming, GdbConnection.awaitEnd chunks k c =
      { c with inbuf := inbuf, incoming := incoming, connectionAlive := false } := by
  have hn := idxOf_drop_none (fun hm => h (mem_append_left _ hm)) k
  induction chunks generalizing c k with
  | nil =>
    use c.inbuf, c.incoming
    simp only [awaitEnd, hn]
  | cons chunk rest ih =>
    rw [unread, hin, flatten_cons, ← append_assoc] at h
    obtain ⟨inbuf, incoming, ha⟩ :=
      @ih { c with inbuf := c.inbuf ++ chunk, incoming := rest } rfl h c.inbuf.length
        (idxOf_drop_none (fun hm => h (mem_append_left _ hm)) _)
    use inbuf, incoming
    rw [awaitEnd]
    simp only [hn]
    exact ha

/-- The end of a packet that is in the buffer is found, when it is not in what was looked through. -/
theorem awaitEnd_here (hno : hash ∉ c.inbuf.take k) (hk : k ≤ c.inbuf.length) (h : hash ∈ c.inbuf) :
    GdbConnection.awaitEnd chunks k c = { c with packetend := c.inbuf.idxOf hash } := by
  have hsp : c.inbuf.idxOf hash = k + (c.inbuf.drop k).idxOf hash := by
    conv_lhs => rw [← take_append_drop k c.inbuf]
    rw [idxOf_append_of_notMem hno, length_take, Nat.min_eq_left hk]
  have hmem : hash ∈ c.inbuf.drop k := by
    rw [← take_append_drop k c.inbuf, mem_append] at h
    exact h.resolve_left hno
  cases hi : (c.inbuf.drop k).idxOf? hash with
  | none => exact absurd hmem (idxOf?_eq_none_iff.1 hi)
  | some i =>
    rw [idxOf_eq_getD_idxOf? hash (c.inbuf.drop k), hi, getD_some] at hsp
    rw [hsp]
    unfold awaitEnd
    simp only [hi]

theorem awaitEnd_found (hin : c.incoming = chunks) (hno : hash ∉ c.inbuf.take k)
    (hk : k ≤ c.inbuf.length) (h : hash ∈ c.unread) :
    ∃ inbuf incoming, GdbConnection.awaitEnd chunks k c =
        { c with inbuf := inbuf, incoming := incoming, packetend := c.unread.idxOf hash } ∧
      inbuf ++ incoming.flatten = c.unread ∧ c.unread.idxOf hash < inbuf.length ∧
      (Ones chunks → Ones incoming ∧
        inbuf.length ≤ max c.inbuf.length (c.unread.idxOf hash + 1)) := by
  induction chunks generalizing c k with
  | nil =>
    have hbuf : c.unread = c.inbuf := by
      rw [unread, hin, flatten_nil, append_nil]
    rw [hbuf] at h ⊢
    refine ⟨c.inbuf, c.incoming, awaitEnd_here hno hk h, ?_, idxOf_lt_length_iff.2 h,
      fun ho => ⟨hin ▸ ho, Nat.le_max_left _ _⟩⟩
    rw [hin, flatten_nil, append_nil]
  | cons chunk rest ih =>
    by_cases hm : hash ∈ c.inbuf
    · have hidx : c.unread.idxOf hash = c.inbuf.idxOf hash := idxOf_append_of_mem hm
      rw [hidx]
      exact ⟨c.inbuf, c.incoming, awaitEnd_here hno hk hm, rfl, idxOf_lt_length_iff.2 hm,
        fun ho => ⟨hin ▸ ho, Nat.le_max_left _ _⟩⟩
    · have hu : c.unread = (c.inbuf ++ chunk) ++ rest.flatten := by
        rw [unread, hin, flatten_cons, append_assoc]
      rw [hu] at h ⊢
      have hc : hash ∉ (c.inbuf ++ chunk).take c.inbuf.length := by
        rw [take_left]
        exact hm
      obtain ⟨inbuf, incoming, ha, heq, hlt, hon⟩ :=
        @ih { c with inbuf := c.inbuf ++ chunk, incoming := rest } c.inbuf.length rfl hc
          (length_append ▸ Nat.le_add_right _ _) h
      refine ⟨inbuf, incoming, ?_, heq, hlt, fun ho => ?_⟩
      · rw [awaitEnd]
        simp only [idxOf_drop_none hm k]
        exact ha
      · obtain ⟨hch, hr⟩ := forall_mem_cons.mp ho
        have hle := (hon hr).2
        dsimp only [unread] at hle
        rw [length_append, hch, append_assoc, idxOf_append_of_notMem hm] at hle
        rw [append_assoc, idxOf_append_of_notMem hm]
        exact ⟨(hon hr).1, by omega⟩

theorem nextItem_eq_none (h : nextItem s = none) :
    skipTo s = [] ∨ (skipTo s ≠ [] ∧ (skipTo s).head? ≠ some interruptChar ∧ hash ∉ skipTo s) := by
  rw [nextItem] at h
  split at h
  next hnil => exact .inl hnil
  next hne =>
    split at h
    next => exact nomatch h
    next hhe =>
      split at h
      next => exact nomatch h
      next hh => exact .inr ⟨hne, hhe, hh⟩

theorem nextItem_eq_interrupt (h : nextItem s = some (.interrupt, rest)) :
    skipTo s = interruptChar :: rest := by
  rw [nextItem] at h
  split at h
  next => exact nomatch h
  next hne =>
    split at h
    next hh =>
      obtain ⟨l, hl⟩ := head?_eq_some_iff.1 hh
      cases h
      rw [hl, drop_one, tail_cons]
    next => split at h <;> exact nomatch h

structure HoldsPacket (u content rest : Bytes) : Prop where
  started : u ≠ [] ∧ u.head? ≠ some interruptChar
  ended : hash ∈ u
  content : (u.take (u.idxOf hash)).drop 1 = content
  rest : u.drop (u.idxOf hash + 1) = rest

theorem nextItem_eq_packet (h : nextItem s = some (.packet content, rest)) :
    HoldsPacket (skipTo s) content rest := by
  rw [nextItem] at h
  split at h
  next => exact nomatch h
  next hne =>
    split at h
    next => exact nomatch h
    next hhe =>
      split at h
      next hh =>
        cases h
        exact ⟨⟨hne, hhe⟩, hh, rfl, rfl⟩
      next => exact nomatch h

theorem head?_of_append {a b : Bytes} (ha : a ≠ []) : (a ++ b).head? = a.head? := by
  cases a with
  | nil => exact absurd rfl ha
  | cons x a => rfl

section

variable (halive : c.connectionAlive = true)
include halive

theorem readPacket_lost (h : nextItem c.unread = none) :
    c.readPacket.connectionAlive = false ∧ c.readPacket.noAck = c.noAck ∧
      c.readPacket.log = c.log := by
  rcases nextItem_eq_none h with hsk | ⟨hsk, hhe, hh⟩
  · simp [readPacket, awaitStart_lost rfl halive hsk]
  obtain ⟨inbuf, incoming, hne, ha, heq, _⟩ := awaitStart_found rfl halive hsk
  rw [← heq] at hh
  rw [← heq, head?_of_append hne] at hhe
  obtain ⟨inbuf', incoming', hend⟩ :=
    awaitEnd_lost (c := { c with inbuf := inbuf, incoming := incoming }) rfl hh 0
  simp only [halive] at ha hend
  simp [readPacket, ha, hhe, hend]

theorem readPacket_interrupt (h : nextItem c.unread = some (.interrupt, rest)) :
    ∃ inbuf incoming, c.readPacket =
        { c with inbuf := interruptChar :: inbuf, incoming := incoming, packetend := 1 } ∧
      inbuf ++ incoming.flatten = rest ∧ (OneByte c → inbuf = [] ∧ Ones incoming) := by
  have hsk := nextItem_eq_interrupt h
  obtain ⟨inbuf, incoming, hne, ha, heq, hon⟩ :=
    awaitStart_found rfl halive (hsk ▸ cons_ne_nil _ _)
  rw [hsk] at heq
  cases inbuf with
  | nil => exact absurd rfl hne
  | cons b inbuf =>
    rw [cons_append, cons.injEq] at heq
    obtain ⟨rfl, heq⟩ := heq
    refine ⟨inbuf, incoming, ?_, heq, fun ho => ?_⟩
    · simp [readPacket, ha, halive]
    · obtain ⟨hin, hle⟩ := hon ho.incoming
      exact ⟨by simpa [ho.inbuf] using hle, hin⟩

theorem readPacket_packet (h : nextItem c.unread = some (.packet content, rest)) :
    ∃ inbuf incoming k, c.readPacket =
        { c with
          inbuf := inbuf
          incoming := incoming
          packetend := k
          log := c.log ++ if c.noAck then [] else [.ack] } ∧
      inbuf.head? ≠ some interruptChar ∧ (inbuf.take k).drop 1 = content ∧
      inbuf.drop (k + 1) ++ incoming.flatten = rest ∧
      (OneByte c → inbuf.drop (k + 1) = [] ∧ Ones incoming) := by
  obtain ⟨⟨hsk, hh⟩, hha, hc, hr⟩ := nextItem_eq_packet h
  obtain ⟨inbuf, incoming, hne, ha, heq, hon⟩ := awaitStart_found rfl halive hsk
  rw [← heq] at hha hc hr
  rw [← heq, head?_of_append hne] at hh
  obtain ⟨inbuf', incoming', hend, heq', hlt, ho'⟩ :=
    awaitEnd_found (c := { c with inbuf := inbuf, incoming := incoming }) (k := 0) rfl
      not_mem_nil (Nat.zero_le _) hha
  have hu : inbuf ++ incoming.flatten = inbuf' ++ incoming'.flatten := heq'.symm
  have hidx : (inbuf' ++ incoming'.flatten).idxOf hash < inbuf'.length := hu ▸ hlt
  have hne' : inbuf' ≠ [] := ne_nil_of_length_pos (Nat.zero_lt_of_lt hidx)
  rw [hu] at hc hr
  refine ⟨inbuf', incoming', (inbuf' ++ incoming'.flatten).idxOf hash, ?_, ?_, ?_, ?_, ?_⟩
  · rw [← hu]
    simp only [halive] at ha hend
    simp only [readPacket, ha, hend, hh, true_eq_false, if_false, halive,
      unread]
    cases c.noAck <;> simp
  · rw [← head?_of_append hne', ← hu, head?_of_append hne]
    exact hh
  · rw [← hc, take_append_of_le_length (Nat.le_of_lt hidx)]
  · rw [← hr, drop_append_of_le_length hidx]
  · intro ho
    obtain ⟨hin, hle⟩ := hon ho.incoming
    obtain ⟨hi', hle'⟩ := ho' hin
    have hone : inbuf.length ≤ 1 := hle (by simp [ho.inbuf])
    rw [← heq'] at hle'
    dsimp only at hle'
    exact ⟨drop_eq_nil_iff.2 (by omega), hi'⟩

end

theorem readPacket_dead (hde : c.connectionAlive = false) :
    c.readPacket = c.skipToPacketStart := by
  have ha : awaitStart c.incoming c = c.skipToPacketStart := by
    cases c.incoming <;> simp [awaitStart, skipToPacketStart, hde]
  have hd : c.skipToPacketStart.connectionAlive = false := hde
  simp only [readPacket, ha, hd, if_true]

end

/-- The connection stands where the protocol does on the whole stream. -/
structure Sim (c : GdbConnection) (w : Wire) : Prop where
  unread : w.going = true → skipTo c.unread = skipTo w.rest
  noAck : c.noAck = w.noAck
  going : w.going = (c.connectionAlive && !c.exited)
  log : c.log = w.log

section
variable {exits : Bytes → Bool}

theorem Sim.start (h : Delivered stream chunks) : Sim (start chunks) (Wire.start stream) :=
  ⟨fun _ => congrArg skipTo h.1, rfl, rfl, rfl⟩

theorem Sim.sniff (h : Sim c w) : ∃ c', call exits c .sniff = some c' ∧ Sim c' w := by
  refine ⟨_, rfl, ?_⟩
  split
  · exact h
  · refine ⟨fun hw => ?_, h.noAck, h.going, h.log⟩
    rw [← h.unread hw]
    exact skipTo_skipTo_append _ _

theorem Sim.stopped (h : Sim c w) (hw : w.going = false) :
    ∃ c', c.getRequest exits = some c' ∧ Sim c' w := by
  by_cases he : c.exited = true
  · exact ⟨c, if_pos he, h⟩
  have hde : c.connectionAlive = false := by
    have hgo := h.going
    rw [hw] at hgo
    simpa [he] using hgo.symm
  have hd : c.skipToPacketStart.connectionAlive = false := hde
  refine ⟨c.skipToPacketStart, ?_, fun hg => absurd (hw.symm.trans hg) false_ne_true,
    h.noAck, h.going, h.log⟩
  rw [getRequest, if_neg he, readPacket_dead hde]
  exact if_pos hd

theorem Sim.getRequest (exits : Bytes → Bool) (h : Sim c w) (hse : ¬ w.AtBareSelect) :
    ∃ c', c.getRequest exits = some c' ∧ Sim c' (w.step exits) ∧
      (OneByte c → (w.step exits).going = true → OneByte c') := by
  cases hw : w.going with
  | false =>
    rw [Wire.step, if_pos hw]
    obtain ⟨c', hc, hsim⟩ := h.stopped hw
    exact ⟨c', hc, hsim, fun _ hg => absurd (hw.symm.trans hg) false_ne_true⟩
  | true =>
    have hgo := h.going
    rw [hw, eq_comm, and_eq_true, not_eq_true'] at hgo
    obtain ⟨halive, he⟩ := hgo
    have hne : ¬ w.going = false := by simp [hw]
    have hn : nextItem c.unread = nextItem w.rest := nextItem_congr (h.unread hw)
    rw [GdbConnection.getRequest, he, if_neg Bool.false_ne_true, Wire.step, if_neg hne]
    cases hite : nextItem w.rest with
    | none =>
      obtain ⟨hd, hack, hlog⟩ := readPacket_lost halive (hn.trans hite)
      refine ⟨_, if_pos hd, ⟨fun hg => (nomatch hg), hack.trans h.noAck, ?_, hlog.trans h.log⟩,
        fun _ hg => nomatch hg⟩
      rw [hd]
      rfl
    | some item =>
      obtain ⟨item, rest⟩ := item
      cases item with
      | interrupt =>
        obtain ⟨inbuf, incoming, hr, heq, hone⟩ :=
          readPacket_interrupt halive (hn.trans hite)
        refine ⟨{ c with
          inbuf := inbuf
          incoming := incoming
          packetend := 1
          log := c.log ++ [.interrupt] }, ?_, ⟨fun _ => congrArg skipTo heq, h.noAck, h.going,
          congrArg (· ++ _) h.log⟩, fun ho _ => ⟨(hone ho).1, (hone ho).2⟩⟩
        rw [hr]
        simp [GdbConnection.processPacket, halive]
      | packet content =>
        obtain ⟨inbuf, incoming, k, hr, hh, hco, hre, hone⟩ :=
          readPacket_packet halive (hn.trans hite)
        have hb : content ≠ bytes "H" := by
          rintro rfl
          exact hse ⟨hw, rest, hite⟩
        refine ⟨{ c with
          inbuf := inbuf.drop (k + 1)
          incoming := incoming
          packetend := k
          noAck := c.noAck || GdbConnection.startsNoAckMode content
          exited := exits content
          log := (c.log ++ if c.noAck then [] else [.ack]) ++ [.packet content] }, ?_,
          ⟨fun _ => congrArg skipTo hre, congrArg (· || _) h.noAck, ?_, ?_⟩,
          fun ho _ => ⟨(hone ho).1, (hone ho).2⟩⟩
        · rw [hr]
          simp [GdbConnection.processPacket, halive, hh, hco, hb]
        · simp [halive]
        · simp [h.log, h.noAck]

theorem Sim.run (h : Sim c w) (hse : ∀ n, ¬ ((Wire.step exits)^[n] w).AtBareSelect)
    (calls : List Call) : ∃ c', run exits calls c = some c' ∧
      Sim c' ((Wire.step exits)^[calls.count .request] w) := by
  induction calls generalizing c w with
  | nil => exact ⟨c, rfl, h⟩
  | cons a calls ih =>
    cases a with
    | sniff =>
      obtain ⟨c₁, hca, h₁⟩ : ∃ c', call exits c .sniff = some c' ∧ Sim c' w := h.sniff
      obtain ⟨c', hrun, h'⟩ := ih h₁ hse
      refine ⟨c', ?_, h'⟩
      rw [Gdb.run, foldlM_cons, hca]
      exact hrun
    | request =>
      obtain ⟨c₁, hca, h₁, _⟩ := h.getRequest exits (hse 0)
      obtain ⟨c', hrun, h'⟩ := ih h₁ fun n => hse (n + 1)
      have hc : (Call.request :: calls).count .request = calls.count .request + 1 :=
        count_cons_self
      rw [hc, iterate_succ_apply]
      refine ⟨c', ?_, h'⟩
      rw [Gdb.run, foldlM_cons]
      exact bind_eq_some_iff.2 ⟨c₁, hca, hrun⟩

theorem OneByte.getRequest_bare (ho : OneByte c) (he : c.exited = false)
    (halive : c.connectionAlive = true)
    (h : nextItem c.unread = some (.packet (bytes "H"), rest)) : c.getRequest exits = none := by
  obtain ⟨inbuf, incoming, k, hr, hh, hc, _, hone⟩ := readPacket_packet halive h
  rw [GdbConnection.getRequest, he, if_neg Bool.false_ne_true, hr]
  simp only [GdbConnection.processPacket, halive, hh, hc, true_eq_false, if_false,
    if_true, (hone ho).1, scanThreadid, map_none]

theorem Wire.going_of_step {w : Wire} (h : (w.step exits).going = true) : w.going = true := by
  cases hw : w.going with
  | true => rfl
  | false =>
    rw [Wire.step, if_pos hw, hw] at h
    exact h

theorem run_append (calls calls' : List Call) (c : GdbConnection) :
    run exits (calls ++ calls') c = (run exits calls c).bind (run exits calls') := by
  rw [run, foldlM_append]
  rfl

theorem delivered_one (stream : Bytes) : Delivered stream (stream.map fun b => [b]) := by
  constructor
  · induction stream with
    | nil => rfl
    | cons b stream ih => rw [map_cons, flatten_cons, ih, singleton_append]
  · intro chunk hc
    obtain ⟨b, _, rfl⟩ := mem_map.1 hc
    exact ⟨cons_ne_nil _ _, Nat.le_add_left 1 4095⟩

theorem run_one (stream : Bytes) (n : Nat)
    (h : ∀ m < n, ¬ ((Wire.step exits)^[m] (Wire.start stream)).AtBareSelect) :
    ∃ c, run exits (replicate n .request) (start (stream.map fun b => [b])) = some c ∧
      Sim c ((Wire.step exits)^[n] (Wire.start stream)) ∧
      (((Wire.step exits)^[n] (Wire.start stream)).going = true → OneByte c) := by
  induction n with
  | zero =>
    refine ⟨_, rfl, Sim.start (delivered_one stream), fun _ => ⟨rfl, ?_⟩⟩
    intro chunk hc
    obtain ⟨b, _, rfl⟩ := mem_map.1 hc
    rfl
  | succ n ih =>
    obtain ⟨c, hrun, hsim, hone⟩ := ih fun m hm => h m (Nat.lt_succ_of_lt hm)
    obtain ⟨c', hget, hs', ho'⟩ := hsim.getRequest exits (h n (Nat.lt_succ_self n))
    rw [iterate_succ_apply' (Wire.step exits)]
    refine ⟨c', ?_, hs', fun hg => ho' (hone (Wire.going_of_step hg)) hg⟩
    rw [replicate_succ', run_append, hrun, bind_some]
    exact bind_eq_some_iff.2 ⟨c', hget, rfl⟩

theorem SameForEveryCut.no_bare_select (h : SameForEveryCut exits stream) (n : Nat) :
    ¬ ((Wire.step exits)^[n] (Wire.start stream)).AtBareSelect := by
  -- the requests before were answered, and this one is not when the bytes come one at a time
  induction n using Nat.strongRecOn with
  | _ n ih =>
    intro hb
    obtain ⟨hw, rest, hite⟩ := hb
    obtain ⟨c, hrun, hsim, hone⟩ := run_one stream n ih
    have hg := hsim.going
    rw [hw, eq_comm, and_eq_true, not_eq_true'] at hg
    have hn : c.getRequest exits = none :=
      (hone hw).getRequest_bare hg.2 hg.1 ((nextItem_congr (hsim.unread hw)).trans hite)
    obtain ⟨log, hlog⟩ := h (n + 1)
    have hall := hlog _ (delivered_one stream) (replicate (n + 1) .request)
      count_replicate_self
    rw [replicate_succ', run_append, hrun, bind_some, run, foldlM_cons, call,
      hn] at hall
    exact nomatch hall

end

/-- The stream alone decides just when no packet that is reached is an `H` without a thread. -/
theorem same_for_every_cut_iff (exits : Bytes → Bool) (stream : Bytes) :
    SameForEveryCut exits stream ↔
      ∀ n, ¬ ((Wire.step exits)^[n] (Wire.start stream)).AtBareSelect := by
  constructor
  · exact SameForEveryCut.no_bare_select
  · intro h n
    use ((Wire.step exits)^[n] (Wire.start stream)).log
    intro chunks hch calls hc
    obtain ⟨c, hrun, hsim⟩ := (Sim.start hch).run h calls
    rw [hrun, map_some, hsim.log, hc]

/-- `H`, a `5` and a null byte behind the packet: in one chunk the `5` is taken for the thread, byte
by byte it is not. -/
theorem cuts_differ : let stream := bytes "$H#5" ++ 0 :: bytes "$g#67"
    let answer (chunks : List Bytes) :=
      (run (fun _ => false) [.request, .request] (start chunks)).map GdbConnection.log
    Delivered stream [stream] ∧ Delivered stream (stream.map fun b => [b]) ∧
      answer [stream] = some [.ack, .packet (bytes "H"), .ack, .packet (bytes "g")] ∧
      answer (stream.map fun b => [b]) = none := by
  refine ⟨⟨by decide, by decide⟩, delivered_one _, by decide, by decide⟩

end Attune.Gdb
