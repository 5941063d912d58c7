import Attune.CompressedReader

namespace Attune.Trace
open List Bool

inductive StreamCall where
  | read (size : Nat)
  | skip (size : Nat)
  | getBuffer
  deriving DecidableEq

inductive StreamOp where
  | call (c : StreamCall)
  | atEnd
  | rewind
  | saveState
  | restoreState
  | discardState
  deriving DecidableEq

namespace CompressedReader

/-- What a call gives, `none` when it fails. -/
def call (d : Decompress) (f : Files) (r : CompressedReader) :
    StreamCall → Option (List UInt8) × CompressedReader
  | .read size =>
    let (result, r) := r.read d f size
    (if result.1 then some result.2 else none, r)
  | .skip size =>
    let (ok, r) := r.skip d f size
    (if ok then some [] else none, r)
  | .getBuffer => r.getBuffer d f

def perform (d : Decompress) (f : Files) (r : CompressedReader) :
    StreamOp → Option (List UInt8) × CompressedReader
  | .call c => r.call d f c
  | .atEnd => (if r.atEnd then some [] else none, r)
  | .rewind => (some [], r.rewind)
  | .saveState => (some [], r.saveState)
  | .restoreState => (some [], r.restoreState)
  | .discardState => (some [], r.discardState)

def results (d : Decompress) (f : Files) (r : CompressedReader) :
    List StreamOp → List (Option (List UInt8))
  | [] => []
  | o :: os => (r.perform d f o).1 :: results d f (r.perform d f o).2 os

def after (d : Decompress) (f : Files) (r : CompressedReader) (os : List StreamOp) :
    CompressedReader :=
  os.foldl (fun r o => (r.perform d f o).2) r

/-- A relation, with whether all has succeeded so far, between readers that read the same. -/
structure Lockstep (d : Decompress) (f : Files)
    (V : Bool → CompressedReader → CompressedReader → Prop) : Prop where
  look : V true r r' → r'.fd = r.fd ∧ r'.error = r.error ∧ r'.bufferReadPos = r.bufferReadPos ∧
    r'.buffer = r.buffer
  fail : V true r r' → V false r r'
  move : V true r r' → V true { r with bufferReadPos := n } { r' with bufferReadPos := n }
  refill : V true r r' → (r'.refillBuffer d f).1 = (r.refillBuffer d f).1 ∧
    V (r.refillBuffer d f).1 (r.refillBuffer d f).2 (r'.refillBuffer d f).2

theorem Lockstep.readLoop (hl : Lockstep d f V) {data : List UInt8} (h : V true r r') :
    (readLoop d f fuel size data r').1 = (readLoop d f fuel size data r).1 ∧
      V (readLoop d f fuel size data r).1.1 (readLoop d f fuel size data r).2
        (readLoop d f fuel size data r').2 := by
  induction fuel generalizing size data r r' with
  | zero =>
    cases size with
    | zero => exact ⟨rfl, h⟩
    | succ size => exact ⟨rfl, hl.fail h⟩
  | succ fuel ih =>
    cases size with
    | zero => exact ⟨rfl, h⟩
    | succ size =>
      obtain ⟨-, he, hp, hb⟩ := hl.look h
      obtain ⟨hok, hr⟩ := hl.refill h
      have hm (n : Nat) := hl.move (n := n) h
      rw [he, hb] at hm
      simp only [CompressedReader.readLoop, he, hp, hb, hok]
      split
      · exact ⟨rfl, hl.fail h⟩
      split
      · exact ih (hm _)
      split
      · next ok =>
        rw [ok] at hr
        exact ih hr
      · next ok =>
        rw [not_eq_true] at ok
        rw [ok] at hr
        exact ⟨rfl, hr⟩

theorem Lockstep.read (hl : Lockstep d f V) (size : Nat) (h : V true r r') :
    (r'.read d f size).1 = (r.read d f size).1 ∧
      V (r.read d f size).1.1 (r.read d f size).2 (r'.read d f size).2 := by
  rw [CompressedReader.read, (hl.look h).1]
  exact hl.readLoop h

theorem isSome_ite_bool (b : Bool) (x : α) : (if b then some x else none).isSome = b := by
  cases b <;> rfl

theorem Lockstep.getBuffer (hl : Lockstep d f V) (h : V true r r') (heof : r'.eof = r.eof) :
    (r'.getBuffer d f).1 = (r.getBuffer d f).1 ∧
      V (r.getBuffer d f).1.isSome (r.getBuffer d f).2 (r'.getBuffer d f).2 := by
  obtain ⟨-, he, hp, hb⟩ := hl.look h
  obtain ⟨hok, hr⟩ := hl.refill h
  simp only [CompressedReader.getBuffer, he, hp, hb, heof, hok]
  split
  · exact ⟨rfl, hl.fail h⟩
  split
  · rw [isSome_ite_bool]
    refine ⟨?_, hr⟩
    split
    · next ok =>
      rw [ok] at hr
      obtain ⟨-, -, hp, hb⟩ := hl.look hr
      rw [hp, hb]
    · rfl
  · exact ⟨rfl, h⟩

theorem Lockstep.unpack (hl : Lockstep d f V) (heof : ∀ {r r'}, V true r r' → r'.eof = r.eof)
    {u : Unpack α} (h : V true r r') : u.run d f r = none ∧ u.run d f r' = none ∨
      ∃ m s s', u.run d f r = some (m, s) ∧ u.run d f r' = some (m, s') ∧ V true s s' := by
  induction u generalizing r r' with
  | done message => exact .inr ⟨message, r, r', rfl, rfl, h⟩
  | exception => exact .inl ⟨rfl, rfl⟩
  | getBuffer next ih =>
    obtain ⟨hb, hv⟩ := hl.getBuffer h (heof h)
    simp only [Unpack.run]
    cases hg : r.getBuffer d f with
    | mk bytes s =>
      cases hg' : r'.getBuffer d f with
      | mk bytes' s' =>
        rw [hg, hg'] at hb hv
        cases hb
        cases bytes with
        | none => exact .inl ⟨rfl, rfl⟩
        | some bytes => exact ih bytes hv
  | skip size next ih =>
    obtain ⟨hb, hv⟩ := hl.read size h
    simp only [Unpack.run, skip]
    rw [hb]
    cases hok : (r.read d f size).1.1 with
    | false => exact .inl ⟨rfl, rfl⟩
    | true =>
      rw [hok] at hv
      exact ih hv
  | read size next ih =>
    obtain ⟨hb, hv⟩ := hl.read size h
    simp only [Unpack.run]
    rw [← Prod.eta (r'.read d f size), ← Prod.eta (r.read d f size), hb]
    generalize (r.read d f size).1 = result at hv
    obtain ⟨ok, bytes⟩ := result
    cases ok with
    | false => exact .inl ⟨rfl, rfl⟩
    | true => exact ih bytes hv

/-- A property, with whether all has succeeded so far, that reading keeps. -/
structure Kept (d : Decompress) (f : Files) (P : Bool → CompressedReader → Prop) : Prop where
  fail : P true r → P false r
  move : P true r → P true { r with bufferReadPos := n }
  refill : P true r → P (r.refillBuffer d f).1 (r.refillBuffer d f).2

theorem Kept.lockstep (hk : Kept d f P) : Lockstep d f fun ok r r' => r' = r ∧ P ok r where
  look := by
    rintro r _ ⟨rfl, -⟩
    exact ⟨rfl, rfl, rfl, rfl⟩
  fail h := ⟨h.1, hk.fail h.2⟩
  move := by
    rintro r _ n ⟨rfl, h⟩
    exact ⟨rfl, hk.move h⟩
  refill := by
    rintro r _ ⟨rfl, h⟩
    exact ⟨rfl, rfl, hk.refill h⟩

section

variable (hk : Kept d f P) (h : P true r)
include hk h

theorem Kept.readLoop {data : List UInt8} :
    P (readLoop d f fuel size data r).1.1 (readLoop d f fuel size data r).2 :=
  (hk.lockstep.readLoop ⟨rfl, h⟩).2.2

theorem Kept.getBuffer : P (r.getBuffer d f).1.isSome (r.getBuffer d f).2 :=
  (hk.lockstep.getBuffer ⟨rfl, h⟩ rfl).2.2

theorem Kept.call : P (r.call d f c).1.isSome (r.call d f c).2 := by
  cases c with
  | read size | skip size =>
    simp only [CompressedReader.call, isSome_ite_bool]
    exact hk.readLoop h
  | getBuffer => exact hk.getBuffer h

end

theorem keepBuffer_eq (r : CompressedReader) :
    ∃ saved buffer, r.keepBuffer = { r with saved := saved, buffer := buffer } := by
  simp only [keepBuffer]
  split
  · exact ⟨_, _, rfl⟩
  · exact ⟨_, _, rfl⟩

/-- All that a refill can do. -/
theorem refillBuffer_cases (d : Decompress) (f : Files) (r : CompressedReader) :
    ∃ offset error eof pos buffer, (r.refillBuffer d f).2 =
        { r.keepBuffer with
          fdOffset := offset, error := error, eof := eof, bufferReadPos := pos, buffer := buffer } ∧
      r.fdOffset ≤ offset ∧
      (eof = true → r.eof = true ∨ (f r.fd).contents.length ≤ offset) ∧
      ((r.refillBuffer d f).1 = true → error = r.error ∧ r.fdOffset < offset ∧
        r.fdOffset < (f r.fd).contents.length) := by
  obtain ⟨saved, buffer, hk⟩ := r.keepBuffer_eq
  simp only [refillBuffer, hk, readAll]
  split
  · exact ⟨_, _, _, _, _, rfl, Nat.le_refl _, .inl, nofun⟩
  next bytes h =>
  have hlen : r.fdOffset < (f r.fd).contents.length := by
    split at h
    · next hl =>
      simp only [pread, length_take, length_drop, blockHeaderSize] at hl
      omega
    · cases h
  split
  · exact ⟨_, _, _, _, _, rfl, Nat.le_add_right .., .inl, nofun⟩
  have hlt : r.fdOffset < r.fdOffset + blockHeaderSize := Nat.lt_add_of_pos_right (by decide)
  have hlt := Nat.lt_of_lt_of_le hlt
    (Nat.le_add_right _ (BlockHeader.ofBytes bytes).compressedLength)
  by_cases he : pread f r.fd 1 (r.fdOffset + blockHeaderSize +
      (BlockHeader.ofBytes bytes).compressedLength) = []
  · have hend : (f r.fd).contents.length ≤
        r.fdOffset + blockHeaderSize + (BlockHeader.ofBytes bytes).compressedLength := by
      simpa [pread] using he
    simp only [if_pos he]
    split
    · exact ⟨_, _, _, _, _, rfl, Nat.le_of_lt hlt, fun _ => .inr hend, fun _ => ⟨rfl, hlt, hlen⟩⟩
    · exact ⟨_, _, _, _, _, rfl, Nat.le_of_lt hlt, fun _ => .inr hend, nofun⟩
  · simp only [if_neg he]
    split
    · exact ⟨_, _, _, _, _, rfl, Nat.le_of_lt hlt, .inl, fun _ => ⟨rfl, hlt, hlen⟩⟩
    · exact ⟨_, _, _, _, _, rfl, Nat.le_of_lt hlt, .inl, nofun⟩

def EndKnown (f : Files) (r : CompressedReader) : Prop :=
  r.eof = true → (f r.fd).contents.length ≤ r.fdOffset

theorem keepBuffer_fd (r : CompressedReader) : r.keepBuffer.fd = r.fd := by
  simp only [keepBuffer]
  split <;> rfl

theorem EndKnown.kept : Kept d f fun _ => EndKnown f where
  fail h := h
  move h := h
  refill := by
    intro r h
    obtain ⟨offset, error, eof, pos, buffer, he, hle, hend, -⟩ := refillBuffer_cases d f r
    rw [he]
    intro heof
    rw [keepBuffer_fd]
    cases hend heof with
    | inl hr => exact Nat.le_trans (h hr) hle
    | inr hr => exact hr

theorem EndKnown.perform (h : EndKnown f r) : EndKnown f (r.perform d f o).2 := by
  cases o with
  | call c => exact kept.call h
  | atEnd => exact h
  | rewind => exact nofun
  | saveState | discardState => exact h
  | restoreState =>
    simp only [CompressedReader.perform, restoreState]
    split
    · exact h
    · intro he
      simp only at he
      split at he
      · cases he
      · next hle => exact Nat.le_trans (h he) (Nat.le_of_not_lt hle)

theorem EndKnown.after (os : List StreamOp) (h : EndKnown f r) : EndKnown f (r.after d f os) := by
  induction os generalizing r with
  | nil => exact h
  | cons o os ih => exact ih h.perform

theorem EndKnown.openFile {fd : Nat} : EndKnown f (openFile f fd isOpen) := by
  intro h
  simp only [CompressedReader.openFile, and_eq_true, beq_iff_eq] at h
  have hc : (f fd).contents = [] := by
    simpa [pread] using h.2
  exact Nat.le_of_eq (congrArg length hc)

/-- Where a reader can be after a save at `r`. -/
inductive Away (r : CompressedReader) : CompressedReader → Prop where
  | inBuffer (pos : Nat) : Away r { r.saveState with bufferReadPos := pos }
  | refilled (offset pos : Nat) (eof : Bool) (buffer : List UInt8) : r.eof = false →
      r.fdOffset < offset →
      Away r { r with
        fdOffset := offset, eof, bufferReadPos := pos, buffer
        saved := some ⟨r.fdOffset, r.bufferReadPos, some r.buffer⟩ }

theorem Away.kept (he : EndKnown f r) : Kept d f fun ok r' => ok = true → Away r r' where
  fail _ := nofun
  move h _ := by
    cases h rfl with
    | inBuffer pos => exact .inBuffer _
    | refilled offset pos eof buffer heof hlt => exact .refilled _ _ _ _ heof hlt
  refill := by
    intro r' h ok
    obtain ⟨offset, error, eof, pos, buffer, hr, -, -, hok⟩ := refillBuffer_cases d f r'
    obtain ⟨rfl, hlt, hlen⟩ := hok ok
    rw [hr]
    cases h rfl with
    | inBuffer pos =>
      -- at the end of the file there is no header to read
      have heof : r.eof = false := by
        rw [← not_eq_true]
        intro h
        exact absurd (he h) (Nat.not_le.mpr hlen)
      exact .refilled _ _ _ _ heof hlt
    | refilled offset pos eof buffer heof hlt' => exact .refilled _ _ _ _ heof (Nat.lt_trans hlt' hlt)

theorem Away.restoreState (h : Away r r') (hs : r.saved = none) : r'.restoreState = r := by
  obtain ⟨fd, offset, error, eof, pos, buffer, saved⟩ := r
  cases hs
  cases h with
  | inBuffer pos => simp [CompressedReader.restoreState, saveState]
  | refilled offset pos eof buffer heof hlt =>
    cases heof
    simp [CompressedReader.restoreState, hlt]

theorem Away.after (he : EndKnown f r) {cs : List StreamCall}
    (hok : ∀ a ∈ results d f r' (cs.map .call), a.isSome) (h : Away r r') :
    Away r (r'.after d f (cs.map .call)) := by
  induction cs generalizing r' with
  | nil => exact h
  | cons c cs ih =>
    obtain ⟨ha, hok⟩ := forall_mem_cons.mp hok
    exact ih hok ((kept he).call (fun _ => h) ha)

/-- Saving, reading and restoring leave no trace. Nested saves are not allowed. -/
theorem restoreState_answers (d : Decompress) (f : Files) (fd : Nat) (isOpen : Bool)
    (before later : List StreamOp) (calls : List StreamCall)
    (hs : ((openFile f fd isOpen).after d f before).saved = none)
    (hok : ∀ a ∈ results d f ((openFile f fd isOpen).after d f before).saveState (calls.map .call),
      a.isSome) :
    results d f ((((openFile f fd isOpen).after d f before).saveState.after d f
        (calls.map .call)).restoreState) later =
      results d f ((openFile f fd isOpen).after d f before) later := by
  have he : EndKnown f ((openFile f fd isOpen).after d f before) := EndKnown.openFile.after before
  rw [(Away.after he hok (.inBuffer _)).restoreState hs]

/-- A file with one block that is its own compression. -/
def oneBlock : Files := fun _ => ⟨[2, 0, 0, 0, 2, 0, 0, 0, 7, 8], 0⟩

def verbatim : Decompress := fun bytes _ => (true, bytes)

theorem restoreState_answers_block :
    results verbatim oneBlock (((openFile oneBlock 0 true).saveState.after verbatim oneBlock
        [.call (.read 1), .call .getBuffer]).restoreState) [.call (.read 2), .atEnd] =
      [some [7, 8], some []] :=
  restoreState_answers verbatim oneBlock 0 true [] [.call (.read 2), .atEnd] [.read 1, .getBuffer]
    rfl (by decide)

end CompressedReader

theorem CompressedReader.Kept.unpack (hk : Kept d f P) {u : Unpack α} (h : P true r)
    (hu : u.run d f r = some (m, r')) : P true r' := by
  obtain ⟨hn, -⟩ | ⟨m', s, s', hs, -, -, hp⟩ :=
    hk.lockstep.unpack (fun h => congrArg eof h.1) (u := u) ⟨rfl, h⟩
  · rw [hn] at hu
    cases hu
  · rw [hs] at hu
    cases hu
    exact hp

end Attune.Trace
