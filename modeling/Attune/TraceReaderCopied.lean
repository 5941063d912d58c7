import Attune.TraceReader
import Attune.CompressedStream

namespace Attune.Trace
open Option

def SameContents (f g : Files) : Prop := ∀ i, (f i).contents = (g i).contents

theorem SameContents.refl : SameContents f f := fun _ => rfl

theorem SameContents.symm (h : SameContents f g) : SameContents g f := fun i => (h i).symm

theorem SameContents.trans (h : SameContents f g) (h' : SameContents g k) : SameContents f k :=
  fun i => (h i).trans (h' i)

theorem pread_congr (h : SameContents f g) : pread f = pread g := by
  funext fd size offset
  simp only [pread, h fd]

namespace CompressedReader

section

variable (h : SameContents f g)
include h

theorem refillBuffer_congr : refillBuffer d f = refillBuffer d g := by
  funext r
  simp only [refillBuffer, readAll, pread_congr h]

theorem getBuffer_congr : getBuffer d f = getBuffer d g := by
  funext r
  simp only [getBuffer, refillBuffer_congr h]

theorem readLoop_congr (fuel : Nat) : readLoop d f fuel = readLoop d g fuel := by
  induction fuel with
  | zero =>
    funext size data r
    cases size <;> rfl
  | succ fuel ih =>
    funext size data r
    cases size with
    | zero => rfl
    | succ size => simp only [readLoop, refillBuffer_congr h, ih]

theorem read_congr : read d f = read d g := by
  funext r size
  simp only [read, readLoop_congr h, h r.fd]

theorem skip_congr : skip d f = skip d g := by
  funext r size
  simp only [skip, read_congr h]

theorem uncompressedLoop_congr (fd fuel offset : Nat) :
    uncompressedLoop f fd fuel offset = uncompressedLoop g fd fuel offset := by
  induction fuel generalizing offset with
  | zero => rfl
  | succ fuel ih => simp only [uncompressedLoop, pread_congr h, ih]

theorem uncompressedBytes_congr : uncompressedBytes f = uncompressedBytes g := by
  funext r
  simp only [uncompressedBytes, uncompressedLoop_congr h, h r.fd]

end

theorem compressedBytes_same (f : Files) (r : CompressedReader) :
    SameContents f (r.compressedBytes f).2 := by
  intro i
  simp only [compressedBytes]
  split
  · next hi => rw [hi]
  · rfl

theorem restoreState_saved (r : CompressedReader) : r.restoreState.saved = none := by
  simp only [restoreState]
  split
  · assumption
  · rfl

theorem copy_eq (h : r.saved = none) : copy r = r := by
  cases r
  cases h
  rfl

theorem Lockstep.eof : Lockstep d f fun _ r r' => ∃ e, r' = { r with eof := e } where
  look := by
    rintro r _ ⟨e, rfl⟩
    exact ⟨rfl, rfl, rfl, rfl⟩
  fail h := h
  move := by
    rintro r _ n ⟨e, rfl⟩
    exact ⟨e, rfl⟩
  refill := by
    rintro r _ ⟨e, rfl⟩
    have hk : keepBuffer { r with eof := e } = { r.keepBuffer with eof := e } := by
      simp only [keepBuffer]
      split <;> rfl
    simp only [refillBuffer, hk, readAll]
    repeat' split
    all_goals exact ⟨rfl, _, rfl⟩

theorem read_eof (d : Decompress) (f : Files) (e : Bool) (r : CompressedReader) (size : Nat) :
    ∃ e', read d f { r with eof := e } size =
      ((read d f r size).1, { (read d f r size).2 with eof := e' }) := by
  obtain ⟨h, e', he⟩ := Lockstep.eof.readLoop (r := r) ⟨e, rfl⟩
  exact ⟨e', Prod.ext h he⟩

/-- What an operation of the trace keeps of a substream. -/
structure StreamStep (f : Files) (r r' : CompressedReader) : Prop where
  fd : r'.fd = r.fd
  saved : r.saved = none → r'.saved = none
  endKnown : EndKnown f r → EndKnown f r'

theorem StreamStep.refl : StreamStep f r r := ⟨rfl, id, id⟩

theorem StreamStep.kept : Kept d f fun _ => StreamStep f r where
  fail h := h
  move h := ⟨h.fd, h.saved, h.endKnown⟩
  refill := by
    intro r' h
    obtain ⟨offset, error, eof, pos, buffer, hr, -⟩ := refillBuffer_cases d f r'
    refine ⟨?_, ?_, fun he => EndKnown.kept.refill (h.endKnown he)⟩
    · rw [hr]
      exact (keepBuffer_fd r').trans h.fd
    · intro hs
      simp only [hr, keepBuffer, h.saved hs]

theorem StreamStep.afterSave {u : Unpack α} (hu : u.run d f r.saveState = some (m, r')) :
    StreamStep f r r'.restoreState ∧ StreamStep f r r'.discardState := by
  have h : StreamStep f r.saveState r' := kept.unpack .refl hu
  have hfd : r'.restoreState.fd = r'.fd := by
    simp only [restoreState]
    split <;> rfl
  exact ⟨⟨hfd.trans h.fd, fun _ => restoreState_saved r', fun he =>
    EndKnown.perform (d := d) (o := .restoreState) (h.endKnown he)⟩, h.fd, fun _ => rfl, h.endKnown⟩

end CompressedReader

open CompressedReader

theorem Unpack.run_congr {u : Unpack α} (h : SameContents f g) : u.run d f = u.run d g := by
  induction u with
  | done message | exception => rfl
  | getBuffer next ih =>
    funext r
    simp only [Unpack.run, getBuffer_congr h, ih]
  | skip size next ih =>
    funext r
    simp only [Unpack.run, skip_congr h, ih]
  | read size next ih =>
    funext r
    simp only [Unpack.run, read_congr h, ih]

namespace TraceReader

theorem compressedBytes_fst (f : Files) (r : TraceReader) :
    (r.compressedBytes f).1 = (f r.events.fd).contents.length + (f r.rawData.fd).contents.length +
      (f r.mmaps.fd).contents.length + (f r.tasks.fd).contents.length := by
  have h₁ := compressedBytes_same f r.events
  have h₂ := h₁.trans (compressedBytes_same _ r.rawData)
  have h₃ := h₂.trans (compressedBytes_same _ r.mmaps)
  rw [h₁ r.rawData.fd, h₂ r.mmaps.fd, h₃ r.tasks.fd]
  rfl

theorem answer_congr (h : SameContents f g) (r : TraceReader) (op : ReaderOp) :
    r.answer lib f op = r.answer lib g op := by
  cases op with
  | readFrame => simp only [answer, readFrame, Unpack.run_congr h]
  | peekFrame => simp only [answer, peekFrame, readFrame, Unpack.run_congr h]
  | readRawData => simp only [answer, readRawDataForFrame, read_congr h]
  | readRawDataMetadata => simp only [answer, readRawDataMetadataForFrame, skip_congr h]
  | readMappedRegion v c => simp only [answer, readMappedRegion, Unpack.run_congr h]
  | readTaskEvent => simp only [answer, readTaskEvent, Unpack.run_congr h]
  | uncompressedBytes =>
    simp only [answer, uncompressedBytes, uncompressedBytes_congr h]
  | compressedBytes =>
    simp only [answer, compressedBytes_fst, h _]
  | _ => rfl

theorem filesAfter_same (f : Files) (r : TraceReader) (op : ReaderOp) :
    SameContents f (r.filesAfter f op) := by
  cases op with
  | compressedBytes =>
    simp only [filesAfter, compressedBytes]
    apply (compressedBytes_same f r.events).trans
    apply (compressedBytes_same _ r.rawData).trans
    apply (compressedBytes_same _ r.mmaps).trans
    exact compressedBytes_same _ r.tasks
  | _ => exact .refl

theorem run_congr (h : SameContents f g) (r : TraceReader) (ops : List ReaderOp) :
    r.run lib f ops = r.run lib g ops := by
  induction ops generalizing f g r with
  | nil => rfl
  | cons op ops ih =>
    have hs : SameContents (r.filesAfter f op) (r.filesAfter g op) :=
      ((filesAfter_same f r op).symm.trans h).trans (filesAfter_same g r op)
    simp only [run, answer_congr h, ih hs]

structure Settled (r : TraceReader) : Prop where
  events : r.events.saved = none
  rawData : r.rawData.saved = none
  mmaps : r.mmaps.saved = none
  tasks : r.tasks.saved = none

/-- All that an operation can do to a reader. -/
structure Stepped (f : Files) (r r' : TraceReader) : Prop where
  fixed : r' = { r with
    globalTime := r'.globalTime, bindToCpu := r'.bindToCpu, events := r'.events
    rawData := r'.rawData, mmaps := r'.mmaps, tasks := r'.tasks, rawRecs := r'.rawRecs
    monotonicTime := r'.monotonicTime }
  events : StreamStep f r.events r'.events
  rawData : StreamStep f r.rawData r'.rawData
  mmaps : StreamStep f r.mmaps r'.mmaps
  tasks : StreamStep f r.tasks r'.tasks

theorem Stepped.refl (f : Files) (r : TraceReader) : Stepped f r r :=
  ⟨rfl, .refl, .refl, .refl, .refl⟩

theorem peekFrame_eq_some {r r' : TraceReader} : r.peekFrame lib f = some (x, r') ↔
    r.events.atEnd = true ∧ none = x ∧ { r with events := r.events.saveState.restoreState } = r' ∨
    r.events.atEnd = false ∧ ∃ frame r₁,
      { r with events := r.events.saveState }.readFrame lib f = some (frame, r₁) ∧ some frame = x ∧
        { r₁ with events := r₁.events.restoreState, globalTime := r.globalTime } = r' := by
  have hend : r.events.saveState.atEnd = r.events.atEnd := rfl
  cases he : r.events.atEnd with
  | true => simp [peekFrame, hend, he]
  | false => simp [peekFrame, hend, he, bind_eq_some_iff]

theorem stepped_answer (ha : r.answer lib f op = some (a, r')) : Stepped f r r' := by
  have hr := Stepped.refl f r
  cases op with
  | readFrame =>
    obtain ⟨x, hx, he⟩ := map_eq_some_iff.mp ha
    cases he
    simp only [readFrame, bind_eq_bind, bind_eq_some_iff] at hx
    obtain ⟨⟨⟨msg, sec⟩, events⟩, hu, ⟨frame, recs⟩, -, hx⟩ := hx
    cases hx
    exact { hr with fixed := rfl, events := StreamStep.kept.unpack .refl hu }
  | peekFrame =>
    obtain ⟨⟨x, r₂⟩, hx, he⟩ := map_eq_some_iff.mp ha
    cases he
    obtain ⟨-, -, rfl⟩ | ⟨-, frame, r₁, hf, -, rfl⟩ := peekFrame_eq_some.mp hx
    · exact { hr with
        fixed := rfl, events := (StreamStep.afterSave (d := lib.decompress) (u := .done ()) rfl).1 }
    · simp only [readFrame, bind_eq_bind, bind_eq_some_iff] at hf
      obtain ⟨⟨⟨msg, sec⟩, events⟩, hu, ⟨frame, recs⟩, -, hf⟩ := hf
      cases hf
      exact { hr with fixed := rfl, events := (StreamStep.afterSave hu).1 }
  | readRawData | readRawDataMetadata =>
    cases ha
    simp only [readRawDataForFrame, readRawDataMetadataForFrame]
    split
    · exact hr
    · exact { hr with fixed := rfl, rawData := StreamStep.kept.readLoop .refl }
  | readMappedRegion v c =>
    obtain ⟨x, hx, he⟩ := map_eq_some_iff.mp ha
    cases he
    simp only [readMappedRegion] at hx
    split at hx
    · cases hx
      exact hr
    split at hx
    · obtain ⟨⟨m, mmaps⟩, hu, hx⟩ := bind_eq_some_iff.mp hx
      split at hx
      · cases hx
        exact { hr with fixed := rfl, mmaps := (StreamStep.afterSave hu).1 }
      · obtain ⟨region, -, hx⟩ := bind_eq_some_iff.mp hx
        cases hx
        exact { hr with fixed := rfl, mmaps := (StreamStep.afterSave hu).2 }
    · obtain ⟨⟨m, mmaps⟩, hm, hx⟩ := bind_eq_some_iff.mp hx
      obtain ⟨region, -, hx⟩ := bind_eq_some_iff.mp hx
      cases hx
      exact { hr with fixed := rfl, mmaps := StreamStep.kept.unpack .refl hm }
  | readTaskEvent =>
    obtain ⟨x, hx, he⟩ := map_eq_some_iff.mp ha
    cases he
    simp only [readTaskEvent] at hx
    split at hx
    · cases hx
      exact hr
    · simp only [bind_eq_bind, bind_eq_some_iff] at hx
      obtain ⟨⟨m, tasks⟩, hm, tid, -, kind, -, hx⟩ := hx
      cases hx
      exact { hr with fixed := rfl, tasks := StreamStep.kept.unpack .refl hm }
  | rewind =>
    cases ha
    have h : ∀ s : CompressedReader, StreamStep f s s.rewind := fun s => ⟨rfl, id, nofun⟩
    exact ⟨rfl, h _, h _, h _, h _⟩
  | uuid | ticksSemantics | recordingTime =>
    obtain ⟨x, -, he⟩ := map_eq_some_iff.mp ha
    cases he
    exact hr
  | setBoundCpu cpu =>
    cases ha
    exact { hr with fixed := rfl }
  | _ =>
    cases ha
    exact hr

theorem Settled.answer (h : Settled r) (hr : r.answer lib f op = some (a, r')) : Settled r' := by
  have hs := stepped_answer hr
  exact ⟨hs.events.saved h.events, hs.rawData.saved h.rawData, hs.mmaps.saved h.mmaps,
    hs.tasks.saved h.tasks⟩

/-- What the copy does not have; its time is known once it has read a frame. -/
def lose (timed : Bool) (r : TraceReader) : TraceReader :=
  { r with
    ticksSemantics := none
    monotonicTime := if timed then r.monotonicTime else none
    uuid := none }

theorem Settled.copy_eq (h : Settled r) : r.copy = r.lose false := by
  simp only [copy, lose, CompressedReader.copy_eq h.events, CompressedReader.copy_eq h.rawData,
    CompressedReader.copy_eq h.mmaps, CompressedReader.copy_eq h.tasks, Bool.false_eq_true,
    ↓reduceIte]

def readsFrame (r : TraceReader) : ReaderOp → Bool
  | .readFrame => true
  | .peekFrame => !r.events.atEnd
  | _ => false

/-- The values that the copying constructor does not write. -/
def Needs (timed : Bool) : ReaderOp → Prop
  | .uuid => True
  | .ticksSemantics => True
  | .recordingTime => timed = false
  | _ => False

/-- A reader with other values where only a few operations look. -/
def veil (e : Bool) (s : Option TicksSemantics) (g : Option Nat → Option Nat)
    (u : Option (List UInt8)) (r : TraceReader) : TraceReader :=
  { r with
    rawData := { r.rawData with eof := e }, ticksSemantics := s
    monotonicTime := g r.monotonicTime, uuid := u }

variable {r r' : TraceReader} {op : ReaderOp}

theorem veil_readFrame (h : r.readFrame lib f = some (x, r')) :
    (r.veil e s g u).readFrame lib f = some (x, r'.veil e s id u) := by
  simp only [readFrame, bind_eq_bind, bind_eq_some_iff] at h ⊢
  obtain ⟨⟨⟨msg, sec⟩, events⟩, hu, ⟨frame, recs⟩, hd, h⟩ := h
  cases h
  exact ⟨_, hu, _, hd, rfl⟩

theorem veil_answer (ha : r.answer lib f op = some (a, r')) (hu : op = .uuid → u = r.uuid)
    (hs : op = .ticksSemantics → s = r.ticksSemantics)
    (hg : op = .recordingTime → g r.monotonicTime = r.monotonicTime) :
    ∃ e', (r.veil e s g u).answer lib f op =
      some (a, r'.veil e' s (if r.readsFrame op then id else g) u) := by
  cases op with
  | readFrame =>
    obtain ⟨x, hx, he⟩ := map_eq_some_iff.mp ha
    cases he
    exact ⟨e, map_eq_some_iff.mpr ⟨_, veil_readFrame hx, rfl⟩⟩
  | peekFrame =>
    obtain ⟨⟨x, r₂⟩, hx, he⟩ := map_eq_some_iff.mp ha
    cases he
    refine ⟨e, map_eq_some_iff.mpr ⟨(x, r₂.veil e s _ u), peekFrame_eq_some.mpr ?_, rfl⟩⟩
    rw [readsFrame]
    obtain ⟨hend, h, rfl⟩ | ⟨hend, frame, r₁, hf, h, rfl⟩ := peekFrame_eq_some.mp hx
    · rw [hend]
      exact .inl ⟨hend, h, rfl⟩
    · rw [hend]
      exact .inr ⟨hend, frame, _, veil_readFrame hf, h, rfl⟩
  | readRawData | readRawDataMetadata =>
    cases ha
    simp only [answer, readRawDataForFrame, readRawDataMetadataForFrame, skip, veil]
    cases r.rawRecs.getLast? with
    | none => exact ⟨e, rfl⟩
    | some rec =>
      dsimp only
      obtain ⟨e', he⟩ := read_eof lib.decompress f e r.rawData rec.size
      rw [he]
      exact ⟨e', rfl⟩
  | readMappedRegion v c =>
    obtain ⟨x, hx, he⟩ := map_eq_some_iff.mp ha
    cases he
    refine ⟨e, map_eq_some_iff.mpr ⟨(x.1, x.2.veil e s _ u), ?_, rfl⟩⟩
    simp only [readMappedRegion] at hx ⊢
    split at hx
    · next hend =>
      cases hx
      exact if_pos hend
    next hend =>
    refine (if_neg hend).trans ?_
    cases c with
    | currentTimeOnly =>
      obtain ⟨y, hy, hx⟩ := bind_eq_some_iff.mp hx
      apply bind_eq_some_iff.mpr ⟨y, hy, _⟩
      split at hx
      · next ht =>
        cases hx
        exact if_pos ht
      · next ht =>
        obtain ⟨z, hz, hx⟩ := bind_eq_some_iff.mp hx
        cases hx
        exact (if_neg ht).trans (bind_eq_some_iff.mpr ⟨z, hz, rfl⟩)
    | anyTime =>
      obtain ⟨y, hy, hx⟩ := bind_eq_some_iff.mp hx
      obtain ⟨z, hz, hx⟩ := bind_eq_some_iff.mp hx
      cases hx
      exact bind_eq_some_iff.mpr ⟨y, hy, bind_eq_some_iff.mpr ⟨z, hz, rfl⟩⟩
  | readTaskEvent =>
    obtain ⟨x, hx, he⟩ := map_eq_some_iff.mp ha
    cases he
    refine ⟨e, map_eq_some_iff.mpr ⟨(x.1, x.2.veil e s _ u), ?_, rfl⟩⟩
    simp only [readTaskEvent] at hx ⊢
    split at hx
    · next hend =>
      cases hx
      exact if_pos hend
    next hend =>
    simp only [bind_eq_bind, bind_eq_some_iff] at hx
    obtain ⟨y, hy, tid, ht, kind, hk, hx⟩ := hx
    cases hx
    refine (if_neg hend).trans ?_
    simp only [bind_eq_bind, bind_eq_some_iff]
    exact ⟨y, hy, tid, ht, kind, hk, rfl⟩
  | rewind =>
    cases ha
    exact ⟨false, rfl⟩
  | uuid =>
    obtain ⟨x, hx, he⟩ := map_eq_some_iff.mp ha
    cases he
    exact ⟨e, map_eq_some_iff.mpr ⟨x, (hu rfl).trans hx, rfl⟩⟩
  | ticksSemantics =>
    obtain ⟨x, hx, he⟩ := map_eq_some_iff.mp ha
    cases he
    exact ⟨e, map_eq_some_iff.mpr ⟨x, (hs rfl).trans hx, rfl⟩⟩
  | recordingTime =>
    have hsa : (r.veil e s g u).monotonicTime = r.monotonicTime := hg rfl
    obtain ⟨x, hx, he⟩ := map_eq_some_iff.mp ha
    cases he
    refine ⟨e, map_eq_some_iff.mpr ⟨x, ?_, rfl⟩⟩
    rw [hsa]
    exact hx
  | _ =>
    cases ha
    exact ⟨e, rfl⟩

/-- The operations do not need what the copy lost. -/
def Carried (lib : Library) (f : Files) : TraceReader → Bool → List ReaderOp → Prop
  | _, _, [] => True
  | r, timed, op :: ops => ¬Needs timed op ∧
      ∀ a r', r.answer lib f op = some (a, r') → Carried lib f r' (timed || r.readsFrame op) ops

theorem run_cons (ha : r.answer lib f op = some (a, r')) (ops : List ReaderOp) :
    r.run lib f (op :: ops) = (r'.run lib f ops).map (a :: ·) := by
  simp only [run, ha, bind_eq_bind, bind_some, ← run_congr (filesAfter_same f r op)]
  cases r'.run lib f ops <;> rfl

theorem run_cons_eq_some (h : r.run lib f (op :: ops) = some answers) : ∃ a r' rest,
    r.answer lib f op = some (a, r') ∧ r'.run lib f ops = some rest ∧ answers = a :: rest := by
  obtain ⟨⟨a, r'⟩, ha, -⟩ := bind_eq_some_iff.mp h
  rw [run_cons ha] at h
  obtain ⟨rest, hr, h⟩ := map_eq_some_iff.mp h
  exact ⟨a, r', rest, ha, hr, h.symm⟩

theorem run_veil_iff (hg : g = if timed then id else fun _ => none)
    (hs : r.run lib f ops = some answers) :
    (r.veil e none g none).run lib f ops = some answers ↔ Carried lib f r timed ops := by
  induction ops generalizing r timed answers e g with
  | nil =>
    cases hs
    exact ⟨fun _ => trivial, fun _ => rfl⟩
  | cons op ops ih =>
    obtain ⟨a, r', rest, ha, hr, rfl⟩ := run_cons_eq_some hs
    by_cases hn : Needs timed op
    · have hnon : (r.veil e none g none).answer lib f op = none := by
        cases op with
        | uuid | ticksSemantics => rfl
        | recordingTime =>
          cases hn
          rw [hg]
          rfl
        | _ => exact absurd hn id
      rw [run, hnon]
      exact ⟨nofun, fun h => absurd hn h.1⟩
    · have hno (h : Needs timed op) {P : Prop} : P := absurd h hn
      have ht (h : op = .recordingTime) : g r.monotonicTime = r.monotonicTime := by
        subst h
        cases timed with
        | false => exact hno rfl
        | true => rw [hg]; rfl
      obtain ⟨e', hv⟩ := veil_answer (e := e) (s := none) (u := none) ha (fun h => hno (h ▸ trivial))
        (fun h => hno (h ▸ trivial)) ht
      have hg' : (if r.readsFrame op then id else g) =
          if timed || r.readsFrame op then id else fun _ => none := by
        rw [hg]
        cases timed <;> cases r.readsFrame op <;> rfl
      rw [run_cons hv, map_eq_some_iff]
      constructor
      · rintro ⟨l, hl, he⟩
        cases he
        refine ⟨hn, fun a' r'' h' => ?_⟩
        rw [ha] at h'
        cases h'
        exact (ih hg' hr).mp hl
      · intro h
        exact ⟨rest, (ih hg' hr).mpr (h.2 a r' ha), rfl⟩

end TraceReader

theorem runBoth_iff {r c : TraceReader} : runBoth lib f r c ops = some (as, bs) ↔
    r.run lib f (opsOf .original ops) = some as ∧ c.run lib f (opsOf .copied ops) = some bs := by
  induction ops generalizing f r c as bs with
  | nil =>
    constructor
    · intro h
      cases h
      exact ⟨rfl, rfl⟩
    · intro ⟨ha, hb⟩
      cases ha
      cases hb
      rfl
  | cons o ops ih =>
    obtain ⟨which, op⟩ := o
    cases which with
    | original =>
      have ho : opsOf .original ((.original, op) :: ops) = op :: opsOf .original ops := rfl
      have hc : opsOf .copied ((.original, op) :: ops) = opsOf .copied ops := rfl
      rw [ho, hc]
      cases ha : r.answer lib f op with
      | none => simp [runBoth, TraceReader.run, ha]
      | some x =>
        have hf := TraceReader.filesAfter_same f r op
        rw [TraceReader.run_cons ha, map_eq_some_iff, TraceReader.run_congr hf,
          TraceReader.run_congr hf]
        simp only [runBoth, ha, bind_eq_bind, bind_some, bind_eq_some_iff, Prod.exists, ih]
        constructor
        · rintro ⟨as', bs', ⟨h₁, h₂⟩, h⟩
          cases h
          exact ⟨⟨as', h₁, rfl⟩, h₂⟩
        · rintro ⟨⟨as', h₁, rfl⟩, h₂⟩
          exact ⟨as', bs, ⟨h₁, h₂⟩, rfl⟩
    | copied =>
      have ho : opsOf .original ((.copied, op) :: ops) = opsOf .original ops := rfl
      have hc : opsOf .copied ((.copied, op) :: ops) = op :: opsOf .copied ops := rfl
      rw [ho, hc]
      cases ha : c.answer lib f op with
      | none => simp [runBoth, TraceReader.run, ha]
      | some x =>
        have hf := TraceReader.filesAfter_same f c op
        rw [TraceReader.run_cons ha, map_eq_some_iff, TraceReader.run_congr hf,
          TraceReader.run_congr hf]
        simp only [runBoth, ha, bind_eq_bind, bind_some, bind_eq_some_iff, Prod.exists, ih]
        constructor
        · rintro ⟨as', bs', ⟨h₁, h₂⟩, h⟩
          cases h
          exact ⟨h₁, bs', h₂, rfl⟩
        · rintro ⟨h₁, bs', h₂, rfl⟩
          exact ⟨as, bs', ⟨h₁, h₂⟩, rfl⟩

/-- A reader that was opened and then operated on, with the state of its files. -/
inductive Reachable (lib : Library) : Files → TraceReader → Prop where
  | opened (f : Files) (isOpen : Nat → Bool) (dir : List Char) (bindToCpu : Int) (faulting : Bool)
      (records : List CpuidRecord) (xcr0 : Nat) (semantics : TicksSemantics) (uuid : List UInt8) :
      Reachable lib f (.openTrace f isOpen dir bindToCpu faulting records xcr0 semantics uuid)
  | answered {f : Files} {r r' : TraceReader} {op : ReaderOp} {a : Answer} : Reachable lib f r →
      r.answer lib f op = some (a, r') → Reachable lib (r.filesAfter f op) r'

theorem Reachable.settled (h : Reachable lib f r) : r.Settled := by
  induction h with
  | opened => exact ⟨rfl, rfl, rfl, rfl⟩
  | answered _ ha ih => exact ih.answer ha

/-- A reader and its copy answer as the reader alone exactly when the copy is not asked for what
copying leaves out. -/
theorem copy_answers_iff (lib : Library) (f : Files) (r : TraceReader) (h : Reachable lib f r)
    (ops : List (Which × ReaderOp)) (as bs : List Answer)
    (ha : r.run lib f (opsOf .original ops) = some as)
    (hb : r.run lib f (opsOf .copied ops) = some bs) :
    runBoth lib f r r.copy ops = some (as, bs) ↔
      TraceReader.Carried lib f r false (opsOf .copied ops) := by
  rw [runBoth_iff, h.settled.copy_eq]
  exact (and_iff_right ha).trans (TraceReader.run_veil_iff (e := r.rawData.eof)
    (g := fun _ => none) rfl hb)

def emptyFiles : Files := fun _ => ⟨[], 0⟩

def sampleLibrary : Library :=
  { decompress := fun _ _ => (false, []), frame := .exception, mmap := .exception,
    task := .exception, xsaveOk := fun _ _ _ => true, statOk := fun _ => true }

def sampleReader : TraceReader :=
  .openTrace emptyFiles (fun _ => true) "/trace".toList 0 false [] 7 .takenBranches [1, 2]

theorem copy_answers_iff_sizes : runBoth sampleLibrary emptyFiles sampleReader sampleReader.copy
        [(.copied, .compressedBytes), (.original, .uuid), (.copied, .readTaskEvent)] =
      some ([.bytes [1, 2]], [.number 0, .read (.task none)]) :=
  (copy_answers_iff sampleLibrary emptyFiles sampleReader (.opened ..)
    [(.copied, .compressedBytes), (.original, .uuid), (.copied, .readTaskEvent)] _ _ rfl rfl).mpr
    ⟨id, fun _ _ _ => ⟨id, fun _ _ _ => trivial⟩⟩

/-- The identity of the trace is a null pointer in the copy. -/
theorem copy_has_no_uuid : Reachable sampleLibrary emptyFiles sampleReader ∧
      sampleReader.run sampleLibrary emptyFiles [.uuid] = some [.bytes [1, 2]] ∧
      runBoth sampleLibrary emptyFiles sampleReader sampleReader.copy [(.copied, .uuid)] = none :=
  ⟨.opened .., rfl, rfl⟩

end Attune.Trace
