import Attune.TraceRewind

namespace Attune.Trace
open CompressedReader Option

/-- A saved position does not matter to what is read. -/
theorem CompressedReader.Lockstep.saved :
    Lockstep d f fun ok r r' => ok = true → ∃ s, r' = { r with saved := s } where
  look := by
    intro r r' h
    obtain ⟨s, rfl⟩ := h rfl
    exact ⟨rfl, rfl, rfl, rfl⟩
  fail _ h := by cases h
  move := by
    intro r r' n h _
    obtain ⟨s, rfl⟩ := h rfl
    exact ⟨s, rfl⟩
  refill := by
    intro r r' h
    obtain ⟨s, rfl⟩ := h rfl
    obtain ⟨_, _, hk⟩ := r.keepBuffer_eq
    obtain ⟨_, _, hk'⟩ := keepBuffer_eq { r with saved := s }
    simp only [refillBuffer, hk, hk', readAll]
    repeat' split
    all_goals first
      | exact ⟨rfl, fun _ => ⟨_, rfl⟩⟩
      | exact ⟨rfl, fun h => by cases h⟩

namespace TraceReader

variable {r r' : TraceReader}

theorem endKnown_of_reachable (h : Reachable lib f r) : EndKnown f r.events := by
  induction h with
  | opened => exact EndKnown.openFile
  | answered _ ha ih =>
    intro he
    rw [← filesAfter_same]
    exact (stepped_answer ha).events.endKnown ih he

/-- What a look at the next frame gives, and all that it changes. -/
theorem peekFrame_eq (h : Reachable lib f r) (hend : r.events.atEnd = false) :
    r.peekFrame lib f = (r.readFrame lib f).map fun x => (some x.1,
      { r with rawRecs := x.2.rawRecs, monotonicTime := x.2.monotonicTime }) := by
  have hend : r.events.saveState.atEnd = false := hend
  have hsa (_ : true = true) : ∃ s, r.events.saveState = { r.events with saved := s } := ⟨_, rfl⟩
  simp only [peekFrame, hend, readFrame]
  obtain ⟨hn, hn'⟩ | ⟨m, s, s', hs, hs', -⟩ := Lockstep.saved.unpack (u := lib.frame) (f := f)
    (d := lib.decompress) (fun h => by obtain ⟨_, rfl⟩ := h rfl; rfl) hsa
  · rw [hn, hn']
    rfl
  have hb := (Away.kept (endKnown_of_reachable h)).unpack (fun _ => .inBuffer _) hs' rfl
  rw [hs, hs']
  simp only [bind_eq_bind, bind_some]
  cases m.1.decode (lib.xsaveOk r.cpuidRecords) (r.globalTime + 1) with
  | none => rfl
  | some x =>
    simp [hb.restoreState h.settled.events]

theorem rawRecs_eq {r r' : TraceReader} (h : ∀ ops answers, r.run lib f ops = some answers →
    r'.run lib f ops = some answers) : r'.rawRecs = r.rawRecs := by
  have hst (r : TraceReader) : (r.readRawDataMetadataForFrame lib f).1 = r.rawRecs.getLast? ∧
      (r.readRawDataMetadataForFrame lib f).2.rawRecs = r.rawRecs.dropLast := by
    simp only [readRawDataMetadataForFrame]
    split
    · next hno => simp [List.getLast?_eq_none_iff.mp hno]
    · next hso => exact ⟨hso.symm, rfl⟩
  have hn (ops answers) (ho : (r.readRawDataMetadataForFrame lib f).2.run lib f ops =
      some answers) : r'.rawRecs.getLast? = r.rawRecs.getLast? ∧
        (r'.readRawDataMetadataForFrame lib f).2.run lib f ops = some answers := by
    have hr := h (.readRawDataMetadata :: ops) _ ((run_cons rfl ops).trans (congrArg _ ho))
    rw [run_cons rfl] at hr
    simp only [map_eq_some_iff, List.cons.injEq, Answer.read.injEq, ReadResult.rawMetadata.injEq,
      (hst _).1] at hr
    obtain ⟨l, hl, hla, rfl⟩ := hr
    exact ⟨hla, hl⟩
  have hla := (hn [] [] rfl).1
  cases hl : r.rawRecs.getLast? with
  | none =>
    rw [List.getLast?_eq_none_iff.mp hl]
    exact List.getLast?_eq_none_iff.mp (hla.trans hl)
  | some rec =>
    have hre := rawRecs_eq fun ops answers ho => (hn ops answers ho).2
    rw [(hst _).2, (hst _).2] at hre
    rw [← List.dropLast_append_getLast? _ hl, ← List.dropLast_append_getLast? _ (hla.trans hl),
      hre]
termination_by r.rawRecs.length
decreasing_by
  have hne := List.getLast?_isSome.mp (isSome_of_eq_some hl)
  rw [(hst r).2, List.length_dropLast]
  exact Nat.sub_lt (List.length_pos_iff.mpr hne) Nat.one_pos

theorem peekFrame_answers_iff (lib : Library) (f : Files) (r : TraceReader)
    (h : Reachable lib f r) :
    (r.peekFrame lib f).map Prod.fst =
      (if r.events.atEnd then some none else (r.readFrame lib f).map (some ·.1)) ∧
    ∀ x r', r.peekFrame lib f = some (x, r') →
      ((∀ ops answers, r.run lib f ops = some answers → r'.run lib f ops = some answers) ↔
        r.events.atEnd = true ∨ ∃ msg sec events frame,
          lib.frame.run lib.decompress f r.events = some ((msg, sec), events) ∧
          msg.decode (lib.xsaveOk r.cpuidRecords) (r.globalTime + 1) = some (frame, r.rawRecs) ∧
          (r.monotonicTime = none ∨ r.monotonicTime = some sec)) := by
  cases hend : r.events.atEnd with
  | true =>
    have hb : r.events.saveState.restoreState = r.events :=
      (Away.inBuffer _).restoreState h.settled.events
    have hp : r.peekFrame lib f = some (none, r) :=
      peekFrame_eq_some.mpr (.inl ⟨hend, rfl, by rw [hb]⟩)
    rw [hp]
    refine ⟨rfl, fun x r' hx => iff_of_true ?_ (.inl rfl)⟩
    cases hx
    exact fun _ _ ho => ho
  | false =>
    rw [peekFrame_eq h hend, map_map]
    refine ⟨rfl, fun x r' hx => ?_⟩
    simp only [readFrame, bind_eq_bind, map_eq_some_iff, bind_eq_some_iff] at hx
    obtain ⟨_, ⟨⟨⟨msg, sec⟩, events⟩, hu, ⟨frame, recs⟩, hd, hx⟩, he⟩ := hx
    cases hx
    cases he
    constructor
    · intro hall
      have hre : recs = r.rawRecs := rawRecs_eq hall
      refine .inr ⟨msg, sec, events, frame, hu, hre ▸ hd, ?_⟩
      cases ht : r.monotonicTime with
      | none => exact .inl rfl
      | some t =>
        have hrun := hall [.recordingTime] [.number t] (by simp [run, answer, ht])
        simp [run, answer] at hrun
        exact .inr (congrArg some (by omega))
    · rintro (hn | ⟨msg', sec', events', frame', hu', hd', ht⟩) ops answers ho
      · cases hn
      · cases hu.symm.trans hu'
        cases hd.symm.trans hd'
        have hr : { r with monotonicTime := some sec } =
            r.veil r.rawData.eof r.ticksSemantics (·.or (some sec)) r.uuid := by
          cases ht with
          | inl ht | inr ht => simp [veil, ht]
        rw [hr]
        exact run_veil (fun _ => rfl) ho

/-- Each byte stands for a frame; the first has a raw data record. -/
def twoFrames : Library :=
  { sampleLibrary with
    decompress := verbatim
    frame := .read 1 fun bytes => .done (⟨1, 0, if bytes = [7] then [⟨1, 4096, 1⟩] else [], .x8664,
      [], [], .sched⟩, 5) }

def opened : TraceReader :=
  openTrace oneBlock (fun _ => true) [] 0 false [] 7 .takenBranches [1]

theorem peekFrame_answers_opened : (opened.peekFrame twoFrames oneBlock).map Prod.fst =
      some ((opened.readFrame twoFrames oneBlock).map Prod.fst) :=
  (peekFrame_answers_iff twoFrames oneBlock opened (.opened ..)).1

/-- A look at the next frame drops the raw data records of the current one. -/
theorem peek_drops_records :
    (opened.run twoFrames oneBlock [.readFrame, .readRawDataMetadata]).map (·.drop 1) =
      some [.read (.rawMetadata (some ⟨4096, 1, 1⟩))] ∧
    (opened.run twoFrames oneBlock [.readFrame, .peekFrame, .readRawDataMetadata]).map (·.drop 2) =
      some [.read (.rawMetadata none)] :=
  ⟨rfl, rfl⟩

end TraceReader
end Attune.Trace
