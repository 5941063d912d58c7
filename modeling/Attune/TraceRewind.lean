import Attune.TraceReaderCopied

namespace Attune.Trace
open CompressedReader Option

namespace TraceReader

theorem Stepped.trans (h : Stepped f r₁ r₂) (h' : Stepped f r₂ r₃) : Stepped f r₁ r₃ := by
  have hs {a b c : CompressedReader} (h : StreamStep f a b) (h' : StreamStep f b c) :
      StreamStep f a c := ⟨h'.fd.trans h.fd, h'.saved ∘ h.saved, h'.endKnown ∘ h.endKnown⟩
  refine ⟨?_, hs h.events h'.events, hs h.rawData h'.rawData, hs h.mmaps h'.mmaps,
    hs h.tasks h'.tasks⟩
  rw [h'.fixed, h.fixed]

/-- The reader after operations that all returned; positions in shared files do not matter. -/
def after (lib : Library) (f : Files) (r : TraceReader) (ops : List ReaderOp) : Option TraceReader :=
  ops.foldlM (fun r op => (r.answer lib f op).map Prod.snd) r

theorem stepped_after (h : after lib f r ops = some r') : Stepped f r r' := by
  induction ops generalizing r with
  | nil =>
    cases h
    exact .refl f _
  | cons op ops ih =>
    obtain ⟨r₁, hr, h⟩ := bind_eq_some_iff.mp h
    obtain ⟨⟨a, r₂⟩, ha, rfl⟩ := map_eq_some_iff.mp hr
    exact (stepped_answer ha).trans (ih h)

theorem run_veil (hg : ∀ x, g (some x) = some x) {r : TraceReader}
    (hs : r.run lib f ops = some answers) :
    (r.veil e r.ticksSemantics g r.uuid).run lib f ops = some answers := by
  induction ops generalizing r answers e g with
  | nil => exact hs
  | cons op ops ih =>
    obtain ⟨a, r', rest, ha, hr, rfl⟩ := run_cons_eq_some hs
    have hti (h : op = .recordingTime) : g r.monotonicTime = r.monotonicTime := by
      subst h
      cases ht : r.monotonicTime with
      | none => simp [answer, ht] at ha
      | some t => exact hg t
    obtain ⟨e', hv⟩ := veil_answer (e := e) ha (fun _ => rfl) (fun _ => rfl) hti
    have hfix := (stepped_answer ha).fixed
    have hg' (x : Nat) : (if r.readsFrame op then id else g) (some x) = some x := by
      split
      · rfl
      · exact hg x
    have hsem : r'.ticksSemantics = r.ticksSemantics := by rw [hfix]
    have hu : r'.uuid = r.uuid := by rw [hfix]
    rw [run_cons hv, ← hsem, ← hu, ih hg' hr]
    rfl

/-- A reader just opened on a trace that has its four substreams. -/
def JustOpened (f : Files) (r : TraceReader) : Prop :=
  ∃ dir bindToCpu faulting records xcr0 semantics uuid,
    r = openTrace f (fun _ => true) dir bindToCpu faulting records xcr0 semantics uuid

theorem rewind_eq_openFile {s : CompressedReader} (h : StreamStep f (openFile f i true) s)
    (he : s.error = false) : s.rewind = { openFile f i true with eof := false } := by
  have hs := h.saved rfl
  have hfd : s.fd = i := h.fd
  simp only [CompressedReader.rewind, hs, hfd, he]
  rfl

theorem openFile_eof (hc : (f i).contents ≠ []) :
    { openFile f i true with eof := false } = openFile f i true := by
  simp [openFile, pread, hc]

/-- A rewound reader is like one just opened exactly when the streams have not failed, the raw data
of the frame was read, the binding is the same, and the streams whose end is asked for are not
empty. -/
theorem rewind_answers_iff (lib : Library) (f : Files)
    (hmmap : ∀ s, (f s.fd).contents = [] → s.buffer = [] → lib.mmap.run lib.decompress f s = none)
    (htask : ∀ s, (f s.fd).contents = [] → s.buffer = [] → lib.task.run lib.decompress f s = none)
    (fresh r : TraceReader) (hfresh : JustOpened f fresh) (before : List ReaderOp)
    (h : fresh.after lib f before = some r) :
    (∀ later answers, fresh.run lib f later = some answers →
      r.rewind.run lib f later = some answers) ↔
      r.good = true ∧ r.rawRecs = [] ∧ r.bindToCpu = fresh.bindToCpu ∧
        ∀ i ∈ [0, 2, 3], (f i).contents ≠ [] := by
  have hs := stepped_after h
  obtain ⟨dir, cpu, faulting, records, xcr0, semantics, uuid, rfl⟩ := hfresh
  constructor
  · intro hall
    have hg := hall [.good] [.bool true] rfl
    have hre := hall [.readRawDataMetadata] [.read (.rawMetadata none)] rfl
    have hcpu := hall [.boundToCpu] [.number cpu] rfl
    have hat (s : CompressedReader) : s.rewind.atEnd = false := rfl
    simp [run, answer] at hg hcpu
    refine ⟨hg, ?_, hcpu, ?_⟩
    · cases hl : r.rawRecs.getLast? with
      | none => exact List.getLast?_eq_none_iff.mp hl
      | some rec => simp [run, answer, readRawDataMetadataForFrame, rewind, hl] at hre
    · simp only [List.forall_mem_cons]
      refine ⟨fun hc => ?_, fun hc => ?_, fun hc => ?_, fun _ hi => by cases hi⟩
      · have hend := hall [.atEnd] [.bool true] (by
          simp [run, answer, openTrace, openFile, atEnd, pread, hc])
        cases hend
      · have hend := hall [.readMappedRegion .validate .anyTime] [.read (.region none)] (by
          simp [run, answer, readMappedRegion, openTrace, openFile, atEnd, pread, hc])
        have hn := hmmap r.mmaps.rewind (hs.mmaps.fd ▸ hc) rfl
        simp [run, answer, readMappedRegion, rewind, hat, hn] at hend
      · have hend := hall [.readTaskEvent] [.read (.task none)] (by
          simp [run, answer, readTaskEvent, openTrace, openFile, atEnd, pread, hc])
        have hn := htask r.tasks.rewind (hs.tasks.fd ▸ hc) rfl
        simp [run, answer, readTaskEvent, rewind, hat, hn] at hend
  · rintro ⟨hg, hre, hcpu, hne⟩ later answers hrun
    simp only [good, Bool.and_eq_true, Bool.not_eq_true'] at hg
    obtain ⟨⟨⟨he, hd⟩, hm⟩, ht⟩ := hg
    have hr : r.rewind = veil false (some semantics) (·.or r.monotonicTime) (some uuid)
        (openTrace f (fun _ => true) dir cpu faulting records xcr0 semantics uuid) := by
      have hf := hs.fixed
      have h0 := (rewind_eq_openFile hs.events he).trans (openFile_eof (hne 0 (by decide)))
      have h1 := rewind_eq_openFile hs.rawData hd
      have h2 := (rewind_eq_openFile hs.mmaps hm).trans (openFile_eof (hne 2 (by decide)))
      have h3 := (rewind_eq_openFile hs.tasks ht).trans (openFile_eof (hne 3 (by decide)))
      simp only [rewind, h0, h1, h2, h3, hre, hcpu]
      rw [hf]
      rfl
    rw [hr]
    exact run_veil (fun _ => rfl) hrun

theorem rewind_answers_block :
    let r := openTrace oneBlock (fun _ => true) [] 0 false [] 7 .takenBranches [1]
    ∀ later answers, r.run sampleLibrary oneBlock later = some answers →
      r.rewind.run sampleLibrary oneBlock later = some answers :=
  (rewind_answers_iff sampleLibrary _ (fun _ _ _ => rfl) (fun _ _ _ => rfl) _ _
    ⟨[], 0, false, [], 7, .takenBranches, [1], rfl⟩ [] rfl).mpr ⟨rfl, rfl, rfl, by decide⟩

/-- Opening looks for an empty events stream, and rewinding only clears the flag. -/
theorem rewound_not_at_end : JustOpened emptyFiles sampleReader ∧
      sampleReader.run sampleLibrary emptyFiles [.atEnd] = some [.bool true] ∧
      sampleReader.rewind.run sampleLibrary emptyFiles [.atEnd] = some [.bool false] :=
  ⟨⟨_, _, _, _, _, _, _, rfl⟩, rfl, rfl⟩

end TraceReader
end Attune.Trace
