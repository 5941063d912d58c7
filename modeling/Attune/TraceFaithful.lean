import Attune.TraceReplay

namespace Attune.Trace
open List Option KernelMapping

section Values

def RawRecord.metadata (r : RawRecord) : RawDataMetadata := ⟨r.addr, r.data.length, r.recTid⟩

/-- The values the kernel can give for a mapping, as the constructor of `KernelMapping` keeps them. -/
def RegionCall.Ok (c : RegionCall) : Prop :=
  c.km.offset < 2 ^ 63 ∧ c.km.flags &&& mapFlagsMask = c.km.flags ∧ Char.ofNat 0 ∉ c.km.fsname ∧
    Char.ofNat 0 ∉ c.responses.processFileName ∧ 0 ≤ c.stat.size

instance (c : RegionCall) : Decidable c.Ok := by
  unfold RegionCall.Ok
  infer_instance

def TaskEventKind.Ok : TaskEventKind → Prop
  | .clone parentTid ownNsTid _ => 0 < parentTid ∧ 0 < ownNsTid
  | .exec fileName cmdLine _ => Char.ofNat 0 ∉ fileName ∧ ∀ arg ∈ cmdLine, Char.ofNat 0 ∉ arg
  | .exit _ => True

instance : (k : TaskEventKind) → Decidable k.Ok
  | .clone parentTid ownNsTid _ => inferInstanceAs (Decidable (0 < parentTid ∧ 0 < ownNsTid))
  | .exec fileName cmdLine _ =>
    inferInstanceAs (Decidable (Char.ofNat 0 ∉ fileName ∧ ∀ arg ∈ cmdLine, Char.ofNat 0 ∉ arg))
  | .exit _ => .isTrue trivial

def TraceTaskEvent.Ok (e : TraceTaskEvent) : Prop := 0 < e.tid ∧ e.kind.Ok

instance (e : TraceTaskEvent) : Decidable e.Ok := inferInstanceAs (Decidable (_ ∧ _))

/-- The constraints of the schema on what is written, and the extra registers can be used where the
trace is read. -/
def WriteCall.Ok (env : Environment) : WriteCall → Prop
  | .raw recTid _ _ => 0 < recTid
  | .mappedRegion c => c.Ok
  | .taskEvent event => event.Ok
  | .frame t ev _ extraRegisters => 0 < t.tid ∧ 0 ≤ t.ticks ∧ ev.Recordable ∧
      (extraRegisters = [] ∨ env.xsaveOk t.arch extraRegisters = true)

instance (env : Environment) : (c : WriteCall) → Decidable (c.Ok env)
  | .raw recTid _ _ => inferInstanceAs (Decidable (0 < recTid))
  | .mappedRegion c => inferInstanceAs (Decidable c.Ok)
  | .taskEvent event => inferInstanceAs (Decidable event.Ok)
  | .frame t ev _ extraRegisters => inferInstanceAs (Decidable (0 < t.tid ∧ 0 ≤ t.ticks ∧
      ev.Recordable ∧ (extraRegisters = [] ∨ env.xsaveOk t.arch extraRegisters = true)))

def RegionRecord.Ok (g : RegionRecord) : Prop :=
  g.call.Ok ∧ ∀ name, g.source = .file name → Char.ofNat 0 ∉ name

structure FrameRecord.Ok (env : Environment) (f : FrameRecord) : Prop where
  tid : 0 < f.task.tid
  ticks : 0 ≤ f.task.ticks
  ev : f.ev.Recordable
  extra : f.extraRegisters = [] ∨ env.xsaveOk f.task.arch f.extraRegisters = true
  raws : ∀ r ∈ f.raws, 0 < r.recTid
  regions : ∀ g ∈ f.regions, g.Ok

end Values

section Mmaps

theorem uint64Of_int64Of (h : n < 2 ^ 64) : uint64Of (int64Of n) = n := by
  rw [uint64Of, int64Of, BitVec.ofInt_toInt, BitVec.toNat_ofNat, Nat.mod_eq_of_lt h]

theorem int64Of_nonneg (h : n < 2 ^ 63) : 0 ≤ int64Of n := by
  rw [int64Of, BitVec.toInt_ofNat', Int.bmod_eq_of_le] <;> omega

theorem dataToStr_eq (h : Char.ofNat 0 ∉ data) : dataToStr data = some data := if_neg h

theorem not_mem_toDigits : Char.ofNat 0 ∉ Nat.toDigits 10 n := by
  intro hmem
  have hd := Nat.isDigit_of_mem_toDigits (by decide) (by decide) hmem
  exact absurd hd (by decide)

theorem not_mem_traceFileName (kind : String) (count : Nat) (hk : Char.ofNat 0 ∉ kind.toList) (h : Char.ofNat 0 ∉ name) :
    Char.ofNat 0 ∉ traceFileName kind count name := by
  have hb : Char.ofNat 0 ∉ baseFileName name := by
    intro hmem
    rw [baseFileName, mem_reverse] at hmem
    exact h (mem_reverse.mp ((takeWhile_sublist _).subset hmem))
  simp only [traceFileName, mem_append, mem_cons, not_or]
  exact ⟨⟨hk, not_mem_toDigits⟩, by decide, hb⟩

def SourceOk (source : SourceMsg) (files : ImmutableFiles) : Prop :=
  (∀ name, source = .file name → Char.ofNat 0 ∉ name) ∧ ∀ e ∈ files, Char.ofNat 0 ∉ e.2

theorem SourceOk.file (hn : Char.ofNat 0 ∉ name) (hf : ∀ e ∈ files, Char.ofNat 0 ∉ e.2) :
    SourceOk (.file name) files := by
  refine ⟨?_, hf⟩
  intro name' heq
  cases heq
  exact hn

theorem chooseSource_ok (count : Nat) (hc : c.Ok) (hf : ∀ e ∈ files, Char.ofNat 0 ∉ e.2) :
    SourceOk (chooseSource files count c).1 (chooseSource files count c).2 := by
  obtain ⟨_, _, hfs, hp, _⟩ := hc
  have hn : SourceOk .zero files ∧ SourceOk .trace files :=
    ⟨⟨fun _ h => (nomatch h), hf⟩, ⟨fun _ h => (nomatch h), hf⟩⟩
  rw [chooseSource]
  split
  · exact hn.1
  split
  · exact hn.2
  split
  · exact hn.1
  split
  · exact hn.2
  split
  · rename_i name hl
    obtain ⟨before, after, hsp, _⟩ := lookup_eq_some_iff.mp hl
    exact .file (hf ((c.stat.dev, c.stat.ino), name) (by simp [hsp])) hf
  split
  · exact .file (not_mem_traceFileName _ _ (by decide) hp) hf
  split
  · split
    · exact .file (not_mem_traceFileName _ _ (by decide) hp) hf
    · exact hn.2
  split
  · exact .file (not_mem_traceFileName _ _ (by decide) hp) hf
  have hna : Char.ofNat 0 ∉ (if c.responses.linked then
      traceFileName "mmap_hardlink_" count c.responses.processFileName else c.km.fsname) := by
    split
    · exact not_mem_traceFileName _ _ (by decide) hp
    · exact hfs
  refine .file hna ?_
  intro e he
  rcases mem_cons.mp he with rfl | he
  · exact hna
  · exact hf e he

theorem region_message {g : RegionRecord} (hg : g.Ok) (ht : 0 < time) (ha : g.available place validate = true) :
    (g.call.message time g.source).region place validate = some (g.seen place time) := by
  obtain ⟨⟨ho, hf, hfs, _, hsi⟩, hn⟩ := hg
  have ho64 : uint64Of (int64Of g.call.km.offset) = g.call.km.offset :=
    uint64Of_int64Of (by omega)
  have hkm : new g.call.km.start g.call.km.end_ g.call.km.fsname g.call.km.device
      g.call.km.inode g.call.km.prot g.call.km.flags g.call.km.offset = g.call.km := by
    rw [new, hf, Nat.mod_eq_of_lt (by omega)]
  have hd : (g.call.message time g.source).mappedData place validate =
      some (g.data place time) := by
    rw [MMapMsg.mappedData, if_neg (by exact Nat.ne_of_gt ht)]
    cases hso : g.source with
    | zero | trace => simp only [RegionCall.message, RegionRecord.data, hso]
    | file name =>
      have hst : ((g.call.message time (.file name)).needsStat name validate &&
          !place.statOk (place.resolve name)) = false := by
        cases validate with
        | dontValidate => simp [MMapMsg.needsStat]
        | validate =>
          simp only [RegionRecord.available, hso] at ha
          rw [ha, Bool.not_true, Bool.and_false]
      have hr := dataToStr_eq (hn name hso)
      simp only [RegionCall.message, RegionRecord.data, hso] at hst ⊢
      simp only [hr, bind_eq_bind, bind_some, if_neg (Int.not_lt.mpr hsi), hst,
        if_neg (Int.not_lt.mpr (int64Of_nonneg ho)), ho64, Bool.false_eq_true, if_false]
  simp only [MMapMsg.region, hd, bind_eq_bind, bind_some]
  simp only [RegionCall.message, dataToStr_eq hfs, bind_some, ho64, hkm]
  rfl

theorem readMappedRegion_found {g : RegionRecord}
    (hre : mmaps.rest = g.call.message time g.source :: rest)
    (hg : g.Ok) (ht : 0 < time) (ha : g.available place validate = true) :
    readMappedRegion place time validate .currentTimeOnly mmaps =
      some (some (g.seen place time), ⟨rest, none⟩) := by
  have hr := region_message hg ht ha
  have hf : (g.call.message time g.source).frameTime = time := rfl
  simp only [readMappedRegion, MessageStream.atEnd, hre, isEmpty_cons, Bool.false_eq_true,
    if_false, MessageStream.saveState, MessageStream.next, bind_eq_bind, bind_some,
    hf, ne_eq, not_true_eq_false, hr, MessageStream.discardState]

theorem readMappedRegion_later (place : TraceDir) (validate : ValidateSourceFile)
    (hl : ∀ m ∈ mmaps.rest, time < m.frameTime) :
    ∃ mmaps', readMappedRegion place time validate .currentTimeOnly mmaps = some (none, mmaps') ∧
      mmaps'.rest = mmaps.rest := by
  obtain ⟨rest, saved⟩ := mmaps
  cases rest with
  | nil => exact ⟨⟨[], saved⟩, rfl, rfl⟩
  | cons m rest =>
    have hne : m.frameTime ≠ time := Nat.ne_of_gt (hl m mem_cons_self)
    refine ⟨⟨m :: rest, none⟩, ?_, rfl⟩
    simp only [readMappedRegion, MessageStream.atEnd, isEmpty_cons, Bool.false_eq_true,
      if_false, MessageStream.saveState, MessageStream.next, bind_eq_bind, bind_some,
      ne_eq, hne, not_false_eq_true, if_true, MessageStream.restoreState, getD_some]

end Mmaps

section Recordings

def RawRecord.memWrite (r : RawRecord) : MemWriteMsg := ⟨r.recTid, r.addr, r.data.length⟩

def Encodes (f : FrameRecord) (m : FrameMsg) : Prop :=
  ∃ event, toTraceEvent f.task.arch f.ev = some event ∧
    m = ⟨f.task.tid, f.task.ticks, f.raws.map RawRecord.memWrite, toTraceArch f.task.arch,
      f.registers, f.extraRegisters, event⟩

def rawBytes (raws : List RawRecord) : List UInt8 := (raws.map RawRecord.data).flatten

def frameBytes (frames : List FrameRecord) : List UInt8 :=
  (frames.map fun f => rawBytes f.raws).flatten

def regionMsgs (time : Nat) (regions : List RegionRecord) : List MMapMsg :=
  regions.map fun g => g.call.message time g.source

def frameMsgs (frames : List FrameRecord) : List MMapMsg :=
  (frames.map fun f => regionMsgs f.time f.regions).flatten

def taskMsgs (tasks : List (Nat × TraceTaskEvent)) : List TaskMsg := tasks.map fun e => ⟨e.1, e.2⟩

structure Writes (w : Writer) (tape : Recording) : Prop where
  time : w.globalTime = tape.time
  rawRecs : w.rawRecs = tape.raws.map RawRecord.metadata
  files : w.filesAssumedImmutable = tape.files
  mmapCount : w.mmapCount = tape.mmapCount
  events : List.Forall₂ Encodes tape.frames w.events
  rawData : w.rawData = frameBytes tape.frames ++ rawBytes tape.raws
  mmaps : w.mmaps = frameMsgs tape.frames ++ regionMsgs tape.time tape.regions
  tasks : w.tasks = taskMsgs tape.tasks

structure Recording.Ok (env : Environment) (tape : Recording) : Prop where
  frames : ∀ f ∈ tape.frames, f.Ok env
  raws : ∀ r ∈ tape.raws, 0 < r.recTid
  regions : ∀ g ∈ tape.regions, g.Ok
  tasks : ∀ e ∈ tape.tasks, e.2.Ok
  files : ∀ e ∈ tape.files, Char.ofNat 0 ∉ e.2
  times : tape.frames.map FrameRecord.time = range' 1 tape.frames.length

theorem Recording.Ok.add {tape : Recording} {call : WriteCall}
    (h : tape.Ok env) (hc : call.Ok env) : (tape.add call).Ok env := by
  cases call with
  | raw recTid data addr =>
    exact { h with
      raws := by
        intro r hr
        rcases mem_append.mp hr with hr | hr
        · exact h.raws r hr
        · rw [mem_singleton.mp hr]
          exact hc }
  | mappedRegion c =>
    have hso := chooseSource_ok tape.mmapCount hc h.files
    exact { h with
      regions := by
        intro g hg
        rcases mem_append.mp hg with hg | hg
        · exact h.regions g hg
        · rw [mem_singleton.mp hg]
          exact ⟨hc, hso.1⟩
      files := hso.2 }
  | taskEvent event =>
    exact { h with
      tasks := by
        intro e he
        rcases mem_append.mp he with he | he
        · exact h.tasks e he
        · rw [mem_singleton.mp he]
          exact hc }
  | frame t ev registers extraRegisters =>
    obtain ⟨htid, ht, hev, hex⟩ := hc
    exact
      { raws := fun _ hr => absurd hr not_mem_nil
        regions := fun _ hg => absurd hg not_mem_nil
        tasks := h.tasks
        files := h.files
        frames := by
          intro f hf
          rcases mem_append.mp hf with hf | hf
          · exact h.frames f hf
          · rw [mem_singleton.mp hf]
            exact ⟨htid, ht, hev, hex, h.raws, h.regions⟩
        times := by
          simp only [Recording.add, map_append, map_singleton, length_append,
            length_singleton, h.times, Recording.time, range'_1_concat, Nat.add_comm] }

theorem Writes.call {call : WriteCall} (h : Writes w tape) (hc : call.Ok env) :
    ∃ w', w.call call = some w' ∧ Writes w' (tape.add call) := by
  cases call with
  | raw recTid data addr =>
    refine ⟨_, rfl, { h with rawRecs := ?_, rawData := ?_ }⟩
    · simp only [Writer.writeRaw, Recording.add, h.rawRecs, map_append, map_singleton]
      rfl
    · simp only [Writer.writeRaw, Recording.add, h.rawData, rawBytes, map_append,
        map_singleton, flatten_append, flatten_singleton, append_assoc]
  | mappedRegion c =>
    refine ⟨_, rfl, { h with files := ?_, mmapCount := ?_, mmaps := ?_ }⟩
    · simp only [Writer.writeMappedRegion, Recording.add, h.files, h.mmapCount]
    · simp only [Writer.writeMappedRegion, Recording.add, h.mmapCount]
    · simp only [Writer.writeMappedRegion, Recording.add, h.files, h.mmapCount, h.mmaps, h.time,
        regionMsgs, map_append, map_singleton, append_assoc]
      rfl
  | taskEvent event =>
    refine ⟨_, rfl, { h with tasks := ?_ }⟩
    simp only [Writer.writeTaskEvent, Recording.add, h.tasks, h.time, taskMsgs, map_append,
      map_singleton]
  | frame t ev registers extraRegisters =>
    obtain ⟨event, hto, _⟩ := fromTraceEvent_to t.arch hc.2.2.1
    let f : FrameRecord := ⟨tape.time, t, ev, registers, extraRegisters, tape.raws, tape.regions⟩
    have hw : w.rawRecs.map (fun r => (⟨r.recTid, r.addr, r.size⟩ : MemWriteMsg)) =
        f.raws.map RawRecord.memWrite := by
      rw [h.rawRecs, List.map_map]
      rfl
    refine ⟨_, by simp only [Writer.call, Writer.writeFrame, hto]; rfl, ?_⟩
    exact
      { files := h.files
        mmapCount := h.mmapCount
        tasks := h.tasks
        rawRecs := rfl
        time := by
          simp only [h.time, Recording.time, Recording.add, length_append,
            length_singleton]
        events := rel_append h.events
          (.cons (a := f) ⟨event, hto, by rw [hw]⟩ .nil)
        rawData := by
          simp only [h.rawData, Recording.add, frameBytes, map_append, map_singleton,
            flatten_append, flatten_singleton]
          exact (append_nil _).symm
        mmaps := by
          simp only [h.mmaps, Recording.add, frameMsgs, map_append, map_singleton,
            flatten_append, flatten_singleton]
          exact (append_nil _).symm }

theorem run_writes {tape : Recording} {calls : List WriteCall}
    (hca : ∀ c ∈ calls, c.Ok env) (hrec : tape.Ok env) (h : Writes w tape) :
    ∃ w', Writer.run calls w = some w' ∧ Writes w' (calls.foldl Recording.add tape) ∧
      (calls.foldl Recording.add tape).Ok env := by
  induction calls generalizing w tape with
  | nil => exact ⟨w, rfl, h, hrec⟩
  | cons c calls ih =>
    have hc := hca c mem_cons_self
    obtain ⟨w1, hw1, hw⟩ := h.call hc
    obtain ⟨w2, hw2, hr⟩ := ih (fun d hd => hca d (mem_cons_of_mem _ hd)) (hrec.add hc)
      hw
    refine ⟨w2, ?_, hr⟩
    simp only [Writer.run, hw1, bind_eq_bind, bind_some]
    exact hw2

end Recordings

section Playbacks

/-- The reader is at the point of the playback; behind the frames there may be data that belong to
no frame. -/
structure Plays (env : Environment) (bytes : List UInt8) (msgs : List MMapMsg) (r : Reader)
    (p : Playback) : Prop where
  time : r.globalTime = p.time
  rawRecs : r.rawRecs = (p.raws.map RawRecord.metadata).reverse
  events : List.Forall₂ Encodes p.frames r.events.rest
  rawData : r.rawData = rawBytes p.raws ++ (frameBytes p.frames ++ bytes)
  mmaps : r.mmaps.rest = regionMsgs p.time p.regions ++ (frameMsgs p.frames ++ msgs)
  tasks : r.tasks.rest = taskMsgs p.tasks
  framesOk : ∀ f ∈ p.frames, f.Ok env
  rawsOk : ∀ g ∈ p.raws, 0 < g.recTid
  regionsOk : ∀ g ∈ p.regions, g.Ok
  tasksOk : ∀ e ∈ p.tasks, e.2.Ok
  times : p.frames.map FrameRecord.time = range' (p.time + 1) p.frames.length
  later : ∀ m ∈ msgs, p.time + p.frames.length < m.frameTime
  started : p.regions ≠ [] → 0 < p.time

theorem i32ToTid_eq (h : 0 < tid) : i32ToTid tid = some tid := if_neg (Int.not_le.mpr h)

theorem mem_frameMsgs (hm : m ∈ frameMsgs frames) : ∃ f ∈ frames, m.frameTime = f.time := by
  rw [frameMsgs, mem_flatten] at hm
  obtain ⟨l, hl, hm⟩ := hm
  obtain ⟨f, hf, rfl⟩ := mem_map.mp hl
  obtain ⟨g, _, rfl⟩ := mem_map.mp hm
  exact ⟨f, hf, rfl⟩

theorem Plays.later_msgs (h : Plays env bytes msgs r p) :
    ∀ m ∈ frameMsgs p.frames ++ msgs, p.time < m.frameTime := by
  intro m hm
  rcases mem_append.mp hm with hm | hm
  · obtain ⟨f, hf, hmf⟩ := mem_frameMsgs hm
    have hmem : f.time ∈ p.frames.map FrameRecord.time := mem_map_of_mem hf
    rw [h.times, mem_range'_1] at hmem
    omega
  · have hl := h.later m hm
    omega

theorem read_rawRecs {raws : List RawRecord} (h : ∀ g ∈ raws, 0 < g.recTid) :
    ((raws.map RawRecord.memWrite).reverse.mapM fun w => do
      let tid ← i32ToTid w.tid
      return (⟨w.addr, w.size, tid⟩ : RawDataMetadata)) =
      some (raws.map RawRecord.metadata).reverse := by
  rw [← map_reverse, ← map_reverse]
  refine mapM_map_eq_some ?_
  intro g hg
  simp only [RawRecord.memWrite, i32ToTid_eq (h g (mem_reverse.mp hg))]
  rfl

theorem Plays.frame (h : Plays env bytes msgs r p) (hf : p.frames = f :: fs)
    (hra : p.raws = []) (hre : p.regions = []) :
    ∃ r', r.readFrame env = some (f.seen, r') ∧
      Plays env bytes msgs r' ⟨f.time, fs, f.raws, f.regions, p.tasks⟩ := by
  have he := h.events
  have ht := h.times
  have hl := h.later
  have hr := h.rawData
  have hmm := h.mmaps
  rw [hf] at he ht hl
  rw [hf, hra] at hr
  rw [hf, hre] at hmm
  simp only [map_cons, length_cons, range'_succ, cons.injEq] at ht
  obtain ⟨hti, ht⟩ := ht
  cases hres : r.events.rest with
  | nil =>
    rw [hres] at he
    cases he
  | cons m ms =>
    rw [hres] at he
    obtain ⟨⟨event, hto, rfl⟩, hla⟩ := forall₂_cons.mp he
    have hok := h.framesOk f (by rw [hf]; exact mem_cons_self)
    obtain ⟨event', hto', hfr⟩ := fromTraceEvent_to f.task.arch hok.ev
    cases hto.symm.trans hto'
    have hex : ¬ (f.extraRegisters ≠ [] ∧ env.xsaveOk f.task.arch f.extraRegisters = false) := by
      rintro ⟨hne, hbad⟩
      rcases hok.extra with hnil | hgo
      · exact hne hnil
      · rw [hgo] at hbad
        cases hbad
    have hn : r.globalTime + 1 = f.time := by rw [h.time, hti]
    have hrea := read_rawRecs hok.raws
    simp only [bind_eq_bind] at hrea
    let r' : Reader := { r with
      globalTime := f.time
      rawRecs := (f.raws.map RawRecord.metadata).reverse
      events := { r.events with rest := ms } }
    refine ⟨r', ?_, ?_⟩
    · simp only [Reader.readFrame, MessageStream.next, hres, bind_eq_bind, bind_some,
        hrea, i32ToTid_eq hok.tid, if_neg (Int.not_lt.mpr hok.ticks),
        fromTraceArch_to, if_neg hex, hfr, hn]
      rfl
    · exact
        { time := rfl
          rawRecs := rfl
          events := hla
          rawData := by
            change r.rawData = _
            simp only [hr, rawBytes, frameBytes, map_cons, map_nil,
              flatten_cons, flatten_nil, nil_append, append_assoc]
          mmaps := by
            change r.mmaps.rest = _
            simp only [hmm, regionMsgs, frameMsgs, map_cons, map_nil,
              flatten_cons, nil_append, append_assoc]
          tasks := h.tasks
          framesOk := fun g hg => h.framesOk g (by rw [hf]; exact mem_cons_of_mem _ hg)
          rawsOk := hok.raws
          regionsOk := hok.regions
          tasksOk := h.tasksOk
          times := by rw [ht, hti]
          later := by
            intro m hm
            have hlt := hl m hm
            simp only [length_cons] at hlt
            simp only
            omega
          started := by
            intro _
            simp only
            omega }

theorem readBytes_append (data rest : List UInt8) :
    Reader.readBytes data.length (data ++ rest) = (data, rest) := by
  have hz : data.length - (data ++ rest).length = 0 := by
    rw [length_append]
    omega
  rw [Reader.readBytes, hz, take_left, drop_left, replicate_zero, append_nil]

section

variable (h : Plays env bytes msgs r p)
include h

theorem Plays.popRaw (hra : p.raws = g :: gs) : Plays env bytes msgs
      { r with rawRecs := r.rawRecs.dropLast, rawData := r.rawData.drop g.data.length }
      { p with raws := gs } := by
  have hr := h.rawData
  rw [hra, rawBytes, map_cons, flatten_cons, append_assoc] at hr
  exact { h with
    rawRecs := by
      change r.rawRecs.dropLast = _
      rw [h.rawRecs, hra, map_cons, reverse_cons, dropLast_concat]
    rawData := by
      change r.rawData.drop _ = _
      rw [hr, drop_left]
      rfl
    rawsOk := fun x hx => h.rawsOk x (by rw [hra]; exact mem_cons_of_mem _ hx) }

theorem Plays.getLast_rawRecs : r.rawRecs.getLast? = (p.raws.map RawRecord.metadata).head? := by
  rw [h.rawRecs, getLast?_reverse]

theorem Plays.raw (hra : p.raws = g :: gs) :
    ∃ r', r.readRawDataForFrame = (some ⟨g.data, g.addr, g.recTid⟩, r') ∧
      Plays env bytes msgs r' { p with raws := gs } := by
  have hl := h.getLast_rawRecs
  have hr := h.rawData
  rw [hra] at hl
  rw [hra, rawBytes, map_cons, flatten_cons, append_assoc] at hr
  refine ⟨_, ?_, h.popRaw hra⟩
  simp only [Reader.readRawDataForFrame, hl, map_cons, head?_cons, RawRecord.metadata,
    hr, readBytes_append, drop_left]

theorem Plays.rawMetadata (hr : p.raws = g :: gs) :
    ∃ r', r.readRawDataMetadataForFrame = (some g.metadata, r') ∧
      Plays env bytes msgs r' { p with raws := gs } := by
  have hl := h.getLast_rawRecs
  rw [hr] at hl
  refine ⟨_, ?_, h.popRaw hr⟩
  simp only [Reader.readRawDataMetadataForFrame, hl, map_cons, head?_cons]
  rfl

theorem Plays.region (hr : p.regions = g :: gs)
    (ha : g.available env.toTraceDir validate = true) :
    readMappedRegion env.toTraceDir r.globalTime validate .currentTimeOnly r.mmaps =
        some (some (g.seen env.toTraceDir p.time),
          ⟨regionMsgs p.time gs ++ (frameMsgs p.frames ++ msgs), none⟩) ∧
      Plays env bytes msgs
        { r with mmaps := ⟨regionMsgs p.time gs ++ (frameMsgs p.frames ++ msgs), none⟩ }
        { p with regions := gs } := by
  have hm := h.mmaps
  rw [hr] at hm
  have hok := h.regionsOk g (by rw [hr]; exact mem_cons_self)
  have ht := h.started (by rw [hr]; exact cons_ne_nil g gs)
  refine ⟨?_, { h with mmaps := rfl, regionsOk := ?_, started := fun _ => ht }⟩
  · rw [h.time]
    exact readMappedRegion_found hm hok ht ha
  · intro x hx
    exact h.regionsOk x (by rw [hr]; exact mem_cons_of_mem _ hx)

end

theorem readTaskEventKind_eq (h : k.Ok) : Reader.readTaskEventKind k = some k := by
  cases k with
  | clone parentTid ownNsTid cloneFlags =>
    simp only [Reader.readTaskEventKind, i32ToTid_eq h.1, i32ToTid_eq h.2]
    rfl
  | exec fileName cmdLine exeBase =>
    have ha : cmdLine.mapM dataToStr = some cmdLine :=
      mapM_eq_self fun arg harg => dataToStr_eq (h.2 arg harg)
    simp only [Reader.readTaskEventKind, dataToStr_eq h.1, ha]
    rfl
  | exit exitStatus => rfl

section

variable (h : Plays env bytes msgs r p)
include h

theorem Plays.task (ht : p.tasks = event :: ts) :
    ∃ r', r.readTaskEvent = some (some event, r') ∧
      Plays env bytes msgs r' { p with tasks := ts } := by
  have hr := h.tasks
  rw [ht] at hr
  have hok := h.tasksOk event (by rw [ht]; exact mem_cons_self)
  have hre : r.readTaskEvent =
      some (some event, { r with tasks := ⟨taskMsgs ts, r.tasks.saved⟩ }) := by
    simp only [Reader.readTaskEvent, MessageStream.atEnd, MessageStream.next, hr, taskMsgs,
      map_cons, isEmpty_cons, Bool.false_eq_true, if_false, bind_eq_bind,
      bind_some, i32ToTid_eq hok.1, readTaskEventKind_eq hok.2]
    rfl
  refine ⟨_, hre, { h with tasks := rfl, tasksOk := ?_ }⟩
  intro e he
  exact h.tasksOk e (by rw [ht]; exact mem_cons_of_mem _ he)

theorem Plays.op (hop : p.op env o = some (result, p')) :
    ∃ r', r.op env o = some (result, r') ∧ Plays env bytes msgs r' p' := by
  have hla := h.getLast_rawRecs
  cases o with
  | frame =>
    rw [Playback.op] at hop
    split at hop
    · rename_i hf hra hr
      cases hop
      obtain ⟨r', hre, hp⟩ := h.frame hf hra hr
      exact ⟨r', by simp only [Reader.op, hre]; rfl, hp⟩
    · cases hop
  | raw =>
    rw [Playback.op] at hop
    split at hop
    · rename_i hra
      rw [hra, map_nil, head?_nil] at hla
      cases hop
      exact ⟨r, by simp only [Reader.op, Reader.readRawDataForFrame, hla], h⟩
    · rename_i hra
      cases hop
      obtain ⟨r', hre, hp⟩ := h.raw hra
      exact ⟨r', by simp only [Reader.op, hre], hp⟩
  | rawMetadata =>
    rw [Playback.op] at hop
    split at hop
    · rename_i hra
      rw [hra, map_nil, head?_nil] at hla
      cases hop
      exact ⟨r, by simp only [Reader.op, Reader.readRawDataMetadataForFrame, hla], h⟩
    · rename_i hra
      cases hop
      obtain ⟨r', hre, hp⟩ := h.rawMetadata hra
      exact ⟨r', by simp only [Reader.op, hre]; rfl, hp⟩
  | region validate =>
    rw [Playback.op] at hop
    split at hop
    · rename_i hr
      have hm := h.mmaps
      rw [hr] at hm
      have hl : ∀ m ∈ r.mmaps.rest, p.time < m.frameTime := by
        rw [hm]
        exact h.later_msgs
      obtain ⟨mmaps, hre, hres⟩ := readMappedRegion_later env.toTraceDir validate hl
      rw [← h.time] at hre
      cases hop
      refine ⟨{ r with mmaps := mmaps }, by simp only [Reader.op, hre]; rfl, { h with mmaps := ?_ }⟩
      exact hres.trans h.mmaps
    · rename_i hr
      obtain ⟨ha, hop⟩ := ite_none_right_eq_some.mp hop
      cases hop
      obtain ⟨hre, hp⟩ := h.region hr ha
      exact ⟨_, by simp only [Reader.op, hre]; rfl, hp⟩
  | task =>
    rw [Playback.op] at hop
    split at hop
    · rename_i ht
      have hres := h.tasks
      rw [ht] at hres
      have hre : r.readTaskEvent = some (none, r) := by
        simp only [Reader.readTaskEvent, MessageStream.atEnd, hres]
        rfl
      cases hop
      exact ⟨r, by simp only [Reader.op, hre]; rfl, h⟩
    · rename_i ht
      cases hop
      obtain ⟨r', hre, hp⟩ := h.task ht
      exact ⟨r', by simp only [Reader.op, hre]; rfl, hp⟩

theorem Plays.run (hrun : p.run env ops = some results) : r.run env ops = some results := by
  induction ops generalizing r p results with
  | nil => exact hrun
  | cons o ops ih =>
    simp only [Playback.run, bind_eq_bind, bind_eq_some_iff] at hrun
    obtain ⟨⟨result, p'⟩, hop, rest, hre, heq⟩ := hrun
    cases heq
    obtain ⟨r', hr, hp⟩ := h.op hop
    simp only [Reader.run, hr, bind_eq_bind, bind_some, ih hp hre]
    rfl

end

theorem Writes.plays (h : Writes w tape) (hok : tape.Ok env) :
    Plays env (rawBytes tape.raws) (regionMsgs tape.time tape.regions) (Reader.openTrace w)
      (Playback.ofRecording tape) where
  time := rfl
  rawRecs := rfl
  events := h.events
  rawData := h.rawData
  mmaps := h.mmaps
  tasks := h.tasks
  framesOk := hok.frames
  rawsOk _ hg := absurd hg not_mem_nil
  regionsOk _ hg := absurd hg not_mem_nil
  tasksOk := hok.tasks
  times := hok.times
  later m hm := by
    obtain ⟨g, _, rfl⟩ := mem_map.mp hm
    change 0 + tape.frames.length < tape.time
    rw [Recording.time]
    omega
  started hne := absurd rfl hne

end Playbacks

/-- A reader that drains each frame before the next sees the frames in order, each with its raw
records, mapped regions and kept event. -/
theorem reader_sees_recording (env : Environment) (calls : List WriteCall)
    (hcalls : ∀ c ∈ calls, c.Ok env) :
    ∃ w, Writer.run calls Writer.initial = some w ∧ ∀ ops results,
      (Playback.ofRecording (.ofCalls calls)).run env ops = some results →
        (Reader.openTrace w).run env ops = some results := by
  have hok : Recording.initial.Ok env :=
    ⟨fun _ h => absurd h not_mem_nil, fun _ h => absurd h not_mem_nil,
      fun _ h => absurd h not_mem_nil, fun _ h => absurd h not_mem_nil,
      fun _ h => absurd h not_mem_nil, rfl⟩
  have hwr : Writes Writer.initial Recording.initial := ⟨rfl, rfl, rfl, rfl, .nil, rfl, rfl, rfl⟩
  obtain ⟨w, hrun, hw, ht⟩ := run_writes hcalls hok hwr
  exact ⟨w, hrun, fun ops results hops => (hw.plays ht).run hops⟩

/-- Two frames: of the first record only the metadata is read, and then the bytes of the second. -/
theorem reader_sees_recording_two_frames : ∃ w, Writer.run
      [.raw 7 [1, 2] 0x1000,
        .mappedRegion ⟨⟨⟨0x2000, 0x3000⟩, "".toList, 0, 0, 0x3, mapPrivate ||| mapAnonymous, 0⟩,
          ⟨0, 0, 0, 0, 0, 0, 0⟩, [], .rrBufferMapping, false,
          ⟨"".toList, false, false, false, false, false⟩⟩,
        .frame ⟨7, 3, .x86_64⟩ .sched [] [], .raw 7 [9] 0x1008, .frame ⟨7, 4, .x86_64⟩ .exit [] []]
      Writer.initial = some w ∧
      (Reader.openTrace w).run ⟨⟨"/trace".toList, fun _ => true⟩, fun _ _ => true⟩
        [.frame, .rawMetadata, .region .validate, .region .validate, .frame, .raw, .raw] =
      some [.frame ⟨1, 7, 3, .x86_64, [], [], .sched⟩, .rawMetadata (some ⟨0x1000, 2, 7⟩),
        .region (some ⟨⟨⟨0x2000, 0x3000⟩, "".toList, 0, 0, 0x3, mapPrivate ||| mapAnonymous, 0⟩,
          ⟨1, .sourceZero, [], 0, 0⟩, [], false⟩), .region none,
        .frame ⟨2, 7, 4, .x86_64, [], [], .exit⟩, .raw (some ⟨[9], 0x1008, 7⟩), .raw none] := by
  refine (reader_sees_recording _ _ ?_).imp fun w hw => ⟨hw.1, hw.2 _ _ rfl⟩
  decide

/-- A restarted syscall is stored as `restart_syscall`, so the event that is read is not the one that
was written. -/
theorem restarted_syscall_event_changes :
    (WriteCall.frame ⟨7, 3, .x86_64⟩ (.syscall { SyscallEvent.new 0 .x86_64 with
      state := .exitingSyscall, isRestart := true }) [] []).Ok
        ⟨⟨"/trace".toList, fun _ => true⟩, fun _ _ => true⟩ ∧
    ∃ w frame, Writer.run [.frame ⟨7, 3, .x86_64⟩ (.syscall { SyscallEvent.new 0 .x86_64 with
        state := .exitingSyscall, isRestart := true }) [] []] Writer.initial = some w ∧
      (Reader.openTrace w).run ⟨⟨"/trace".toList, fun _ => true⟩, fun _ _ => true⟩ [.frame] =
        some [.frame frame] ∧
      frame.ev ≠ .syscall { SyscallEvent.new 0 .x86_64 with
        state := .exitingSyscall, isRestart := true } := by
  refine ⟨by decide, _, ⟨1, 7, 3, .x86_64, [], [], .syscall { SyscallEvent.new 219 .x86_64 with
    state := .exitingSyscall }⟩, rfl, rfl, by decide⟩

end Attune.Trace
