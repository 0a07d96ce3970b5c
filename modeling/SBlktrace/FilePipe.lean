import SBlktrace.PipeBatches
import SBlktrace.FileMerge
import Mathlib

namespace SBlktrace

open Function KWayMerge

def dumpsOf (log : List Handed) : List BlkIoTrace :=
  log.filterMap (fun
    | .notify _ _ _ => none
    | .trace _ _ bit dumped => if dumped then some bit else none)

def inFile (opts : BlkparseOptions) (genesis : UInt64) (b : BlkIoTrace) : Bool :=
  within opts genesis b &&
    (b.actMasked opts && (b.relative genesis).time ≥ opts.stopwatchStart)

/-- The pipe interleaves the trace files, those of device number `d` under the id `ids[d]`, and
each stream numbers its records consecutively. -/
structure Interleaves (ids : List UInt32) (devices : List (List (List BlkIoTrace)))
    (input : List PipeItem) : Prop where
  distinct : ids.Nodup
  length : ids.length = devices.length
  known : ∀ b ∈ recordsOf input, b.device ∈ ids
  streams : ∀ d id, ids[d]? = some id → ∀ c,
    (recordsOf input).filter (fun b => b.device = id ∧ b.cpu.toNat = c) = fileAt devices (d, c)
  consecutive : ∀ k, (fileAt devices k).IsChain
    (fun a b => b.sequence.toNat = a.sequence.toNat + 1)

def streamKey (ids : List UInt32) (b : BlkIoTrace) : ℕ × ℕ := (ids.idxOf b.device, b.cpu.toNat)

variable {opts : BlkparseOptions} {ids : List UInt32} {devices : List (List (List BlkIoTrace))}
  {input : List PipeItem}

theorem Interleaves.stream (hi : Interleaves ids devices input) (k : ℕ × ℕ) :
    (recordsOf input).filter (fun b => streamKey ids b = k) = fileAt devices k := by
  obtain ⟨d, c⟩ := k
  by_cases hd : d < ids.length
  · rw [← hi.streams d ids[d] (List.getElem?_eq_getElem hd) c]
    apply List.filter_congr
    intro b hb
    have hdev : ids.idxOf b.device = d ↔ b.device = ids[d] := by
      constructor
      · rintro rfl
        exact (List.getElem_idxOf hd).symm
      · intro h
        rw [h, hi.distinct.idxOf_getElem]
    simp [streamKey, hdev]
  · have hnone : fileAt devices (d, c) = [] := by
      rw [hi.length] at hd
      simp [fileAt, List.getElem?_eq_none (not_lt.mp hd)]
    rw [hnone, List.filter_eq_nil_iff]
    intro b hb
    have hlt := List.idxOf_lt_length_of_mem (hi.known b hb)
    have hne : ids.idxOf b.device ≠ d := by omega
    simp [streamKey, hne]

theorem Interleaves.eventStream (hi : Interleaves ids devices input) (k : ℕ × ℕ) :
    (events (recordsOf input)).filter (fun b => streamKey ids b = k) =
      events (fileAt devices k) := by
  rw [← hi.stream k, events, events, List.filter_filter, List.filter_filter]
  apply List.filter_congr
  intro b _
  exact Bool.and_comm _ _

theorem Interleaves.verified (hi : Interleaves ids devices input) (hd : TraceFiles devices) :
    Verified input := by
  intro b hb
  have hmem : b ∈ fileAt devices (streamKey ids b) := by
    rw [← hi.stream]
    simp [hb]
  obtain ⟨hmagic, hverify, -⟩ := hd.readable _ b hmem
  exact ⟨hmagic, hverify⟩

theorem earliest_spec (l : List BlkIoTrace) :
    (∀ b ∈ l, earliest l ≤ b.time) ∧ (l ≠ [] → ∃ b ∈ l, earliest l = b.time) := by
  induction l with
  | nil => simp
  | cons a l ih =>
    obtain ⟨hle, hattained⟩ := ih
    rw [earliest, List.foldr_cons, ← earliest]
    by_cases hlt : a.time < earliest l
    · rw [if_pos hlt]
      refine ⟨?_, fun _ => ⟨a, by simp, rfl⟩⟩
      intro b hb
      rcases List.mem_cons.mp hb with rfl | hb
      · exact UInt64.le_refl _
      · exact UInt64.le_trans (UInt64.le_of_lt hlt) (hle b hb)
    · rw [if_neg hlt]
      have hle' : earliest l ≤ a.time := UInt64.not_lt.mp hlt
      refine ⟨?_, fun _ => ?_⟩
      · intro b hb
        rcases List.mem_cons.mp hb with rfl | hb
        · exact hle'
        · exact hle b hb
      · by_cases hl : l = []
        · refine ⟨a, by simp, UInt64.le_antisymm hle' ?_⟩
          rw [hl, UInt64.le_iff_toNat_le]
          exact Nat.le_of_lt_succ a.time.toNat_lt
        · obtain ⟨b, hb, h⟩ := hattained hl
          exact ⟨b, by simp [hb], h⟩

theorem earliest_eq {l : List BlkIoTrace} {m : BlkIoTrace} (hm : m ∈ l)
    (hle : ∀ b ∈ l, m.time ≤ b.time) : earliest l = m.time := by
  obtain ⟨hl, hattained⟩ := earliest_spec l
  obtain ⟨b, hb, h⟩ := hattained (List.ne_nil_of_mem hm)
  apply UInt64.le_antisymm (hl m hm)
  rw [h]
  exact hle b hb

theorem takeWhile_eq_filter {α : Type} {p : α → Bool} {l : List α}
    (h : l.Pairwise (fun a b => p b = true → p a = true)) : l.takeWhile p = l.filter p := by
  induction l with
  | nil => rfl
  | cons a l ih =>
    obtain ⟨ha, hl⟩ := List.pairwise_cons.mp h
    by_cases hp : p a = true
    · rw [List.takeWhile_cons_of_pos hp, List.filter_cons_of_pos hp, ih hl]
    · rw [List.takeWhile_cons_of_neg hp, List.filter_cons_of_neg hp, eq_comm,
        List.filter_eq_nil_iff]
      exact fun b hb hpb => hp (ha b hb hpb)

def dumpOfFile (opts : BlkparseOptions) (genesis : UInt64) (b : BlkIoTrace) : Option BlkIoTrace :=
  if inFile opts genesis b then some (b.relative genesis) else none

theorem dumpsOf_filter (log : List Handed) : dumpsOf (log.filter Handed.isTrace) = dumpsOf log := by
  rw [dumpsOf, dumpsOf, List.filterMap_filter]
  congr 1
  funext h
  cases h <;> rfl

theorem dumpsOf_report (genesis : UInt64) (full : List ((ℕ × ℕ) × BlkIoTrace)) :
    dumpsOf ((full.filter (fun p => within opts genesis p.2)).map (report opts genesis)) =
      (full.map Prod.snd).filterMap (dumpOfFile opts genesis) := by
  rw [dumpsOf, List.filterMap_map, List.filterMap_filter, List.filterMap_map]
  congr 1
  funext p
  by_cases hw : within opts genesis p.2 = true
  · have hmask : (p.2.relative genesis).actMasked opts = p.2.actMasked opts := rfl
    simp [report, dumpOfFile, inFile, hw, hmask]
  · simp [dumpOfFile, inFile, hw]

theorem doFile_dumps (hb : 1 ≤ opts.rbBatch) (hd : TraceFiles devices)
    (hi : Interleaves ids devices input) :
    ∃ st, doFile opts devices = some (st, 0) ∧
      (dumpsOf st.log).Perm ((events (recordsOf input)).filterMap
        (dumpOfFile opts (earliest (events (recordsOf input))))) := by
  obtain ⟨st, full, hrun, hof⟩ := doFile_spec hb hd
  have htrans : ∀ a b c, timeLe a b → timeLe b c → timeLe a c :=
    fun a b c hab hbc => UInt64.le_trans hab hbc
  have hsorted := hof.merged.sorted htrans hd.sorted
  have hkey : ∀ k, ∀ b ∈ events (fileAt devices k), streamKey ids b = k := by
    intro k b hb
    rw [← hi.eventStream k] at hb
    simpa using (List.mem_filter.mp hb).2
  have hperm := hof.merged.perm hkey hi.eventStream
  refine ⟨st, hrun, ?_⟩
  cases hfull : full with
  | nil =>
    rw [hfull, List.map_nil] at hperm
    rw [← dumpsOf_filter, hof.traces, hfull, hperm.symm.eq_nil]
    exact List.Perm.refl _
  | cons p out =>
    have hleast : ∀ q ∈ full, p.2.time ≤ q.2.time := by
      intro q hq
      rw [hfull] at hq hsorted
      rcases List.mem_cons.mp hq with rfl | hq
      · exact UInt64.le_refl _
      · exact (List.pairwise_cons.mp hsorted).1 q hq
    have hgenesis : genesisOf full = p.2.time := by rw [hfull]; rfl
    have hearliest : earliest (events (recordsOf input)) = p.2.time := by
      apply earliest_eq
      · rw [← hperm.mem_iff, hfull]
        simp
      · intro b hb
        obtain ⟨q, hq, rfl⟩ := List.mem_map.mp (hperm.mem_iff.mpr hb)
        exact hleast q hq
    have hwithin : full.Pairwise (fun q r => within opts p.2.time r.2 = true →
        within opts p.2.time q.2 = true) := by
      apply hsorted.imp_of_mem
      intro q r hq hr hqr hw
      simp only [within, BlkIoTrace.relative, decide_eq_true_eq, UInt64.le_iff_toNat_le] at *
      rw [UInt64.toNat_sub_of_le _ _ (hleast q hq)]
      rw [UInt64.toNat_sub_of_le _ _ (hleast r hr)] at hw
      unfold timeLe at hqr
      rw [UInt64.le_iff_toNat_le] at hqr
      omega
    rw [← dumpsOf_filter, hof.traces, hgenesis, takeWhile_eq_filter hwithin, dumpsOf_report,
      hearliest]
    exact hperm.filterMap _

def readsOf (opts : BlkparseOptions) (input : List PipeItem) : List (BlkIoTrace × UInt64) :=
  readWith opts 0 (batchesFrom opts.rbBatch [] input)

/-- The two modes see the same window: no event that is dumped falls on its end, an event read
before the base is the time `genesis` of the earliest is in neither window, and the pipe leaves no
event of the window unread. -/
structure SameWindow (opts : BlkparseOptions) (genesis : UInt64) (all : List BlkIoTrace)
    (reads : List (BlkIoTrace × UInt64)) : Prop where
  boundary : ∀ b, (b, genesis) ∈ reads → inFile opts genesis b = true →
    (b.relative genesis).time ≠ opts.stopwatchEnd
  rebased : ∀ p ∈ reads, p.2 ≠ genesis →
    inFile opts genesis p.1 = false ∧ inPipe opts p.2 p.1 = false
  unread : ∀ b ∈ all, b ∉ reads.map Prod.fst → inFile opts genesis b = false

theorem inPipe_iff {genesis : UInt64} {b : BlkIoTrace} : inPipe opts genesis b = true ↔
    inFile opts genesis b = true ∧ (b.relative genesis).time ≠ opts.stopwatchEnd := by
  have hlt : (b.relative genesis).time < opts.stopwatchEnd ↔
      (b.relative genesis).time ≤ opts.stopwatchEnd ∧
        (b.relative genesis).time ≠ opts.stopwatchEnd := UInt64.lt_iff_le_and_ne
  have hstop : checkStopwatch opts (b.relative genesis) = 0 ↔
      (b.relative genesis).time < opts.stopwatchEnd ∧
        (b.relative genesis).time ≥ opts.stopwatchStart := by
    unfold checkStopwatch
    split
    · next h => simp [h]
    · next h => simp [h]
  simp only [inPipe, inFile, within, Bool.and_eq_true, decide_eq_true_eq, hstop, hlt]
  tauto

def eventKey (b : BlkIoTrace) : UInt32 × UInt32 × UInt32 := (b.device, b.cpu, b.sequence)

section Agreement

variable {genesis : UInt64} {all : List BlkIoTrace} {reads : List (BlkIoTrace × UInt64)}

theorem eq_of_relative (hall : (all.map eventKey).Nodup) {a b : BlkIoTrace} (ha : a ∈ all)
    (hb : b ∈ all) {g g' : UInt64} (h : a.relative g = b.relative g') : a = b ∧ g = g' := by
  have hkey : eventKey a = eventKey b :=
    show eventKey (a.relative g) = eventKey (b.relative g') by rw [h]
  obtain rfl := List.inj_on_of_nodup_map hall ha hb hkey
  refine ⟨rfl, ?_⟩
  have htime : a.time - g = a.time - g' := congrArg BlkIoTrace.time h
  exact (UInt64.sub_right_inj a.time).mp htime

theorem mem_fileDumps (hall : (all.map eventKey).Nodup) {b : BlkIoTrace} (hb : b ∈ all)
    {g : UInt64} : b.relative g ∈ all.filterMap (dumpOfFile opts genesis) ↔
      g = genesis ∧ inFile opts genesis b = true := by
  rw [List.mem_filterMap]
  constructor
  · rintro ⟨a, ha, hd⟩
    unfold dumpOfFile at hd
    split at hd
    · next hin =>
      obtain ⟨rfl, rfl⟩ := eq_of_relative hall ha hb (Option.some.inj hd)
      exact ⟨rfl, hin⟩
    · exact absurd hd (by simp)
  · rintro ⟨rfl, hin⟩
    exact ⟨b, hb, by rw [dumpOfFile, if_pos hin]⟩

theorem mem_pipeDumps (hall : (all.map eventKey).Nodup) (hreads : reads.map Prod.fst <+: all)
    {b : BlkIoTrace} (hb : b ∈ all) {g : UInt64} :
    b.relative g ∈ reads.filterMap (dumpOfPipe opts) ↔ (b, g) ∈ reads ∧ inPipe opts g b = true := by
  rw [List.mem_filterMap]
  constructor
  · rintro ⟨p, hp, hd⟩
    unfold dumpOfPipe at hd
    split at hd
    · next hin =>
      have hmem : p.1 ∈ all := hreads.mem (List.mem_map_of_mem hp)
      obtain ⟨rfl, rfl⟩ := eq_of_relative hall hmem hb (Option.some.inj hd)
      exact ⟨hp, hin⟩
    · exact absurd hd (by simp)
  · rintro ⟨hp, hin⟩
    exact ⟨(b, g), hp, by rw [dumpOfPipe, if_pos hin]⟩

theorem SameWindow.dumps_eq (hw : SameWindow opts genesis all reads)
    (hall : (all.map eventKey).Nodup) (hreads : reads.map Prod.fst <+: all) :
    reads.filterMap (dumpOfPipe opts) = all.filterMap (dumpOfFile opts genesis) := by
  obtain ⟨later, rfl⟩ := hreads
  have hnodup : (reads.map Prod.fst ++ later).Nodup := hall.of_map
  have hlater : later.filterMap (dumpOfFile opts genesis) = [] := by
    rw [List.filterMap_eq_nil_iff]
    intro b hb
    have hout : b ∉ reads.map Prod.fst := fun h => List.disjoint_of_nodup_append hnodup h hb
    rw [dumpOfFile, if_neg (by simp [hw.unread b (by simp [hb]) hout])]
  rw [List.filterMap_append, hlater, List.append_nil, List.filterMap_map]
  apply List.filterMap_congr
  rintro ⟨b, g⟩ hp
  by_cases hg : g = genesis
  · subst hg
    have hiff : inPipe opts g b = true ↔ inFile opts g b = true :=
      inPipe_iff.trans ⟨And.left, fun hin => ⟨hin, hw.boundary b hp hin⟩⟩
    simp [dumpOfPipe, dumpOfFile, hiff]
  · obtain ⟨hf, hpipe⟩ := hw.rebased _ hp hg
    simp [dumpOfPipe, dumpOfFile, hf, hpipe]

theorem dumps_perm_iff (hall : (all.map eventKey).Nodup) (hreads : reads.map Prod.fst <+: all) :
    (reads.filterMap (dumpOfPipe opts)).Perm (all.filterMap (dumpOfFile opts genesis)) ↔
      SameWindow opts genesis all reads := by
  constructor
  · intro hperm
    have hread : ∀ b ∈ all, inFile opts genesis b = true →
        (b, genesis) ∈ reads ∧ inPipe opts genesis b = true := by
      intro b hb hin
      rw [← mem_pipeDumps hall hreads hb, hperm.mem_iff, mem_fileDumps hall hb]
      exact ⟨rfl, hin⟩
    have hmem : ∀ p ∈ reads, p.1 ∈ all := fun p hp => hreads.mem (List.mem_map_of_mem hp)
    have hbase : ∀ p ∈ reads, (p.1, genesis) ∈ reads → p.2 = genesis := by
      intro p hp hp'
      have hnodup : (reads.map Prod.fst).Nodup := hall.of_map.sublist hreads.sublist
      have hpair := List.inj_on_of_nodup_map hnodup hp hp' rfl
      rw [hpair]
    refine ⟨?_, ?_, ?_⟩
    · intro b hb hin
      exact (inPipe_iff.mp (hread b (hmem _ hb) hin).2).2
    · intro p hp hg
      constructor
      · rw [Bool.eq_false_iff]
        exact fun hin => hg (hbase p hp (hread p.1 (hmem p hp) hin).1)
      · rw [Bool.eq_false_iff]
        intro hin
        have hdump := (mem_pipeDumps hall hreads (hmem p hp)).mpr ⟨hp, hin⟩
        rw [hperm.mem_iff, mem_fileDumps hall (hmem p hp)] at hdump
        exact hg hdump.1
    · intro b hb hout
      rw [Bool.eq_false_iff]
      exact fun hin => hout (List.mem_map_of_mem (hread b hb hin).1)
  · intro hw
    rw [hw.dumps_eq hall hreads]

end Agreement

theorem Interleaves.distinctEvents (hi : Interleaves ids devices input) :
    ((events (recordsOf input)).map eventKey).Nodup := by
  rw [List.Nodup, List.pairwise_map, List.pairwise_iff_forall_sublist]
  intro a b hab hkey
  obtain ⟨hdev, hcpu, hseq⟩ : a.device = b.device ∧ a.cpu = b.cpu ∧ a.sequence = b.sequence := by
    simpa [eventKey] using hkey
  have hsame : streamKey ids a = streamKey ids b := by rw [streamKey, streamKey, hdev, hcpu]
  have hstream : [a, b].Sublist (fileAt devices (streamKey ids b)) := by
    have hfilter := hab.filter (fun c => streamKey ids c = streamKey ids b)
    rw [hi.eventStream] at hfilter
    have hkeep : [a, b].filter (fun c => streamKey ids c = streamKey ids b) = [a, b] := by
      simp [hsame]
    rw [hkeep] at hfilter
    exact hfilter.trans List.filter_sublist
  have hchain : (fileAt devices (streamKey ids b)).Pairwise
      (fun c d => c.sequence.toNat < d.sequence.toNat) := by
    have : IsTrans BlkIoTrace (fun c d => c.sequence.toNat < d.sequence.toNat) :=
      ⟨fun _ _ _ h h' => lt_trans h h'⟩
    apply List.isChain_iff_pairwise.mp
    exact (hi.consecutive _).imp (fun c d h => by omega)
  have hlt := List.pairwise_iff_forall_sublist.mp hchain hstream
  rw [hseq] at hlt
  exact absurd hlt (lt_irrefl _)

/-- The dumps of `do_file` and of `do_pipe` are the same multiset, whatever the interleaving,
exactly when the windows agree. -/
theorem file_pipe_agree_iff (opts : BlkparseOptions)
    (find : PipeMode → BlkIoTrace → UInt64 → Bool) (ids : List UInt32)
    (devices : List (List (List BlkIoTrace))) (input : List PipeItem) (hb : 1 ≤ opts.rbBatch)
    (hd : TraceFiles devices) (hi : Interleaves ids devices input) :
    ∃ file pipe, doFile opts devices = some (file, 0) ∧ doPipe find opts input = some pipe ∧
      (pipe.dumps.Perm (dumpsOf file.log) ↔
        SameWindow opts (earliest (events (recordsOf input))) (events (recordsOf input))
          (readsOf opts input)) := by
  obtain ⟨file, hfile, hfileDumps⟩ := doFile_dumps hb hd hi
  obtain ⟨pipe, hpipe, hpipeDumps⟩ := @doPipe_spec opts find input hb (hi.verified hd)
  refine ⟨file, pipe, hfile, hpipe, ?_⟩
  have hreads : (readsOf opts input).map Prod.fst <+: events (recordsOf input) := by
    have h := readWith_prefix opts 0 (batchesFrom opts.rbBatch [] input)
    rw [batchesFrom_flatten, List.nil_append] at h
    exact h
  rw [← dumps_perm_iff hi.distinctEvents hreads]
  constructor
  · intro h
    exact hpipeDumps.symm.trans (h.trans hfileDumps)
  · intro h
    exact hpipeDumps.trans (h.trans hfileDumps.symm)

def oneFile : List (List (List BlkIoTrace)) := [[[queueEvent 1 5 0, queueEvent 2 7 0]]]

def onePipe : List PipeItem := [.record (queueEvent 1 5 0), .gap, .record (queueEvent 2 7 0)]

theorem oneFile_traceFiles : TraceFiles oneFile := by
  have hcases : ∀ k, fileAt oneFile k = [] ∨ k = (0, 0) := by
    rintro ⟨_ | d, _ | c⟩
    · simp
    · exact Or.inl rfl
    · exact Or.inl rfl
    · exact Or.inl rfl
  refine ⟨by decide, ?_, ?_⟩
  · intro k
    rcases hcases k with h | rfl
    · rw [h]
      intro b hb
      exact absurd hb (by simp)
    · unfold Readable
      decide
  · intro k
    rcases hcases k with h | rfl
    · rw [h]
      exact List.Pairwise.nil
    · have h : events (fileAt oneFile (0, 0)) = [queueEvent 1 5 0, queueEvent 2 7 0] := by decide
      rw [h]
      simp [timeLe, queueEvent]

theorem onePipe_interleaves : Interleaves [0x00800010] oneFile onePipe := by
  refine ⟨by decide, rfl, by decide, ?_, ?_⟩
  · intro d id hid c
    cases d with
    | succ d => exact absurd hid (by simp)
    | zero =>
      obtain rfl : 0x00800010 = id := Option.some.inj hid
      cases c with
      | zero => decide
      | succ c =>
        rw [show fileAt oneFile (0, c + 1) = [] from rfl]
        simp [onePipe, recordsOf, queueEvent]
  · rintro ⟨_ | d, _ | c⟩
    · exact List.isChain_pair.mpr (by decide)
    · exact List.IsChain.nil
    · exact List.IsChain.nil
    · exact List.IsChain.nil

theorem file_pipe_agree_oneFile :
    1 ≤ (⟨1, 0xffffffff, 0, 3⟩ : BlkparseOptions).rbBatch ∧ TraceFiles oneFile ∧
      Interleaves [0x00800010] oneFile onePipe ∧
      ∃ file pipe, doFile ⟨1, 0xffffffff, 0, 3⟩ oneFile = some (file, 0) ∧
        doPipe (fun _ _ _ => false) ⟨1, 0xffffffff, 0, 3⟩ onePipe = some pipe ∧
        (pipe.dumps.Perm (dumpsOf file.log) ↔
          SameWindow ⟨1, 0xffffffff, 0, 3⟩ (earliest (events (recordsOf onePipe)))
            (events (recordsOf onePipe)) (readsOf ⟨1, 0xffffffff, 0, 3⟩ onePipe)) :=
  ⟨by decide, oneFile_traceFiles, onePipe_interleaves,
    file_pipe_agree_iff ⟨1, 0xffffffff, 0, 3⟩ _ _ _ _ (by decide) oneFile_traceFiles
      onePipe_interleaves⟩

/-- The event at the end of the window is dumped by `do_file` only. -/
theorem end_of_window_differs :
    ¬∀ (opts : BlkparseOptions) (ids : List UInt32) (devices : List (List (List BlkIoTrace)))
      (input : List PipeItem), 1 ≤ opts.rbBatch → TraceFiles devices →
      Interleaves ids devices input →
      (∀ batch ∈ (batchesFrom opts.rbBatch [] input).head?,
        ∃ b ∈ batch, ∀ b' ∈ events (recordsOf input), b.time ≤ b'.time) →
      ∀ file pipe, doFile opts devices = some (file, 0) →
        doPipe (fun _ _ _ => false) opts input = some pipe →
        pipe.dumps.Perm (dumpsOf file.log) := by
  intro hall
  have hb : 1 ≤ (⟨1, 0xffffffff, 0, 2⟩ : BlkparseOptions).rbBatch := by decide
  obtain ⟨file, hfile, hfileDumps⟩ := doFile_dumps hb oneFile_traceFiles onePipe_interleaves
  obtain ⟨pipe, hpipe, hpipeDumps⟩ :=
    @doPipe_spec ⟨1, 0xffffffff, 0, 2⟩ (fun _ _ _ => false) onePipe hb
      (onePipe_interleaves.verified oneFile_traceFiles)
  have hperm := hall _ _ _ _ hb oneFile_traceFiles onePipe_interleaves (by decide) file pipe hfile
    hpipe
  have hlength := (hpipeDumps.symm.trans (hperm.trans hfileDumps)).length_eq
  exact absurd hlength (by decide)

end SBlktrace
