import SBlktrace.PipeBatches
import SBlktrace.FilePipe
import Mathlib

namespace SBlktrace

open Function

def dumpedSequences (k : UInt32 × UInt32) (dumps : List BlkIoTrace) : List UInt32 :=
  (dumps.filter (fun b => (b.device, b.cpu) = k ∧ b.action ≠ blkTnMessage)).map BlkIoTrace.sequence

def NextSequence (a b : UInt32) : Prop := b.toNat = a.toNat + 1

theorem dumpedSequences_append (k : UInt32 × UInt32) (dumps : List BlkIoTrace) (b : BlkIoTrace) :
    dumpedSequences k (dumps ++ [b]) =
      if (b.device, b.cpu) = k ∧ b.action ≠ blkTnMessage then dumpedSequences k dumps ++ [b.sequence]
      else dumpedSequences k dumps := by
  rw [dumpedSequences, List.filter_append, List.map_append]
  by_cases h : (b.device, b.cpu) = k ∧ b.action ≠ blkTnMessage
  · rw [if_pos h, List.filter_cons_of_pos (by simpa using h)]
    rfl
  · rw [if_neg h, List.filter_cons_of_neg (by simpa using h)]
    exact List.append_nil _

namespace PipeMode

variable {opts : BlkparseOptions} {find : PipeMode → BlkIoTrace → UInt64 → Bool}
  {st st' : PipeMode} {input : List PipeItem}

/-- What is dumped of each stream is consecutive, and `last_sequence` is the last number of it. -/
structure Consecutive (st : PipeMode) : Prop where
  chain : ∀ k, (dumpedSequences k st.dumps).IsChain NextSequence
  last : ∀ k, (st.cpus k).lastSequence = match (dumpedSequences k st.dumps).getLast? with
    | none => 0xffffffffffffffff
    | some s => s.toUInt64

def AllMasked (opts : BlkparseOptions) (st : PipeMode) : Prop :=
  ∀ t ∈ st.rbSort, t.bit.actMasked opts = true

theorem Consecutive.congr (hc : Consecutive st) (hd : st'.dumps = st.dumps)
    (hl : ∀ k, (st'.cpus k).lastSequence = (st.cpus k).lastSequence) : Consecutive st' := by
  refine ⟨?_, ?_⟩
  · rw [hd]
    exact hc.chain
  · intro k
    rw [hl, hd]
    exact hc.last k

theorem checkSequence_unforced (hr : Regular st) {rbSort : List Trace} {bit : BlkIoTrace} {ret : ℤ}
    (h : st.checkSequence find rbSort bit false = some (st', ret)) : st' = st ∧ (ret = 0 →
      (st.cpus (bit.device, bit.cpu)).lastSequence + 1 = 0 ∨
        bit.sequence.toUInt64 = (st.cpus (bit.device, bit.cpu)).lastSequence + 1) := by
  have hnot : ¬(st.cpus (bit.device, bit.cpu)).lastSequence + 1 <
      (st.cpus (bit.device, bit.cpu)).smallestSeqRead := by
    rw [hr.smallest, UInt64.lt_iff_toNat_lt]
    exact Nat.not_lt_zero _
  unfold checkSequence at h
  dsimp only at h
  by_cases hfirst : (st.cpus (bit.device, bit.cpu)).lastSequence + 1 = 0
  · rw [if_pos hfirst] at h
    refine ⟨?_, fun _ => Or.inl hfirst⟩
    split at h
    · exact (Prod.mk.inj (Option.some.inj h)).1.symm
    · split at h
      · exact (Prod.mk.inj (Option.some.inj h)).1.symm
      · exact (Prod.mk.inj (Option.some.inj h)).1.symm
  · rw [if_neg hfirst] at h
    by_cases hnext : bit.sequence.toUInt64 = (st.cpus (bit.device, bit.cpu)).lastSequence + 1
    · rw [if_pos hnext] at h
      exact ⟨(Prod.mk.inj (Option.some.inj h)).1.symm, fun _ => Or.inr hnext⟩
    · rw [if_neg hnext, if_neg hnot, if_pos (by simp)] at h
      obtain ⟨rfl, rfl⟩ := Prod.mk.inj (Option.some.inj h)
      exact ⟨rfl, fun h0 => absurd h0 (by decide)⟩

theorem showEntry_lastSequence (st : PipeMode) (opts : BlkparseOptions) (bit : BlkIoTrace)
    (k : UInt32 × UInt32) :
    ((st.showEntry opts bit).cpus k).lastSequence =
      if (bit.device, bit.cpu) = k ∧ bit.action ≠ blkTnMessage then bit.sequence.toUInt64
      else (st.cpus k).lastSequence := by
  unfold PipeMode.showEntry
  dsimp only
  by_cases hk : (bit.device, bit.cpu) = k
  · subst hk
    rw [update_self]
    by_cases hm : bit.action = blkTnMessage
    · simp [hm]
    · simp [hm]
  · rw [update_of_ne (Ne.symm hk), if_neg (fun h => hk h.1)]

theorem nextSequence_of_last {s sequence : UInt32} {last : UInt64} (hs : last = s.toUInt64)
    (hnext : last + 1 = 0 ∨ sequence.toUInt64 = last + 1) : NextSequence s sequence := by
  have hs32 := s.toNat_lt
  have hone : (last + 1).toNat = s.toNat + 1 := by
    rw [hs, UInt64.toNat_add, UInt32.toNat_toUInt64, UInt64.toNat_one]
    omega
  rcases hnext with h | h
  · rw [h] at hone
    exact absurd hone (Nat.succ_ne_zero _).symm
  · rw [← h, UInt32.toNat_toUInt64] at hone
    exact hone

theorem Consecutive.showEntry (hc : Consecutive st) {bit : BlkIoTrace}
    (hmask : bit.actMasked opts = true)
    (hnext : bit.action ≠ blkTnMessage → (st.cpus (bit.device, bit.cpu)).lastSequence + 1 = 0 ∨
      bit.sequence.toUInt64 = (st.cpus (bit.device, bit.cpu)).lastSequence + 1) :
    Consecutive (st.showEntry opts bit) := by
  have hdumps : (st.showEntry opts bit).dumps = st.dumps ++ [bit] := if_pos hmask
  refine ⟨?_, ?_⟩
  · intro k
    rw [hdumps, dumpedSequences_append]
    split
    · next hkey =>
      obtain ⟨rfl, hm⟩ := hkey
      refine List.isChain_append.mpr ⟨hc.chain _, List.isChain_singleton _, ?_⟩
      intro s hs sequence hsequence
      obtain rfl : bit.sequence = sequence := by simpa using hsequence
      have hlast := hc.last (bit.device, bit.cpu)
      rw [Option.mem_def.mp hs] at hlast
      exact nextSequence_of_last hlast (hnext hm)
    · exact hc.chain k
  · intro k
    rw [showEntry_lastSequence, hdumps, dumpedSequences_append]
    split
    · rw [List.getLast?_concat]
    · exact hc.last k

theorem showEntriesRb_consecutive (hr : Regular st) (hc : Consecutive st) {l : List Trace}
    (hl : ∀ t ∈ l, t.bit.actMasked opts = true)
    (h : st.showEntriesRb find opts false l = some st') :
    Consecutive st' ∧ AllMasked opts st' := by
  induction l generalizing st with
  | nil =>
    rw [showEntriesRb] at h
    obtain rfl := Option.some.inj h
    exact ⟨hc.congr rfl (fun _ => rfl), fun _ ht => absurd ht (List.not_mem_nil)⟩
  | cons t l ih =>
    have hstop : Consecutive { st with rbSort := t :: l } ∧
        AllMasked opts { st with rbSort := t :: l } := ⟨hc.congr rfl (fun _ => rfl), hl⟩
    rw [showEntriesRb] at h
    split at h
    · obtain rfl := Option.some.inj h
      exact hstop
    · obtain ⟨st₁, ret, hrun, hst, hnext⟩ : ∃ st₁ ret,
          (if t.bit.action = blkTnMessage then some (st, 0)
            else st.checkSequence find (t :: l) t.bit false) = some (st₁, ret) ∧ st₁ = st ∧
          (ret = 0 → t.bit.action ≠ blkTnMessage →
            (st.cpus (t.bit.device, t.bit.cpu)).lastSequence + 1 = 0 ∨
              t.bit.sequence.toUInt64 = (st.cpus (t.bit.device, t.bit.cpu)).lastSequence + 1) := by
        split
        · next hm => exact ⟨st, 0, rfl, rfl, fun _ hne => absurd hm hne⟩
        · obtain ⟨st₁, ret, hrun, -⟩ := @checkSequence_spec find st false hr (t :: l) t.bit
          obtain ⟨hst, hnext⟩ := checkSequence_unforced hr hrun
          exact ⟨st₁, ret, hrun, hst, fun h0 _ => hnext h0⟩
      subst hst
      rw [hrun] at h
      dsimp only at h
      split at h
      · obtain rfl := Option.some.inj h
        exact hstop
      · next hret =>
        split at h
        · obtain rfl := Option.some.inj h
          exact hstop
        · have hmask := hl t (List.mem_cons_self)
          exact ih (hr.showEntry opts t.bit) (hc.showEntry hmask (hnext (not_not.mp hret)))
            (fun u hu => hl u (List.mem_cons_of_mem t hu)) h

theorem sortEntry_consecutive (hc : Consecutive st) (hm : AllMasked opts st) (youngest : UInt64)
    {t : Trace} (ht : t.bit.actMasked opts = true) :
    Consecutive (sortEntry opts (st, youngest) t).1 ∧
      AllMasked opts (sortEntry opts (st, youngest) t).1 := by
  have hlast : ∀ k, ((update st.cpus (t.bit.device, t.bit.cpu)
      (if t.bit.sequence.toUInt64 < (st.cpus (t.bit.device, t.bit.cpu)).smallestSeqRead
        then { st.cpus (t.bit.device, t.bit.cpu) with
          smallestSeqRead := t.bit.sequence.toUInt64 }
        else st.cpus (t.bit.device, t.bit.cpu))) k).lastSequence = (st.cpus k).lastSequence := by
    intro k
    by_cases hk : k = (t.bit.device, t.bit.cpu)
    · subst hk
      rw [update_self]
      split <;> rfl
    · rw [update_of_ne hk]
  unfold sortEntry
  dsimp only
  split
  · exact ⟨hc.congr rfl hlast, hm⟩
  · refine ⟨hc.congr rfl hlast, ?_⟩
    intro u hu
    rcases List.mem_cons.mp ((rbInsert_perm _ _).mem_iff.mp hu) with rfl | hu
    · exact ht
    · exact hm u hu

theorem sortAll_consecutive (hc : Consecutive st) (hm : AllMasked opts st) (youngest : UInt64)
    {l : List Trace} (hl : ∀ t ∈ l, t.bit.actMasked opts = true) :
    Consecutive (l.foldl (sortEntry opts) (st, youngest)).1 ∧
      AllMasked opts (l.foldl (sortEntry opts) (st, youngest)).1 := by
  induction l generalizing st youngest with
  | nil => exact ⟨hc, hm⟩
  | cons t l ih =>
    obtain ⟨hc', hm'⟩ := sortEntry_consecutive hc hm youngest (hl t (List.mem_cons_self))
    exact ih hc' hm' _ (fun u hu => hl u (List.mem_cons_of_mem t hu))

theorem loop_consecutive (hb : 1 ≤ opts.rbBatch) (hr : Regular st) (hc : Consecutive st)
    (hm : AllMasked opts st) (hl : st.traceList = [])
    (hmask : ∀ b ∈ (batchesOf opts.rbBatch [] input).flatten, b.actMasked opts = true)
    (h : st.loop find opts input = some st') : Consecutive st' := by
  induction hn : input.length using Nat.strong_induction_on generalizing st input with
  | _ n ih =>
    obtain ⟨batch, rest, notified, hread, hlen, hbatches⟩ := readEvents_spec st [] hb
    rw [List.nil_append] at hread hbatches
    rw [loop] at h
    cases batch with
    | nil =>
      simp only [List.length_nil] at hread
      rw [hread] at h
      obtain rfl := Option.some.inj h
      exact hc.congr rfl (fun _ => rfl)
    | cons b batch =>
      simp only [List.length_nil, List.length_cons] at hread hlen
      rw [hbatches, if_neg (List.cons_ne_nil b batch), List.flatten_cons, List.forall_mem_append]
        at hmask
      obtain ⟨hmaskBatch, hmaskRest⟩ := hmask
      obtain ⟨st₁, hsort, hr₁, -, hl₁, -, -⟩ := @sortEntries_spec opts
        { st with
          readSequence := st.readSequence + 1
          traceList := ((b :: batch).map (fun b => ⟨b, st.readSequence⟩)).reverse ++ st.traceList
          notified := notified }
        ⟨hr.skips, hr.smallest, hr.offline⟩ (b :: batch) st.readSequence (by simp [hl])
      have hmaskList : ∀ t ∈ ((b :: batch).map (fun b => (⟨b, st.readSequence⟩ : Trace))).reverse ++
          st.traceList, t.bit.actMasked opts = true := by
        intro t ht
        rw [hl, List.append_nil, List.mem_reverse] at ht
        obtain ⟨b', hb', rfl⟩ := List.mem_map.mp ht
        exact hmaskBatch b' hb'
      have hsorted : Consecutive st₁ ∧ AllMasked opts st₁ := by
        have hall := @sortAll_consecutive opts
          { st with
            genesisTime := if st.genesisTime = 0
              then findGenesis (((b :: batch).map (fun b => ⟨b, st.readSequence⟩)).reverse ++
                st.traceList)
              else st.genesisTime
            readSequence := st.readSequence + 1
            traceList := []
            notified := notified }
          (hc.congr rfl (fun _ => rfl)) hm 0 _ hmaskList
        have hfold : (PipeMode.sortEntries _ opts).1 = st₁ := congrArg Prod.fst hsort
        rw [← hfold]
        exact hall
      obtain ⟨hc₁, hm₁⟩ := hsorted
      rw [hread] at h
      simp only [hsort] at h
      split at h
      · obtain rfl := Option.some.inj h
        exact hc₁
      · obtain ⟨st₂, hshow, hr₂, -, -, hl₂, -, -, -⟩ :=
          @showEntriesRb_spec opts find st₁ false hr₁ st₁.rbSort
        simp only [hshow, Option.bind_eq_bind, Option.bind_some] at h
        obtain ⟨hc₂, hm₂⟩ := showEntriesRb_consecutive hr₁ hc₁ hm₁ hshow
        exact ih rest.length (by omega) hr₂ hc₂ hm₂ (hl₂.trans hl₁) hmaskRest h rfl

end PipeMode

theorem newPipeMode_consecutive : newPipeMode.Consecutive where
  chain _ := List.isChain_nil
  last _ := rfl

def eventsRead (opts : BlkparseOptions) (input : List PipeItem) : List BlkIoTrace :=
  (batchesOf opts.rbBatch [] input).flatten

/-- The traces to be dumped: those that pass the verification and are no notify records. -/
def verifiedEvents (input : List PipeItem) : List BlkIoTrace :=
  (recordsOf input).filter (fun b => b.verifyTrace = 0 ∧ ¬b.isNotify)

section Reading

variable {opts : BlkparseOptions} {input : List PipeItem}

theorem verifyTrace_badMagic {b : BlkIoTrace} (h : ¬b.checkMagic) : b.verifyTrace ≠ 0 := by
  rw [BlkIoTrace.verifyTrace, if_pos h]
  decide

theorem verifiedEvents_record (b : BlkIoTrace) (input : List PipeItem) :
    verifiedEvents (.record b :: input) =
      if b.verifyTrace ≠ 0 ∨ b.isNotify then verifiedEvents input
      else b :: verifiedEvents input := by
  unfold verifiedEvents
  rw [recordsOf, List.filter_cons]
  by_cases hv : b.verifyTrace = 0
  · by_cases hn : b.isNotify = true <;> simp [hv, hn]
  · simp [hv]

theorem batchesOf_flatten (rbBatch : ℕ) (batch : List BlkIoTrace) (input : List PipeItem) :
    (batchesOf rbBatch batch input).flatten <+: batch ++ verifiedEvents input ∧
      ((∀ b ∈ recordsOf input, b.checkMagic) →
        (batchesOf rbBatch batch input).flatten = batch ++ verifiedEvents input) := by
  induction input generalizing batch with
  | nil =>
    rw [batchesOf]
    split
    · next h => simp [h, verifiedEvents, recordsOf]
    · simp [verifiedEvents, recordsOf]
  | cons i input ih =>
    cases i with
    | gap =>
      rw [batchesOf]
      split
      · next h => rw [h]; exact ih []
      · rw [List.flatten_cons]
        exact ⟨(List.prefix_append_right_inj batch).mpr (ih []).1,
          fun hm => congrArg (batch ++ ·) ((ih []).2 hm)⟩
    | record b =>
      rw [batchesOf, verifiedEvents_record]
      by_cases hmagic : ¬b.checkMagic
      · rw [if_pos hmagic, if_pos (Or.inl (verifyTrace_badMagic hmagic))]
        refine ⟨?_, fun hm => absurd (hm b (by simp [recordsOf])) hmagic⟩
        split
        · next h => rw [h]; exact List.nil_prefix
        · rw [List.flatten_cons]
          exact (List.prefix_append_right_inj batch).mpr (ih []).1
      rw [if_neg hmagic]
      have hrest : (∀ b' ∈ recordsOf (.record b :: input), b'.checkMagic) →
          ∀ b' ∈ recordsOf input, b'.checkMagic :=
        fun hm b' hb' => hm b' (by simp [recordsOf, hb'])
      by_cases hskip : b.verifyTrace ≠ 0 ∨ b.isNotify
      · rw [if_pos hskip, if_pos hskip]
        exact ⟨(ih batch).1, fun hm => (ih batch).2 (hrest hm)⟩
      rw [if_neg hskip, if_neg hskip]
      have happend : batch ++ b :: verifiedEvents input = batch ++ [b] ++ verifiedEvents input := by
        simp
      rw [happend]
      split
      · rw [List.flatten_cons]
        exact ⟨(List.prefix_append_right_inj _).mpr (ih []).1,
          fun hm => congrArg (batch ++ [b] ++ ·) ((ih []).2 (hrest hm))⟩
      · exact ⟨(ih (batch ++ [b])).1, fun hm => (ih (batch ++ [b])).2 (hrest hm)⟩

theorem readWith_all (hend : opts.stopwatchEnd = 0xffffffffffffffff) {genesis : UInt64}
    (hg : genesis ≠ 0) (l : List (List BlkIoTrace)) :
    readWith opts genesis l = l.flatten.map (fun b => (b, genesis)) := by
  have hyoungest : ∀ t : UInt64, ¬t > opts.stopwatchEnd := by
    intro t
    rw [hend, gt_iff_lt, UInt64.lt_iff_toNat_lt]
    have := t.toNat_lt
    exact not_lt.mpr (Nat.le_of_lt_succ this)
  induction l with
  | nil => rfl
  | cons batch l ih =>
    rw [readWith, baseOf, if_neg hg, if_neg (hyoungest _), ih, List.flatten_cons, List.map_append]

theorem readWith_start (hend : opts.stopwatchEnd = 0xffffffffffffffff)
    {l : List (List BlkIoTrace)} (hg : earliest (l.headD []) ≠ 0) :
    readWith opts 0 l = l.flatten.map (fun b => (b, earliest (l.headD []))) := by
  cases l with
  | nil => rfl
  | cons batch l =>
    have hall := readWith_all hend hg (batch :: l)
    rw [← hall, readWith, readWith, baseOf, baseOf, if_pos rfl, if_neg hg]
    rfl

theorem dumpOfPipe_all (hstart : opts.stopwatchStart = 0)
    (hend : opts.stopwatchEnd = 0xffffffffffffffff) {b : BlkIoTrace} {genesis : UInt64}
    (hmask : b.actMasked opts = true) (hg : genesis ≠ 0) (hle : genesis ≤ b.time) :
    dumpOfPipe opts (b, genesis) = some (b.relative genesis) := by
  have hsub : (b.time - genesis).toNat = b.time.toNat - genesis.toNat :=
    UInt64.toNat_sub_of_le b.time genesis hle
  have hpos : genesis.toNat ≠ 0 := fun h => hg (UInt64.toNat_inj.mp h)
  have hlt := b.time.toNat_lt
  have hwindow : checkStopwatch opts (b.relative genesis) = 0 := by
    apply if_pos
    rw [hstart, hend, UInt64.lt_iff_toNat_lt, ge_iff_le, UInt64.le_iff_toNat_le]
    refine ⟨?_, Nat.zero_le _⟩
    rw [BlkIoTrace.relative, hsub]
    have hmax : (0xffffffffffffffff : UInt64).toNat = 2 ^ 64 - 1 := rfl
    omega
  rw [dumpOfPipe, inPipe, hmask, hwindow]
  rfl

end Reading

theorem doPipe_loses_nothing (find : PipeMode → BlkIoTrace → UInt64 → Bool)
    (opts : BlkparseOptions) (input : List PipeItem) (hb : 1 ≤ opts.rbBatch)
    (hstart : opts.stopwatchStart = 0) (hend : opts.stopwatchEnd = 0xffffffffffffffff)
    (hmask : ∀ b ∈ eventsRead opts input, b.actMasked opts = true) (genesis : UInt64)
    (hgenesis : genesis = earliest ((batchesOf opts.rbBatch [] input).headD []))
    (hzero : genesis ≠ 0) (hfirst : ∀ b ∈ eventsRead opts input, genesis ≤ b.time) :
    (∃ before st, newPipeMode.loop find opts input = some before ∧
      doPipe find opts input = some st ∧ before.dumps <+: st.dumps ∧
      st.dumps.Perm ((eventsRead opts input).map (fun b => b.relative genesis)) ∧
      ∀ k, (dumpedSequences k before.dumps).IsChain NextSequence) ∧
    eventsRead opts input <+: verifiedEvents input ∧
    ((∀ b ∈ recordsOf input, b.checkMagic) → eventsRead opts input = verifiedEvents input) := by
  obtain ⟨before, st, hloop, -, hrun, hprefix, hperm⟩ := @doPipe_reads opts find hb input
  refine ⟨⟨before, st, hloop, hrun, hprefix, ?_, ?_⟩, batchesOf_flatten opts.rbBatch [] input⟩
  · rw [readWith_start hend (hgenesis ▸ hzero), ← hgenesis, List.filterMap_map] at hperm
    rw [← List.filterMap_eq_map]
    refine hperm.trans (List.Perm.of_eq ?_)
    apply List.filterMap_congr
    intro b hb'
    exact dumpOfPipe_all hstart hend (hmask b hb') hzero (hfirst b hb')
  · exact (PipeMode.loop_consecutive hb newPipeMode_regular newPipeMode_consecutive
      (fun _ ht => absurd ht (List.not_mem_nil)) rfl hmask hloop).chain

theorem doPipe_loses_nothing_onePipe :
    let opts : BlkparseOptions := ⟨1, 0xffffffff, 0, 0xffffffffffffffff⟩
    (1 ≤ opts.rbBatch ∧ ∀ b ∈ eventsRead opts onePipe, b.actMasked opts = true) ∧
      (∃ before st, newPipeMode.loop (fun _ _ _ => false) opts onePipe = some before ∧
        doPipe (fun _ _ _ => false) opts onePipe = some st ∧ before.dumps <+: st.dumps ∧
        st.dumps.Perm ((eventsRead opts onePipe).map (fun b => b.relative 5)) ∧
        ∀ k, (dumpedSequences k before.dumps).IsChain NextSequence) ∧
      eventsRead opts onePipe <+: verifiedEvents onePipe ∧
      ((∀ b ∈ recordsOf onePipe, b.checkMagic) →
        eventsRead opts onePipe = verifiedEvents onePipe) :=
  ⟨by decide, doPipe_loses_nothing (fun _ _ _ => false) ⟨1, 0xffffffff, 0, 0xffffffffffffffff⟩
    onePipe (by decide) rfl rfl (by decide) 5 (by decide) (by decide) (by decide)⟩

def messagePipe : List PipeItem :=
  [.record (queueEvent 1 5 0), .record { queueEvent 0 7 0 with action := blkTnMessage }]

def wideWindow : BlkparseOptions := ⟨2, 0xffffffff, 0, 0xffffffffffffffff⟩

theorem messagePipe_dumps : ∃ before, newPipeMode.loop (fun _ _ _ => false) wideWindow messagePipe =
    some before ∧ before.dumps.map BlkIoTrace.sequence = [1, 0] ∧
      ∀ b ∈ before.dumps, (b.device, b.cpu) = (0x00800010, 0) := by
  have hshow : ∃ st₁, newPipeMode.loop (fun _ _ _ => false) wideWindow messagePipe =
      PipeMode.loop (fun _ _ _ => false) st₁ wideWindow [] ∧
      st₁.dumps.map BlkIoTrace.sequence = [1, 0] ∧
      ∀ b ∈ st₁.dumps, (b.device, b.cpu) = (0x00800010, 0) := by
    rw [PipeMode.loop]
    exact ⟨_, rfl, by decide, by decide⟩
  obtain ⟨st₁, hloop, hseq, hkey⟩ := hshow
  refine ⟨st₁, ?_, hseq, hkey⟩
  rw [hloop, PipeMode.loop]
  rfl

/-- Messages are dumped without a look at their sequence number. -/
theorem message_out_of_sequence :
    ¬∀ (find : PipeMode → BlkIoTrace → UInt64 → Bool) (opts : BlkparseOptions)
      (input : List PipeItem) (before : PipeMode), 1 ≤ opts.rbBatch → opts.stopwatchStart = 0 →
      opts.stopwatchEnd = 0xffffffffffffffff →
      (∀ b ∈ eventsRead opts input, b.actMasked opts = true) →
      (∀ b ∈ eventsRead opts input,
        earliest ((batchesOf opts.rbBatch [] input).headD []) ≤ b.time) →
      newPipeMode.loop find opts input = some before →
      ∀ k, ((before.dumps.filter (fun b => (b.device, b.cpu) = k)).map
        BlkIoTrace.sequence).IsChain NextSequence := by
  intro hall
  obtain ⟨before, hloop, hseq, hkey⟩ := messagePipe_dumps
  have hchain := hall _ wideWindow messagePipe before (by decide) rfl rfl (by decide) (by decide)
    hloop (0x00800010, 0)
  rw [List.filter_eq_self.mpr (fun b hb => by simpa using hkey b hb), hseq] at hchain
  have hnext : NextSequence 1 0 := List.isChain_pair.mp hchain
  rw [NextSequence] at hnext
  exact absurd hnext (by decide)

end SBlktrace
