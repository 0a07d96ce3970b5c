import SBlktrace.PipeDump
import SBlktrace.MergeOrder
import Mathlib

namespace SBlktrace

open Function

def recordsOf : List PipeItem → List BlkIoTrace
  | [] => []
  | .gap :: input => recordsOf input
  | .record bit :: input => bit :: recordsOf input

def batchesFrom (rbBatch : ℕ) (batch : List BlkIoTrace) : List PipeItem → List (List BlkIoTrace)
  | [] => if batch = [] then [] else [batch]
  | .gap :: input =>
    if batch = [] then batchesFrom rbBatch [] input else batch :: batchesFrom rbBatch [] input
  | .record bit :: input =>
    if bit.isNotify then batchesFrom rbBatch batch input
    else if rbBatch ≤ batch.length + 1 then (batch ++ [bit]) :: batchesFrom rbBatch [] input
    else batchesFrom rbBatch (batch ++ [bit]) input

/-- The batches of any input: a record with a bad magic ends the batch that has begun, and the
reading if none has. Traces that fail the verification are left out. -/
def batchesOf (rbBatch : ℕ) (batch : List BlkIoTrace) : List PipeItem → List (List BlkIoTrace)
  | [] => if batch = [] then [] else [batch]
  | .gap :: input =>
    if batch = [] then batchesOf rbBatch [] input else batch :: batchesOf rbBatch [] input
  | .record bit :: input =>
    if ¬bit.checkMagic then if batch = [] then [] else batch :: batchesOf rbBatch [] input
    else if bit.verifyTrace ≠ 0 ∨ bit.isNotify then batchesOf rbBatch batch input
    else if rbBatch ≤ batch.length + 1 then (batch ++ [bit]) :: batchesOf rbBatch [] input
    else batchesOf rbBatch (batch ++ [bit]) input

def earliest (batch : List BlkIoTrace) : UInt64 :=
  batch.foldr (fun b genesis => if b.time < genesis then b.time else genesis) 0xffffffffffffffff

/-- The base of relative times in a batch: the base so far stands unless it is 0. -/
def baseOf (genesis : UInt64) (batch : List BlkIoTrace) : UInt64 :=
  if genesis = 0 then earliest batch else genesis

def youngestOf (genesis : UInt64) (batch : List BlkIoTrace) : UInt64 :=
  batch.foldr (fun b youngest =>
    if (b.relative genesis).time < youngest ∨ youngest = 0 then (b.relative genesis).time
    else youngest) 0

def readWith (opts : BlkparseOptions) (genesis : UInt64) :
    List (List BlkIoTrace) → List (BlkIoTrace × UInt64)
  | [] => []
  | batch :: l =>
    let base := baseOf genesis batch
    batch.map (fun b => (b, base)) ++
      if youngestOf base batch > opts.stopwatchEnd then [] else readWith opts base l

def inPipe (opts : BlkparseOptions) (genesis : UInt64) (b : BlkIoTrace) : Bool :=
  b.actMasked opts && checkStopwatch opts (b.relative genesis) = 0

def dumpOfPipe (opts : BlkparseOptions) (p : BlkIoTrace × UInt64) : Option BlkIoTrace :=
  if inPipe opts p.2 p.1 then some (p.1.relative p.2) else none

def Verified (input : List PipeItem) : Prop :=
  ∀ b ∈ recordsOf input, b.checkMagic = true ∧ b.verifyTrace = 0

variable {opts : BlkparseOptions} {find : PipeMode → BlkIoTrace → UInt64 → Bool}
  {st : PipeMode} {input : List PipeItem}

theorem batchesFrom_flatten (rbBatch : ℕ) (batch : List BlkIoTrace) (input : List PipeItem) :
    (batchesFrom rbBatch batch input).flatten = batch ++ events (recordsOf input) := by
  induction input generalizing batch with
  | nil =>
    rw [batchesFrom]
    split
    · next h => simp [h, recordsOf, events]
    · simp [recordsOf, events]
  | cons i input ih =>
    cases i with
    | gap =>
      rw [batchesFrom]
      split
      · next h => rw [ih, h, recordsOf]
      · rw [List.flatten_cons, ih, List.nil_append, recordsOf]
    | record bit =>
      rw [batchesFrom]
      by_cases hn : bit.isNotify = true
      · rw [if_pos hn, ih]
        simp [recordsOf, events, hn]
      · rw [if_neg hn]
        split
        · rw [List.flatten_cons, ih]
          simp [recordsOf, events, hn]
        · rw [ih]
          simp [recordsOf, events, hn]

theorem batchesOf_verified (rbBatch : ℕ) (batch : List BlkIoTrace) (hv : Verified input) :
    batchesOf rbBatch batch input = batchesFrom rbBatch batch input := by
  induction input generalizing batch with
  | nil => rfl
  | cons i input ih =>
    cases i with
    | gap => rw [batchesOf, batchesFrom, ih [] hv]
    | record bit =>
      obtain ⟨hmagic, hverify⟩ := hv bit (by simp [recordsOf])
      have hv₁ : Verified input := fun b hb => hv b (by simp [recordsOf, hb])
      rw [batchesOf, batchesFrom, if_neg (not_not.mpr hmagic), ih _ hv₁, ih _ hv₁, ih _ hv₁]
      simp only [hverify, ne_eq, not_true_eq_false, false_or]

theorem readWith_prefix (opts : BlkparseOptions) (genesis : UInt64) (l : List (List BlkIoTrace)) :
    (readWith opts genesis l).map Prod.fst <+: l.flatten := by
  induction l generalizing genesis with
  | nil => exact List.prefix_refl _
  | cons batch l ih =>
    rw [readWith, List.flatten_cons, List.map_append, List.map_map]
    have hfst : batch.map (Prod.fst ∘ fun b => (b, baseOf genesis batch)) = batch := by
      rw [show (Prod.fst ∘ fun b => (b, baseOf genesis batch)) = (id : BlkIoTrace → _) from rfl,
        List.map_id]
    rw [hfst]
    apply (List.prefix_append_right_inj batch).mpr
    split
    · exact List.nil_prefix
    · exact ih _

namespace PipeMode

theorem readEvents_full {n : ℕ} (hn : opts.rbBatch ≤ n) :
    st.readEvents opts n input = (st, n, input) := by
  cases input with
  | nil => rfl
  | cons i input => cases i <;> simp [readEvents, hn]

theorem readEvents_spec (st : PipeMode) (pre : List BlkIoTrace) (hpre : pre.length < opts.rbBatch) :
    ∃ batch rest notified, st.readEvents opts pre.length input =
        ({ st with
            traceList := (batch.map (fun b => ⟨b, st.readSequence⟩)).reverse ++ st.traceList
            notified := notified }, (pre ++ batch).length, rest) ∧
      rest.length + batch.length ≤ input.length ∧
      batchesOf opts.rbBatch pre input =
        if pre ++ batch = [] then [] else (pre ++ batch) :: batchesOf opts.rbBatch [] rest := by
  induction input generalizing st pre with
  | nil =>
    refine ⟨[], [], st.notified, by simp [readEvents], by simp, ?_⟩
    rw [batchesOf, List.append_nil]
    rfl
  | cons i input ih =>
    have hnot : ¬opts.rbBatch ≤ pre.length := by omega
    cases i with
    | gap =>
      rw [readEvents, if_neg hnot, batchesOf]
      by_cases hp : pre = []
      · subst hp
        rw [if_pos (List.length_nil), if_pos rfl]
        obtain ⟨batch, rest, notified, hrun, hlen, hb⟩ := ih st [] hpre
        exact ⟨batch, rest, notified, hrun, hlen.trans (Nat.le_succ _), hb⟩
      · rw [if_neg (by simpa using hp), if_neg hp]
        refine ⟨[], input, st.notified, by simp, by simp, ?_⟩
        rw [List.append_nil, if_neg hp]
    | record bit =>
      rw [readEvents, if_neg hnot, batchesOf]
      by_cases hmagic : ¬bit.checkMagic
      · rw [if_pos hmagic, if_pos hmagic]
        refine ⟨[], input, st.notified, by simp, by simp, ?_⟩
        rw [List.append_nil]
      rw [if_neg hmagic, if_neg hmagic]
      by_cases hverify : bit.verifyTrace ≠ 0
      · rw [if_pos hverify, if_pos (Or.inl hverify)]
        obtain ⟨batch, rest, notified, hrun, hlen, hb⟩ := ih st pre hpre
        exact ⟨batch, rest, notified, hrun, hlen.trans (Nat.le_succ _), hb⟩
      rw [if_neg hverify]
      by_cases hn : bit.isNotify = true
      · rw [if_pos hn, if_pos (Or.inr hn)]
        obtain ⟨batch, rest, notified, hrun, hlen, hb⟩ :=
          ih { st with notified := st.notified ++ [bit] } pre hpre
        exact ⟨batch, rest, notified, hrun, hlen.trans (Nat.le_succ _), hb⟩
      · rw [if_neg hn, if_neg (not_or.mpr ⟨hverify, hn⟩)]
        by_cases hfull : opts.rbBatch ≤ pre.length + 1
        · rw [if_pos hfull, readEvents_full hfull]
          refine ⟨[bit], input, st.notified, by simp, by simp, ?_⟩
          rw [if_neg (by simp)]
        · rw [if_neg hfull]
          obtain ⟨batch, rest, notified, hrun, hlen, hb⟩ :=
            ih { st with traceList := ⟨bit, st.readSequence⟩ :: st.traceList } (pre ++ [bit])
              (by simp; omega)
          have hcount : (pre ++ [bit]).length = pre.length + 1 := by simp
          rw [hcount] at hrun
          refine ⟨bit :: batch, rest, notified, ?_, ?_, ?_⟩
          · rw [hrun]
            simp
          · simp only [List.length_cons]
            omega
          · rw [hb]
            simp

theorem findGenesis_eq (batch : List BlkIoTrace) (readSequence : UInt64) :
    findGenesis (batch.map (fun b => ⟨b, readSequence⟩)).reverse = earliest batch := by
  rw [findGenesis, List.foldl_reverse, List.foldr_map, earliest]

theorem rbInsert_perm (t : Trace) (l : List Trace) : (rbInsert t l).Perm (t :: l) := by
  induction l with
  | nil => exact List.Perm.refl _
  | cons u l ih =>
    rw [rbInsert]
    split
    · exact List.Perm.refl _
    · exact (ih.cons u).trans (List.Perm.swap t u l)

theorem Regular.readSmallest (hr : Regular st) (k : UInt32 × UInt32) (sequence : UInt64) :
    Regular { st with cpus := update st.cpus k (if sequence < (st.cpus k).smallestSeqRead
      then { st.cpus k with smallestSeqRead := sequence } else st.cpus k) } := by
  have hnot : ¬sequence < (st.cpus k).smallestSeqRead := by
    rw [hr.smallest, UInt64.lt_iff_toNat_lt]
    exact Nat.not_lt_zero _
  rw [if_neg hnot, update_eq_self]
  exact hr

theorem masked_perm {l l' : List Trace} (h : l.Perm l') : (masked opts l).Perm (masked opts l') :=
  (h.map _).filter _

theorem sortEntry_spec (hr : Regular st) (youngest : UInt64) (t : Trace) :
    ∃ st', sortEntry opts (st, youngest) t = (st',
        if (t.bit.relative st.genesisTime).time < youngest ∨ youngest = 0
        then (t.bit.relative st.genesisTime).time else youngest) ∧
      Regular st' ∧ SameTraces st st' ∧
      (masked opts st'.rbSort).Perm
        ((dumpOfPipe opts (t.bit, st.genesisTime)).toList ++ masked opts st.rbSort) := by
  have hr' := hr.readSmallest (t.bit.device, t.bit.cpu) t.bit.sequence.toUInt64
  unfold sortEntry
  by_cases hw : checkStopwatch opts (t.bit.relative st.genesisTime) ≠ 0
  · rw [if_pos hw]
    refine ⟨_, rfl, hr', ⟨rfl, rfl, rfl, rfl⟩, ?_⟩
    simp [dumpOfPipe, inPipe, hw]
  · rw [if_neg hw]
    refine ⟨_, rfl, ⟨hr'.skips, hr'.smallest, hr'.offline⟩, ⟨rfl, rfl, rfl, rfl⟩, ?_⟩
    refine (masked_perm (rbInsert_perm _ _)).trans ?_
    have hmask : (t.bit.relative st.genesisTime).actMasked opts = t.bit.actMasked opts := rfl
    have hin : checkStopwatch opts (t.bit.relative st.genesisTime) = 0 := not_not.mp hw
    by_cases hm : t.bit.actMasked opts = true
    · simp [dumpOfPipe, inPipe, hin, masked, hmask, hm]
    · simp [dumpOfPipe, inPipe, masked, hmask, hm]

theorem SameTraces.trans {st₁ st₂ st₃ : PipeMode} (h : SameTraces st₁ st₂)
    (h' : SameTraces st₂ st₃) : SameTraces st₁ st₃ :=
  ⟨h'.genesisTime.trans h.genesisTime, h'.readSequence.trans h.readSequence,
    h'.traceList.trans h.traceList, h'.dumps.trans h.dumps⟩

theorem sortAll_spec (hr : Regular st) (batch : List BlkIoTrace) (readSequence : UInt64) :
    ∃ st', (batch.map (fun b => ⟨b, readSequence⟩)).reverse.foldl (sortEntry opts) (st, 0) =
        (st', youngestOf st.genesisTime batch) ∧ Regular st' ∧ SameTraces st st' ∧
      (masked opts st'.rbSort).Perm
        (batch.filterMap (fun b => dumpOfPipe opts (b, st.genesisTime)) ++
          masked opts st.rbSort) := by
  induction batch with
  | nil => exact ⟨st, rfl, hr, ⟨rfl, rfl, rfl, rfl⟩, List.Perm.refl _⟩
  | cons b batch ih =>
    obtain ⟨st₁, hrun₁, hr₁, hsame₁, hperm₁⟩ := ih
    obtain ⟨st₂, hrun₂, hr₂, hsame₂, hperm₂⟩ :=
      sortEntry_spec hr₁ (youngestOf st.genesisTime batch) ⟨b, readSequence⟩
    refine ⟨st₂, ?_, hr₂, hsame₁.trans hsame₂, ?_⟩
    · rw [List.map_cons, List.reverse_cons, List.foldl_append, hrun₁, List.foldl_cons,
        List.foldl_nil, hrun₂, hsame₁.genesisTime]
      rfl
    · rw [hsame₁.genesisTime] at hperm₂
      refine hperm₂.trans ((hperm₁.append_left _).trans ?_)
      rw [← List.append_assoc]
      refine List.Perm.append_right _ ?_
      cases hd : dumpOfPipe opts (b, st.genesisTime) <;> simp [hd]

theorem sortEntries_spec (hr : Regular st) (batch : List BlkIoTrace) (readSequence : UInt64)
    (hl : st.traceList = (batch.map (fun b => ⟨b, readSequence⟩)).reverse) :
    ∃ st', st.sortEntries opts = (st', youngestOf (baseOf st.genesisTime batch) batch) ∧
      Regular st' ∧ st'.genesisTime = baseOf st.genesisTime batch ∧ st'.traceList = [] ∧
      st'.dumps = st.dumps ∧
      (masked opts st'.rbSort).Perm
        (batch.filterMap (fun b => dumpOfPipe opts (b, baseOf st.genesisTime batch)) ++
          masked opts st.rbSort) := by
  obtain ⟨st', hrun, hr', hsame, hperm⟩ := @sortAll_spec opts
    { st with genesisTime := baseOf st.genesisTime batch, traceList := [] }
    ⟨hr.skips, hr.smallest, hr.offline⟩ batch readSequence
  refine ⟨st', ?_, hr', hsame.genesisTime, hsame.traceList, hsame.dumps, hperm⟩
  rw [sortEntries, hl, findGenesis_eq]
  exact hrun

theorem loop_spec (hb : 1 ≤ opts.rbBatch) (hr : Regular st) (hl : st.traceList = []) :
    ∃ st', st.loop find opts input = some st' ∧ Regular st' ∧
      (st'.dumps ++ masked opts st'.rbSort).Perm (st.dumps ++ masked opts st.rbSort ++
        (readWith opts st.genesisTime (batchesOf opts.rbBatch [] input)).filterMap
          (dumpOfPipe opts)) := by
  induction hn : input.length using Nat.strong_induction_on generalizing st input with
  | _ n ih =>
    obtain ⟨batch, rest, notified, hread, hlen, hbatches⟩ := readEvents_spec st [] hb
    rw [List.nil_append] at hread hbatches
    rw [loop]
    cases batch with
    | nil =>
      simp only [List.length_nil] at hread
      rw [hread, hbatches]
      refine ⟨_, rfl, ⟨hr.skips, hr.smallest, hr.offline⟩, ?_⟩
      simp [readWith]
    | cons b batch =>
      simp only [List.length_nil, List.length_cons] at hread hlen
      rw [hread, hbatches, if_neg (List.cons_ne_nil b batch), readWith]
      obtain ⟨st₁, hsort, hr₁, hg₁, hl₁, hd₁, hperm₁⟩ := @sortEntries_spec opts
        { st with
          readSequence := st.readSequence + 1
          traceList := ((b :: batch).map (fun b => ⟨b, st.readSequence⟩)).reverse ++ st.traceList
          notified := notified }
        ⟨hr.skips, hr.smallest, hr.offline⟩ (b :: batch) st.readSequence (by simp [hl])
      simp only [hsort]
      have hdumps : (st₁.dumps ++ masked opts st₁.rbSort).Perm (st.dumps ++ masked opts st.rbSort ++
          ((b :: batch).map (fun b' => (b', baseOf st.genesisTime (b :: batch)))).filterMap
            (dumpOfPipe opts)) := by
        rw [hd₁, List.filterMap_map, List.append_assoc]
        exact ((hperm₁.trans List.perm_append_comm).append_left _)
      rw [List.filterMap_append, ← List.append_assoc]
      by_cases hy : youngestOf (baseOf st.genesisTime (b :: batch)) (b :: batch) > opts.stopwatchEnd
      · rw [if_pos hy, if_pos hy]
        refine ⟨st₁, rfl, hr₁, ?_⟩
        simpa using hdumps
      · rw [if_neg hy, if_neg hy]
        obtain ⟨st₂, hshow, hr₂, hg₂, -, hl₂, hd₂, -, -⟩ :=
          @showEntriesRb_spec opts find st₁ false hr₁ st₁.rbSort
        obtain ⟨st₃, hloop, hr₃, hperm₃⟩ := ih rest.length (by omega) hr₂ (hl₂.trans hl₁) rfl
        refine ⟨st₃, ?_, hr₃, ?_⟩
        · simp only [hshow, Option.bind_eq_bind, Option.bind_some]
          exact hloop
        · refine hperm₃.trans ?_
          rw [hd₂, hg₂, hg₁]
          exact hdumps.append_right _

end PipeMode

theorem newPipeMode_regular : newPipeMode.Regular where
  skips _ := ⟨[], SkipList.empty_holds⟩
  smallest _ := rfl
  offline _ := rfl

theorem doPipe_reads (hb : 1 ≤ opts.rbBatch) (input : List PipeItem) :
    ∃ before st, newPipeMode.loop find opts input = some before ∧ before.Regular ∧
      doPipe find opts input = some st ∧ before.dumps <+: st.dumps ∧ st.dumps.Perm
      ((readWith opts 0 (batchesOf opts.rbBatch [] input)).filterMap (dumpOfPipe opts)) := by
  obtain ⟨before, hloop, hr, hperm⟩ := @PipeMode.loop_spec opts find newPipeMode input hb
    newPipeMode_regular rfl
  have hperm' : (before.dumps ++ PipeMode.masked opts before.rbSort).Perm
      ((readWith opts 0 (batchesOf opts.rbBatch [] input)).filterMap (dumpOfPipe opts)) := hperm
  rw [doPipe, hloop]
  simp only [Option.bind_eq_bind, Option.bind_some]
  by_cases hrb : before.rbSort = []
  · refine ⟨before, before, rfl, hr, by rw [if_neg (not_not.mpr hrb)], List.prefix_refl _, ?_⟩
    simpa [hrb, PipeMode.masked] using hperm'
  · obtain ⟨st, hshow, -, -, -, -, hd, hempty, hprefix⟩ :=
      @PipeMode.showEntriesRb_spec opts find before true hr before.rbSort
    refine ⟨before, st, rfl, hr, by rw [if_pos hrb, hshow], hprefix, ?_⟩
    rw [hempty rfl] at hd
    rw [← hd] at hperm'
    simpa [PipeMode.masked] using hperm'

theorem doPipe_spec (hb : 1 ≤ opts.rbBatch) (hv : Verified input) :
    ∃ st, doPipe find opts input = some st ∧ st.dumps.Perm
      ((readWith opts 0 (batchesFrom opts.rbBatch [] input)).filterMap (dumpOfPipe opts)) := by
  obtain ⟨-, st, -, -, hrun, -, hperm⟩ := @doPipe_reads opts find hb input
  rw [batchesOf_verified _ _ hv] at hperm
  exact ⟨st, hrun, hperm⟩

end SBlktrace
