import SBlktrace.RecordStream

namespace SBlktrace

open ByteOrder

def IoBunch.full (opts : RecordOptions) (cur : IoBunch) (spec : IoSpec) : Prop :=
  opts.maxPktsPerBunch.toNat ≤ cur.pkts.length ∨ opts.maxBunchTm < spec.time - cur.timeStamp

instance (opts : RecordOptions) (cur : IoBunch) (spec : IoSpec) : Decidable (cur.full opts spec) :=
  inferInstanceAs (Decidable (_ ∨ _))

def IoBunch.single (spec : IoSpec) : IoBunch where
  timeStamp := spec.time
  pkts := [spec.pkt]

def IoBunch.add (cur : IoBunch) (spec : IoSpec) : IoBunch :=
  { cur with pkts := cur.pkts ++ [spec.pkt] }

def bunchStep (opts : RecordOptions) (bunches : List IoBunch) (spec : IoSpec) : List IoBunch :=
  match bunches.getLast? with
  | none => [.single spec]
  | some cur =>
    if cur.full opts spec then bunches ++ [.single spec]
    else bunches.dropLast ++ [cur.add spec]

def bunchesOf (opts : RecordOptions) (specs : List IoSpec) : List IoBunch :=
  specs.foldl (bunchStep opts) []

variable {opts : RecordOptions} {e : Endian} {specs : List IoSpec} {spec : IoSpec}
  {cur : IoBunch} {closed : List IoBunch}

theorem bunchesOf_snoc (opts : RecordOptions) (specs : List IoSpec) (spec : IoSpec) :
    bunchesOf opts (specs ++ [spec]) = bunchStep opts (bunchesOf opts specs) spec := by
  rw [bunchesOf, List.foldl_append]
  rfl

theorem bunchStep_snoc (h : ¬ cur.full opts spec) :
    bunchStep opts (closed ++ [cur]) spec = closed ++ [cur.add spec] := by
  rw [bunchStep, List.getLast?_concat]
  dsimp only
  rw [if_neg h, List.dropLast_concat]

theorem bunchStep_full (h : cur.full opts spec) :
    bunchStep opts (closed ++ [cur]) spec = closed ++ [cur] ++ [.single spec] := by
  rw [bunchStep, List.getLast?_concat]
  exact if_pos h

structure IoBunch.Made (opts : RecordOptions) (bunch : IoBunch) : Prop where
  pos : 0 < bunch.pkts.length
  le : bunch.pkts.length ≤ opts.maxPktsPerBunch.toNat

theorem made_single (opts : RecordOptions) (spec : IoSpec) : (IoBunch.single spec).Made opts where
  pos := Nat.one_pos
  le := UInt64.le_iff_toNat_le.mp opts.pkts_pos

theorem made_add (hfull : ¬ cur.full opts spec) : (cur.add spec).Made opts := by
  rw [IoBunch.full, not_or] at hfull
  have hlen : (cur.add spec).pkts.length = cur.pkts.length + 1 := List.length_append
  exact ⟨by omega, by omega⟩

theorem IoBunch.Made.lt (h : cur.Made opts) : cur.pkts.length ≤ BT_MAX_PKTS := by
  have hlt := UInt64.lt_iff_toNat_lt.mp opts.pkts_lt
  have hle := h.le
  rw [show (513 : UInt64).toNat = 513 from rfl] at hlt
  rw [BT_MAX_PKTS]
  omega

theorem made_bunchStep {bunches : List IoBunch} (h : ∀ bunch ∈ bunches, bunch.Made opts) :
    ∀ bunch ∈ bunchStep opts bunches spec, bunch.Made opts := by
  obtain rfl | ⟨before, cur, rfl⟩ := bunches.eq_nil_or_concat
  · exact List.forall_mem_singleton.mpr (made_single opts spec)
  · rw [List.concat_eq_append] at h ⊢
    by_cases hfull : cur.full opts spec
    · rw [bunchStep_full hfull]
      exact List.forall_mem_append.mpr ⟨h, List.forall_mem_singleton.mpr (made_single opts spec)⟩
    · rw [bunchStep_snoc hfull]
      exact List.forall_mem_append.mpr ⟨(List.forall_mem_append.mp h).1,
        List.forall_mem_singleton.mpr (made_add hfull)⟩

theorem made_bunchesOf (opts : RecordOptions) (specs : List IoSpec) :
    ∀ bunch ∈ bunchesOf opts specs, bunch.Made opts := by
  induction specs using List.reverseRecOn with
  | nil => exact List.forall_mem_nil _
  | append_singleton specs spec ih =>
    rw [bunchesOf_snoc]
    exact made_bunchStep ih

structure IoStream.Holds (e : Endian) (opts : RecordOptions) (specs : List IoSpec)
    (stream : IoStream) : Prop where
  cur : stream.cur = (bunchesOf opts specs).getLast?
  startTime : ∀ cur, stream.cur = some cur → stream.startTime = cur.timeStamp
  file : ∃ hdr : IoFileHdr, stream.file =
    hdr.bytes e ++ (bunchesOf opts specs).dropLast.flatMap (·.bytes e)
  count : stream.bunches = UInt64.ofNat (bunchesOf opts specs).dropLast.length
  pkts : stream.pkts = UInt64.ofNat ((bunchesOf opts specs).dropLast.flatMap IoBunch.pkts).length

theorem streamOpen_holds (e : Endian) (opts : RecordOptions) :
    (IoStream.streamOpen e).Holds e opts [] where
  cur := rfl
  startTime cur hcur := by cases hcur
  file := by
    refine ⟨{ version := myBtversion, genesis := 0, nbunches := 0, totalPkts := 0 }, ?_⟩
    rfl
  count := rfl
  pkts := rfl

namespace IoStream

variable {stream stream' : IoStream}

theorem bunchDone_iff (h : cur.Made opts) (hstart : stream.startTime = cur.timeStamp) :
    stream.bunchDone opts cur spec = true ↔ cur.full opts spec := by
  have hlt : cur.pkts.length < 2 ^ 64 := h.lt.trans_lt (by decide)
  rw [bunchDone, Bool.or_eq_true, decide_eq_true_eq, decide_eq_true_eq, hstart, IoBunch.full,
    UInt64.le_iff_toNat_le, UInt64.toNat_ofNat_of_lt' hlt]

theorem ioBunchAdd_eq (hcur : stream.cur = some cur) (h : stream.ioBunchAdd spec = some stream') :
    stream' = { stream with cur := some (cur.add spec), lastTime := spec.time } := by
  rw [ioBunchAdd, hcur] at h
  dsimp only at h
  split at h
  · cases h
  split at h
  · cases h
  exact (Option.some.inj h).symm

theorem streamFlush_made (hcur : stream.cur = some cur) (h : cur.Made opts) :
    stream.streamFlush e = some { stream with
      file := stream.file ++ cur.bytes e
      bunches := stream.bunches + 1
      pkts := stream.pkts + UInt64.ofNat cur.pkts.length } := by
  have hpos := h.pos
  rw [streamFlush, hcur]
  dsimp only
  rw [if_neg (by omega), if_neg (not_not_intro h.lt)]

theorem Holds.eq_closed (h : stream.Holds e opts specs) (hcur : stream.cur = some cur) :
    bunchesOf opts specs = (bunchesOf opts specs).dropLast ++ [cur] ∧ cur.Made opts := by
  rw [h.cur] at hcur
  have heq : bunchesOf opts specs = (bunchesOf opts specs).dropLast ++ [cur] :=
    (List.dropLast_append_getLast? cur hcur).symm
  exact ⟨heq, made_bunchesOf opts specs cur (List.mem_of_getLast? hcur)⟩

theorem Holds.streamAddIo (h : stream.Holds e opts specs)
    (hadd : stream.streamAddIo e opts spec = some stream') :
    stream'.Holds e opts (specs ++ [spec]) := by
  obtain ⟨hdr, hfile⟩ := h.file
  rw [IoStream.streamAddIo] at hadd
  cases hcur : stream.cur with
  | none =>
    rw [hcur] at hadd
    have hnil : bunchesOf opts specs = [] := List.getLast?_eq_none_iff.mp (h.cur.symm.trans hcur)
    have hstep : bunchesOf opts (specs ++ [spec]) = [.single spec] := by
      rw [bunchesOf_snoc, hnil]
      rfl
    obtain rfl := ioBunchAdd_eq rfl hadd
    obtain ⟨-, -, -, hcount, hpkts⟩ := h
    rw [hnil] at hfile hcount hpkts
    refine ⟨?_, ?_, ⟨hdr, ?_⟩, ?_, ?_⟩
    · rw [hstep]
      rfl
    · rintro cur ⟨⟩
      rfl
    · rw [hstep]
      exact hfile
    · rw [hstep]
      exact hcount
    · rw [hstep]
      exact hpkts
  | some cur =>
    rw [hcur] at hadd
    obtain ⟨hclosed, hmade⟩ := h.eq_closed hcur
    obtain ⟨-, hstart, -, hcount, hpkts⟩ := h
    have hdone := @bunchDone_iff opts spec cur stream hmade (hstart cur hcur)
    by_cases hfull : cur.full opts spec
    · have hstep : bunchesOf opts (specs ++ [spec]) = bunchesOf opts specs ++ [.single spec] := by
        rw [bunchesOf_snoc, hclosed, bunchStep_full hfull]
      dsimp only at hadd
      rw [if_pos (hdone.mpr hfull), streamFlush_made hcur hmade, Option.bind_some] at hadd
      obtain rfl := ioBunchAdd_eq rfl hadd
      refine ⟨?_, ?_, ⟨hdr, ?_⟩, ?_, ?_⟩
      · rw [hstep, List.getLast?_concat]
        rfl
      · rintro cur ⟨⟩
        rfl
      · rw [hstep, List.dropLast_concat, hclosed, List.flatMap_append, List.flatMap_singleton,
          ← List.append_assoc, ← hfile]
        rfl
      · rw [hstep, List.dropLast_concat, hclosed, List.length_append, UInt64.ofNat_add, ← hcount]
        rfl
      · rw [hstep, List.dropLast_concat, hclosed, List.flatMap_append, List.flatMap_singleton,
          List.length_append, UInt64.ofNat_add, ← hpkts]
        rfl
    · have hstep : bunchesOf opts (specs ++ [spec]) =
          (bunchesOf opts specs).dropLast ++ [cur.add spec] := by
        rw [bunchesOf_snoc]
        conv_lhs => rw [hclosed]
        exact bunchStep_snoc hfull
      dsimp only at hadd
      rw [if_neg (fun hd => hfull (hdone.mp hd))] at hadd
      obtain rfl := ioBunchAdd_eq hcur hadd
      refine ⟨?_, ?_, ⟨hdr, ?_⟩, ?_, ?_⟩
      · rw [hstep, List.getLast?_concat]
      · rintro cur' ⟨⟩
        exact hstart cur hcur
      · rw [hstep, List.dropLast_concat]
        exact hfile
      · rw [hstep, List.dropLast_concat]
        exact hcount
      · rw [hstep, List.dropLast_concat]
        exact hpkts

/-- The header that the recorder leaves counts the bunches before the last one. -/
def closedHdr (opts : RecordOptions) (specs : List IoSpec) (genesis : UInt64) : IoFileHdr where
  version := myBtversion
  genesis := genesis
  nbunches := UInt64.ofNat (bunchesOf opts specs).dropLast.length
  totalPkts := UInt64.ofNat ((bunchesOf opts specs).dropLast.flatMap IoBunch.pkts).length

theorem Holds.streamClose (h : stream.Holds e opts specs) {iip : IfileInfo} {file : List ℕ}
    (hclose : stream.streamClose e iip = some file) :
    file = (closedHdr opts specs iip.genesis).bytes e ++
      (bunchesOf opts specs).flatMap (·.bytes e) := by
  obtain ⟨hdr, hfile⟩ := h.file
  rw [IoStream.streamClose, Option.map_eq_some_iff] at hclose
  obtain ⟨flushed, hflush, hclose⟩ := hclose
  have hbody : flushed.file = hdr.bytes e ++ (bunchesOf opts specs).flatMap (·.bytes e) := by
    cases hcur : stream.cur with
    | none =>
      have hnil : bunchesOf opts specs = [] :=
        List.getLast?_eq_none_iff.mp (h.cur.symm.trans hcur)
      rw [streamFlush, hcur] at hflush
      obtain rfl := Option.some.inj hflush
      rw [hfile, hnil]
      rfl
    | some cur =>
      obtain ⟨hclosed, hmade⟩ := h.eq_closed hcur
      rw [streamFlush_made hcur hmade] at hflush
      obtain rfl := Option.some.inj hflush
      conv_rhs => rw [hclosed]
      rw [List.flatMap_append, List.flatMap_singleton, ← List.append_assoc, ← hfile]
  rw [← hclose, writeFileHdr, hbody, ← IoFileHdr.bytes_length e hdr, List.drop_left, h.count, h.pkts]
  rfl

end IoStream

def specsIn (host : Endian) (dataIsNative : ℤ) (ts : List BlkIoTraceRecord) : List IoSpec :=
  ts.filterMap fun t =>
    if isQueue (specOf host dataIsNative t).2 then some (specOf host dataIsNative t).1 else none

theorem specsIn_cons (host : Endian) (n : ℤ) (t : BlkIoTraceRecord) (ts : List BlkIoTraceRecord) :
    specsIn host n (t :: ts) = specsIn host n [t] ++ specsIn host n ts := by
  rw [specsIn, specsIn, specsIn, ← List.filterMap_append]
  rfl

def recordedSpecs (host : Endian) : List BlkIoTraceRecord → List IoSpec
  | [] => []
  | t :: ts => specsIn host (checkDataEndianness t.magic (-1)).1 (t :: ts)

namespace Recorder

variable {host : Endian} {r r' : Recorder} {t : BlkIoTraceRecord} {ts : List BlkIoTraceRecord}

theorem nextIo_eq {o : Option IoSpec} (h : nextIo host r t = some (r', o)) :
    r'.dataIsNative = r.native t ∧ 0 ≤ r.native t ∧ r'.stream = r.stream ∧
      o = if isQueue (specOf host (r.native t) t).2 then some (specOf host (r.native t) t).1
        else none := by
  rw [nextIo] at h
  split at h
  · cases h
  rename_i hnonneg
  dsimp only at h
  split at h
  · rename_i hqueue
    cases h
    exact ⟨rfl, not_lt.mp hnonneg, rfl, (if_neg hqueue).symm⟩
  rename_i hqueue
  rw [if_pos (not_not.mp hqueue)]
  split at h
  · cases h
    exact ⟨rfl, not_lt.mp hnonneg, rfl, rfl⟩
  split at h
  · cases h
  · cases h
    exact ⟨rfl, not_lt.mp hnonneg, rfl, rfl⟩

theorem native_of_nonneg (h : 0 ≤ r.dataIsNative) : r.native t = r.dataIsNative := by
  rw [native, if_neg (by omega)]

theorem record_cons (h : record host opts r (t :: ts) = some r') (hs : r.stream.Holds host opts specs) :
    ∃ r₁, r₁.dataIsNative = r.native t ∧ 0 ≤ r.native t ∧ record host opts r₁ ts = some r' ∧
      r₁.stream.Holds host opts (specs ++ specsIn host (r.native t) [t]) := by
  rw [record] at h
  cases hnext : nextIo host r t with
  | none =>
    rw [hnext] at h
    cases h
  | some p =>
    obtain ⟨r₁, o⟩ := p
    obtain ⟨hnative, hnonneg, hstream, ho⟩ := nextIo_eq hnext
    rw [hnext] at h
    rw [specsIn, List.filterMap_cons, ← ho]
    cases o with
    | none =>
      refine ⟨r₁, hnative, hnonneg, h, ?_⟩
      rw [hstream]
      simpa using hs
    | some spec =>
      obtain ⟨stream, hadd, hrest⟩ := Option.bind_eq_some_iff.mp h
      rw [hstream] at hadd
      exact ⟨{ r₁ with stream := stream }, hnative, hnonneg, hrest, hs.streamAddIo hadd⟩

theorem record_holds (h : record host opts r ts = some r') (hr : 0 ≤ r.dataIsNative)
    (hs : r.stream.Holds host opts specs) :
    r'.stream.Holds host opts (specs ++ specsIn host r.dataIsNative ts) := by
  induction ts generalizing r specs with
  | nil =>
    cases h
    rw [specsIn, List.filterMap_nil, List.append_nil]
    exact hs
  | cons t ts ih =>
    obtain ⟨r₁, hnative, hnonneg, hrest, hs₁⟩ := record_cons h hs
    rw [native_of_nonneg hr] at hnative hs₁
    have hall := ih hrest (by omega) hs₁
    rw [hnative, List.append_assoc, ← specsIn_cons] at hall
    exact hall

theorem record_start (h : record host opts (start host) ts = some r') :
    r'.stream.Holds host opts (recordedSpecs host ts) := by
  cases ts with
  | nil =>
    cases h
    exact streamOpen_holds host opts
  | cons t ts =>
    obtain ⟨r₁, hnative, hnonneg, hrest, hs₁⟩ := record_cons h (streamOpen_holds host opts)
    have hall := record_holds hrest (by omega) hs₁
    rw [hnative, List.nil_append, ← specsIn_cons] at hall
    exact hall

theorem process_file {file : List ℕ} (h : process host opts ts = some file) :
    ∃ genesis, file = (IoStream.closedHdr opts (recordedSpecs host ts) genesis).bytes host ++
      (bunchesOf opts (recordedSpecs host ts)).flatMap (·.bytes host) := by
  obtain ⟨r, hr, hclose⟩ := Option.bind_eq_some_iff.mp h
  exact ⟨_, (record_start hr).streamClose hclose⟩

end Recorder

def IoBunch.ofGroup : List IoSpec → IoBunch
  | [] => { timeStamp := 0, pkts := [] }
  | spec :: specs => { timeStamp := spec.time, pkts := (spec :: specs).map IoSpec.pkt }

theorem ofGroup_snoc {group : List IoSpec} (h : group ≠ []) (spec : IoSpec) :
    (IoBunch.ofGroup group).add spec = IoBunch.ofGroup (group ++ [spec]) := by
  cases group with
  | nil => exact absurd rfl h
  | cons first group => simp [IoBunch.ofGroup, IoBunch.add]

theorem bunchesOf_groups (opts : RecordOptions) (specs : List IoSpec) :
    ∃ groups : List (List IoSpec), groups.flatten = specs ∧ [] ∉ groups ∧
      bunchesOf opts specs = groups.map IoBunch.ofGroup := by
  induction specs using List.reverseRecOn with
  | nil => exact ⟨[], rfl, List.not_mem_nil, rfl⟩
  | append_singleton specs spec ih =>
    obtain ⟨groups, rfl, hne, hgroups⟩ := ih
    rw [bunchesOf_snoc, hgroups]
    obtain rfl | ⟨before, last, rfl⟩ := groups.eq_nil_or_concat
    · exact ⟨[[spec]], rfl, by simp, rfl⟩
    · rw [List.concat_eq_append, List.mem_append, not_or] at hne
      have hlast : last ≠ [] := fun h => hne.2 (h ▸ List.mem_singleton_self _)
      rw [List.concat_eq_append, List.map_append, List.map_singleton]
      by_cases hfull : (IoBunch.ofGroup last).full opts spec
      · refine ⟨before ++ [last] ++ [[spec]], by simp, by simp [hne.1, hlast.symm], ?_⟩
        rw [bunchStep_full hfull, List.map_append, List.map_append]
        rfl
      · refine ⟨before ++ [last ++ [spec]], by simp, by simp [hne.1], ?_⟩
        rw [bunchStep_snoc hfull, ofGroup_snoc hlast, List.map_append]
        rfl

theorem bunchesOf_pkts (opts : RecordOptions) (specs : List IoSpec) :
    (bunchesOf opts specs).flatMap IoBunch.pkts = specs.map IoSpec.pkt := by
  obtain ⟨groups, rfl, -, hgroups⟩ := bunchesOf_groups opts specs
  rw [hgroups, List.flatMap_map, List.map_flatten, List.flatMap_def]
  congr 1
  refine List.map_congr_left fun group _ => ?_
  cases group <;> rfl

theorem bunchesOf_eq_nil : bunchesOf opts specs = [] ↔ specs = [] := by
  refine ⟨fun h => ?_, fun h => h ▸ rfl⟩
  have hpkts := bunchesOf_pkts opts specs
  rw [h, List.flatMap_nil] at hpkts
  exact List.map_eq_nil_iff.mp hpkts.symm

structure RoundTrip (host : Endian) (bunches : List IoBunch) (file : List ℕ) : Prop where
  body : readBunches host (file.length + 1) (file.drop IoFileHdr.size) = some bunches
  read : ∀ genesis, replayFile host genesis file = some bunches
  nbunches : (IoFileHdr.ofBytes host file).nbunches.toNat = bunches.length
  totalPkts : (IoFileHdr.ofBytes host file).totalPkts.toNat = (bunches.flatMap IoBunch.pkts).length
  nonempty : bunches ≠ [] → ∀ genesis, addInputFile host genesis file ≠ some none

theorem body_bunches {host : Endian} {ts : List BlkIoTraceRecord} {file : List ℕ}
    (h : Recorder.process host opts ts = some file) :
    readBunches host (file.length + 1) (file.drop IoFileHdr.size) =
      some (bunchesOf opts (recordedSpecs host ts)) := by
  obtain ⟨genesis, rfl⟩ := Recorder.process_file h
  rw [← IoFileHdr.bytes_length host (IoStream.closedHdr opts (recordedSpecs host ts) genesis),
    List.drop_left]
  apply readBunches_bytes
  · exact fun bunch hbunch => (made_bunchesOf opts _ bunch hbunch).lt
  · have hle := @bunches_length_le host (bunchesOf opts (recordedSpecs host ts))
    rw [List.length_append]
    omega

/-- The round trip is complete for the inputs that have nothing to record, and for no others: the
header is one bunch short. -/
theorem roundTrip_iff (host : Endian) (opts : RecordOptions) (ts : List BlkIoTraceRecord)
    (file : List ℕ) (h : Recorder.process host opts ts = some file) :
    RoundTrip host (bunchesOf opts (recordedSpecs host ts)) file ↔ recordedSpecs host ts = [] := by
  have hbody := body_bunches h
  obtain ⟨genesis, hfile⟩ := Recorder.process_file h
  have hhdr : IoFileHdr.ofBytes host file =
      IoStream.closedHdr opts (recordedSpecs host ts) genesis := by
    rw [hfile, IoFileHdr.ofBytes_bytes]
  refine ⟨fun hround => ?_, fun hnil => ?_⟩
  · by_contra hne
    have hbunches : bunchesOf opts (recordedSpecs host ts) ≠ [] :=
      fun hnil => hne (bunchesOf_eq_nil.mp hnil)
    have hpos := List.length_pos_iff.mpr hbunches
    have hcount := hround.nbunches
    rw [hhdr, IoStream.closedHdr] at hcount
    dsimp only at hcount
    rw [UInt64.toNat_ofNat', List.length_dropLast] at hcount
    have hmod := Nat.mod_le ((bunchesOf opts (recordedSpecs host ts)).length - 1) (2 ^ 64)
    omega
  · have hbunches := (@bunchesOf_eq_nil opts (recordedSpecs host ts)).mpr hnil
    have hread : ∀ genesis', replayFile host genesis' file = some [] := by
      intro genesis'
      rw [hfile, hnil]
      exact replayFile_bytes genesis' _ rfl [] (List.forall_mem_nil _)
    refine ⟨hbody, fun genesis' => ?_, ?_, ?_, fun hne => absurd hbunches hne⟩
    · rw [hread, hbunches]
    · rw [hhdr, IoStream.closedHdr, hbunches]
      rfl
    · rw [hhdr, IoStream.closedHdr, hbunches]
      rfl

def defaultOptions : RecordOptions where
  maxBunchTm := 10000000
  maxPktsPerBunch := 8
  bunchTm_pos := by decide
  pkts_pos := by decide
  pkts_lt := by decide

def traceOf (action : UInt32) (time : UInt64) (bytes : UInt32) : BlkIoTraceRecord :=
  ⟨⟨0x65617407, 1, time, action, 0x800010, 0⟩, 8, bytes, 1, 0, 0, 0, 0⟩

def queueRead : UInt32 := taQueue ||| blkTcAct blkTcQueue ||| blkTcAct blkTcRead

theorem roundTrip_nothing :
    ∃ file, Recorder.process .little defaultOptions [traceOf 8 100 4096] = some file ∧
      RoundTrip .little
        (bunchesOf defaultOptions (recordedSpecs .little [traceOf 8 100 4096])) file := by
  have hfile : ∃ file, Recorder.process .little defaultOptions [traceOf 8 100 4096] = some file :=
    ⟨_, rfl⟩
  obtain ⟨file, hfile⟩ := hfile
  exact ⟨file, hfile, (roundTrip_iff _ _ _ _ hfile).mpr rfl⟩

/-- A recording of one bunch says in its header that it has none, and is left out of the replay. -/
theorem single_bunch_left_out :
    ∃ file, Recorder.process .little defaultOptions [traceOf queueRead 100 4096] = some file ∧
      addInputFile .little (2 ^ 64 - 1) file = some none ∧
      ¬ RoundTrip .little
        (bunchesOf defaultOptions (recordedSpecs .little [traceOf queueRead 100 4096])) file := by
  refine ⟨_, rfl, rfl, fun h => ?_⟩
  exact h.nonempty (List.cons_ne_nil _ _) (2 ^ 64 - 1) rfl

structure IoSpec.Sound (spec : IoSpec) : Prop where
  pos : 0 < spec.bytes.toNat
  sectors : spec.bytes.toNat % 512 = 0
  bytes_lt : spec.bytes.toNat < 2 ^ 31
  sector_lt : spec.sector.toNat < 2 ^ 54

theorem pkt_replayable_iff (hrw : spec.rw = 0 ∨ spec.rw = 1) :
    spec.pkt.Replayable ↔ spec.Sound := by
  have hnbytes : spec.pkt.nbytes.toNat = spec.bytes.toNat := UInt32.toNat_toUInt64 _
  rw [IoPkt.replayable_iff spec.pkt hrw (hnbytes.trans_lt spec.bytes.toNat_lt), hnbytes]
  exact ⟨fun ⟨hpos, hsectors, hbytes, hsector⟩ => ⟨hpos, hsectors, hbytes, hsector⟩,
    fun h => ⟨h.pos, h.sectors, h.bytes_lt, h.sector_lt⟩⟩

theorem rw_of_mem_specsIn {host : Endian} {n : ℤ} {ts : List BlkIoTraceRecord}
    (h : spec ∈ specsIn host n ts) : spec.rw = 0 ∨ spec.rw = 1 := by
  obtain ⟨t, -, ht⟩ := List.mem_filterMap.mp h
  split at ht
  · obtain rfl := Option.some.inj ht
    rw [specOf]
    generalize (if n ≠ 0 then t.action else be32ToCpu host t.action) = action
    dsimp only
    by_cases hread : action &&& blkTcAct blkTcRead ≠ 0
    · exact .inr (if_pos hread)
    · exact .inl (if_neg hread)
  · cases ht

theorem rw_of_mem_recordedSpecs {host : Endian} {ts : List BlkIoTraceRecord}
    (h : spec ∈ recordedSpecs host ts) : spec.rw = 0 ∨ spec.rw = 1 := by
  cases ts with
  | nil => cases h
  | cons t ts => exact rw_of_mem_specsIn h

/-- No packet of the file stops the replayer exactly when every request of a queue trace is sound:
the recorder itself does not look. -/
theorem recorded_replayable_iff (host : Endian) (opts : RecordOptions)
    (ts : List BlkIoTraceRecord) (file : List ℕ)
    (h : Recorder.process host opts ts = some file) :
    (∃ bunches, readBunches host (file.length + 1) (file.drop IoFileHdr.size) = some bunches ∧
      ∀ bunch ∈ bunches, ∀ pkt ∈ bunch.pkts, pkt.Replayable) ↔
      ∀ spec ∈ recordedSpecs host ts, spec.Sound := by
  have hpkts := bunchesOf_pkts opts (recordedSpecs host ts)
  have hsound : ∀ spec ∈ recordedSpecs host ts, spec.pkt.Replayable ↔ spec.Sound :=
    fun spec hspec => pkt_replayable_iff (rw_of_mem_recordedSpecs hspec)
  refine ⟨fun ⟨bunches, hread, hall⟩ spec hspec => ?_, fun hall => ⟨_, body_bunches h, ?_⟩⟩
  · obtain rfl := Option.some.inj ((body_bunches h).symm.trans hread)
    have hmem : spec.pkt ∈ (bunchesOf opts (recordedSpecs host ts)).flatMap IoBunch.pkts := by
      rw [hpkts]
      exact List.mem_map_of_mem hspec
    obtain ⟨bunch, hbunch, hpkt⟩ := List.mem_flatMap.mp hmem
    exact (hsound spec hspec).mp (hall bunch hbunch _ hpkt)
  · intro bunch hbunch pkt hpkt
    have hmem : pkt ∈ (recordedSpecs host ts).map IoSpec.pkt := by
      rw [← hpkts]
      exact List.mem_flatMap.mpr ⟨bunch, hbunch, hpkt⟩
    obtain ⟨spec, hspec, rfl⟩ := List.mem_map.mp hmem
    exact (hsound spec hspec).mpr (hall spec hspec)

theorem recorded_replayable_read :
    ∃ file, Recorder.process .little defaultOptions [traceOf queueRead 100 4096] = some file ∧
      ∃ bunches, readBunches .little (file.length + 1) (file.drop IoFileHdr.size) = some bunches ∧
        ∀ bunch ∈ bunches, ∀ pkt ∈ bunch.pkts, pkt.Replayable := by
  have hfile : ∃ file,
      Recorder.process .little defaultOptions [traceOf queueRead 100 4096] = some file := ⟨_, rfl⟩
  obtain ⟨file, hfile⟩ := hfile
  refine ⟨file, hfile, (recorded_replayable_iff _ _ _ _ hfile).mpr fun spec hspec => ?_⟩
  obtain rfl : spec = ⟨100, 8, 4096, 1⟩ := List.mem_singleton.mp hspec
  exact ⟨by decide, by decide, by decide, by decide⟩

/-- A flush has no data: its trace is recorded with no bytes, and what is replayed of the file
stops at its packet. -/
theorem flush_stops_replay :
    ∃ file bunches, Recorder.process .little defaultOptions
        [traceOf queueRead 100 0, traceOf queueRead 20000000 4096] = some file ∧
      replayFile .little (2 ^ 64 - 1) file = some bunches ∧
      ∃ bunch ∈ bunches, ∃ pkt ∈ bunch.pkts,
        ∀ writeEnabled iocbp, pkt.setup writeEnabled iocbp = none := by
  refine ⟨_, [⟨100, [⟨8, 0, 1⟩]⟩, ⟨20000000, [⟨8, 4096, 1⟩]⟩], rfl, rfl, _, List.mem_cons_self, _,
    List.mem_singleton_self _, fun writeEnabled iocbp => ?_⟩
  cases hsetup : IoPkt.setup writeEnabled ⟨8, 0, 1⟩ iocbp with
  | none => rfl
  | some iocbp' => exact absurd (IocbPkt.iocbSetup_some hsetup).1 (by decide)

end SBlktrace
