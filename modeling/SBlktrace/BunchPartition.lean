import SBlktrace.RecordReplay

namespace SBlktrace

open ByteOrder

namespace IoStream

abbrev Vfp := Bool

def streamOpenVfp (verbose : Bool) : Vfp := verbose

def bunchOutputHdr (verbose : Bool) (vfp : Vfp) (e : Endian) (stream : IoStream) (cur : IoBunch) :
    Option IoStream :=
  if ¬ (0 < cur.pkts.length ∧ cur.pkts.length ≤ BT_MAX_PKTS) then none
  else if verbose = true ∧ ¬ vfp = true then none
  else some { stream with file := stream.file ++ cur.hdrBytes e }

def bunchOutputPkts (verbose : Bool) (vfp : Vfp) (e : Endian) (stream : IoStream) (cur : IoBunch) :
    Option IoStream :=
  if ¬ (0 < cur.pkts.length ∧ cur.pkts.length ≤ BT_MAX_PKTS) then none
  else if verbose = true ∧ ¬ vfp = true then none
  else some { stream with file := stream.file ++ cur.pkts.flatMap (·.bytes e) }

def flushOutput (verbose : Bool) (vfp : Vfp) (e : Endian) (stream : IoStream) : Option IoStream :=
  match stream.cur with
  | none => some stream
  | some cur =>
    if cur.pkts.length = 0 then some stream
    else if ¬ cur.pkts.length ≤ BT_MAX_PKTS then none
    else
      (stream.bunchOutputHdr verbose vfp e cur).bind fun stream =>
        (stream.bunchOutputPkts verbose vfp e cur).map fun stream =>
          { stream with
            bunches := stream.bunches + 1
            pkts := stream.pkts + UInt64.ofNat cur.pkts.length }

def addOutput (verbose : Bool) (vfp : Vfp) (e : Endian) (opts : RecordOptions) (stream : IoStream)
    (spec : IoSpec) : Option IoStream :=
  match stream.cur with
  | none => (stream.ioBunchCreate spec.time).ioBunchAdd spec
  | some cur =>
    if stream.bunchDone opts cur spec then
      (stream.flushOutput verbose vfp e).bind fun stream =>
        (stream.ioBunchCreate spec.time).ioBunchAdd spec
    else stream.ioBunchAdd spec

def closeOutput (verbose : Bool) (vfp : Vfp) (e : Endian) (iip : IfileInfo) (stream : IoStream) :
    Option (List ℕ) :=
  let hdr : IoFileHdr :=
    { version := 0, genesis := iip.genesis, nbunches := stream.bunches, totalPkts := stream.pkts }
  (stream.flushOutput verbose vfp e).map fun stream => (stream.writeFileHdr e hdr).file

def recordSpecs (verbose : Bool) (e : Endian) (opts : RecordOptions) (iip : IfileInfo)
    (specs : List IoSpec) : Option (List ℕ) :=
  let vfp := streamOpenVfp verbose
  (specs.foldlM (addOutput verbose vfp e opts) (streamOpen e)).bind (closeOutput verbose vfp e iip)

variable {e : Endian} {opts : RecordOptions} {stream : IoStream} {spec : IoSpec}
  {specs : List IoSpec} {verbose : Bool} {cur : IoBunch}

theorem flushOutput_eq (verbose : Bool) (e : Endian) (stream : IoStream) :
    stream.flushOutput verbose (streamOpenVfp verbose) e = stream.streamFlush e := by
  obtain ⟨file, _ | cur, startTime, lastTime, bunches, pkts⟩ := stream
  · rfl
  · rw [flushOutput, streamFlush]
    dsimp only
    by_cases hzero : cur.pkts.length = 0
    · rw [if_pos hzero, if_pos hzero]
    rw [if_neg hzero, if_neg hzero]
    by_cases hle : cur.pkts.length ≤ BT_MAX_PKTS
    · have hpos : 0 < cur.pkts.length := Nat.pos_of_ne_zero hzero
      have hvfp : ¬ (verbose = true ∧ ¬ streamOpenVfp verbose = true) := fun h => h.2 h.1
      have hassert : ¬ ¬ (0 < cur.pkts.length ∧ cur.pkts.length ≤ BT_MAX_PKTS) :=
        not_not_intro ⟨hpos, hle⟩
      rw [if_neg (not_not_intro hle), if_neg (not_not_intro hle), bunchOutputHdr, if_neg hassert,
        if_neg hvfp, Option.bind_some, bunchOutputPkts, if_neg hassert, if_neg hvfp,
        Option.map_some]
      dsimp only
      rw [List.append_assoc]
      rfl
    · rw [if_pos hle, if_pos hle]

theorem addOutput_eq (verbose : Bool) (e : Endian) (opts : RecordOptions) (stream : IoStream)
    (spec : IoSpec) :
    stream.addOutput verbose (streamOpenVfp verbose) e opts spec =
      stream.streamAddIo e opts spec := by
  unfold addOutput streamAddIo
  cases stream.cur with
  | none => rfl
  | some cur =>
    dsimp only
    rw [flushOutput_eq]

theorem closeOutput_eq (verbose : Bool) (e : Endian) (iip : IfileInfo) (stream : IoStream) :
    stream.closeOutput verbose (streamOpenVfp verbose) e iip = stream.streamClose e iip := by
  unfold closeOutput streamClose
  rw [flushOutput_eq]

theorem ioBunchAdd_some (hcur : stream.cur = some cur) (hlt : cur.pkts.length < BT_MAX_PKTS)
    (hlast : stream.lastTime = 0 ∨ stream.lastTime ≤ spec.time) :
    stream.ioBunchAdd spec =
      some { stream with cur := some (cur.add spec), lastTime := spec.time } := by
  rw [ioBunchAdd, hcur]
  dsimp only
  rw [if_neg (not_not_intro hlt), if_neg (not_not_intro hlast)]
  rfl

theorem lt_of_not_full (h : ¬ cur.full opts spec) : cur.pkts.length < BT_MAX_PKTS := by
  have hadd := (made_add h).lt
  have hlen : (cur.add spec).pkts.length = cur.pkts.length + 1 := List.length_append
  omega

theorem streamAddIo_some (h : stream.Holds e opts specs)
    (hlast : stream.lastTime = 0 ∨ stream.lastTime ≤ spec.time) :
    ∃ stream', stream.streamAddIo e opts spec = some stream' ∧ stream'.lastTime = spec.time := by
  have hcreated (stream : IoStream) (hlast : stream.lastTime = 0 ∨ stream.lastTime ≤ spec.time) :
      ∃ stream', (stream.ioBunchCreate spec.time).ioBunchAdd spec = some stream' ∧
        stream'.lastTime = spec.time :=
    ⟨_, @ioBunchAdd_some (stream.ioBunchCreate spec.time) spec _ rfl Nat.succ_pos' hlast, rfl⟩
  unfold streamAddIo
  cases hcur : stream.cur with
  | none => exact hcreated stream hlast
  | some cur =>
    obtain ⟨-, hmade⟩ := h.eq_closed hcur
    have hdone := @bunchDone_iff opts spec cur stream hmade (h.startTime cur hcur)
    dsimp only
    by_cases hfull : cur.full opts spec
    · rw [if_pos (hdone.mpr hfull), streamFlush_made hcur hmade, Option.bind_some]
      exact hcreated _ hlast
    · rw [if_neg fun hd => hfull (hdone.mp hd)]
      exact ⟨_, ioBunchAdd_some hcur (lt_of_not_full hfull) hlast, rfl⟩

end IoStream

structure Bunching (opts : RecordOptions) (specs : List IoSpec) (groups : List (List IoSpec)) :
    Prop where
  flatten : groups.flatten = specs
  pos : ∀ group ∈ groups, 0 < group.length
  le : ∀ group ∈ groups, group.length ≤ opts.maxPktsPerBunch.toNat
  timeStamp : ∀ group ∈ groups,
    group.head?.map IoSpec.time = some (IoBunch.ofGroup group).timeStamp
  within : ∀ group ∈ groups, ∀ spec ∈ group,
    (IoBunch.ofGroup group).timeStamp.toNat ≤ spec.time.toNat ∧
      spec.time.toNat ≤ (IoBunch.ofGroup group).timeStamp.toNat + opts.maxBunchTm.toNat
  ends : groups.IsChain fun group next =>
    group.length = opts.maxPktsPerBunch.toNat ∨
      (IoBunch.ofGroup group).timeStamp.toNat + opts.maxBunchTm.toNat <
        (IoBunch.ofGroup next).timeStamp.toNat

variable {opts : RecordOptions} {specs : List IoSpec} {spec : IoSpec} {group last : List IoSpec}
  {before groups : List (List IoSpec)}

theorem ofGroup_append_timeStamp (h : 0 < group.length) (specs : List IoSpec) :
    (IoBunch.ofGroup (group ++ specs)).timeStamp = (IoBunch.ofGroup group).timeStamp := by
  cases group with
  | nil => exact absurd h (lt_irrefl 0)
  | cons first group => rfl

theorem ofGroup_head (h : 0 < group.length) :
    group.head?.map IoSpec.time = some (IoBunch.ofGroup group).timeStamp := by
  cases group with
  | nil => exact absurd h (lt_irrefl 0)
  | cons first group => rfl

theorem ofGroup_pkts (group : List IoSpec) :
    (IoBunch.ofGroup group).pkts = group.map IoSpec.pkt := by
  cases group <;> rfl

theorem ofGroup_timeStamp_le (h : 0 < group.length)
    (horder : ∀ earlier ∈ group, earlier.time ≤ spec.time) :
    (IoBunch.ofGroup group).timeStamp ≤ spec.time := by
  cases group with
  | nil => exact absurd h (lt_irrefl 0)
  | cons first group => exact horder first List.mem_cons_self

theorem full_ofGroup_iff (hle : (IoBunch.ofGroup group).timeStamp ≤ spec.time) :
    (IoBunch.ofGroup group).full opts spec ↔
      opts.maxPktsPerBunch.toNat ≤ group.length ∨
        (IoBunch.ofGroup group).timeStamp.toNat + opts.maxBunchTm.toNat < spec.time.toNat := by
  rw [IoBunch.full, ofGroup_pkts, List.length_map, UInt64.lt_iff_toNat_lt,
    UInt64.toNat_sub_of_le _ _ hle]
  have hle := UInt64.le_iff_toNat_le.mp hle
  omega

namespace Bunching

theorem nil (opts : RecordOptions) : Bunching opts [] [] where
  flatten := rfl
  pos := List.forall_mem_nil _
  le := List.forall_mem_nil _
  timeStamp := List.forall_mem_nil _
  within := List.forall_mem_nil _
  ends := List.isChain_nil

theorem single (opts : RecordOptions) (spec : IoSpec) : Bunching opts [spec] [[spec]] where
  flatten := rfl
  pos := List.forall_mem_singleton.mpr Nat.one_pos
  le := List.forall_mem_singleton.mpr (UInt64.le_iff_toNat_le.mp opts.pkts_pos)
  timeStamp := List.forall_mem_singleton.mpr rfl
  within := by
    refine List.forall_mem_singleton.mpr (List.forall_mem_singleton.mpr ?_)
    exact ⟨le_rfl, Nat.le_add_right _ _⟩
  ends := List.isChain_singleton _

theorem close (h : Bunching opts specs (before ++ [last]))
    (hle : (IoBunch.ofGroup last).timeStamp ≤ spec.time)
    (hfull : (IoBunch.ofGroup last).full opts spec) :
    Bunching opts (specs ++ [spec]) (before ++ [last] ++ [[spec]]) := by
  have hnew := Bunching.single opts spec
  rw [full_ofGroup_iff hle] at hfull
  constructor
  · rw [List.flatten_append, h.flatten]
    rfl
  · exact List.forall_mem_append.mpr ⟨h.pos, hnew.pos⟩
  · exact List.forall_mem_append.mpr ⟨h.le, hnew.le⟩
  · exact List.forall_mem_append.mpr ⟨h.timeStamp, hnew.timeStamp⟩
  · exact List.forall_mem_append.mpr ⟨h.within, hnew.within⟩
  · apply List.isChain_append.mpr
    refine ⟨h.ends, hnew.ends, fun group hgroup next hnext => ?_⟩
    rw [List.getLast?_concat, Option.mem_some_iff] at hgroup
    obtain rfl := hgroup
    obtain rfl : [spec] = next := Option.mem_some_iff.mp hnext
    have hlen := h.le last (List.mem_append_right _ (List.mem_singleton_self _))
    exact hfull.imp_left fun hge => le_antisymm hlen hge

theorem extend (h : Bunching opts specs (before ++ [last]))
    (hle : (IoBunch.ofGroup last).timeStamp ≤ spec.time)
    (hfull : ¬ (IoBunch.ofGroup last).full opts spec) :
    Bunching opts (specs ++ [spec]) (before ++ [last ++ [spec]]) := by
  have hlast : last ∈ before ++ [last] := List.mem_append_right _ (List.mem_singleton_self _)
  have hstamp := ofGroup_append_timeStamp (h.pos last hlast) [spec]
  rw [full_ofGroup_iff hle, not_or] at hfull
  have hlen : (last ++ [spec]).length = last.length + 1 := List.length_append
  have hle := UInt64.le_iff_toNat_le.mp hle
  constructor
  · rw [← h.flatten]
    simp only [List.flatten_append, List.flatten_singleton, List.append_assoc]
  · exact List.forall_mem_append.mpr
      ⟨(List.forall_mem_append.mp h.pos).1, List.forall_mem_singleton.mpr (by omega)⟩
  · exact List.forall_mem_append.mpr
      ⟨(List.forall_mem_append.mp h.le).1, List.forall_mem_singleton.mpr (by omega)⟩
  · exact List.forall_mem_append.mpr ⟨(List.forall_mem_append.mp h.timeStamp).1,
      List.forall_mem_singleton.mpr (ofGroup_head (by omega))⟩
  · refine List.forall_mem_append.mpr
      ⟨(List.forall_mem_append.mp h.within).1, List.forall_mem_singleton.mpr ?_⟩
    rw [hstamp]
    exact List.forall_mem_append.mpr
      ⟨h.within last hlast, List.forall_mem_singleton.mpr ⟨hle, by omega⟩⟩
  · obtain ⟨hbefore, -, hends⟩ := List.isChain_append.mp h.ends
    apply List.isChain_append.mpr
    refine ⟨hbefore, List.isChain_singleton _, fun group hgroup next hnext => ?_⟩
    obtain rfl : last ++ [spec] = next := Option.mem_some_iff.mp hnext
    rw [hstamp]
    exact hends group hgroup last rfl

end Bunching

theorem bunchesOf_bunching (opts : RecordOptions) (specs : List IoSpec)
    (horder : specs.Pairwise fun earlier later => earlier.time ≤ later.time) :
    ∃ groups, Bunching opts specs groups ∧ bunchesOf opts specs = groups.map IoBunch.ofGroup := by
  induction specs using List.reverseRecOn with
  | nil => exact ⟨[], .nil opts, rfl⟩
  | append_singleton specs spec ih =>
    obtain ⟨hbefore, -, hspec⟩ := List.pairwise_append.mp horder
    obtain ⟨groups, hgroups, hbunches⟩ := ih hbefore
    rw [bunchesOf_snoc, hbunches]
    obtain rfl | ⟨before, last, rfl⟩ := groups.eq_nil_or_concat
    · obtain rfl : [] = specs := hgroups.flatten
      exact ⟨[[spec]], .single opts spec, rfl⟩
    rw [List.concat_eq_append] at hgroups ⊢
    have hlast : last ∈ before ++ [last] := List.mem_append_right _ (List.mem_singleton_self _)
    have hpos := hgroups.pos last hlast
    have hle : (IoBunch.ofGroup last).timeStamp ≤ spec.time := by
      apply ofGroup_timeStamp_le hpos
      intro earlier hearlier
      have hmem : earlier ∈ specs := by
        rw [← hgroups.flatten]
        exact List.mem_flatten.mpr ⟨last, hlast, hearlier⟩
      exact hspec earlier hmem spec (List.mem_singleton_self spec)
    rw [List.map_append, List.map_singleton]
    by_cases hfull : (IoBunch.ofGroup last).full opts spec
    · refine ⟨_, hgroups.close hle hfull, ?_⟩
      rw [bunchStep_full hfull, List.map_append, List.map_append]
      rfl
    · refine ⟨_, hgroups.extend hle hfull, ?_⟩
      rw [bunchStep_snoc hfull, ofGroup_snoc (List.ne_nil_of_length_pos hpos), List.map_append]
      rfl

namespace IoStream

variable {e : Endian} {stream : IoStream}

theorem foldlM_some (h : stream.Holds e opts specs) {rest : List IoSpec}
    (hlast : ∀ spec ∈ rest, stream.lastTime = 0 ∨ stream.lastTime ≤ spec.time)
    (horder : rest.Pairwise fun earlier later => earlier.time ≤ later.time) :
    ∃ stream', rest.foldlM (streamAddIo e opts) stream = some stream' ∧
      stream'.Holds e opts (specs ++ rest) := by
  induction rest generalizing stream specs with
  | nil =>
    rw [List.append_nil]
    exact ⟨stream, rfl, h⟩
  | cons spec rest ih =>
    obtain ⟨hspec, hrest⟩ := List.pairwise_cons.mp horder
    obtain ⟨next, hadd, htime⟩ := streamAddIo_some h (hlast spec List.mem_cons_self)
    obtain ⟨stream', hfold, hholds⟩ :=
      ih (h.streamAddIo hadd) (fun later hlater => .inr (htime ▸ hspec later hlater)) hrest
    rw [List.append_assoc] at hholds
    refine ⟨stream', ?_, hholds⟩
    rw [List.foldlM_cons, hadd]
    exact hfold

theorem streamClose_some (h : stream.Holds e opts specs) (iip : IfileInfo) :
    ∃ file, stream.streamClose e iip = some file := by
  unfold streamClose
  cases hcur : stream.cur with
  | none =>
    have hflush : stream.streamFlush e = some stream := by
      rw [streamFlush, hcur]
    exact ⟨_, congrArg (Option.map _) hflush⟩
  | some cur => exact ⟨_, congrArg (Option.map _) (streamFlush_made hcur (h.eq_closed hcur).2)⟩

/-- Requests in the order of time stop no assertion, and the bunches of the file are their
sequence, cut where a bunch is full or the next request comes too late for it. -/
theorem bunching_partitions (verbose : Bool) (e : Endian) (opts : RecordOptions) (iip : IfileInfo)
    (specs : List IoSpec)
    (horder : specs.Pairwise fun earlier later => earlier.time ≤ later.time) :
    ∃ (hdr : IoFileHdr) (groups : List (List IoSpec)),
      recordSpecs verbose e opts iip specs =
        some (hdr.bytes e ++ (groups.map IoBunch.ofGroup).flatMap (·.bytes e)) ∧
      Bunching opts specs groups := by
  obtain ⟨groups, hgroups, hbunches⟩ := bunchesOf_bunching opts specs horder
  obtain ⟨stream, hfold, hholds⟩ :=
    foldlM_some (streamOpen_holds e opts) (fun _ _ => .inl rfl) horder
  obtain ⟨file, hclose⟩ := streamClose_some hholds iip
  refine ⟨closedHdr opts specs iip.genesis, groups, ?_, hgroups⟩
  have hadd : addOutput verbose (streamOpenVfp verbose) e opts = streamAddIo e opts := by
    funext stream spec
    exact addOutput_eq verbose e opts stream spec
  rw [recordSpecs, hadd, hfold, Option.bind_some, closeOutput_eq, hclose, hholds.streamClose hclose,
    List.nil_append, hbunches]

theorem bunching_two_requests :
    ([⟨5, 8, 4096, 1⟩, ⟨7, 16, 512, 0⟩] : List IoSpec).Pairwise
        (fun earlier later => earlier.time ≤ later.time) ∧
      ∃ (hdr : IoFileHdr) (groups : List (List IoSpec)),
        recordSpecs true .little defaultOptions ⟨2, 5⟩ [⟨5, 8, 4096, 1⟩, ⟨7, 16, 512, 0⟩] =
          some (hdr.bytes .little ++ (groups.map IoBunch.ofGroup).flatMap (·.bytes .little)) ∧
        Bunching defaultOptions [⟨5, 8, 4096, 1⟩, ⟨7, 16, 512, 0⟩] groups :=
  ⟨by decide, bunching_partitions true .little defaultOptions ⟨2, 5⟩ _ (by decide)⟩

end IoStream

end SBlktrace
