import SBlktrace.Framing
import SBlktrace.ByteOrder
import SBlktrace.TraceDecode
import Mathlib

namespace SBlktrace

open ByteOrder Framing

structure TraceBuf where
  buf : List UInt8
  len : ℕ
  len_le : len ≤ buf.length

def pduLenAt (host : Endian) (l : List UInt8) : ℕ :=
  value host (((l.drop 52).take 2).map UInt8.toNat)

/-- The bytes at the end of a larger allocation are not specified; here they are 0. -/
def reallocBuf (buf : List UInt8) (n : ℕ) : List UInt8 :=
  buf.take n ++ List.replicate (n - buf.length) 0

namespace TraceBuf

def data (tb : TraceBuf) : List UInt8 := tb.buf.take tb.len

def memmove (tb : TraceBuf) (off : ℕ) : TraceBuf where
  buf := (tb.buf.drop off).take (tb.len - off) ++ tb.buf.drop (tb.len - off)
  len := tb.len - off
  len_le := by
    have := tb.len_le
    rw [List.length_append, List.length_take, List.length_drop, List.length_drop]
    omega

end TraceBuf

/-- `memcpy` of a buffer behind the first `len` bytes of `buf`, `none` where it would leave
`buf`. -/
def copyAfter (buf : List UInt8) (len : ℕ) (tbp : TraceBuf) : Option TraceBuf :=
  if h : len + tbp.len ≤ buf.length then
    some
      { buf := buf.take len ++ tbp.data ++ buf.drop (len + tbp.len)
        len := len + tbp.len
        len_le := by
          have := tbp.len_le
          simp only [TraceBuf.data, List.length_append, List.length_take, List.length_drop]
          omega }
  else none

def tbCombine (bufSize : ℕ) (prev tbp : TraceBuf) : Option TraceBuf :=
  let totLen := prev.len + tbp.len
  copyAfter (if totLen > bufSize then reallocBuf prev.buf totLen else prev.buf) prev.len tbp

def withLeftover (bufSize : ℕ) (prev : Option TraceBuf) (tbp : TraceBuf) : Option TraceBuf :=
  match prev with
  | some prev => tbCombine bufSize prev tbp
  | none => some tbp

def scanTraces (host : Endian) (tb : TraceBuf) (off nevents : ℕ) : ℕ × ℕ :=
  if off + sizeofTrace ≤ tb.len then
    let tLen := sizeofTrace + pduLenAt host (tb.buf.drop off)
    if off + tLen > tb.len then (off, nevents)
    else scanTraces host tb (off + tLen) (nevents + 1)
  else (off, nevents)
termination_by tb.len - off
decreasing_by
  simp only [sizeofTrace] at *
  omega

/-- The leftover of a `tracer_devpath_head`, what has been written for it, and the events that
`pdc_nev_update` was told. -/
structure DevpathHead where
  prev : Option TraceBuf
  written : List UInt8
  nevents : ℕ

namespace DevpathHead

/-- The body of the loop of `handle_list_file`. A `write_data` that fails gets the first `failed`
bytes out. -/
def handleBuf (host : Endian) (bufSize : ℕ) (hd : DevpathHead) (tbp : TraceBuf)
    (failed : Option ℕ) : Option DevpathHead := do
  let tbp ← withLeftover bufSize hd.prev tbp
  let (off, nevents) := scanTraces host tbp 0 0
  let hd := { hd with nevents := hd.nevents + nevents }
  if off ≠ 0 then
    match failed with
    | some n =>
      some { hd with
        written := hd.written ++ (tbp.buf.take off).take n
        prev := none }
    | none =>
      let hd := { hd with written := hd.written ++ tbp.buf.take off }
      if off = tbp.len then some { hd with prev := none }
      else some { hd with prev := some (tbp.memmove off) }
  else some { hd with prev := some tbp }

/-- `handle_list_file`, with the number of entries handled. Each buffer comes with what its
`write_data` does. -/
def handleListFile (host : Endian) (bufSize : ℕ) (hd : DevpathHead)
    (list : List (TraceBuf × Option ℕ)) : Option (DevpathHead × ℕ) := do
  let hd ← list.foldlM (fun hd tbp => handleBuf host bufSize hd tbp.1 tbp.2) hd
  some (hd, list.length)

def succeeding (list : List TraceBuf) : List (TraceBuf × Option ℕ) :=
  list.map fun tbp => (tbp, none)

def handleCalls (host : Endian) (bufSize : ℕ) (hd : DevpathHead)
    (calls : List (List (TraceBuf × Option ℕ))) : Option DevpathHead :=
  calls.foldlM (fun hd list => (handleListFile host bufSize hd list).map Prod.fst) hd

/-- Calls in which every `write_data` succeeds. -/
def handleLists (host : Endian) (bufSize : ℕ) (hd : DevpathHead) (calls : List (List TraceBuf)) :
    Option DevpathHead :=
  handleCalls host bufSize hd (calls.map succeeding)

def leftover (hd : DevpathHead) : List UInt8 := (hd.prev.map TraceBuf.data).getD []

end DevpathHead

def newDevpathHead : DevpathHead := ⟨none, [], 0⟩

def received (list : List TraceBuf) : List UInt8 := (list.map TraceBuf.data).flatten

def traceFormat (host : Endian) : Format UInt8 where
  header := sizeofTrace
  header_pos := by decide
  body := pduLenAt host
  body_append l l' h := by
    have h52 : 52 ≤ l.length := le_trans (by decide) h
    have h2 : 2 ≤ (l.drop 52).length := by
      rw [List.length_drop]
      exact Nat.le_sub_of_add_le (le_trans (by decide) h)
    rw [pduLenAt, pduLenAt, List.drop_append_of_le_length h52, List.take_append_of_le_length h2]

namespace TraceBuf

variable {host : Endian} {bufSize off : ℕ} {tb prev : TraceBuf}

theorem data_length (tb : TraceBuf) : tb.data.length = tb.len := by
  rw [data, List.length_take, Nat.min_eq_left tb.len_le]

theorem buf_split (hoff : off ≤ tb.len) :
    tb.buf.drop off = tb.data.drop off ++ tb.buf.drop tb.len := by
  rw [← List.drop_append_of_le_length (by rw [data_length]; exact hoff), data, List.take_append_drop]

theorem take_data (hoff : off ≤ tb.len) : tb.buf.take off = tb.data.take off := by
  rw [data, List.take_take, Nat.min_eq_left hoff]

theorem memmove_data (hoff : off ≤ tb.len) : (tb.memmove off).data = tb.data.drop off := by
  have hlen : (tb.data.drop off).length = tb.len - off := by rw [List.length_drop, data_length]
  have htake : (tb.buf.drop off).take (tb.len - off) = tb.data.drop off := by
    rw [buf_split hoff, List.take_left' hlen]
  rw [data, memmove]
  dsimp only
  rw [htake, List.take_left' hlen]

theorem memmove_capacity (hoff : off ≤ tb.len) : (tb.memmove off).buf.length = tb.buf.length := by
  have := tb.len_le
  rw [memmove, List.length_append, List.length_take, List.length_drop, List.length_drop]
  omega

theorem scanTraces_eq (off nevents : ℕ) (hoff : off ≤ tb.len) :
    scanTraces host tb off nevents =
      (off + (whole (traceFormat host) (tb.data.drop off)).1,
        nevents + (whole (traceFormat host) (tb.data.drop off)).2) := by
  induction hn : tb.len - off using Nat.strong_induction_on generalizing off nevents with
  | _ n ih =>
    have hlen : (tb.data.drop off).length = tb.len - off := by rw [List.length_drop, data_length]
    rw [scanTraces]
    by_cases hh : off + sizeofTrace ≤ tb.len
    · have hheader : (traceFormat host).header ≤ (tb.data.drop off).length := by
        rw [hlen]
        exact Nat.le_sub_of_add_le' hh
      have hsize : sizeofTrace + pduLenAt host (tb.buf.drop off) =
          (traceFormat host).size (tb.data.drop off) := by
        rw [buf_split hoff]
        exact congrArg (sizeofTrace + ·) ((traceFormat host).body_append _ _ hheader)
      rw [if_pos hh]
      dsimp only
      rw [hsize]
      by_cases hfit : off + (traceFormat host).size (tb.data.drop off) > tb.len
      · rw [if_pos hfit, whole_short]
        · rfl
        · rintro ⟨-, hs⟩
          omega
      · have hpos : 0 < (traceFormat host).size (tb.data.drop off) :=
          Nat.lt_of_lt_of_le (traceFormat host).header_pos (Nat.le_add_right _ _)
        rw [if_neg hfit, ih _ (by omega) _ _ (by omega) rfl,
          whole_frame hheader (by omega), List.drop_drop]
        dsimp only
        rw [Nat.add_assoc, Nat.add_assoc, Nat.add_comm 1]
    · rw [if_neg hh, whole_short]
      · rfl
      · rintro ⟨hh', -⟩
        rw [hlen] at hh'
        have : sizeofTrace ≤ tb.len - off := hh'
        omega

theorem tbCombine_spec (tbp : TraceBuf) (hprev : bufSize ≤ prev.buf.length) :
    ∃ tb, tbCombine bufSize prev tbp = some tb ∧ tb.data = prev.data ++ tbp.data ∧
      bufSize ≤ tb.buf.length := by
  have hle := prev.len_le
  have hprevData : ∀ n, prev.len ≤ n → (reallocBuf prev.buf n).take prev.len = prev.data := by
    intro n hn
    rw [reallocBuf, List.take_append_of_le_length, List.take_take, Nat.min_eq_left hn, data]
    rw [List.length_take]
    omega
  have hrealloc : ∀ n, (reallocBuf prev.buf n).length = n := by
    intro n
    rw [reallocBuf, List.length_append, List.length_take, List.length_replicate]
    omega
  have hbuf : ∃ buf : List UInt8, (if prev.len + tbp.len > bufSize
        then reallocBuf prev.buf (prev.len + tbp.len) else prev.buf) = buf ∧
      buf.take prev.len = prev.data ∧ prev.len + tbp.len ≤ buf.length ∧ bufSize ≤ buf.length := by
    by_cases hbig : prev.len + tbp.len > bufSize
    · refine ⟨_, if_pos hbig, hprevData _ (Nat.le_add_right _ _), ?_, ?_⟩
      · rw [hrealloc]
      · rw [hrealloc]
        omega
    · exact ⟨_, if_neg hbig, rfl, by omega, hprev⟩
  obtain ⟨buf, hif, htake, hfits, hcap⟩ := hbuf
  have hlen : (prev.data ++ tbp.data).length = prev.len + tbp.len := by
    rw [List.length_append, data_length, data_length]
  rw [tbCombine, hif, copyAfter, dif_pos hfits]
  refine ⟨_, rfl, ?_, ?_⟩
  · rw [data]
    dsimp only
    rw [htake, List.take_left' hlen]
  · dsimp only
    rw [htake, List.length_append, hlen, List.length_drop]
    omega

end TraceBuf

namespace DevpathHead

variable {host : Endian} {bufSize : ℕ} {events : List (List UInt8)} {hd : DevpathHead}
  {consumed : List UInt8}

theorem withLeftover_spec {tbp : TraceBuf}
    (hprev : ∀ tb, hd.prev = some tb → bufSize ≤ tb.buf.length) (hcap : bufSize ≤ tbp.buf.length) :
    ∃ tb, withLeftover bufSize hd.prev tbp = some tb ∧ tb.data = hd.leftover ++ tbp.data ∧
      bufSize ≤ tb.buf.length := by
  cases heq : hd.prev with
  | none => exact ⟨tbp, rfl, by simp [leftover, heq], hcap⟩
  | some prev =>
    obtain ⟨tb, hcombine, hdata, htbcap⟩ := TraceBuf.tbCombine_spec tbp (hprev prev heq)
    exact ⟨tb, hcombine, by simp [leftover, heq, hdata], htbcap⟩

/-- Whether the writes succeed or not, what has been written and the leftover are a part of what has
come in, in its order. -/
structure Ordered (bufSize : ℕ) (hd : DevpathHead) (consumed : List UInt8) : Prop where
  sub : (hd.written ++ hd.leftover).Sublist consumed
  capacity : ∀ tb, hd.prev = some tb → bufSize ≤ tb.buf.length

theorem Ordered.handleBuf (ho : Ordered bufSize hd consumed) (host : Endian) {tbp : TraceBuf}
    (hcap : tbp.buf.length = bufSize) (failed : Option ℕ) :
    ∃ hd', hd.handleBuf host bufSize tbp failed = some hd' ∧
      Ordered bufSize hd' (consumed ++ tbp.data) := by
  obtain ⟨tb, hcombine, hdata, htbcap⟩ := withLeftover_spec ho.capacity hcap.ge
  have hall : (hd.written ++ tb.data).Sublist (consumed ++ tbp.data) := by
    rw [hdata, ← List.append_assoc]
    exact ho.sub.append (List.Sublist.refl _)
  have hoff : (scanTraces host tb 0 0).1 ≤ tb.len := by
    rw [TraceBuf.scanTraces_eq 0 0 (Nat.zero_le _), List.drop_zero, Nat.zero_add]
    have hwhole := whole_le (traceFormat host) tb.data
    rw [TraceBuf.data_length] at hwhole
    exact hwhole
  have hkeep : (hd.written ++ tb.buf.take (scanTraces host tb 0 0).1 ++
      tb.data.drop (scanTraces host tb 0 0).1).Sublist (consumed ++ tbp.data) := by
    rw [TraceBuf.take_data hoff, List.append_assoc, List.take_append_drop]
    exact hall
  rw [DevpathHead.handleBuf, hcombine]
  dsimp only [Option.bind_eq_bind, Option.bind_some]
  by_cases hzero : (scanTraces host tb 0 0).1 ≠ 0
  · rw [if_pos hzero]
    cases failed with
    | some n =>
      refine ⟨_, rfl, List.Sublist.trans ?_ hkeep, fun _ h => by cases h⟩
      refine List.Sublist.append ?_ (List.nil_sublist _)
      exact (List.Sublist.refl _).append (List.take_sublist _ _)
    | none =>
      dsimp only
      split_ifs with hend
      · refine ⟨_, rfl, List.Sublist.trans ?_ hkeep, fun _ h => by cases h⟩
        exact (List.Sublist.refl _).append (List.nil_sublist _)
      · refine ⟨_, rfl, ?_, fun tb' htb' => ?_⟩
        · rw [← TraceBuf.memmove_data hoff] at hkeep
          exact hkeep
        · obtain rfl := Option.some.inj htb'
          rw [TraceBuf.memmove_capacity hoff]
          exact htbcap
  · rw [if_neg hzero]
    refine ⟨_, rfl, hall, fun tb' htb' => ?_⟩
    obtain rfl := Option.some.inj htb'
    exact htbcap

theorem Ordered.handleBufs (ho : Ordered bufSize hd consumed) (host : Endian)
    {list : List (TraceBuf × Option ℕ)} (hcap : ∀ tbp ∈ list, tbp.1.buf.length = bufSize) :
    ∃ hd', handleListFile host bufSize hd list = some (hd', list.length) ∧
      Ordered bufSize hd' (consumed ++ received (list.map Prod.fst)) := by
  suffices hfold : ∃ hd',
      list.foldlM (fun hd tbp => DevpathHead.handleBuf host bufSize hd tbp.1 tbp.2) hd = some hd' ∧
      Ordered bufSize hd' (consumed ++ received (list.map Prod.fst)) by
    obtain ⟨hd', hrun, ho'⟩ := hfold
    exact ⟨hd', by rw [handleListFile, hrun]; rfl, ho'⟩
  induction list generalizing hd consumed with
  | nil => exact ⟨hd, rfl, by simpa [received] using ho⟩
  | cons tbp list ih =>
    have hreceived : consumed ++ received ((tbp :: list).map Prod.fst) =
        consumed ++ tbp.1.data ++ received (list.map Prod.fst) := by
      simp [received]
    obtain ⟨hd₁, hrun₁, ho₁⟩ := ho.handleBuf host (hcap tbp List.mem_cons_self) tbp.2
    obtain ⟨hd₂, hrun₂, ho₂⟩ := ih ho₁ fun tbp' h => hcap tbp' (List.mem_cons_of_mem tbp h)
    rw [hreceived]
    refine ⟨hd₂, ?_, ho₂⟩
    rw [List.foldlM_cons, hrun₁]
    exact hrun₂

theorem Ordered.handleCalls (ho : Ordered bufSize hd consumed) (host : Endian)
    {calls : List (List (TraceBuf × Option ℕ))}
    (hcap : ∀ tbp ∈ calls.flatten, tbp.1.buf.length = bufSize) :
    ∃ hd', handleCalls host bufSize hd calls = some hd' ∧
      Ordered bufSize hd' (consumed ++ received (calls.flatten.map Prod.fst)) := by
  induction calls generalizing hd consumed with
  | nil => exact ⟨hd, rfl, by simpa [received] using ho⟩
  | cons list calls ih =>
    have hreceived : consumed ++ received ((list :: calls).flatten.map Prod.fst) =
        consumed ++ received (list.map Prod.fst) ++ received (calls.flatten.map Prod.fst) := by
      simp [received]
    rw [List.flatten_cons, List.forall_mem_append] at hcap
    obtain ⟨hd₁, hrun₁, ho₁⟩ := ho.handleBufs host hcap.1
    obtain ⟨hd₂, hrun₂, ho₂⟩ := ih ho₁ hcap.2
    rw [hreceived]
    refine ⟨hd₂, ?_, ho₂⟩
    rw [DevpathHead.handleCalls, List.foldlM_cons, hrun₁]
    exact hrun₂

/-- What has been written and the leftover are what has come in, cut where the last whole event
ends. -/
structure Framed (host : Endian) (bufSize : ℕ) (events : List (List UInt8)) (hd : DevpathHead)
    (consumed : List UInt8) : Prop where
  split : hd.written ++ hd.leftover = consumed
  count : hd.nevents ≤ events.length
  boundary : hd.written = (events.take hd.nevents).flatten
  begun : Partial (events.drop hd.nevents) hd.leftover
  capacity : ∀ tb, hd.prev = some tb → bufSize ≤ tb.buf.length

theorem Framed.handleBuf (hf : Framed host bufSize events hd consumed)
    (hev : ∀ e ∈ events, (traceFormat host).IsFrame e) {tbp : TraceBuf}
    (hcap : tbp.buf.length = bufSize) (hin : consumed ++ tbp.data <+: events.flatten) :
    ∃ hd', hd.handleBuf host bufSize tbp none = some hd' ∧
      Framed host bufSize events hd' (consumed ++ tbp.data) := by
  obtain ⟨tb, hcombine, hdata, htbcap⟩ := withLeftover_spec hf.capacity hcap.ge
  -- what is scanned continues the stream where the events written so far end
  have hrest : tb.data <+: (events.drop hd.nevents).flatten := by
    have hall : events.flatten =
        (events.take hd.nevents).flatten ++ (events.drop hd.nevents).flatten := by
      rw [← List.flatten_append, List.take_append_drop]
    rw [← hf.split, List.append_assoc, ← hdata, hf.boundary, hall] at hin
    exact (List.prefix_append_right_inj _).mp hin
  obtain ⟨k, r, hk, hsplit, hpart, hwhole⟩ := whole_prefix
    (fun e he => hev e (List.mem_of_mem_drop he)) hrest
  have hscan : scanTraces host tb 0 0 = (((events.drop hd.nevents).take k).flatten.length, k) := by
    rw [TraceBuf.scanTraces_eq 0 0 (Nat.zero_le _), List.drop_zero, hwhole, Nat.zero_add,
      Nat.zero_add]
  have hoff : ((events.drop hd.nevents).take k).flatten.length ≤ tb.len := by
    rw [← tb.data_length, hsplit, List.length_append]
    exact Nat.le_add_right _ _
  have hwritten : hd.written ++ tb.buf.take ((events.drop hd.nevents).take k).flatten.length =
      (events.take (hd.nevents + k)).flatten := by
    rw [TraceBuf.take_data hoff, hsplit, List.take_left, hf.boundary, List.take_add,
      List.flatten_append]
  have hleft : tb.data.drop ((events.drop hd.nevents).take k).flatten.length = r := by
    rw [hsplit, List.drop_left]
  have hcount : hd.nevents + k ≤ events.length := by
    rw [List.length_drop] at hk
    have := hf.count
    omega
  have hconsumed : (events.take (hd.nevents + k)).flatten ++ r = consumed ++ tbp.data := by
    rw [← hf.split, List.append_assoc, ← hdata, hsplit, hf.boundary, List.take_add,
      List.flatten_append, List.append_assoc]
  rw [List.drop_drop] at hpart
  unfold DevpathHead.handleBuf
  simp only [hcombine, Option.bind_eq_bind, Option.bind_some, hscan]
  by_cases hzero : ((events.drop hd.nevents).take k).flatten.length ≠ 0
  · rw [if_pos hzero]
    by_cases hend : ((events.drop hd.nevents).take k).flatten.length = tb.len
    · rw [if_pos hend]
      obtain rfl : r = [] := by
        rw [← hleft, hend, ← tb.data_length, List.drop_length]
      refine ⟨_, rfl, ?_, hcount, hwritten, Or.inl rfl, fun _ h => absurd h (by simp)⟩
      rw [← hconsumed, ← hwritten]
      rfl
    · rw [if_neg hend]
      have hdata' : (tb.memmove ((events.drop hd.nevents).take k).flatten.length).data = r := by
        rw [TraceBuf.memmove_data hoff, hleft]
      refine ⟨_, rfl, ?_, hcount, hwritten, ?_, ?_⟩
      · rw [← hconsumed, ← hwritten, ← hdata']
        rfl
      · rw [← hdata'] at hpart
        exact hpart
      · intro tb' htb'
        obtain rfl := Option.some.inj htb'
        rw [TraceBuf.memmove_capacity hoff]
        exact htbcap
  · rw [if_neg hzero]
    have hz := not_not.mp hzero
    rw [hz, List.take_zero, List.append_nil] at hwritten
    have hdata' : tb.data = r := by rw [← hleft, hz, List.drop_zero]
    refine ⟨_, rfl, ?_, hcount, hwritten, ?_, ?_⟩
    · rw [← hconsumed, ← hwritten, ← hdata']
      rfl
    · rw [← hdata'] at hpart
      exact hpart
    · intro tb' htb'
      obtain rfl := Option.some.inj htb'
      exact htbcap

theorem Framed.handleBufs (hf : Framed host bufSize events hd consumed)
    (hev : ∀ e ∈ events, (traceFormat host).IsFrame e) {list : List TraceBuf}
    (hcap : ∀ tb ∈ list, tb.buf.length = bufSize)
    (hin : consumed ++ received list <+: events.flatten) :
    ∃ hd', handleListFile host bufSize hd (succeeding list) = some (hd', list.length) ∧
      Framed host bufSize events hd' (consumed ++ received list) := by
  suffices hfold : ∃ hd', (succeeding list).foldlM
        (fun hd tbp => DevpathHead.handleBuf host bufSize hd tbp.1 tbp.2) hd = some hd' ∧
      Framed host bufSize events hd' (consumed ++ received list) by
    obtain ⟨hd', hrun, hf'⟩ := hfold
    exact ⟨hd', by rw [handleListFile, hrun, succeeding, List.length_map]; rfl, hf'⟩
  induction list generalizing hd consumed with
  | nil => exact ⟨hd, rfl, by simpa [received] using hf⟩
  | cons tb list ih =>
    have hreceived : consumed ++ received (tb :: list) = consumed ++ tb.data ++ received list := by
      simp [received]
    rw [hreceived] at hin ⊢
    obtain ⟨hd₁, hrun₁, hf₁⟩ := hf.handleBuf hev (hcap tb List.mem_cons_self)
      ((List.prefix_append _ _).trans hin)
    obtain ⟨hd₂, hrun₂, hf₂⟩ := ih hf₁ (fun tb' h => hcap tb' (List.mem_cons_of_mem tb h)) hin
    refine ⟨hd₂, ?_, hf₂⟩
    rw [succeeding, List.map_cons, List.foldlM_cons, hrun₁]
    exact hrun₂

theorem Framed.handleLists (hf : Framed host bufSize events hd consumed)
    (hev : ∀ e ∈ events, (traceFormat host).IsFrame e) {calls : List (List TraceBuf)}
    (hcap : ∀ list ∈ calls, ∀ tb ∈ list, tb.buf.length = bufSize)
    (hin : consumed ++ received calls.flatten <+: events.flatten) :
    ∃ hd', handleLists host bufSize hd calls = some hd' ∧
      Framed host bufSize events hd' (consumed ++ received calls.flatten) := by
  induction calls generalizing hd consumed with
  | nil => exact ⟨hd, rfl, by simpa [received] using hf⟩
  | cons list calls ih =>
    have hreceived : consumed ++ received (list :: calls).flatten =
        consumed ++ received list ++ received calls.flatten := by
      simp [received]
    rw [hreceived] at hin ⊢
    obtain ⟨hd₁, hrun₁, hf₁⟩ := hf.handleBufs hev (hcap list List.mem_cons_self)
      ((List.prefix_append _ _).trans hin)
    obtain ⟨hd₂, hrun₂, hf₂⟩ := ih hf₁ (fun l h => hcap l (List.mem_cons_of_mem list h)) hin
    refine ⟨hd₂, ?_, hf₂⟩
    rw [DevpathHead.handleLists, List.map_cons, DevpathHead.handleCalls, List.foldlM_cons, hrun₁]
    exact hrun₂

end DevpathHead

theorem newDevpathHead_framed (host : Endian) (bufSize : ℕ) (events : List (List UInt8)) :
    newDevpathHead.Framed host bufSize events [] where
  split := rfl
  count := Nat.zero_le _
  boundary := rfl
  begun := Or.inl rfl
  capacity _ h := absurd h (by simp [newDevpathHead])

theorem newDevpathHead_ordered (bufSize : ℕ) : newDevpathHead.Ordered bufSize [] where
  sub := List.Sublist.refl _
  capacity _ h := absurd h (by simp [newDevpathHead])

theorem pduLenAt_lt (host : Endian) (l : List UInt8) : pduLenAt host l < 65536 := by
  have hlen : (((l.drop 52).take 2).map UInt8.toNat).length ≤ 2 := by
    rw [List.length_map, List.length_take]
    exact Nat.min_le_left _ _
  have hlt : pduLenAt host l < 256 ^ (((l.drop 52).take 2).map UInt8.toNat).length := by
    apply value_lt
    intro b hb
    obtain ⟨c, -, rfl⟩ := List.mem_map.mp hb
    exact c.toNat_lt
  exact hlt.trans_le (Nat.pow_le_pow_right (by decide) hlen)

theorem begun_lt {host : Endian} {events : List (List UInt8)} {r : List UInt8}
    (hev : ∀ e ∈ events, (traceFormat host).IsFrame e) (hr : Partial events r) :
    r.length < sizeofTrace + 65536 := by
  rcases hr with rfl | ⟨e, he, -, hlt⟩
  · exact Nat.zero_lt_succ _
  · have hsize : e.length = sizeofTrace + pduLenAt host e := hev e (List.mem_of_mem_head? he)
    have := pduLenAt_lt host e
    omega

/-- However the stream is cut and its buffers are grouped into calls, the whole events that have
come in are written and counted, and the rest is kept. -/
theorem handleListFile_frames (host : Endian) (bufSize : ℕ) (events : List (List UInt8))
    (hev : ∀ e ∈ events, (traceFormat host).IsFrame e) (calls : List (List TraceBuf))
    (hcap : ∀ list ∈ calls, ∀ tb ∈ list, tb.buf.length = bufSize)
    (hin : received calls.flatten <+: events.flatten) :
    ∃ hd, newDevpathHead.handleLists host bufSize calls = some hd ∧
      hd.written ++ hd.leftover = received calls.flatten ∧
      hd.nevents ≤ events.length ∧ hd.written = (events.take hd.nevents).flatten ∧
      (∀ j, (events.take j).flatten <+: received calls.flatten →
        (events.take j).flatten <+: hd.written) ∧
      whole (traceFormat host) (received calls.flatten) = (hd.written.length, hd.nevents) ∧
      hd.leftover.length < sizeofTrace + 65536 := by
  obtain ⟨hd, hrun, hsplit, hcount, hboundary, hbegun, -⟩ :=
    (newDevpathHead_framed host bufSize events).handleLists hev hcap hin
  rw [List.nil_append] at hsplit
  refine ⟨hd, hrun, hsplit, hcount, hboundary, ?_, ?_, ?_⟩
  · intro j hj
    rw [← hsplit, hboundary] at hj
    rw [hboundary]
    exact hbegun.longest rfl hj
  · rw [← hsplit, hboundary, whole_flatten (fun e he => hev e (List.mem_of_mem_take he))
      (fun e he => hev e (List.mem_of_mem_drop he)) hbegun, List.length_take,
      Nat.min_eq_left hcount]
  · exact begun_lt (fun e he => hev e (List.mem_of_mem_drop he)) hbegun

theorem handleListFile_frames_twoBuffers :
    let first : TraceBuf := ⟨List.replicate 32 0, 32, by decide⟩
    let second : TraceBuf := ⟨List.replicate 32 0, 24, by decide⟩
    ∃ hd, newDevpathHead.handleLists .little 32 [[first], [second]] = some hd ∧
      hd.written ++ hd.leftover = received [first, second] ∧
      hd.nevents ≤ 1 ∧ hd.written = ([List.replicate 56 0].take hd.nevents).flatten ∧
      (∀ j, ([List.replicate 56 0].take j).flatten <+: received [first, second] →
        ([List.replicate 56 0].take j).flatten <+: hd.written) ∧
      whole (traceFormat .little) (received [first, second]) = (hd.written.length, hd.nevents) ∧
      hd.leftover.length < sizeofTrace + 65536 :=
  handleListFile_frames .little 32 [List.replicate 56 0]
    (fun e he => by
      obtain rfl := List.mem_singleton.mp he
      exact (by decide : (List.replicate 56 (0 : UInt8)).length =
        sizeofTrace + pduLenAt .little (List.replicate 56 0)))
    [[⟨List.replicate 32 0, 32, by decide⟩], [⟨List.replicate 32 0, 24, by decide⟩]]
    (by simp) ⟨[], by decide⟩

end SBlktrace
