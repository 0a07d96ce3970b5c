import SBlktrace.ProcessDefault
import SBlktrace.TraceDecode
import Mathlib

namespace SBlktrace

open ByteOrder

/-- Where `process` stops reading: at the end of the file, in a header, at a record of another
version, or in a payload. -/
inductive Ending where
  | clean
  | header
  | version
  | payload
deriving DecidableEq

/-- One turn of the loop of `process` up to the payload: the new `data_is_native`, and the bytes that
are left to read. -/
inductive Reading where
  | stop (ending : Ending)
  | badTrace (dataIsNative : ℤ) (rest : List ℕ)
  | trace (dataIsNative : ℤ) (bit : BlkIoTraceRecord) (rest : List ℕ)

/-- The state of `process`. The counters that are only printed are left out. -/
structure RawVerify where
  dataIsNative : ℤ
  ngood : UInt32
  nbad : UInt32
  saveSequence : UInt32
  saveTime : UInt64
  saveDevice : UInt32

namespace RawVerify

open BlkIoTraceRecord

def nativeAfter (dataIsNative : ℤ) (magic : UInt32) : ℤ :=
  if dataIsNative = -1 then (checkDataEndianness magic dataIsNative).1 else dataIsNative

def readTrace (host : Endian) (dataIsNative : ℤ) (file : List ℕ) : Reading :=
  if file.length < sizeofTrace then .stop (if file = [] then .clean else .header)
  else
    let bit := load host (file.take sizeofTrace)
    let rest := file.drop sizeofTrace
    let dataIsNative := nativeAfter dataIsNative bit.magic
    let bit := traceToCpu host dataIsNative bit
    if ¬ bit.checkMagic then .badTrace dataIsNative rest
    else if bit.magic &&& 0xff ≠ supportedVersion then .stop .version
    else if bit.pduLen ≠ 0 ∧ rest.length < bit.pduLen.toNat then .stop .payload
    else .trace dataIsNative bit (rest.drop bit.pduLen.toNat)

theorem readTrace_badTrace_length {host : Endian} {n n' : ℤ} {file rest : List ℕ}
    (h : readTrace host n file = .badTrace n' rest) : rest.length < file.length := by
  unfold readTrace at h
  dsimp only at h
  split_ifs at h with hlen
  obtain ⟨-, rfl⟩ := Reading.badTrace.inj h
  rw [List.length_drop]
  have hsize : sizeofTrace = 56 := rfl
  omega

theorem readTrace_trace_length {host : Endian} {n n' : ℤ} {file rest : List ℕ}
    {bit : BlkIoTraceRecord} (h : readTrace host n file = .trace n' bit rest) :
    rest.length < file.length := by
  unfold readTrace at h
  dsimp only at h
  split_ifs at h with hlen
  obtain ⟨-, -, rfl⟩ := Reading.trace.inj h
  rw [List.length_drop, List.length_drop]
  have hsize : sizeofTrace = 56 := rfl
  omega

def incBad (st : RawVerify) : RawVerify := { st with nbad := st.nbad + 1 }

def accept (st : RawVerify) (bit : BlkIoTraceRecord) : RawVerify :=
  { st with
    ngood := st.ngood + 1
    saveSequence := bit.sequence
    saveTime := bit.time
    saveDevice := bit.device }

def disorders (st : RawVerify) (bit : BlkIoTraceRecord) : Bool :=
  if st.ngood ≠ 0 then
    if bit.sequence ≤ st.saveSequence then true
    else if bit.time ≤ st.saveTime then true
    else bit.device ≠ st.saveDevice
  else false

def loop (host : Endian) (cpu : UInt32) (st : RawVerify) (file : List ℕ) : UInt32 :=
  match _h : readTrace host st.dataIsNative file with
  | .stop .payload => st.incBad.nbad
  | .stop _ => st.nbad
  | .badTrace dataIsNative rest =>
    loop host cpu ({ st with dataIsNative := dataIsNative } : RawVerify).incBad rest
  | .trace dataIsNative bit rest =>
    let st : RawVerify := { st with dataIsNative := dataIsNative }
    if bit.cpu ≠ cpu then loop host cpu st.incBad rest
    else if bit.has blkTcNotify then loop host cpu st rest
    else if st.disorders bit then loop host cpu st.incBad rest
    else loop host cpu (st.accept bit) rest
termination_by file.length
decreasing_by
  · exact readTrace_badTrace_length _h
  · exact readTrace_trace_length _h
  · exact readTrace_trace_length _h
  · exact readTrace_trace_length _h
  · exact readTrace_trace_length _h

def start (dataIsNative : ℤ) : RawVerify := ⟨dataIsNative, 0, 0, 0, 0, 0⟩

end RawVerify

def rawVerifyProcess (host : Endian) (dataIsNative : ℤ) (cpu : UInt32) (file : List ℕ) : UInt32 :=
  RawVerify.loop host cpu (RawVerify.start dataIsNative) file

namespace RawVerify

open BlkIoTraceRecord

/-- The bytes are records, whose fields `trace_to_cpu` reads as `dataIsNative` says, each with its
payload. -/
inductive Parses (host : Endian) (dataIsNative : ℤ) : List ℕ → List BlkIoTraceRecord → Prop
  | nil : Parses host dataIsNative [] []
  | cons {header payload rest : List ℕ} {bit : BlkIoTraceRecord} {bits : List BlkIoTraceRecord}
      (hheader : header.length = sizeofTrace)
      (hbit : bit = traceToCpu host dataIsNative (load host header))
      (hmagic : bit.checkMagic = true) (hversion : bit.magic &&& 0xff = supportedVersion)
      (hpayload : payload.length = bit.pduLen.toNat) (hrest : Parses host dataIsNative rest bits) :
      Parses host dataIsNative (header ++ (payload ++ rest)) (bit :: bits)

def Follows (prev bit : BlkIoTraceRecord) : Prop :=
  prev.sequence < bit.sequence ∧ prev.time < bit.time ∧ prev.device = bit.device

def traces (bits : List BlkIoTraceRecord) : List BlkIoTraceRecord :=
  bits.filter fun bit => !bit.has blkTcNotify

def orders (dataIsNative : ℤ) : List ℤ := if dataIsNative = -1 then [0, 1] else [dataIsNative]

def Valid (host : Endian) (dataIsNative : ℤ) (cpu : UInt32) (file : List ℕ) : Prop :=
  ∃ order ∈ orders dataIsNative, ∃ bits, Parses host order file bits ∧
    (∀ bit ∈ bits, bit.cpu = cpu) ∧ (traces bits).Pairwise Follows

inductive Frame where
  | badTrace
  | trace (bit : BlkIoTraceRecord)

def Frame.bit? : Frame → Option BlkIoTraceRecord
  | .badTrace => none
  | .trace bit => some bit

def frames (host : Endian) (dataIsNative : ℤ) (file : List ℕ) : List Frame × Ending :=
  match _h : readTrace host dataIsNative file with
  | .stop ending => ([], ending)
  | .badTrace dataIsNative rest =>
    let (fs, ending) := frames host dataIsNative rest
    (.badTrace :: fs, ending)
  | .trace dataIsNative bit rest =>
    let (fs, ending) := frames host dataIsNative rest
    (.trace bit :: fs, ending)
termination_by file.length
decreasing_by
  · exact readTrace_badTrace_length _h
  · exact readTrace_trace_length _h

/-- How many of the records are damaged: they have no magic, are of another CPU, or do not follow
the last trace that was good. -/
def damaged (cpu : UInt32) (st : RawVerify) : List Frame → ℕ
  | [] => 0
  | .badTrace :: fs => damaged cpu st fs + 1
  | .trace bit :: fs =>
    if bit.cpu ≠ cpu then damaged cpu st fs + 1
    else if bit.has blkTcNotify then damaged cpu st fs
    else if st.disorders bit then damaged cpu st fs + 1
    else damaged cpu (st.accept bit) fs

variable {host : Endian} {cpu : UInt32} {n order : ℤ} {st : RawVerify} {file rest : List ℕ}
  {bit : BlkIoTraceRecord} {bits : List BlkIoTraceRecord} {fs : List Frame} {ending : Ending}

theorem frames_stop (h : readTrace host n file = .stop ending) :
    frames host n file = ([], ending) := by
  rw [frames]
  split
  · simp_all
  · simp_all
  · simp_all

theorem frames_badTrace {n' : ℤ} (h : readTrace host n file = .badTrace n' rest) :
    frames host n file =
      (.badTrace :: (frames host n' rest).1, (frames host n' rest).2) := by
  rw [frames]
  split
  · simp_all
  · simp_all
  · simp_all

theorem frames_trace {n' : ℤ} (h : readTrace host n file = .trace n' bit rest) :
    frames host n file =
      (.trace bit :: (frames host n' rest).1, (frames host n' rest).2) := by
  rw [frames]
  split
  · simp_all
  · simp_all
  · simp_all

theorem loop_stop (h : readTrace host st.dataIsNative file = .stop ending) :
    loop host cpu st file = st.nbad + UInt32.ofNat (if ending = .payload then 1 else 0) := by
  rw [loop]
  split
  · simp_all [incBad]
  · simp_all
  · simp_all
  · simp_all

theorem loop_badTrace {n' : ℤ} (h : readTrace host st.dataIsNative file = .badTrace n' rest) :
    loop host cpu st file =
      loop host cpu ({ st with dataIsNative := n' } : RawVerify).incBad rest := by
  rw [loop]
  split
  · simp_all
  · simp_all
  · simp_all
  · simp_all

theorem loop_trace {n' : ℤ} (h : readTrace host st.dataIsNative file = .trace n' bit rest) :
    loop host cpu st file =
      let st : RawVerify := { st with dataIsNative := n' }
      if bit.cpu ≠ cpu then loop host cpu st.incBad rest
      else if bit.has blkTcNotify then loop host cpu st rest
      else if st.disorders bit then loop host cpu st.incBad rest
      else loop host cpu (st.accept bit) rest := by
  rw [loop]
  split
  · simp_all
  · simp_all
  · simp_all
  · simp_all

theorem damaged_congr (cpu : UInt32) (st : RawVerify) (n : ℤ) (nbad : UInt32) (fs : List Frame) :
    damaged cpu { st with dataIsNative := n, nbad := nbad } fs = damaged cpu st fs := by
  induction fs generalizing st with
  | nil => rfl
  | cons f fs ih =>
    cases f with
    | badTrace =>
      rw [damaged, damaged, ih]
    | trace bit =>
      have hdisorders : disorders { st with dataIsNative := n, nbad := nbad } bit =
          st.disorders bit := rfl
      have haccept := ih (st.accept bit)
      change damaged cpu (accept { st with dataIsNative := n, nbad := nbad } bit) fs =
        damaged cpu (st.accept bit) fs at haccept
      rw [damaged, damaged, ih, hdisorders, haccept]

theorem add_ofNat (nbad : UInt32) (d : ℕ) :
    nbad + 1 + UInt32.ofNat d = nbad + UInt32.ofNat (d + 1) := by
  rw [UInt32.ofNat_add, add_assoc, add_comm (1 : UInt32)]
  rfl

def damage (host : Endian) (cpu : UInt32) (st : RawVerify) (n : ℤ) (file : List ℕ) : ℕ :=
  damaged cpu st (frames host n file).1 + if (frames host n file).2 = .payload then 1 else 0

theorem damage_congr (st : RawVerify) (n' : ℤ) (nbad : UInt32) (n : ℤ) (file : List ℕ) :
    damage host cpu { st with dataIsNative := n', nbad := nbad } n file =
      damage host cpu st n file := by
  rw [damage, damage, damaged_congr]

theorem damage_badTrace {n' : ℤ} (h : readTrace host n file = .badTrace n' rest) :
    damage host cpu st n file = damage host cpu st n' rest + 1 := by
  rw [damage, damage, frames_badTrace h, damaged, Nat.add_right_comm]

theorem damage_trace {n' : ℤ} (h : readTrace host n file = .trace n' bit rest) :
    damage host cpu st n file =
      if bit.cpu ≠ cpu then damage host cpu st n' rest + 1
      else if bit.has blkTcNotify then damage host cpu st n' rest
      else if st.disorders bit then damage host cpu st n' rest + 1
      else damage host cpu (st.accept bit) n' rest := by
  unfold damage
  rw [frames_trace h, damaged]
  split_ifs
  · apply Nat.add_right_comm
  · apply Nat.add_right_comm
  · rfl
  · rfl
  · apply Nat.add_right_comm
  · apply Nat.add_right_comm
  · rfl
  · rfl

theorem loop_eq (host : Endian) (cpu : UInt32) (st : RawVerify) (file : List ℕ) :
    loop host cpu st file =
      st.nbad + UInt32.ofNat (damage host cpu st st.dataIsNative file) := by
  induction hlen : file.length using Nat.strong_induction_on generalizing st file with
  | _ len ih =>
    -- What is left to read, with a damaged record before it, and without one.
    have hbad (n' : ℤ) (rest : List ℕ) (hrest : rest.length < file.length) :
        loop host cpu ({ st with dataIsNative := n' } : RawVerify).incBad rest =
          st.nbad + UInt32.ofNat (damage host cpu st n' rest + 1) := by
      rw [ih rest.length (by omega) _ rest rfl, ← add_ofNat]
      exact congrArg (fun d => st.nbad + 1 + UInt32.ofNat d)
        (damage_congr st n' (st.nbad + 1) n' rest)
    have hgood (st' : RawVerify) (n' : ℤ) (rest : List ℕ) (hrest : rest.length < file.length) :
        loop host cpu { st' with dataIsNative := n' } rest =
          st'.nbad + UInt32.ofNat (damage host cpu st' n' rest) := by
      rw [ih rest.length (by omega) _ rest rfl]
      exact congrArg (fun d => st'.nbad + UInt32.ofNat d) (damage_congr st' n' st'.nbad n' rest)
    cases hread : readTrace host st.dataIsNative file with
    | stop ending =>
      rw [loop_stop hread, damage, frames_stop hread, damaged, Nat.zero_add]
    | badTrace n' rest =>
      rw [loop_badTrace hread, damage_badTrace hread, hbad n' rest (readTrace_badTrace_length hread)]
    | trace n' bit rest =>
      have hrest := readTrace_trace_length hread
      have hdisorders : disorders { st with dataIsNative := n' } bit = st.disorders bit := rfl
      rw [loop_trace hread, damage_trace hread]
      dsimp only
      rw [hdisorders, hbad n' rest hrest, hgood st n' rest hrest]
      split_ifs
      · rfl
      · rfl
      · rfl
      · exact hgood (st.accept bit) n' rest hrest

theorem readTrace_clean_iff : readTrace host n file = .stop .clean ↔ file = [] := by
  constructor
  · intro h
    unfold readTrace at h
    dsimp only at h
    split_ifs at h with hlen hfile
    · exact hfile
    · cases Reading.stop.inj h
    · cases Reading.stop.inj h
    · cases Reading.stop.inj h
  · rintro rfl
    rfl

theorem nativeAfter_of_ne (hn : n ≠ -1) (magic : UInt32) : nativeAfter n magic = n := if_neg hn

theorem readTrace_trace {n' : ℤ} (h : readTrace host n file = .trace n' bit rest) :
    ∃ header payload, file = header ++ (payload ++ rest) ∧ header.length = sizeofTrace ∧
      n' = nativeAfter n (load host header).magic ∧ bit = traceToCpu host n' (load host header) ∧
      bit.checkMagic = true ∧ bit.magic &&& 0xff = supportedVersion ∧
      payload.length = bit.pduLen.toNat := by
  unfold readTrace at h
  dsimp only at h
  split_ifs at h with hlen hmagic hversion hpayload
  obtain ⟨rfl, rfl, rfl⟩ := Reading.trace.inj h
  refine ⟨file.take sizeofTrace,
    (file.drop sizeofTrace).take
      (traceToCpu host (nativeAfter n (load host (file.take sizeofTrace)).magic)
        (load host (file.take sizeofTrace))).pduLen.toNat, ?_, ?_, rfl, rfl, ?_, ?_, ?_⟩
  · rw [List.take_append_drop, List.take_append_drop]
  · rw [List.length_take]
    omega
  · simpa using hmagic
  · simpa using hversion
  · rw [List.length_take, Nat.min_eq_left]
    by_cases hzero : (traceToCpu host (nativeAfter n (load host (file.take sizeofTrace)).magic)
        (load host (file.take sizeofTrace))).pduLen = 0
    · rw [hzero]
      exact Nat.zero_le _
    · exact Nat.le_of_not_lt fun hlt => hpayload ⟨hzero, hlt⟩

theorem readTrace_append {header payload : List ℕ} (hheader : header.length = sizeofTrace)
    (hbit : bit = traceToCpu host (nativeAfter n (load host header).magic) (load host header))
    (hmagic : bit.checkMagic = true) (hversion : bit.magic &&& 0xff = supportedVersion)
    (hpayload : payload.length = bit.pduLen.toNat) :
    readTrace host n (header ++ (payload ++ rest)) =
      .trace (nativeAfter n (load host header).magic) bit rest := by
  have hlen : ¬ (header ++ (payload ++ rest)).length < sizeofTrace := by
    rw [List.length_append]
    omega
  unfold readTrace
  rw [if_neg hlen, ← hheader, List.take_left, List.drop_left]
  dsimp only
  rw [← hbit, if_neg (by simp [hmagic]), if_neg (by simp [hversion]), ← hpayload, List.drop_left,
    if_neg]
  rintro ⟨-, hlt⟩
  rw [List.length_append] at hlt
  omega

theorem frames_nil : frames host n [] = ([], .clean) :=
  frames_stop (readTrace_clean_iff.mpr rfl)

theorem Parses.frames (h : Parses host order file bits) (horder : order ≠ -1) :
    frames host order file = (bits.map .trace, .clean) := by
  induction h with
  | nil => exact frames_nil
  | @cons header payload rest bit bits hheader hbit hmagic hversion hpayload _ ih =>
    have hnative := nativeAfter_of_ne horder (load host header).magic
    have hread := @readTrace_append host order rest bit header payload hheader
      (by rw [hnative]; exact hbit) hmagic hversion hpayload
    rw [hnative] at hread
    rw [frames_trace hread, ih]
    rfl

theorem parses_of_frames (horder : order ≠ -1)
    (h : frames host order file = (bits.map .trace, .clean)) : Parses host order file bits := by
  induction hlen : file.length using Nat.strong_induction_on generalizing file bits with
  | _ len ih =>
    cases hread : readTrace host order file with
    | stop ending =>
      rw [frames_stop hread] at h
      obtain ⟨hbits, rfl⟩ := Prod.mk.inj h
      rw [readTrace_clean_iff.mp hread, List.map_eq_nil_iff.mp hbits.symm]
      exact Parses.nil
    | badTrace n' rest =>
      rw [frames_badTrace hread] at h
      obtain ⟨hbits, -⟩ := Prod.mk.inj h
      cases bits with
      | nil => cases hbits
      | cons bit bits => cases hbits
    | trace n' bit rest =>
      rw [frames_trace hread] at h
      obtain ⟨hbits, hclean⟩ := Prod.mk.inj h
      obtain ⟨header, payload, rfl, hheader, rfl, hbit, hmagic, hversion, hpayload⟩ :=
        readTrace_trace hread
      rw [nativeAfter_of_ne horder] at hbits hclean hbit
      cases bits with
      | nil => cases hbits
      | cons bit' bits =>
        obtain ⟨hfirst, hrest⟩ := List.cons.inj hbits
        obtain rfl := Frame.trace.inj hfirst
        have hlt := readTrace_trace_length hread
        have hparses := @ih _ (by omega) rest bits (Prod.ext hrest hclean) rfl
        exact Parses.cons hheader hbit hmagic hversion hpayload hparses

theorem Parses.big (h : Parses .big 0 file bits) : Parses .big 1 file bits := by
  induction h with
  | nil => exact Parses.nil
  | cons hheader hbit hmagic hversion hpayload _ ih =>
    exact Parses.cons hheader hbit hmagic hversion hpayload ih

theorem checkMagic_iff (bit : BlkIoTraceRecord) :
    bit.checkMagic = true ↔ bit.magic &&& 0xffffff00 = blkIoTraceMagic := by
  simp [BlkIoTrace.checkMagic]

theorem nativeAfter_eq (h : order = 0 ∧ host = .little ∨ order = 1)
    {t : BlkIoTraceRecord} (hmagic : (traceToCpu host order t).checkMagic = true) :
    nativeAfter (-1) t.magic = order := by
  rw [checkMagic_iff] at hmagic
  rw [nativeAfter, if_pos rfl, checkDataEndianness]
  obtain ⟨rfl, rfl⟩ | rfl := h
  · have hswapped : bswap32 t.magic &&& 0xffffff00 = blkIoTraceMagic := hmagic
    have hne := bswap32_magic hswapped
    rw [bswap32_bswap32] at hne
    rw [if_neg hne, if_pos hswapped]
  · have hnative : t.magic &&& 0xffffff00 = blkIoTraceMagic := hmagic
    rw [if_pos hnative]

theorem Parses.frames_unknown (h : Parses host order file bits)
    (horder : order = 0 ∧ host = .little ∨ order = 1) :
    RawVerify.frames host (-1) file = (bits.map .trace, .clean) := by
  have hne : order ≠ -1 := by
    obtain ⟨rfl, -⟩ | rfl := horder
    · decide
    · decide
  cases h with
  | nil => exact frames_nil
  | @cons header payload rest bit bits hheader hbit hmagic hversion hpayload hrest =>
    have hnative : nativeAfter (-1) (load host header).magic = order :=
      nativeAfter_eq horder (hbit ▸ hmagic)
    have hread := @readTrace_append host (-1) rest bit header payload hheader
      (by rw [hnative]; exact hbit) hmagic hversion hpayload
    rw [hnative] at hread
    rw [frames_trace hread, hrest.frames hne]
    rfl

theorem nativeAfter_unknown (magic : UInt32) : nativeAfter (-1) magic = -1 ∧
      magic &&& 0xffffff00 ≠ blkIoTraceMagic ∨
    nativeAfter (-1) magic = 0 ∨ nativeAfter (-1) magic = 1 := by
  rw [nativeAfter, if_pos rfl, checkDataEndianness]
  split_ifs with hnative hswapped
  · exact Or.inr (Or.inr rfl)
  · exact Or.inr (Or.inl rfl)
  · exact Or.inl ⟨rfl, hnative⟩

theorem parses_of_frames_unknown
    (h : RawVerify.frames host (-1) file = (bits.map .trace, .clean)) :
    ∃ order, (order = 0 ∨ order = 1) ∧ Parses host order file bits := by
  cases hread : readTrace host (-1) file with
  | stop ending =>
    rw [frames_stop hread] at h
    obtain ⟨hbits, rfl⟩ := Prod.mk.inj h
    rw [readTrace_clean_iff.mp hread, List.map_eq_nil_iff.mp hbits.symm]
    exact ⟨1, Or.inr rfl, Parses.nil⟩
  | badTrace n' rest =>
    rw [frames_badTrace hread] at h
    obtain ⟨hbits, -⟩ := Prod.mk.inj h
    cases bits with
    | nil => cases hbits
    | cons bit bits => cases hbits
  | trace n' bit rest =>
    rw [frames_trace hread] at h
    obtain ⟨hbits, hclean⟩ := Prod.mk.inj h
    obtain ⟨header, payload, rfl, hheader, hnative, hbit, hmagic, hversion, hpayload⟩ :=
      readTrace_trace hread
    cases bits with
    | nil => cases hbits
    | cons bit' bits =>
      obtain ⟨hfirst, hrest⟩ := List.cons.inj hbits
      obtain rfl := Frame.trace.inj hfirst
      have horder : n' = 0 ∨ n' = 1 := by
        obtain ⟨hsame, hbad⟩ | hknown := nativeAfter_unknown (load host header).magic
        · rw [hnative, hsame] at hbit
          rw [hbit, checkMagic_iff] at hmagic
          exact absurd hmagic hbad
        · rw [hnative]
          exact hknown
      have hne : n' ≠ -1 := by omega
      refine ⟨n', horder, Parses.cons hheader hbit hmagic hversion hpayload ?_⟩
      exact parses_of_frames hne (Prod.ext hrest hclean)

theorem exists_parses_iff :
    (∃ order ∈ orders n, Parses host order file bits) ↔
      RawVerify.frames host n file = (bits.map .trace, .clean) := by
  unfold orders
  by_cases hn : n = -1
  · subst hn
    rw [if_pos rfl]
    constructor
    · rintro ⟨order, horder, hparses⟩
      obtain rfl | rfl : order = 0 ∨ order = 1 := by simpa using horder
      · cases host with
        | little => exact hparses.frames_unknown (Or.inl ⟨rfl, rfl⟩)
        | big => exact hparses.big.frames_unknown (Or.inr rfl)
      · exact hparses.frames_unknown (Or.inr rfl)
    · intro hframes
      obtain ⟨order, horder, hparses⟩ := parses_of_frames_unknown hframes
      exact ⟨order, by simpa using horder, hparses⟩
  · rw [if_neg hn]
    constructor
    · rintro ⟨order, horder, hparses⟩
      obtain rfl := List.mem_singleton.mp horder
      exact hparses.frames hn
    · intro hframes
      exact ⟨n, List.mem_singleton_self n, parses_of_frames hn hframes⟩

theorem Follows.trans {a b c : BlkIoTraceRecord} (hab : Follows a b) (hbc : Follows b c) :
    Follows a c :=
  ⟨UInt32.lt_trans hab.1 hbc.1, UInt64.lt_trans hab.2.1 hbc.2.1, hab.2.2.trans hbc.2.2⟩

def After (st : RawVerify) (count : ℕ) (last : Option BlkIoTraceRecord) : Prop :=
  st.ngood = UInt32.ofNat count ∧ match last with
    | none => count = 0
    | some bit => 0 < count ∧ st.saveSequence = bit.sequence ∧ st.saveTime = bit.time ∧
        st.saveDevice = bit.device

theorem disorders_iff {count : ℕ} {last : Option BlkIoTraceRecord} (h : After st count last)
    (hcount : count < 2 ^ 32) (bit : BlkIoTraceRecord) :
    st.disorders bit = false ↔ ∀ prev ∈ last, Follows prev bit := by
  obtain ⟨hngood, hlast⟩ := h
  unfold disorders
  cases last with
  | none =>
    dsimp only at hlast
    subst hlast
    rw [hngood]
    simp
  | some prev =>
    obtain ⟨hpos, hsequence, htime, hdevice⟩ := hlast
    have hne : st.ngood ≠ 0 := by
      rw [hngood]
      intro hzero
      have hnat := congrArg UInt32.toNat hzero
      rw [UInt32.toNat_ofNat_of_lt' hcount, UInt32.toNat_zero] at hnat
      omega
    rw [if_pos hne, hsequence, htime, hdevice]
    have hfollows : (∀ p ∈ some prev, Follows p bit) ↔ Follows prev bit := by simp
    rw [hfollows, Follows, ← UInt32.not_le, ← UInt64.not_le]
    by_cases hseq : bit.sequence ≤ prev.sequence
    · rw [if_pos hseq]
      exact iff_of_false (by decide) fun hf => hf.1 hseq
    rw [if_neg hseq, and_iff_right hseq]
    by_cases hlate : bit.time ≤ prev.time
    · rw [if_pos hlate]
      exact iff_of_false (by decide) fun hf => hf.1 hlate
    · rw [if_neg hlate, and_iff_right hlate, decide_eq_false_iff_not, not_not]
      exact eq_comm

theorem After.accept {count : ℕ} {last : Option BlkIoTraceRecord} (h : After st count last)
    (bit : BlkIoTraceRecord) : After (st.accept bit) (count + 1) (some bit) := by
  refine ⟨?_, Nat.succ_pos count, rfl, rfl, rfl⟩
  change st.ngood + 1 = _
  rw [h.1, UInt32.ofNat_add]
  rfl

theorem traces_cons_notify (h : bit.has blkTcNotify = true) (bits : List BlkIoTraceRecord) :
    traces (bit :: bits) = traces bits := by
  simp [traces, h]

theorem traces_cons (h : bit.has blkTcNotify = false) (bits : List BlkIoTraceRecord) :
    traces (bit :: bits) = bit :: traces bits := by
  simp [traces, h]

theorem damaged_eq_zero_iff {count : ℕ} {last : Option BlkIoTraceRecord} (h : After st count last)
    (hcount : count + (traces bits).length ≤ 2 ^ 32) :
    damaged cpu st (bits.map .trace) = 0 ↔
      (∀ bit ∈ bits, bit.cpu = cpu) ∧ (∀ prev ∈ last, ∀ bit ∈ (traces bits).head?, Follows prev bit) ∧
        (traces bits).IsChain Follows := by
  induction bits generalizing st count last with
  | nil =>
    apply iff_of_true
    · rfl
    · simp [traces]
  | cons bit bits ih =>
    rw [List.map_cons, damaged, List.forall_mem_cons]
    by_cases hcpu : bit.cpu = cpu
    · rw [if_neg (not_not_intro hcpu), and_iff_right hcpu]
      cases hnotify : bit.has blkTcNotify with
      | true =>
        rw [traces_cons_notify hnotify] at hcount ⊢
        rw [if_pos rfl]
        exact ih h hcount
      | false =>
        rw [traces_cons hnotify, List.length_cons] at hcount
        rw [traces_cons hnotify, if_neg Bool.false_ne_true]
        have hrest := ih (h.accept bit) (by omega)
        have hdisorders := disorders_iff h (by omega) bit
        have hhead : (∀ prev ∈ last, ∀ next ∈ (bit :: traces bits).head?, Follows prev next) ↔
            ∀ prev ∈ last, Follows prev bit := by simp
        have hchain : (bit :: traces bits).IsChain Follows ↔
            (∀ prev ∈ some bit, ∀ next ∈ (traces bits).head?, Follows prev next) ∧
              (traces bits).IsChain Follows := by
          rw [List.isChain_cons]
          simp
        rw [hhead, hchain, ← hdisorders]
        cases hd : st.disorders bit with
        | true => simp
        | false =>
          rw [if_neg Bool.false_ne_true, hrest]
          simp
    · rw [if_pos hcpu]
      simp [hcpu]

theorem frames_of_damaged_zero (h : damaged cpu st fs = 0) :
    ∃ bits : List BlkIoTraceRecord, fs = bits.map .trace := by
  induction fs generalizing st with
  | nil => exact ⟨[], rfl⟩
  | cons f fs ih =>
    cases f with
    | badTrace => cases h
    | trace bit =>
      rw [damaged] at h
      split_ifs at h
      · obtain ⟨bits, rfl⟩ := ih h
        exact ⟨bit :: bits, rfl⟩
      · obtain ⟨bits, rfl⟩ := ih h
        exact ⟨bit :: bits, rfl⟩

theorem length_le_of_follows {ts : List BlkIoTraceRecord} (h : ts.Pairwise Follows) :
    ts.length ≤ 2 ^ 32 := by
  have hnodup : (ts.map fun t => t.sequence.toNat).Nodup := by
    apply List.pairwise_map.mpr
    apply h.imp
    rintro a b ⟨hlt, -⟩
    exact (UInt32.lt_iff_toNat_lt.mp hlt).ne
  have hsub : (ts.map fun t => t.sequence.toNat) ⊆ List.range (2 ^ 32) := by
    intro x hx
    obtain ⟨t, -, rfl⟩ := List.mem_map.mp hx
    exact List.mem_range.mpr t.sequence.toNat_lt
  have hle := (hnodup.subperm hsub).length_le
  rwa [List.length_map, List.length_range] at hle

def tracesOf (fs : List Frame) : List BlkIoTraceRecord := traces (fs.filterMap Frame.bit?)

theorem tracesOf_map (bits : List BlkIoTraceRecord) : tracesOf (bits.map .trace) = traces bits := by
  have hbits : (bits.map Frame.trace).filterMap Frame.bit? = bits := by
    rw [List.filterMap_map]
    exact List.filterMap_some
  rw [tracesOf, hbits]

theorem start_after (n : ℤ) : After (start n) 0 none := ⟨rfl, rfl⟩

theorem isChain_follows_iff {ts : List BlkIoTraceRecord} :
    ts.IsChain Follows ↔ ts.Pairwise Follows := by
  have htrans : Trans Follows Follows Follows := ⟨Follows.trans⟩
  exact List.isChain_iff_pairwise

theorem valid_iff (host : Endian) (n : ℤ) (cpu : UInt32) (file : List ℕ) :
    Valid host n cpu file ↔ damage host cpu (start n) n file = 0 ∧
      (frames host n file).2 = .clean ∧ (tracesOf (frames host n file).1).length ≤ 2 ^ 32 := by
  constructor
  · rintro ⟨order, horder, bits, hparses, hcpu, hfollows⟩
    have hframes := exists_parses_iff.mp ⟨order, horder, hparses⟩
    have hlength := length_le_of_follows hfollows
    have hdamaged : damaged cpu (start n) (bits.map .trace) = 0 :=
      (damaged_eq_zero_iff (start_after n) (by rwa [Nat.zero_add])).mpr
        ⟨hcpu, by simp, isChain_follows_iff.mpr hfollows⟩
    rw [damage, hframes, tracesOf_map]
    exact ⟨by rw [hdamaged]; rfl, rfl, hlength⟩
  · rintro ⟨hdamage, hclean, hlength⟩
    have hdamaged : damaged cpu (start n) (frames host n file).1 = 0 := by
      rw [damage] at hdamage
      omega
    obtain ⟨bits, hbits⟩ := frames_of_damaged_zero hdamaged
    have hframes : frames host n file = (bits.map .trace, .clean) := Prod.ext hbits hclean
    obtain ⟨order, horder, hparses⟩ := exists_parses_iff.mpr hframes
    rw [hbits, tracesOf_map] at hlength
    rw [hbits] at hdamaged
    obtain ⟨hcpu, -, hchain⟩ :=
      (damaged_eq_zero_iff (start_after n) (by rwa [Nat.zero_add])).mp hdamaged
    exact ⟨order, horder, bits, hparses, hcpu, isChain_follows_iff.mp hchain⟩

/-- Where nothing is damaged the file ends behind a record, and no trace comes after all sequence
numbers were used; where something is, the number of it does not run over to 0. -/
def Checkable (host : Endian) (n : ℤ) (cpu : UInt32) (file : List ℕ) : Prop :=
  if damage host cpu (start n) n file = 0 then
    (frames host n file).2 = .clean ∧ (tracesOf (frames host n file).1).length ≤ 2 ^ 32
  else ¬ 2 ^ 32 ∣ damage host cpu (start n) n file

theorem process_eq_zero_iff (host : Endian) (n : ℤ) (cpu : UInt32) (file : List ℕ) :
    rawVerifyProcess host n cpu file = 0 ↔ 2 ^ 32 ∣ damage host cpu (start n) n file := by
  rw [rawVerifyProcess, loop_eq]
  change 0 + UInt32.ofNat (damage host cpu (start n) n file) = 0 ↔ _
  rw [zero_add, ← UInt32.toNat_inj, UInt32.toNat_ofNat', UInt32.toNat_zero]
  exact (Nat.dvd_iff_mod_eq_zero).symm

theorem accepted_of_stop (h : readTrace host n file = .stop ending)
    (hending : ending = .header ∨ ending = .version) :
    rawVerifyProcess host n cpu file = 0 ∧ ¬ Valid host n cpu file := by
  rw [process_eq_zero_iff, valid_iff, damage, frames_stop h]
  obtain rfl | rfl := hending
  · exact ⟨dvd_zero _, fun hvalid => Ending.noConfusion hvalid.2.1⟩
  · exact ⟨dvd_zero _, fun hvalid => Ending.noConfusion hvalid.2.1⟩

end RawVerify

/-- A file is accepted just if it is valid, unless it ends in part of a header or at a record of
another version with no damage before, or a counter of 32 bits runs over. -/
theorem blkrawverify_exact_iff (host : ByteOrder.Endian) (dataIsNative : ℤ) (cpu : UInt32)
    (file : List ℕ) :
    (rawVerifyProcess host dataIsNative cpu file = 0 ↔
        RawVerify.Valid host dataIsNative cpu file) ↔
      RawVerify.Checkable host dataIsNative cpu file := by
  rw [RawVerify.process_eq_zero_iff, RawVerify.valid_iff, RawVerify.Checkable]
  split
  case isTrue hzero =>
    rw [hzero, and_iff_right rfl]
    exact iff_true_left (dvd_zero _)
  case isFalse hdamaged =>
    apply iff_false_right
    intro hvalid
    exact hdamaged hvalid.1

def nextVersion : BlkIoTraceRecord where
  magic := blkIoTraceMagic ||| 0x08
  sequence := 1
  time := 0
  sector := 0
  bytes := 0
  action := 0
  pid := 0
  device := 0
  cpu := 0
  error := 0
  vecCount := 0
  seq := 0
  pduLen := 0

/-- A file that is cut off in its first header, and one of a record of the next version. -/
theorem cut_file_accepted :
    (rawVerifyProcess .little (-1) 0 [7] = 0 ∧ ¬ RawVerify.Valid .little (-1) 0 [7]) ∧
      rawVerifyProcess .little (-1) 0 (nextVersion.store .little) = 0 ∧
        ¬ RawVerify.Valid .little (-1) 0 (nextVersion.store .little) :=
  ⟨RawVerify.accepted_of_stop rfl (Or.inl rfl), RawVerify.accepted_of_stop rfl (Or.inr rfl)⟩

end SBlktrace
