import SBlktrace.TraceDecode
import Mathlib

namespace SBlktrace

open ByteOrder BlkIoTraceRecord

/-- Where the reader of `btt` stands in its file, and which part of it is mapped. -/
structure InputWindow where
  cur : ℕ
  curMin : ℕ
  curMax : ℕ
  dataIsNative : ℤ

inductive NextTrace where
  | done
  /-- The bytes read are not all mapped. -/
  | outside
  | trace (t : Converted) (win : InputWindow)

namespace InputWindow

def defLen : ℕ := 16 * 1024 * 1024

def minLen (a b : ℕ) : ℕ := if a < b then a else b

def sizeLeft (totalSize curMin : ℕ) : ℕ :=
  if curMin ≤ totalSize then totalSize - curMin else 2 ^ 64 - (curMin - totalSize)

/-- `mmap` is taken to succeed; nothing is returned for 0. -/
def moveMap (pgsz totalSize : ℕ) (win : InputWindow) : Option InputWindow :=
  -- `cur & ~(pgsz-1)` for a power of two
  let curMin := win.cur - win.cur % pgsz
  let len := minLen defLen (sizeLeft totalSize curMin)
  if len < sizeofTrace then none
  else if win.cur < curMin + len then some { win with curMin := curMin, curMax := curMin + len }
  else none

def convertAt (host : Endian) (tp : BlkIoTraceRecord) (dataIsNative : ℤ) (bytes : List ℕ) : Converted :=
  convertToCpu host dataIsNative (load host (bytes.take sizeofTrace))
    (fun i => UInt8.ofNat (bytes.getD (sizeofTrace + i) 0)) tp

def readAt (host : Endian) (tp : BlkIoTraceRecord) (file : List ℕ) (win : InputWindow) : NextTrace :=
  if win.cur < win.curMin ∨ win.curMax < win.cur + sizeofTrace then .outside
  else
    let t := convertAt host tp win.dataIsNative (file.drop win.cur)
    if win.curMax < win.cur + t.size then .outside
    else .trace t { win with cur := win.cur + t.size, dataIsNative := t.dataIsNative }

def nextTrace (host : Endian) (pgsz : ℕ) (tp : BlkIoTraceRecord) (file : List ℕ) (win : InputWindow) :
    NextTrace :=
  if win.cur + 512 > win.curMax then
    match moveMap pgsz file.length win with
    | none => .done
    | some win => readAt host tp file win
  else readAt host tp file win

def setupIfile (pgsz totalSize : ℕ) : Option InputWindow := moveMap pgsz totalSize ⟨0, 0, 0, -1⟩

def traces (host : Endian) (pgsz : ℕ) (tp : BlkIoTraceRecord) (file : List ℕ) :
    ℕ → InputWindow → List Converted × Option NextTrace
  | 0, _ => ([], none)
  | fuel + 1, win =>
    match nextTrace host pgsz tp file win with
    | .trace t win =>
      let rest := traces host pgsz tp file fuel win
      (t :: rest.1, rest.2)
    | last => ([], some last)

def readFile (host : Endian) (pgsz : ℕ) (tp : BlkIoTraceRecord) (file : List ℕ) :
    List Converted × Option NextTrace :=
  match setupIfile pgsz file.length with
  | none => ([], some .done)
  | some win => traces host pgsz tp file (file.length + 1) win

def Complete (host : Endian) (tp : BlkIoTraceRecord) (dataIsNative : ℤ) (bytes : List ℕ) : Prop :=
  (convertAt host tp dataIsNative bytes).size ≤ bytes.length

inductive Records (host : Endian) (tp : BlkIoTraceRecord) : ℤ → List ℕ → List Converted → Prop
  | last {dataIsNative : ℤ} {bytes : List ℕ} (h : ¬ Complete host tp dataIsNative bytes) :
      Records host tp dataIsNative bytes []
  | record {dataIsNative : ℤ} {bytes : List ℕ} {ts : List Converted}
      (h : Complete host tp dataIsNative bytes)
      (hrest : Records host tp (convertAt host tp dataIsNative bytes).dataIsNative
        (bytes.drop (convertAt host tp dataIsNative bytes).size) ts) :
      Records host tp dataIsNative bytes (convertAt host tp dataIsNative bytes :: ts)

/-- All that is read is mapped, and exactly the complete records are returned, in the order of the
file. -/
def ReadsAll (host : Endian) (pgsz : ℕ) (tp : BlkIoTraceRecord) (file : List ℕ) : Prop :=
  ∃ ts, readFile host pgsz tp file = (ts, some .done) ∧ Records host tp (-1) file ts

def Step (host : Endian) (pgsz : ℕ) (tp : BlkIoTraceRecord) (file : List ℕ) (win win' : InputWindow) :
    Prop := ∃ t, nextTrace host pgsz tp file win = .trace t win'

def Reached (host : Endian) (pgsz : ℕ) (tp : BlkIoTraceRecord) (file : List ℕ) (win : InputWindow) :
    Prop := ∃ first, setupIfile pgsz file.length = some first ∧
  Relation.ReflTransGen (Step host pgsz tp file) first win

/-- A complete record fits in the window, which is moved if less than 512 bytes of it are left; of one
that is cut off there are so few bytes that they make no header even with those before them in the
page. -/
structure Fits (host : Endian) (pgsz : ℕ) (tp : BlkIoTraceRecord) (file : List ℕ) (win : InputWindow) :
    Prop where
  complete : Complete host tp win.dataIsNative (file.drop win.cur) →
    if win.cur + 512 ≤ win.curMax then
      win.cur + (convertAt host tp win.dataIsNative (file.drop win.cur)).size ≤ win.curMax
    else win.cur % pgsz + (convertAt host tp win.dataIsNative (file.drop win.cur)).size ≤ defLen
  cut : win.cur < file.length → ¬ Complete host tp win.dataIsNative (file.drop win.cur) →
    win.cur % pgsz + (file.length - win.cur) < sizeofTrace

structure Inv (totalSize : ℕ) (win : InputWindow) : Prop where
  cur : win.cur ≤ totalSize
  curMin : win.curMin ≤ win.cur
  curMax : win.curMax ≤ totalSize

section Windows

variable {host : Endian} {pgsz totalSize : ℕ} {tp : BlkIoTraceRecord} {file : List ℕ}
  {win : InputWindow}

theorem sizeofTrace_le_size (host : Endian) (tp : BlkIoTraceRecord) (n : ℤ) (bytes : List ℕ) :
    sizeofTrace ≤ (convertAt host tp n bytes).size := Nat.le_add_right _ _

theorem complete_iff : Complete host tp win.dataIsNative (file.drop win.cur) ↔
    win.cur + (convertAt host tp win.dataIsNative (file.drop win.cur)).size ≤ file.length := by
  have hle := sizeofTrace_le_size host tp win.dataIsNative (file.drop win.cur)
  have hsize : sizeofTrace = 56 := rfl
  rw [Complete, List.length_drop]
  omega

theorem moveMap_spec (hpgsz : pgsz ∣ defLen) (hcur : win.cur ≤ totalSize) :
    (moveMap pgsz totalSize win = none ∧
      (win.cur = totalSize ∨ win.cur % pgsz + (totalSize - win.cur) < sizeofTrace)) ∨
    win.cur < totalSize ∧ sizeofTrace ≤ win.cur % pgsz + (totalSize - win.cur) ∧
      ∃ curMax, moveMap pgsz totalSize win =
          some { win with curMin := win.cur - win.cur % pgsz, curMax := curMax } ∧
        curMax ≤ totalSize ∧
        (curMax = totalSize ∨ curMax = win.cur - win.cur % pgsz + defLen) ∧
        curMax ≤ win.cur - win.cur % pgsz + defLen := by
  have hdef : defLen = 16777216 := rfl
  have hsize : sizeofTrace = 56 := rfl
  have hpos : 0 < pgsz := Nat.pos_of_dvd_of_pos hpgsz (by omega)
  have hle : pgsz ≤ defLen := Nat.le_of_dvd (by omega) hpgsz
  have hmod := Nat.mod_lt win.cur hpos
  have hmodle := Nat.mod_le win.cur pgsz
  have hleft : sizeLeft totalSize (win.cur - win.cur % pgsz) =
      win.cur % pgsz + (totalSize - win.cur) := by
    rw [sizeLeft, if_pos (by omega)]
    omega
  rw [moveMap, hleft, minLen]
  split_ifs with hdefLen hlen hcurMax hlen hcurMax
  · omega
  · exact .inr ⟨by omega, by omega, _, rfl, by omega, .inr rfl, le_rfl⟩
  · omega
  · exact .inl ⟨rfl, .inr hlen⟩
  · exact .inr ⟨by omega, by omega, _, rfl, by omega, .inl (by omega), by omega⟩
  · exact .inl ⟨rfl, .inl (by omega)⟩

theorem readAt_spec (hmin : win.curMin ≤ win.cur) :
    (win.cur + (convertAt host tp win.dataIsNative (file.drop win.cur)).size ≤ win.curMax ∧
      ∃ win', readAt host tp file win =
          .trace (convertAt host tp win.dataIsNative (file.drop win.cur)) win' ∧
        win'.cur = win.cur + (convertAt host tp win.dataIsNative (file.drop win.cur)).size ∧
        win'.curMin = win.curMin ∧ win'.curMax = win.curMax ∧
        win'.dataIsNative = (convertAt host tp win.dataIsNative (file.drop win.cur)).dataIsNative) ∨
    win.curMax < win.cur + (convertAt host tp win.dataIsNative (file.drop win.cur)).size ∧
      readAt host tp file win = .outside := by
  have hle := sizeofTrace_le_size host tp win.dataIsNative (file.drop win.cur)
  obtain h | h := Nat.lt_or_ge win.curMax
    (win.cur + (convertAt host tp win.dataIsNative (file.drop win.cur)).size)
  · refine .inr ⟨h, ?_⟩
    rw [readAt]
    dsimp only
    rw [if_pos h, ite_self]
  · refine .inl ⟨h,
      { win with
        cur := win.cur + (convertAt host tp win.dataIsNative (file.drop win.cur)).size
        dataIsNative := (convertAt host tp win.dataIsNative (file.drop win.cur)).dataIsNative },
      ?_, rfl, rfl, rfl, rfl⟩
    rw [readAt]
    dsimp only
    rw [if_neg (by omega), if_neg (by omega)]

theorem nextTrace_spec (hpgsz : pgsz ∣ defLen) (h : win.Inv file.length) :
    (Fits host pgsz tp file win ∧
      ((nextTrace host pgsz tp file win = .done ∧
          ¬ Complete host tp win.dataIsNative (file.drop win.cur)) ∨
        Complete host tp win.dataIsNative (file.drop win.cur) ∧
          ∃ win', win'.Inv file.length ∧
            nextTrace host pgsz tp file win =
              .trace (convertAt host tp win.dataIsNative (file.drop win.cur)) win' ∧
            win'.cur = win.cur + (convertAt host tp win.dataIsNative (file.drop win.cur)).size ∧
            win'.dataIsNative =
              (convertAt host tp win.dataIsNative (file.drop win.cur)).dataIsNative)) ∨
    ¬ Fits host pgsz tp file win ∧ nextTrace host pgsz tp file win = .outside := by
  obtain ⟨hcur, hmin, hmax⟩ := h
  have hcomplete := @complete_iff host tp file win
  have hle := sizeofTrace_le_size host tp win.dataIsNative (file.drop win.cur)
  have hsize : sizeofTrace = 56 := rfl
  rw [nextTrace]
  by_cases hmove : win.cur + 512 > win.curMax
  · rw [if_pos hmove]
    obtain ⟨hnone, hend⟩ | ⟨hlt, hheader, curMax, hsome, hmax', heq, hwindow⟩ :=
      @moveMap_spec pgsz file.length win hpgsz hcur
    · have hnot : ¬ Complete host tp win.dataIsNative (file.drop win.cur) := by
        rw [hcomplete]
        omega
      rw [hnone]
      refine .inl ⟨⟨fun hin => absurd hin hnot, fun hlt _ => ?_⟩, .inl ⟨rfl, hnot⟩⟩
      omega
    · rw [hsome]
      dsimp only
      have hread := @readAt_spec host tp file
        { win with curMin := win.cur - win.cur % pgsz, curMax := curMax } (Nat.sub_le _ _)
      dsimp only at hread
      have hmodle := Nat.mod_le win.cur pgsz
      obtain ⟨hin, win', hread, hcur', hmin', hmax'', hnative⟩ | ⟨hout, hread⟩ := hread
      · have hyes := hcomplete.mpr (hin.trans hmax')
        refine .inl ⟨⟨fun _ => ?_, fun _ hno => absurd hyes hno⟩,
          .inr ⟨hyes, win', ⟨by omega, by omega, by omega⟩, hread, hcur', hnative⟩⟩
        rw [if_neg (by omega)]
        omega
      · refine .inr ⟨fun hfits => ?_, hread⟩
        by_cases hyes : Complete host tp win.dataIsNative (file.drop win.cur)
        · have hfit := hfits.complete hyes
          rw [if_neg (by omega)] at hfit
          rw [hcomplete] at hyes
          omega
        · have hcut := hfits.cut hlt hyes
          omega
  · rw [if_neg hmove]
    obtain ⟨hin, win', hread, hcur', hmin', hmax', hnative⟩ | ⟨hout, hread⟩ :=
      @readAt_spec host tp file win hmin
    · have hyes := hcomplete.mpr (hin.trans hmax)
      refine .inl ⟨⟨fun _ => ?_, fun _ hno => absurd hyes hno⟩,
        .inr ⟨hyes, win', ⟨by omega, by omega, by omega⟩, hread, hcur', hnative⟩⟩
      rwa [if_pos (by omega)]
    · refine .inr ⟨fun hfits => ?_, hread⟩
      by_cases hyes : Complete host tp win.dataIsNative (file.drop win.cur)
      · have hfit := hfits.complete hyes
        rw [if_pos (by omega)] at hfit
        omega
      · have hcut := hfits.cut (by omega) hyes
        omega

theorem moveMap_inv (hpgsz : pgsz ∣ defLen) (hcur : win.cur ≤ totalSize) {win' : InputWindow}
    (h : moveMap pgsz totalSize win = some win') : win'.Inv totalSize := by
  obtain ⟨hnone, -⟩ | ⟨-, -, curMax, hsome, hmax, -⟩ := moveMap_spec hpgsz hcur
  · rw [hnone] at h
    cases h
  · rw [hsome] at h
    obtain rfl := Option.some.inj h
    exact ⟨hcur, Nat.sub_le _ _, hmax⟩

/-- The calls from a state on end as they should just if no state that they come to has a record that
does not fit. -/
theorem traces_iff (hpgsz : pgsz ∣ defLen) {fuel : ℕ} (h : win.Inv file.length)
    (hfuel : file.length - win.cur < fuel) :
    (∃ ts, traces host pgsz tp file fuel win = (ts, some .done) ∧
      Records host tp win.dataIsNative (file.drop win.cur) ts) ↔
    ∀ win', Relation.ReflTransGen (Step host pgsz tp file) win win' → Fits host pgsz tp file win' := by
  induction fuel generalizing win with
  | zero => exact absurd hfuel (Nat.not_lt_zero _)
  | succ fuel ih =>
    have hle := sizeofTrace_le_size host tp win.dataIsNative (file.drop win.cur)
    have hsize : sizeofTrace = 56 := rfl
    rw [traces]
    obtain ⟨hfits, ⟨hnext, hnot⟩ | ⟨hyes, win', hinv, hnext, hcur, hnative⟩⟩ | ⟨hfits, hnext⟩ :=
      @nextTrace_spec host pgsz tp file win hpgsz h
    · rw [hnext]
      refine iff_of_true ⟨[], rfl, .last hnot⟩ fun win' hwin' => ?_
      obtain rfl | ⟨win'', ⟨t, hstep⟩, -⟩ := hwin'.cases_head
      · exact hfits
      · rw [hnext] at hstep
        cases hstep
    · have hrest := @ih win' hinv (by rw [complete_iff] at hyes; omega)
      rw [hnative, hcur, ← List.drop_drop] at hrest
      rw [hnext]
      dsimp only
      constructor
      · rintro ⟨ts, htraces, hrecords⟩ last hlast
        obtain rfl | ⟨win'', ⟨t, hstep⟩, hreach⟩ := hlast.cases_head
        · exact hfits
        · rw [hnext] at hstep
          obtain ⟨-, rfl⟩ := NextTrace.trace.inj hstep
          refine hrest.mp ⟨_, Prod.ext rfl (Prod.mk.inj htraces).2, ?_⟩ last hreach
          rw [← (Prod.mk.inj htraces).1] at hrecords
          cases hrecords with
          | record _ hrest => exact hrest
      · intro hall
        obtain ⟨ts, htraces, hrecords⟩ := hrest.mpr fun last hreach =>
          hall last (hreach.head ⟨_, hnext⟩)
        rw [htraces]
        exact ⟨_, rfl, .record hyes hrecords⟩
    · rw [hnext]
      refine iff_of_false ?_ fun hall => hfits (hall win .refl)
      rintro ⟨ts, htraces, -⟩
      cases htraces

end Windows

/-- The whole file is read from inside the window, record by record, just if every record that comes
to be read fits. -/
theorem reads_all_iff (host : Endian) (pgsz : ℕ) (tp : BlkIoTraceRecord) (file : List ℕ)
    (h : pgsz ∣ defLen) :
    ReadsAll host pgsz tp file ↔ ∀ win, Reached host pgsz tp file win → Fits host pgsz tp file win := by
  have hsetup := @moveMap_spec pgsz file.length ⟨0, 0, 0, -1⟩ h (Nat.zero_le _)
  rw [ReadsAll, readFile]
  cases hfirst : setupIfile pgsz file.length with
  | none =>
    have hsize : sizeofTrace = 56 := rfl
    have hnot : ¬ Complete host tp (-1) file := by
      have hle := sizeofTrace_le_size host tp (-1) file
      rw [Complete]
      obtain ⟨-, hend⟩ | ⟨-, -, curMax, hsome, -⟩ := hsetup
      · dsimp only at hend
        rw [Nat.zero_mod] at hend
        omega
      · rw [setupIfile, hsome] at hfirst
        cases hfirst
    refine iff_of_true ⟨[], rfl, .last hnot⟩ ?_
    rintro win ⟨first, hsome, -⟩
    rw [hfirst] at hsome
    cases hsome
  | some first =>
    have hinv := moveMap_inv h (Nat.zero_le _) hfirst
    obtain ⟨hcur, hnative⟩ : first.cur = 0 ∧ first.dataIsNative = -1 := by
      obtain ⟨hnone, -⟩ | ⟨-, -, curMax, hsome, -⟩ := hsetup
      · rw [setupIfile, hnone] at hfirst
        cases hfirst
      · rw [setupIfile, hsome] at hfirst
        obtain rfl := Option.some.inj hfirst
        exact ⟨rfl, rfl⟩
    have hiff := @traces_iff host pgsz tp file first h (file.length + 1) hinv (by omega)
    rw [hcur, hnative, List.drop_zero] at hiff
    dsimp only
    rw [hiff]
    constructor
    · rintro hall win ⟨first', hsome, hreach⟩
      rw [hfirst] at hsome
      obtain rfl := Option.some.inj hsome
      exact hall win hreach
    · exact fun hall win hreach => hall win ⟨first, hfirst, hreach⟩

def withPayload : BlkIoTraceRecord where
  magic := 0x65617407
  sequence := 1
  time := 0
  action := 0
  device := 0
  cpu := 0
  sector := 0
  bytes := 0
  pid := 0
  error := 0
  vecCount := 0
  seq := 0
  pduLen := 8

theorem reads_all_whole :
    4096 ∣ defLen ∧
      (ReadsAll .little 4096 withPayload (store .little withPayload ++ List.replicate 8 0) ↔
        ∀ win, Reached .little 4096 withPayload (store .little withPayload ++ List.replicate 8 0) win →
          Fits .little 4096 withPayload (store .little withPayload ++ List.replicate 8 0) win) :=
  ⟨by decide, reads_all_iff .little 4096 withPayload
    (store .little withPayload ++ List.replicate 8 0) (by decide)⟩

/-- The file ends after four bytes of the payload; all eight are read. -/
theorem cut_record_read :
    (readFile .little 4096 withPayload (store .little withPayload ++ List.replicate 4 0)).2 =
        some .outside ∧
      ¬ ReadsAll .little 4096 withPayload (store .little withPayload ++ List.replicate 4 0) := by
  have hread : (readFile .little 4096 withPayload
      (store .little withPayload ++ List.replicate 4 0)).2 = some .outside := rfl
  refine ⟨hread, ?_⟩
  rintro ⟨ts, hts, -⟩
  rw [hts] at hread
  cases hread

end InputWindow

end SBlktrace
