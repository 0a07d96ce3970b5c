import SBlktrace.TraceDecode
import Mathlib

namespace SBlktrace.AbsStartTime

structure Timespec where
  tvSec : Int64
  tvNsec : Int64
deriving DecidableEq

def seconds (x : UInt64) : UInt64 := x / 1000000000

def nanoSeconds (x : UInt64) : UInt64 := x % 1000000000

namespace Timespec

def Normal (ts : Timespec) : Prop := 0 ≤ ts.tvNsec.toInt ∧ ts.tvNsec.toInt < 1000000000

instance (ts : Timespec) : Decidable ts.Normal := inferInstanceAs (Decidable (_ ∧ _))

def total (ts : Timespec) : ℤ := ts.tvSec.toInt * 1000000000 + ts.tvNsec.toInt

/-- `SECONDS` and `NANO_SECONDS` take the difference for an unsigned number. -/
def shift (ts : Timespec) (delta : Int64) : Timespec :=
  let tvSec := (ts.tvSec.toUInt64 + seconds delta.toUInt64).toInt64
  let tvNsec := (ts.tvNsec.toUInt64 + nanoSeconds delta.toUInt64).toInt64
  if tvNsec < 0 then ⟨tvSec - 1, tvNsec + 1000000000⟩
  else if tvNsec > 1000000000 then ⟨tvSec + 1, tvNsec - 1000000000⟩
  else ⟨tvSec, tvNsec⟩

end Timespec

def notifyTimestamp (time : UInt64) (two32 : UInt32 × UInt32) : UInt64 × Timespec :=
  let ts : Timespec := ⟨two32.1.toUInt64.toInt64, two32.2.toUInt64.toInt64⟩
  (time, if ts.tvNsec < 0 then ⟨ts.tvSec - 1, ts.tvNsec + 1000000000⟩ else ts)

def genesisTime (traceList : List BlkIoTraceRecord) : UInt64 :=
  traceList.foldl (fun genesis t => if t.time < genesis then t.time else genesis) (-1)

def findGenesis (traceList : List BlkIoTraceRecord) (startTimestamp : UInt64)
    (absStartTime : Timespec) : UInt64 × Timespec :=
  let genesis := genesisTime traceList
  (genesis,
    if startTimestamp ≠ 0 ∧ startTimestamp ≠ genesis
    then absStartTime.shift (genesis - startTimestamp).toInt64
    else absStartTime)

def Earliest (traceList : List BlkIoTraceRecord) (time : UInt64) : Prop :=
  (∀ t ∈ traceList, time ≤ t.time) ∧ (time = -1 ∨ ∃ t ∈ traceList, t.time = time)

def ShiftedExactly (genesis start : UInt64) (before after : Timespec) : Prop :=
  after.total = before.total + (genesis.toNat - start.toNat) ∧ after.Normal

/-- The time stamp is the earliest time or lies before it, the nanoseconds do not add up to just a
second, and the seconds of the shifted time are a number of 64 bits. -/
def Shiftable (genesis start : UInt64) (ts : Timespec) : Prop :=
  start = genesis ∨ (start ≠ 0 ∧ start < genesis ∧
    ts.tvNsec.toInt + (genesis.toNat - start.toNat) % 1000000000 ≠ 1000000000 ∧
    ts.total + (genesis.toNat - start.toNat) < 2 ^ 63 * 1000000000)

theorem bmod_spec (x : ℤ) : ∃ k, x.bmod (2 ^ 64) = x - 2 ^ 64 * k ∧
    -2 ^ 63 ≤ x.bmod (2 ^ 64) ∧ x.bmod (2 ^ 64) < 2 ^ 63 := by
  have hlo := @Int.le_bmod x (2 ^ 64) (by decide)
  have hhi := @Int.bmod_lt x (2 ^ 64) (by decide)
  obtain ⟨k, hk⟩ := @Int.dvd_self_sub_bmod x (2 ^ 64)
  refine ⟨k, ?_, ?_, ?_⟩
  · omega
  · omega
  · omega

theorem toInt_add_unsigned (a : Int64) (b : UInt64) : ∃ k,
    (a.toUInt64 + b).toInt64.toInt = a.toInt + b.toNat - 2 ^ 64 * k ∧
      -2 ^ 63 ≤ (a.toUInt64 + b).toInt64.toInt ∧ (a.toUInt64 + b).toInt64.toInt < 2 ^ 63 := by
  have hadd : (a.toUInt64 + b).toInt64 = a + b.toInt64 := rfl
  have hb : b.toInt64.toInt = (b.toNat : ℤ).bmod (2 ^ 64) := BitVec.toInt_eq_toNat_bmod _
  obtain ⟨k, hk, hlo, hhi⟩ := bmod_spec (a.toInt + b.toInt64.toInt)
  obtain ⟨j, hj, -⟩ := bmod_spec b.toNat
  rw [hadd, Int64.toInt_add]
  refine ⟨k + j, ?_, hlo, hhi⟩
  rw [hk, hb, hj]
  omega

theorem toInt_add_signed (a b : Int64) : ∃ k, (a + b).toInt = a.toInt + b.toInt - 2 ^ 64 * k ∧
    -2 ^ 63 ≤ (a + b).toInt ∧ (a + b).toInt < 2 ^ 63 := by
  rw [Int64.toInt_add]
  exact bmod_spec _

theorem toInt_sub_signed (a b : Int64) : ∃ k, (a - b).toInt = a.toInt - b.toInt - 2 ^ 64 * k ∧
    -2 ^ 63 ≤ (a - b).toInt ∧ (a - b).toInt < 2 ^ 63 := by
  rw [Int64.toInt_sub]
  exact bmod_spec _

namespace Timespec

variable {ts : Timespec}

theorem shift_spec (h : ts.Normal) (delta : UInt64) : ∃ k carry : ℤ,
    carry = (if ts.tvNsec.toInt + delta.toNat % 1000000000 > 1000000000 then 1 else 0) ∧
    (ts.shift delta.toInt64).tvNsec.toInt =
      ts.tvNsec.toInt + delta.toNat % 1000000000 - 1000000000 * carry ∧
    (ts.shift delta.toInt64).tvSec.toInt =
      ts.tvSec.toInt + delta.toNat / 1000000000 + carry - 2 ^ 64 * k ∧
    -2 ^ 63 ≤ (ts.shift delta.toInt64).tvSec.toInt ∧
    (ts.shift delta.toInt64).tvSec.toInt < 2 ^ 63 := by
  obtain ⟨hlo, hhi⟩ := h
  have hseconds : (seconds delta).toNat = delta.toNat / 1000000000 := UInt64.toNat_div _ _
  have hnano : (nanoSeconds delta).toNat = delta.toNat % 1000000000 := UInt64.toNat_mod _ _
  obtain ⟨i, hi, hilo, hihi⟩ := toInt_add_unsigned ts.tvSec (seconds delta)
  obtain ⟨j, hj, hjlo, hjhi⟩ := toInt_add_unsigned ts.tvNsec (nanoSeconds delta)
  rw [hseconds] at hi
  rw [hnano] at hj
  have hnsec : (ts.tvNsec.toUInt64 + nanoSeconds delta).toInt64.toInt =
      ts.tvNsec.toInt + delta.toNat % 1000000000 := by omega
  have hnonneg : ¬ (ts.tvNsec.toUInt64 + nanoSeconds delta).toInt64 < 0 := by
    rw [Int64.lt_iff_toInt_lt, hnsec, show (0 : Int64).toInt = 0 from rfl]
    omega
  unfold shift
  rw [UInt64.toUInt64_toInt64]
  dsimp only
  rw [if_neg hnonneg]
  by_cases hcarry : ts.tvNsec.toInt + delta.toNat % 1000000000 > 1000000000
  · have hgt : (ts.tvNsec.toUInt64 + nanoSeconds delta).toInt64 > 1000000000 := by
      rw [gt_iff_lt, Int64.lt_iff_toInt_lt, hnsec, show (1000000000 : Int64).toInt = 1000000000 from rfl]
      exact hcarry
    obtain ⟨l, hl, hllo, hlhi⟩ :=
      toInt_add_signed (ts.tvSec.toUInt64 + seconds delta).toInt64 1
    obtain ⟨m, hm, hmlo, hmhi⟩ :=
      toInt_sub_signed (ts.tvNsec.toUInt64 + nanoSeconds delta).toInt64 1000000000
    rw [show (1 : Int64).toInt = 1 from rfl] at hl
    rw [show (1000000000 : Int64).toInt = 1000000000 from rfl] at hm
    rw [if_pos hgt]
    refine ⟨i + l, 1, (if_pos hcarry).symm, ?_, ?_, hllo, hlhi⟩
    · dsimp only
      omega
    · dsimp only
      omega
  · have hle : ¬ (ts.tvNsec.toUInt64 + nanoSeconds delta).toInt64 > 1000000000 := by
      rw [gt_iff_lt, Int64.lt_iff_toInt_lt, hnsec, show (1000000000 : Int64).toInt = 1000000000 from rfl]
      exact hcarry
    rw [if_neg hle]
    refine ⟨i, 0, (if_neg hcarry).symm, ?_, ?_, hilo, hihi⟩
    · dsimp only
      omega
    · dsimp only
      omega

end Timespec

theorem le_genesis_iff (traceList : List BlkIoTraceRecord) (genesis bound : UInt64) :
    bound ≤ traceList.foldl (fun genesis t => if t.time < genesis then t.time else genesis) genesis ↔
      bound ≤ genesis ∧ ∀ t ∈ traceList, bound ≤ t.time := by
  induction traceList generalizing genesis with
  | nil => simp
  | cons t traceList ih =>
    rw [List.foldl_cons, ih, List.forall_mem_cons, ← and_assoc]
    apply and_congr_left
    intro _
    simp only [UInt64.le_iff_toNat_le, UInt64.lt_iff_toNat_lt]
    split
    · omega
    · omega

theorem genesis_mem (traceList : List BlkIoTraceRecord) (genesis : UInt64) :
    traceList.foldl (fun genesis t => if t.time < genesis then t.time else genesis) genesis =
        genesis ∨
      ∃ t ∈ traceList, t.time = traceList.foldl
        (fun genesis t => if t.time < genesis then t.time else genesis) genesis := by
  induction traceList generalizing genesis with
  | nil => exact Or.inl rfl
  | cons t traceList ih =>
    rw [List.foldl_cons]
    obtain heq | ⟨u, hu, heq⟩ := ih (if t.time < genesis then t.time else genesis)
    · rw [heq]
      split
      · exact Or.inr ⟨t, List.mem_cons_self, rfl⟩
      · exact Or.inl rfl
    · exact Or.inr ⟨u, List.mem_cons_of_mem t hu, heq⟩

theorem genesisTime_earliest (traceList : List BlkIoTraceRecord) :
    Earliest traceList (genesisTime traceList) :=
  ⟨((le_genesis_iff traceList (-1) _).mp (UInt64.le_refl _)).2, genesis_mem traceList (-1)⟩

theorem Earliest.eq_genesisTime {traceList : List BlkIoTraceRecord} {genesis : UInt64}
    (h : Earliest traceList genesis) : genesisTime traceList = genesis := by
  obtain ⟨hle, hmem⟩ := h
  obtain ⟨hle', hmem'⟩ := genesisTime_earliest traceList
  have hlast (x : UInt64) : x ≤ -1 := by
    rw [UInt64.le_iff_toNat_le, show (-1 : UInt64).toNat = 2 ^ 64 - 1 from rfl]
    have hlt := x.toNat_lt
    omega
  apply UInt64.le_antisymm
  · obtain rfl | ⟨t, ht, rfl⟩ := hmem
    · apply hlast
    · exact hle' t ht
  · obtain heq | ⟨t, ht, heq⟩ := hmem'
    · rw [heq]
      apply hlast
    · rw [← heq]
      exact hle t ht

theorem shift_exactly_iff {genesis start : UInt64} {ts : Timespec} (h : ts.Normal)
    (hne : start ≠ genesis) (hstart : start ≠ 0) :
    ShiftedExactly genesis start ts (ts.shift (genesis - start).toInt64) ↔
      Shiftable genesis start ts := by
  obtain ⟨k, carry, hcarry, hnsec, hsec, hlo, hhi⟩ := Timespec.shift_spec h (genesis - start)
  have hdelta : (genesis - start).toNat = (2 ^ 64 - start.toNat + genesis.toNat) % 2 ^ 64 :=
    UInt64.toNat_sub genesis start
  have hgenesis := genesis.toNat_lt
  have hstartLt := start.toNat_lt
  have hsecLo : -2 ^ 63 ≤ ts.tvSec.toInt := ts.tvSec.le_toInt
  have hsecHi : ts.tvSec.toInt < 2 ^ 63 := ts.tvSec.toInt_lt
  obtain ⟨hnlo, hnhi⟩ := h
  unfold ShiftedExactly Shiftable Timespec.Normal Timespec.total
  rw [or_iff_right hne, and_iff_right hstart, hnsec, hsec, UInt64.lt_iff_toNat_lt]
  rw [hsec] at hlo hhi
  by_cases hlt : start.toNat < genesis.toNat
  · have hdiff : ((genesis - start).toNat : ℤ) = genesis.toNat - start.toNat := by omega
    rw [hdiff] at hcarry hsec hlo hhi ⊢
    split at hcarry
    · subst hcarry
      omega
    · subst hcarry
      omega
  · have hdiff : ((genesis - start).toNat : ℤ) = 2 ^ 64 + genesis.toNat - start.toNat := by
      have hlt' : genesis.toNat < start.toNat := by
        have hne' : start.toNat ≠ genesis.toNat := fun heq => hne (UInt64.toNat_inj.mp heq)
        omega
      omega
    rw [hdiff] at hcarry hsec hlo hhi ⊢
    -- A negative difference is off by `2 ^ 64` nanoseconds, and an overflow by seconds only.
    constructor
    · rintro ⟨htotal, -⟩
      split at hcarry
      · omega
      · omega
    · rintro ⟨hlt', -⟩
      exact absurd hlt' hlt

def tracedAt (time : UInt64) : BlkIoTraceRecord where
  magic := 0
  sequence := 0
  time := time
  device := 0
  cpu := 0
  action := 0
  sector := 0
  bytes := 0
  pid := 0
  error := 0
  vecCount := 0
  seq := 0
  pduLen := 0

/-- Absolute start times are shifted exactly just if they are `Shiftable`: a trace that is earlier than
the time stamp shifts them by more than five hundred years. -/
theorem find_genesis_exact_iff (traceList : List BlkIoTraceRecord) (startTimestamp : UInt64)
    {absStartTime : Timespec} (habs : absStartTime.Normal) {earliest : UInt64}
    (hearliest : Earliest traceList earliest) :
    ((findGenesis traceList startTimestamp absStartTime).1 = earliest ∧
      ShiftedExactly earliest startTimestamp absStartTime
        (findGenesis traceList startTimestamp absStartTime).2) ↔
      Shiftable earliest startTimestamp absStartTime := by
  obtain rfl := hearliest.eq_genesisTime
  unfold findGenesis
  dsimp only
  rw [and_iff_right rfl]
  by_cases hne : startTimestamp = genesisTime traceList
  · rw [if_neg fun h => h.2 hne]
    refine iff_of_true ⟨?_, habs⟩ (Or.inl hne)
    rw [hne]
    omega
  by_cases hstart : startTimestamp = 0
  · rw [if_neg fun h => h.1 hstart]
    apply iff_of_false
    · rintro ⟨htotal, -⟩
      apply hne
      rw [hstart] at htotal ⊢
      rw [show (0 : UInt64).toNat = 0 from rfl] at htotal
      apply UInt64.toNat_inj.mp
      rw [show (0 : UInt64).toNat = 0 from rfl]
      omega
    · rintro (heq | ⟨hne', -⟩)
      · exact hne heq
      · exact hne' hstart
  · rw [if_pos ⟨hstart, hne⟩]
    exact shift_exactly_iff habs hne hstart

theorem earliest_tracedAt (time : UInt64) : Earliest [tracedAt time] time :=
  ⟨List.forall_mem_singleton.mpr (UInt64.le_refl _), Or.inr ⟨_, List.mem_singleton_self _, rfl⟩⟩

theorem find_genesis_at_twelve :
    (Timespec.mk 100 7).Normal ∧ Earliest [tracedAt 12] 12 ∧
      (((findGenesis [tracedAt 12] 10 ⟨100, 7⟩).1 = 12 ∧
          ShiftedExactly 12 10 ⟨100, 7⟩ (findGenesis [tracedAt 12] 10 ⟨100, 7⟩).2) ↔
        Shiftable 12 10 ⟨100, 7⟩) :=
  ⟨by decide, earliest_tracedAt 12, find_genesis_exact_iff _ 10 (by decide) (earliest_tracedAt 12)⟩

/-- A trace five nanoseconds before the time stamp, and one that a second is full at. -/
theorem early_trace_shifts_wrongly :
    (notifyTimestamp 10 (100, 0) = (10, ⟨100, 0⟩) ∧
      ¬ ShiftedExactly 5 10 ⟨100, 0⟩ (findGenesis [tracedAt 5] 10 ⟨100, 0⟩).2) ∧
    notifyTimestamp 10 (100, 999999999) = (10, ⟨100, 999999999⟩) ∧
      ¬ ShiftedExactly 11 10 ⟨100, 999999999⟩
        (findGenesis [tracedAt 11] 10 ⟨100, 999999999⟩).2 := by
  refine ⟨⟨by decide, ?_⟩, by decide, ?_⟩
  · unfold ShiftedExactly
    decide
  · unfold ShiftedExactly
    decide

end SBlktrace.AbsStartTime
