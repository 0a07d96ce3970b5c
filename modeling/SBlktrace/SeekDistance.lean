import SBlktrace.SeekBuckets
import SBlktrace.DipRb
import SBlktrace.AbsStartTime
import Mathlib

namespace SBlktrace

open RangeTree

def DipIo.seekStart (iop : DipIo) : Int64 := iop.bitStart.toInt64

def DipIo.seekEnd (iop : DipIo) : Int64 := iop.bitEnd.toInt64

structure Seeki where
  root : RangeTree SeekBkt
  totSeeks : ℕ
  lastStart : Int64
  lastEnd : Int64

namespace Seeki

def seekiAlloc : Seeki := ⟨.nil, 0, 0, 0⟩

def seekDist (seekAbsolute : Bool) (sip : Seeki) (iop : DipIo) : Int64 :=
  if seekAbsolute then iop.seekStart - sip.lastEnd
  -- Some overlap means no seek
  else if (sip.lastStart ≤ iop.seekStart ∧ iop.seekStart ≤ sip.lastEnd) ∨
      (sip.lastStart ≤ iop.seekEnd ∧ iop.seekEnd ≤ sip.lastEnd) then 0
  else if iop.seekStart > sip.lastEnd then iop.seekStart - sip.lastEnd
  else iop.seekStart - sip.lastStart

def seekiAdd (rb : Rebalance SeekBkt) (seekAbsolute : Bool) (sip : Seeki) (iop : DipIo) : Seeki where
  root := SeekBkt.insert rb sip.root (seekDist seekAbsolute sip iop).toInt.natAbs
  totSeeks := sip.totSeeks + 1
  lastStart := iop.seekStart
  lastEnd := iop.seekEnd

def run (rb : Rebalance SeekBkt) (seekAbsolute : Bool) (iops : List DipIo) : Seeki :=
  iops.foldl (seekiAdd rb seekAbsolute) seekiAlloc

def distsFrom (rb : Rebalance SeekBkt) (seekAbsolute : Bool) (sip : Seeki) : List DipIo → List Int64
  | [] => []
  | iop :: iops =>
    seekDist seekAbsolute sip iop :: distsFrom rb seekAbsolute (seekiAdd rb seekAbsolute sip iop) iops

def dists (rb : Rebalance SeekBkt) (seekAbsolute : Bool) (iops : List DipIo) : List Int64 :=
  distsFrom rb seekAbsolute seekiAlloc iops

variable {rb : Rebalance SeekBkt} {seekAbsolute : Bool} {sip : Seeki} {iops : List DipIo}

theorem foldl_seekiAdd : (iops.foldl (seekiAdd rb seekAbsolute) sip).root =
      ((distsFrom rb seekAbsolute sip iops).map fun dist => dist.toInt.natAbs).foldl
        (SeekBkt.insert rb) sip.root ∧
    (iops.foldl (seekiAdd rb seekAbsolute) sip).totSeeks = sip.totSeeks + iops.length := by
  induction iops generalizing sip with
  | nil => exact ⟨rfl, rfl⟩
  | cons iop iops ih =>
    obtain ⟨hroot, htot⟩ := @ih (seekiAdd rb seekAbsolute sip iop)
    refine ⟨hroot, ?_⟩
    rw [List.foldl_cons, htot, List.length_cons]
    change sip.totSeeks + 1 + iops.length = _
    omega

theorem length_distsFrom : (distsFrom rb seekAbsolute sip iops).length = iops.length := by
  induction iops generalizing sip with
  | nil => rfl
  | cons iop iops ih => rw [distsFrom, List.length_cons, ih, List.length_cons]

def absDists (rb : Rebalance SeekBkt) (seekAbsolute : Bool) (iops : List DipIo) : List ℕ :=
  (dists rb seekAbsolute iops).map fun dist => dist.toInt.natAbs

theorem length_absDists : (absDists rb seekAbsolute iops).length = iops.length := by
  rw [absDists, List.length_map, dists, length_distsFrom]

theorem run_root : (run rb seekAbsolute iops).root =
    SeekBkt.insertAll rb (absDists rb seekAbsolute iops) := foldl_seekiAdd.1

theorem run_totSeeks : (run rb seekAbsolute iops).totSeeks = iops.length := by
  rw [run, foldl_seekiAdd.2]
  exact Nat.zero_add _

def Intersect (last iop : DipIo) : Prop :=
  ∃ sector, last.seekStart ≤ sector ∧ sector ≤ last.seekEnd ∧ iop.seekStart ≤ sector ∧
    sector ≤ iop.seekEnd

structure RelativeDist (last iop : DipIo) (dist : Int64) : Prop where
  overlap : dist = 0 ↔ Intersect last iop
  behind : last.seekEnd < iop.seekStart →
    dist.toInt = iop.seekStart.toInt - last.seekEnd.toInt ∧ 0 < dist.toInt
  before : iop.seekEnd < last.seekStart →
    dist.toInt = iop.seekStart.toInt - last.seekStart.toInt ∧ dist.toInt < 0

/-- An I/O does not reach beyond the one before on both sides, and a gap between them fits. -/
structure Seekable (last iop : DipIo) : Prop where
  inside : ¬ (iop.seekStart < last.seekStart ∧ last.seekEnd < iop.seekEnd)
  behind : last.seekEnd < iop.seekStart → iop.seekStart.toInt - last.seekEnd.toInt < 2 ^ 63
  before : iop.seekEnd < last.seekStart → -2 ^ 63 ≤ iop.seekStart.toInt - last.seekStart.toInt

theorem intersect_iff {last iop : DipIo} (hlast : last.seekStart ≤ last.seekEnd)
    (hiop : iop.seekStart ≤ iop.seekEnd) :
    Intersect last iop ↔ last.seekStart ≤ iop.seekEnd ∧ iop.seekStart ≤ last.seekEnd := by
  constructor
  · rintro ⟨sector, hls, hle, his, hie⟩
    exact ⟨Int64.le_trans hls hie, Int64.le_trans his hle⟩
  · rintro ⟨hle, hge⟩
    obtain h | h := Int64.le_total iop.seekStart last.seekStart
    · exact ⟨last.seekStart, Int64.le_refl _, hlast, h, hle⟩
    · exact ⟨iop.seekStart, h, hge, Int64.le_refl _, hiop⟩

theorem toInt_eq_zero (dist : Int64) : dist = 0 ↔ dist.toInt = 0 :=
  ⟨fun h => by rw [h]; rfl, fun h => Int64.toInt_inj.mp h⟩

theorem relativeDist_iff {last iop : DipIo} (hlast : last.seekStart ≤ last.seekEnd)
    (hiop : iop.seekStart ≤ iop.seekEnd) (hstart : sip.lastStart = last.seekStart)
    (hend : sip.lastEnd = last.seekEnd) :
    RelativeDist last iop (seekDist false sip iop) ↔ Seekable last iop := by
  have hint := intersect_iff hlast hiop
  obtain ⟨i, hi, hilo, hihi⟩ := AbsStartTime.toInt_sub_signed iop.seekStart last.seekEnd
  obtain ⟨j, hj, hjlo, hjhi⟩ := AbsStartTime.toInt_sub_signed iop.seekStart last.seekStart
  have := Int64.toInt_lt iop.seekStart
  have := Int64.le_toInt iop.seekStart
  have := Int64.toInt_lt last.seekStart
  have := Int64.le_toInt last.seekStart
  have := Int64.toInt_lt last.seekEnd
  have := Int64.le_toInt last.seekEnd
  rw [seekDist, if_neg Bool.false_ne_true, hstart, hend]
  simp only [gt_iff_lt, Int64.le_iff_toInt_le, Int64.lt_iff_toInt_lt] at hint hlast hiop ⊢
  split_ifs with hoverlap hbehind
  · refine iff_of_true ⟨iff_of_true rfl (hint.mpr (by omega)), ?_, ?_⟩ ⟨?_, ?_, ?_⟩
    all_goals
      simp only [Int64.lt_iff_toInt_lt]
      omega
  · constructor
    · rintro ⟨-, hdist, -⟩
      have hdist := hdist (Int64.lt_iff_toInt_lt.mpr hbehind)
      constructor
      all_goals
        simp only [Int64.lt_iff_toInt_lt]
        omega
    · rintro ⟨-, hfits, -⟩
      have hfits := hfits (Int64.lt_iff_toInt_lt.mpr hbehind)
      constructor
      · rw [hint, toInt_eq_zero]
        omega
      all_goals
        simp only [Int64.lt_iff_toInt_lt]
        omega
  · constructor
    · rintro ⟨hzero, -, hdist⟩
      rw [hint, toInt_eq_zero] at hzero
      constructor
      all_goals
        simp only [Int64.lt_iff_toInt_lt] at hdist ⊢
        omega
    · rintro ⟨hinside, -, hfits⟩
      simp only [Int64.lt_iff_toInt_lt] at hinside hfits
      constructor
      · rw [hint, toInt_eq_zero]
        omega
      all_goals
        simp only [Int64.lt_iff_toInt_lt]
        omega

theorem distsFrom_succ {i : ℕ} {last iop : DipIo} (hlast : iops[i]? = some last)
    (hiop : iops[i + 1]? = some iop) : ∃ sip' : Seeki, sip'.lastStart = last.seekStart ∧
      sip'.lastEnd = last.seekEnd ∧
      (distsFrom rb seekAbsolute sip iops)[i + 1]? = some (seekDist seekAbsolute sip' iop) := by
  induction i generalizing iops sip with
  | zero =>
    cases iops with
    | nil => cases hlast
    | cons x iops =>
      obtain rfl : x = last := Option.some.inj hlast
      cases iops with
      | nil => cases hiop
      | cons y iops =>
        obtain rfl : y = iop := Option.some.inj hiop
        exact ⟨seekiAdd rb seekAbsolute sip x, rfl, rfl, rfl⟩
  | succ i ih =>
    cases iops with
    | nil => cases hlast
    | cons x iops => exact ih hlast hiop

/-- From the second I/O on the distances are the gaps between the extents, just if no I/O encloses the
one before and every gap fits. -/
theorem relative_distances_iff (rb : Rebalance SeekBkt) (iops : List DipIo)
    (h : ∀ iop ∈ iops, iop.seekStart ≤ iop.seekEnd) :
    (∀ (i : ℕ) (last iop : DipIo), iops[i]? = some last → iops[i + 1]? = some iop →
      ∃ dist, (dists rb false iops)[i + 1]? = some dist ∧ RelativeDist last iop dist) ↔
    ∀ (i : ℕ) (last iop : DipIo), iops[i]? = some last → iops[i + 1]? = some iop →
      Seekable last iop := by
  have hpair {i : ℕ} {last iop : DipIo} (hlast : iops[i]? = some last)
      (hiop : iops[i + 1]? = some iop) :
      (∃ dist, (dists rb false iops)[i + 1]? = some dist ∧ RelativeDist last iop dist) ↔
        Seekable last iop := by
    obtain ⟨sip, hstart, hend, hdist⟩ := @distsFrom_succ rb false seekiAlloc iops i last iop hlast hiop
    rw [dists, hdist, ← relativeDist_iff (h last (List.mem_of_getElem? hlast))
      (h iop (List.mem_of_getElem? hiop)) hstart hend]
    constructor
    · rintro ⟨dist, heq, hrelative⟩
      rwa [Option.some.inj heq]
    · exact fun hrelative => ⟨_, rfl, hrelative⟩
  exact forall₃_congr fun i last iop => forall₂_congr fun hlast hiop => hpair hlast hiop

theorem relative_distances_apart :
    (∀ (i : ℕ) (last iop : DipIo), ([⟨0, 5120⟩, ⟨20, 5120⟩] : List DipIo)[i]? = some last →
      ([⟨0, 5120⟩, ⟨20, 5120⟩] : List DipIo)[i + 1]? = some iop →
      ∃ dist, (dists ⟨id, fun _ => rfl⟩ false [⟨0, 5120⟩, ⟨20, 5120⟩])[i + 1]? = some dist ∧
        RelativeDist last iop dist) ↔
    ∀ (i : ℕ) (last iop : DipIo), ([⟨0, 5120⟩, ⟨20, 5120⟩] : List DipIo)[i]? = some last →
      ([⟨0, 5120⟩, ⟨20, 5120⟩] : List DipIo)[i + 1]? = some iop → Seekable last iop :=
  relative_distances_iff ⟨id, fun _ => rfl⟩ [⟨0, 5120⟩, ⟨20, 5120⟩] (by decide)

/-- The sectors from 0 to 100 enclose those from 10 to 20, and the distance is -10. -/
theorem enclosing_distance :
    dists ⟨id, fun _ => rfl⟩ false [⟨10, 5120⟩, ⟨0, 51200⟩] = [10, -10] ∧
      ¬ RelativeDist ⟨10, 5120⟩ ⟨0, 51200⟩ (-10) := by
  refine ⟨by decide, fun h => ?_⟩
  have hzero := h.overlap.mpr ⟨10, by decide, by decide, by decide, by decide⟩
  exact absurd hzero (by decide)

end Seeki

end SBlktrace
