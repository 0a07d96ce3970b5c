import SBlktrace.IoMonitor
import Mathlib

namespace SBlktrace

open Function

namespace Minmax

def merge (dst src : Minmax) : Minmax where
  min := if src.min < dst.min then src.min else dst.min
  max := if dst.max < src.max then src.max else dst.max
  sum := dst.sum + src.sum
  sos := dst.sos + src.sos
  num := dst.num + src.num

theorem least_comm (a b : UInt64) : (if b < a then b else a) = if a < b then a else b := by
  rw [← UInt64.toNat_inj]
  simp only [UInt64.lt_iff_toNat_lt, apply_ite UInt64.toNat]
  split_ifs <;> omega

theorem least_assoc (a b c : UInt64) :
    (if c < (if b < a then b else a) then c else if b < a then b else a) =
      if (if c < b then c else b) < a then if c < b then c else b else a := by
  rw [← UInt64.toNat_inj]
  simp only [UInt64.lt_iff_toNat_lt, apply_ite UInt64.toNat]
  split_ifs <;> omega

theorem greatest_comm (a b : UInt64) : (if a < b then b else a) = if b < a then a else b := by
  rw [← UInt64.toNat_inj]
  simp only [UInt64.lt_iff_toNat_lt, apply_ite UInt64.toNat]
  split_ifs <;> omega

theorem greatest_assoc (a b c : UInt64) :
    (if (if a < b then b else a) < c then c else if a < b then b else a) =
      if a < (if b < c then c else b) then if b < c then c else b else a := by
  rw [← UInt64.toNat_inj]
  simp only [UInt64.lt_iff_toNat_lt, apply_ite UInt64.toNat]
  split_ifs <;> omega

theorem merge_comm (a b : Minmax) : a.merge b = b.merge a := by
  rw [merge, merge, least_comm, greatest_comm, add_comm a.sum, add_comm a.sos, add_comm a.num]

theorem merge_assoc (a b c : Minmax) : (a.merge b).merge c = a.merge (b.merge c) := by
  rw [merge, merge, merge, merge]
  dsimp only
  rw [least_assoc, greatest_assoc, add_assoc, add_assoc, add_assoc]

theorem merge_init (mm : Minmax) : mm.merge init = mm := by
  have hmin : ¬ (-1 : UInt64) < mm.min := by
    have hlt := mm.min.toNat_lt
    have hmax : (-1 : UInt64).toNat = 2 ^ 64 - 1 := rfl
    rw [UInt64.lt_iff_toNat_lt]
    omega
  have hmax : ¬ mm.max < 0 := UInt64.not_lt_zero
  rw [merge, init]
  dsimp only
  rw [if_neg hmin, if_neg hmax, add_zero, add_zero, add_zero]

theorem init_account (value : UInt64) : init.account value = ⟨value, value, value, value * value, 1⟩ := by
  have hmin : (if value < -1 then value else -1) = value := by
    have hlt := value.toNat_lt
    have hmax : (-1 : UInt64).toNat = 2 ^ 64 - 1 := rfl
    rw [← UInt64.toNat_inj]
    simp only [UInt64.lt_iff_toNat_lt, apply_ite UInt64.toNat]
    split_ifs <;> omega
  have hmax : (if 0 < value then value else 0) = value := by
    rw [← UInt64.toNat_inj]
    simp only [UInt64.lt_iff_toNat_lt, apply_ite UInt64.toNat, UInt64.toNat_zero]
    split_ifs <;> omega
  rw [account, init]
  dsimp only
  rw [hmin, hmax, zero_add, zero_add, zero_add]

theorem account_eq_merge (mm : Minmax) (value : UInt64) :
    mm.account value = mm.merge (init.account value) := by
  rw [init_account]
  rfl

end Minmax

namespace Histlog2

def merge (h : Histlog2) (dst src : ℕ → UInt32) : ℕ → UInt32 :=
  fun i => if i < h.num then dst i + src i else dst i

variable {h : Histlog2} {dst src src' : ℕ → UInt32} {i : ℕ}

theorem merge_of_lt (hi : i < h.num) : h.merge dst src i = dst i + src i := if_pos hi

theorem account_apply (bucket : ℕ → UInt32) (val : UInt32) (i : ℕ) :
    h.account bucket val i = bucket i + h.account (fun _ => 0) val i := by
  rw [account, account]
  by_cases hi : i = h.index val
  · subst hi
    rw [update_self, update_self, zero_add]
  · rw [update_of_ne hi, update_of_ne hi, add_zero]

end Histlog2

namespace BlkiomonStat

def merge (dst src : BlkiomonStat) : BlkiomonStat where
  sizeHist := SBlktrace.sizeHist.merge dst.sizeHist src.sizeHist
  d2cHist := SBlktrace.d2cHist.merge dst.d2cHist src.d2cHist
  device := dst.device
  sizeR := dst.sizeR.merge src.sizeR
  sizeW := dst.sizeW.merge src.sizeW
  d2cR := dst.d2cR.merge src.d2cR
  d2cW := dst.d2cW.merge src.d2cW
  thrputR := dst.thrputR.merge src.thrputR
  thrputW := dst.thrputW.merge src.thrputW
  bidir := dst.bidir + src.bidir

theorem merge_sizeHist (p q : BlkiomonStat) {i : ℕ} (hi : i < BLKIOMON_SIZE_BUCKETS) :
    (p.merge q).sizeHist i = p.sizeHist i + q.sizeHist i := Histlog2.merge_of_lt hi

theorem merge_d2cHist (p q : BlkiomonStat) {i : ℕ} (hi : i < BLKIOMON_D2C_BUCKETS) :
    (p.merge q).d2cHist i = p.d2cHist i + q.d2cHist i := Histlog2.merge_of_lt hi

structure CountsSame (p q : BlkiomonStat) : Prop where
  sizeHist : ∀ i < BLKIOMON_SIZE_BUCKETS, p.sizeHist i = q.sizeHist i
  d2cHist : ∀ i < BLKIOMON_D2C_BUCKETS, p.d2cHist i = q.d2cHist i
  sizeR : p.sizeR = q.sizeR
  sizeW : p.sizeW = q.sizeW
  d2cR : p.d2cR = q.d2cR
  d2cW : p.d2cW = q.d2cW
  thrputR : p.thrputR = q.thrputR
  thrputW : p.thrputW = q.thrputW
  bidir : p.bidir = q.bidir

def accumulate (p : BlkiomonStat) (requests : List (BlkIoTraceRecord × BlkIoTraceRecord)) :
    BlkiomonStat :=
  requests.foldl (fun p request => p.account request.1 request.2) p

namespace CountsSame

variable {p q r p' q' : BlkiomonStat}

theorem refl (p : BlkiomonStat) : CountsSame p p :=
  ⟨fun _ _ => rfl, fun _ _ => rfl, rfl, rfl, rfl, rfl, rfl, rfl, rfl⟩

theorem symm (h : CountsSame p q) : CountsSame q p :=
  ⟨fun i hi => (h.sizeHist i hi).symm, fun i hi => (h.d2cHist i hi).symm, h.sizeR.symm, h.sizeW.symm,
    h.d2cR.symm, h.d2cW.symm, h.thrputR.symm, h.thrputW.symm, h.bidir.symm⟩

theorem trans (h : CountsSame p q) (h' : CountsSame q r) : CountsSame p r where
  sizeHist i hi := (h.sizeHist i hi).trans (h'.sizeHist i hi)
  d2cHist i hi := (h.d2cHist i hi).trans (h'.d2cHist i hi)
  sizeR := h.sizeR.trans h'.sizeR
  sizeW := h.sizeW.trans h'.sizeW
  d2cR := h.d2cR.trans h'.d2cR
  d2cW := h.d2cW.trans h'.d2cW
  thrputR := h.thrputR.trans h'.thrputR
  thrputW := h.thrputW.trans h'.thrputW
  bidir := h.bidir.trans h'.bidir

theorem merge (h : CountsSame p p') (h' : CountsSame q q') : CountsSame (p.merge q) (p'.merge q') where
  sizeHist i hi := by
    rw [merge_sizeHist _ _ hi, merge_sizeHist _ _ hi, h.sizeHist i hi, h'.sizeHist i hi]
  d2cHist i hi := by
    rw [merge_d2cHist _ _ hi, merge_d2cHist _ _ hi, h.d2cHist i hi, h'.d2cHist i hi]
  sizeR := congrArg₂ Minmax.merge h.sizeR h'.sizeR
  sizeW := congrArg₂ Minmax.merge h.sizeW h'.sizeW
  d2cR := congrArg₂ Minmax.merge h.d2cR h'.d2cR
  d2cW := congrArg₂ Minmax.merge h.d2cW h'.d2cW
  thrputR := congrArg₂ Minmax.merge h.thrputR h'.thrputR
  thrputW := congrArg₂ Minmax.merge h.thrputW h'.thrputW
  bidir := congrArg₂ (· + ·) h.bidir h'.bidir

end CountsSame

theorem merge_comm (p q : BlkiomonStat) : CountsSame (p.merge q) (q.merge p) where
  sizeHist i hi := by
    rw [merge_sizeHist _ _ hi, merge_sizeHist _ _ hi, add_comm]
  d2cHist i hi := by
    rw [merge_d2cHist _ _ hi, merge_d2cHist _ _ hi, add_comm]
  sizeR := Minmax.merge_comm _ _
  sizeW := Minmax.merge_comm _ _
  d2cR := Minmax.merge_comm _ _
  d2cW := Minmax.merge_comm _ _
  thrputR := Minmax.merge_comm _ _
  thrputW := Minmax.merge_comm _ _
  bidir := add_comm _ _

theorem merge_assoc (p q r : BlkiomonStat) :
    CountsSame ((p.merge q).merge r) (p.merge (q.merge r)) where
  sizeHist i hi := by
    rw [merge_sizeHist _ _ hi, merge_sizeHist _ _ hi, merge_sizeHist _ _ hi, merge_sizeHist _ _ hi,
      add_assoc]
  d2cHist i hi := by
    rw [merge_d2cHist _ _ hi, merge_d2cHist _ _ hi, merge_d2cHist _ _ hi, merge_d2cHist _ _ hi,
      add_assoc]
  sizeR := Minmax.merge_assoc _ _ _
  sizeW := Minmax.merge_assoc _ _ _
  d2cR := Minmax.merge_assoc _ _ _
  d2cW := Minmax.merge_assoc _ _ _
  thrputR := Minmax.merge_assoc _ _ _
  thrputW := Minmax.merge_assoc _ _ _
  bidir := add_assoc _ _ _

theorem merge_init (p : BlkiomonStat) (device : UInt32) : CountsSame (p.merge (init device)) p where
  sizeHist _ hi := (merge_sizeHist _ _ hi).trans (add_zero _)
  d2cHist _ hi := (merge_d2cHist _ _ hi).trans (add_zero _)
  sizeR := Minmax.merge_init _
  sizeW := Minmax.merge_init _
  d2cR := Minmax.merge_init _
  d2cW := Minmax.merge_init _
  thrputR := Minmax.merge_init _
  thrputW := Minmax.merge_init _
  bidir := add_zero _

section Account

variable (p : BlkiomonStat) {bitD bitC : BlkIoTraceRecord}

def thrput (bitD bitC : BlkIoTraceRecord) : UInt64 := (bitD.bytes * 1000).toUInt64 / d2c bitD bitC

theorem account_read (hread : blkDatadir bitC.action &&& blkTcRead ≠ 0) :
    p.account bitD bitC = { p with
      thrputR := p.thrputR.account (thrput bitD bitC)
      sizeR := p.sizeR.account bitD.bytes.toUInt64
      d2cR := p.d2cR.account (d2c bitD bitC)
      sizeHist := SBlktrace.sizeHist.account p.sizeHist bitD.bytes
      d2cHist := SBlktrace.d2cHist.account p.d2cHist (d2c bitD bitC).toUInt32 } := by
  rw [account, if_pos hread]
  rfl

theorem account_write (hread : ¬ blkDatadir bitC.action &&& blkTcRead ≠ 0)
    (hwrite : blkDatadir bitC.action &&& blkTcWrite ≠ 0) :
    p.account bitD bitC = { p with
      thrputW := p.thrputW.account (thrput bitD bitC)
      sizeW := p.sizeW.account bitD.bytes.toUInt64
      d2cW := p.d2cW.account (d2c bitD bitC)
      sizeHist := SBlktrace.sizeHist.account p.sizeHist bitD.bytes
      d2cHist := SBlktrace.d2cHist.account p.d2cHist (d2c bitD bitC).toUInt32 } := by
  rw [account, if_neg hread, if_pos hwrite]
  rfl

theorem account_bidir (hread : ¬ blkDatadir bitC.action &&& blkTcRead ≠ 0)
    (hwrite : ¬ blkDatadir bitC.action &&& blkTcWrite ≠ 0) :
    p.account bitD bitC = { p with
      bidir := p.bidir + 1
      sizeHist := SBlktrace.sizeHist.account p.sizeHist bitD.bytes
      d2cHist := SBlktrace.d2cHist.account p.d2cHist (d2c bitD bitC).toUInt32 } := by
  rw [account, if_neg hread, if_neg hwrite]

theorem account_sizeHist : (p.account bitD bitC).sizeHist =
    SBlktrace.sizeHist.account p.sizeHist bitD.bytes := by
  by_cases hread : blkDatadir bitC.action &&& blkTcRead ≠ 0
  · rw [account_read p hread]
  by_cases hwrite : blkDatadir bitC.action &&& blkTcWrite ≠ 0
  · rw [account_write p hread hwrite]
  · rw [account_bidir p hread hwrite]

theorem account_d2cHist : (p.account bitD bitC).d2cHist =
    SBlktrace.d2cHist.account p.d2cHist (d2c bitD bitC).toUInt32 := by
  by_cases hread : blkDatadir bitC.action &&& blkTcRead ≠ 0
  · rw [account_read p hread]
  by_cases hwrite : blkDatadir bitC.action &&& blkTcWrite ≠ 0
  · rw [account_write p hread hwrite]
  · rw [account_bidir p hread hwrite]

theorem account_eq_merge (bitD bitC : BlkIoTraceRecord) (device : UInt32) :
    CountsSame (p.account bitD bitC) (p.merge ((init device).account bitD bitC)) := by
  have hsize (i : ℕ) (hi : i < BLKIOMON_SIZE_BUCKETS) : (p.account bitD bitC).sizeHist i =
      (p.merge ((init device).account bitD bitC)).sizeHist i := by
    rw [merge_sizeHist _ _ hi, account_sizeHist, account_sizeHist]
    exact Histlog2.account_apply _ _ _
  have hd2c (i : ℕ) (hi : i < BLKIOMON_D2C_BUCKETS) : (p.account bitD bitC).d2cHist i =
      (p.merge ((init device).account bitD bitC)).d2cHist i := by
    rw [merge_d2cHist _ _ hi, account_d2cHist, account_d2cHist]
    exact Histlog2.account_apply _ _ _
  by_cases hread : blkDatadir bitC.action &&& blkTcRead ≠ 0
  · rw [account_read _ hread, account_read _ hread] at hsize hd2c ⊢
    exact ⟨hsize, hd2c, Minmax.account_eq_merge _ _, (Minmax.merge_init _).symm,
      Minmax.account_eq_merge _ _, (Minmax.merge_init _).symm, Minmax.account_eq_merge _ _,
      (Minmax.merge_init _).symm, (add_zero _).symm⟩
  by_cases hwrite : blkDatadir bitC.action &&& blkTcWrite ≠ 0
  · rw [account_write _ hread hwrite, account_write _ hread hwrite] at hsize hd2c ⊢
    exact ⟨hsize, hd2c, (Minmax.merge_init _).symm, Minmax.account_eq_merge _ _,
      (Minmax.merge_init _).symm, Minmax.account_eq_merge _ _, (Minmax.merge_init _).symm,
      Minmax.account_eq_merge _ _, (add_zero _).symm⟩
  · rw [account_bidir _ hread hwrite, account_bidir _ hread hwrite] at hsize hd2c ⊢
    exact ⟨hsize, hd2c, (Minmax.merge_init _).symm, (Minmax.merge_init _).symm,
      (Minmax.merge_init _).symm, (Minmax.merge_init _).symm, (Minmax.merge_init _).symm,
      (Minmax.merge_init _).symm, congrArg (p.bidir + ·) (zero_add 1).symm⟩

end Account

theorem accumulate_append (p : BlkiomonStat) (xs ys : List (BlkIoTraceRecord × BlkIoTraceRecord)) :
    p.accumulate (xs ++ ys) = (p.accumulate xs).accumulate ys := List.foldl_append

theorem accumulate_eq_merge (p : BlkiomonStat) (device : UInt32)
    (requests : List (BlkIoTraceRecord × BlkIoTraceRecord)) :
    CountsSame (p.accumulate requests) (p.merge ((init device).accumulate requests)) := by
  induction requests using List.reverseRecOn with
  | nil => exact (merge_init p device).symm
  | append_singleton requests request ih =>
    rw [accumulate_append, accumulate_append]
    have hlast := account_eq_merge (p.accumulate requests) request.1 request.2 device
    have hown := account_eq_merge ((init device).accumulate requests) request.1 request.2 device
    have hmerged := CountsSame.merge ih (.refl ((init device).account request.1 request.2))
    exact (hlast.trans hmerged).trans ((merge_assoc _ _ _).trans (CountsSame.merge (.refl p) hown.symm))

/-- The statistics of two runs are merged to those of the one run after the other. -/
theorem stat_merge_homomorphism :
    (∀ device device' xs ys, CountsSame
      (((init device).accumulate xs).merge ((init device').accumulate ys))
      ((init device).accumulate (xs ++ ys))) ∧
    (∀ p q r : BlkiomonStat, CountsSame ((p.merge q).merge r) (p.merge (q.merge r))) ∧
    (∀ p q : BlkiomonStat, CountsSame (p.merge q) (q.merge p)) ∧
    ∀ p device, CountsSame (p.merge (init device)) p ∧ CountsSame ((init device).merge p) p := by
  refine ⟨fun device device' xs ys => ?_, merge_assoc, merge_comm, fun p device => ?_⟩
  · rw [accumulate_append]
    exact (accumulate_eq_merge _ device' ys).symm
  · exact ⟨merge_init p device, (merge_comm _ p).trans (merge_init p device)⟩

end BlkiomonStat

end SBlktrace
