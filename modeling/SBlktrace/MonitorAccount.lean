import SBlktrace.IoMonitorMatching
import Mathlib

namespace SBlktrace

open Function FifoQueue

namespace Histlog2

variable {h : Histlog2}

def Contains (h : Histlog2) (i val : ℕ) : Prop :=
  i < h.num ∧ (i = 0 ∨ h.upperLimit (i - 1) < val) ∧ (i + 1 = h.num ∨ val ≤ h.upperLimit i)

theorem upperLimit_mono (h : Histlog2) : Monotone h.upperLimit := by
  apply monotone_nat_of_le_succ
  intro i
  rw [upperLimit, upperLimit, if_pos (Nat.succ_ne_zero i)]
  cases i with
  | zero => exact Nat.le_add_right _ _
  | succ i =>
    rw [if_pos (Nat.succ_ne_zero i), Nat.add_sub_cancel, Nat.add_sub_cancel, Nat.shiftLeft_succ]
    omega

theorem takeWhile_range (p : ℕ → Bool) (n : ℕ) :
    (∀ j < ((List.range n).takeWhile p).length, p j = true) ∧
      ((List.range n).takeWhile p).length ≤ n ∧
      (((List.range n).takeWhile p).length < n →
        p ((List.range n).takeWhile p).length = false) := by
  induction n with
  | zero => exact ⟨fun j hj => absurd hj (Nat.not_lt_zero j), le_rfl, fun hlt => absurd hlt (lt_irrefl 0)⟩
  | succ n ih =>
    obtain ⟨hall, hle, hstop⟩ := ih
    rw [List.range_succ, List.takeWhile_append, List.length_range]
    by_cases hfull : ((List.range n).takeWhile p).length = n
    · rw [hfull] at hall
      rw [if_pos hfull, List.length_append, List.length_range, List.takeWhile_cons, List.takeWhile_nil]
      by_cases hn : p n = true
      · rw [if_pos hn, List.length_singleton]
        refine ⟨fun j hj => ?_, le_rfl, fun hlt => absurd hlt (lt_irrefl _)⟩
        obtain hj | rfl := Nat.lt_succ_iff_lt_or_eq.mp hj
        · exact hall j hj
        · exact hn
      · rw [if_neg hn, List.length_nil, add_zero]
        exact ⟨hall, Nat.le_succ n, fun _ => Bool.eq_false_iff.mpr hn⟩
    · rw [if_neg hfull]
      exact ⟨hall, hle.trans (Nat.le_succ n), fun _ => hstop (lt_of_le_of_ne hle hfull)⟩

theorem index_contains (hnum : 0 < h.num) (val : UInt32) : h.Contains (h.index val) val.toNat := by
  obtain ⟨hall, hle, hstop⟩ := takeWhile_range (fun i => h.upperLimit i < val.toNat) (h.num - 1)
  rw [Contains, index]
  refine ⟨by omega, ?_, ?_⟩
  · obtain hzero | hpos := Nat.eq_zero_or_pos
      ((List.range (h.num - 1)).takeWhile fun i => h.upperLimit i < val.toNat).length
    · exact .inl hzero
    · exact .inr (of_decide_eq_true (hall _ (Nat.sub_lt hpos Nat.one_pos)))
  · obtain hlast | hlt := hle.eq_or_lt
    · left
      omega
    · exact .inr (not_lt.mp (of_decide_eq_false (hstop hlt)))

theorem contains_unique {i j val : ℕ} (hi : h.Contains i val) (hj : h.Contains j val) : i = j := by
  have hle (i j : ℕ) (hi : h.Contains i val) (hj : h.Contains j val) : ¬ i < j := by
    intro hlt
    obtain ⟨-, -, hlast | hupper⟩ := hi
    · exact absurd hj.1 (by omega)
    obtain ⟨-, hzero | hlower, -⟩ := hj
    · omega
    · exact absurd (hupper.trans (h.upperLimit_mono (show i ≤ j - 1 by omega))) (not_le.mpr hlower)
  exact le_antisymm (not_lt.mp (hle j i hj hi)) (not_lt.mp (hle i j hi hj))

def Increments (h : Histlog2) (val : ℕ) (bucket bucket' : ℕ → UInt32) : Prop :=
  ∃ i, h.Contains i val ∧ bucket' = update bucket i (bucket i + 1)

theorem increment_injective {bucket : ℕ → UInt32} {i j : ℕ}
    (h : update bucket i (bucket i + 1) = update bucket j (bucket j + 1)) : i = j := by
  by_contra hne
  have happly := congrFun h i
  rw [update_self, update_of_ne hne] at happly
  have hone : (1 : UInt32) = 0 := add_eq_left.mp happly
  exact absurd hone (by decide)

theorem increments_account (bucket : ℕ → UInt32) (val : ℕ) (val32 : UInt32) :
    h.Increments val bucket (h.account bucket val32) ↔ h.Contains (h.index val32) val := by
  constructor
  · rintro ⟨i, hi, hbucket⟩
    rw [increment_injective hbucket]
    exact hi
  · exact fun hi => ⟨_, hi, rfl⟩

theorem size_increments (bucket : ℕ → UInt32) (size : UInt32) :
    sizeHist.Increments size.toNat bucket (sizeHist.account bucket size) :=
  (increments_account _ _ _).mpr (index_contains (by decide) size)

theorem d2c_increments_iff (bucket : ℕ → UInt32) (d2c : UInt64) :
    d2cHist.Increments d2c.toNat bucket (d2cHist.account bucket d2c.toUInt32) ↔
      d2c.toNat < 2 ^ 32 ∨ 2 ^ 25 < d2c.toNat % 2 ^ 32 := by
  have hcut : d2c.toUInt32.toNat = d2c.toNat % 2 ^ 32 := UInt64.toNat_toUInt32 d2c
  have hown := @index_contains d2cHist (by decide) d2c.toUInt32
  rw [increments_account]
  by_cases hsmall : d2c.toNat < 2 ^ 32
  · rw [hcut, Nat.mod_eq_of_lt hsmall] at hown
    exact iff_of_true hown (.inl hsmall)
  rw [or_iff_right hsmall]
  have hlimits : ∀ i < 24, d2cHist.upperLimit i ≤ 2 ^ 25 := by decide
  have hlast : d2cHist.Contains 24 d2c.toNat := by
    refine ⟨by decide, .inr ?_, .inl rfl⟩
    have hlimit := hlimits 23 (by decide)
    change d2cHist.upperLimit 23 < d2c.toNat
    omega
  constructor
  · intro hcontains
    have hindex := contains_unique hcontains hlast
    rw [hindex, hcut] at hown
    obtain ⟨-, hzero | hlower, -⟩ := hown
    · cases hzero
    · exact hlower
  · intro hbeyond
    have hindex : d2cHist.index d2c.toUInt32 = 24 := by
      obtain ⟨hlt, -, hend | hupper⟩ := hown
      · exact Nat.succ_injective hend
      · have hbound : d2cHist.index d2c.toUInt32 < 25 := hlt
        by_contra hne
        have hlimit := hlimits (d2cHist.index d2c.toUInt32) (by omega)
        omega
    rw [hindex]
    exact hlast

end Histlog2

theorem div_mod_eq_iff {x d m : ℕ} (hd : 0 < d) (hm : 0 < m) : x % m / d = x / d ↔ x < m ∨ x < d := by
  constructor
  · intro heq
    by_contra hlarge
    rw [not_or, not_lt, not_lt] at hlarge
    have hleft : d ≤ x % m := by
      have hpos := Nat.div_pos hlarge.2 hd
      rw [← heq] at hpos
      exact (Nat.div_pos_iff.mp hpos).2
    have hsplit := Nat.mod_add_div x m
    have hmul := Nat.mul_le_mul_left m (Nat.div_pos hlarge.1 hm)
    have hlt := Nat.mod_lt x hm
    have hdiv : (x % m + d) / d ≤ x / d := Nat.div_le_div_right (by omega)
    rw [Nat.add_div_right _ hd] at hdiv
    omega
  · rintro (hlt | hlt)
    · rw [Nat.mod_eq_of_lt hlt]
    · rw [Nat.div_eq_of_lt hlt, Nat.div_eq_of_lt ((Nat.mod_le x m).trans_lt hlt)]

def elapsed (bitD bitC : BlkIoTraceRecord) : ℕ := (bitC.time.toNat - bitD.time.toNat) / 1000

def bytesPerMsec (bitD bitC : BlkIoTraceRecord) : ℕ := bitD.bytes.toNat * 1000 / elapsed bitD bitC

def Directed (bitC : BlkIoTraceRecord) : Prop :=
  blkDatadir bitC.action &&& blkTcRead ≠ 0 ∨ blkDatadir bitC.action &&& blkTcWrite ≠ 0

/-- A request is accounted as it is: its exact throughput where it moves data, and the buckets of its
size and of its time. -/
structure AccountsExactly (p q : BlkiomonStat) (bitD bitC : BlkIoTraceRecord) : Prop where
  thrputR : q.thrputR = if blkDatadir bitC.action &&& blkTcRead ≠ 0
    then p.thrputR.account (UInt64.ofNat (bytesPerMsec bitD bitC)) else p.thrputR
  thrputW : q.thrputW = if blkDatadir bitC.action &&& blkTcRead = 0 ∧
      blkDatadir bitC.action &&& blkTcWrite ≠ 0
    then p.thrputW.account (UInt64.ofNat (bytesPerMsec bitD bitC)) else p.thrputW
  sizeHist : sizeHist.Increments bitD.bytes.toNat p.sizeHist q.sizeHist
  d2cHist : d2cHist.Increments (elapsed bitD bitC) p.d2cHist q.d2cHist

section Account

variable {bitD bitC : BlkIoTraceRecord}

theorem d2c_toNat (h : bitD.time < bitC.time) : (d2c bitD bitC).toNat = elapsed bitD bitC := by
  rw [d2c, UInt64.toNat_div, UInt64.toNat_sub_of_le _ _ (UInt64.le_of_lt h)]
  rfl

theorem thrput_eq_iff (h : bitD.time < bitC.time) (hpos : 0 < elapsed bitD bitC) :
    BlkiomonStat.thrput bitD bitC = UInt64.ofNat (bytesPerMsec bitD bitC) ↔
      bitD.bytes.toNat * 1000 < 2 ^ 32 ∨ bitD.bytes.toNat * 1000 < elapsed bitD bitC := by
  have hbytes := bitD.bytes.toNat_lt
  have hexact : bytesPerMsec bitD bitC < 2 ^ 64 := by
    have hle := Nat.div_le_self (bitD.bytes.toNat * 1000) (elapsed bitD bitC)
    rw [bytesPerMsec]
    omega
  have hthrput : (BlkiomonStat.thrput bitD bitC).toNat =
      bitD.bytes.toNat * 1000 % 2 ^ 32 / elapsed bitD bitC := by
    rw [BlkiomonStat.thrput, UInt64.toNat_div, d2c_toNat h, UInt32.toNat_toUInt64, UInt32.toNat_mul]
    rfl
  rw [← UInt64.toNat_inj, hthrput, UInt64.toNat_ofNat', Nat.mod_eq_of_lt hexact, bytesPerMsec]
  exact div_mod_eq_iff hpos (by decide)

theorem minmax_account_inj {mm : Minmax} {value value' : UInt64} :
    mm.account value = mm.account value' ↔ value = value' := by
  refine ⟨fun h => ?_, fun h => h ▸ rfl⟩
  have hsum : mm.sum + value = mm.sum + value' := congrArg Minmax.sum h
  exact add_left_cancel hsum

/-- A request is accounted as it is just if the product that gives its throughput is not cut off, or
smaller than the time, and its time counts in the bucket that what is left of it in 32 bits does. -/
theorem accountsExactly_iff (p : BlkiomonStat) (h : bitD.time < bitC.time)
    (hpos : 0 < elapsed bitD bitC) :
    AccountsExactly p (p.account bitD bitC) bitD bitC ↔
      (Directed bitC → bitD.bytes.toNat * 1000 < 2 ^ 32 ∨
        bitD.bytes.toNat * 1000 < elapsed bitD bitC) ∧
      (elapsed bitD bitC < 2 ^ 32 ∨ 2 ^ 25 < elapsed bitD bitC % 2 ^ 32) := by
  have hsize : sizeHist.Increments bitD.bytes.toNat p.sizeHist (p.account bitD bitC).sizeHist := by
    rw [p.account_sizeHist]
    exact Histlog2.size_increments _ _
  have hd2c : d2cHist.Increments (elapsed bitD bitC) p.d2cHist (p.account bitD bitC).d2cHist ↔
      elapsed bitD bitC < 2 ^ 32 ∨ 2 ^ 25 < elapsed bitD bitC % 2 ^ 32 := by
    rw [p.account_d2cHist, ← d2c_toNat h]
    exact Histlog2.d2c_increments_iff _ _
  rw [← hd2c, ← thrput_eq_iff h hpos]
  by_cases hread : blkDatadir bitC.action &&& blkTcRead ≠ 0
  · have hzero : ¬ (blkDatadir bitC.action &&& blkTcRead = 0 ∧
        blkDatadir bitC.action &&& blkTcWrite ≠ 0) := fun hwrite => hread hwrite.1
    rw [p.account_read hread] at hsize hd2c ⊢
    constructor
    · rintro ⟨hthrput, -, -, htime⟩
      rw [if_pos hread] at hthrput
      exact ⟨fun _ => minmax_account_inj.mp hthrput, htime⟩
    · rintro ⟨hthrput, htime⟩
      refine ⟨?_, (if_neg hzero).symm, hsize, htime⟩
      rw [if_pos hread]
      exact minmax_account_inj.mpr (hthrput (.inl hread))
  by_cases hwrite : blkDatadir bitC.action &&& blkTcWrite ≠ 0
  · have hzero : blkDatadir bitC.action &&& blkTcRead = 0 ∧
        blkDatadir bitC.action &&& blkTcWrite ≠ 0 := ⟨not_not.mp hread, hwrite⟩
    rw [p.account_write hread hwrite] at hsize hd2c ⊢
    constructor
    · rintro ⟨-, hthrput, -, htime⟩
      rw [if_pos hzero] at hthrput
      exact ⟨fun _ => minmax_account_inj.mp hthrput, htime⟩
    · rintro ⟨hthrput, htime⟩
      refine ⟨(if_neg hread).symm, ?_, hsize, htime⟩
      rw [if_pos hzero]
      exact minmax_account_inj.mpr (hthrput (.inr hwrite))
  · have hzero : ¬ (blkDatadir bitC.action &&& blkTcRead = 0 ∧
        blkDatadir bitC.action &&& blkTcWrite ≠ 0) := fun hboth => hwrite hboth.2
    rw [p.account_bidir hread hwrite] at hsize hd2c ⊢
    constructor
    · rintro ⟨-, -, -, htime⟩
      exact ⟨fun hdirected => absurd hdirected (not_or.mpr ⟨hread, hwrite⟩), htime⟩
    · rintro ⟨-, htime⟩
      exact ⟨(if_neg hread).symm, (if_neg hzero).symm, hsize, htime⟩

end Account

namespace Monitor

variable {s s' : Monitor} {p t : Ptr} {bit bitD bitC : BlkIoTraceRecord} {calls : TurnCalls}

/-- `blkiomon_do_trace` finds a trace that is stored to be a dispatch and its completion, with the one
at hand. -/
def Matches (s : Monitor) (t : Ptr) (bitD bitC : BlkIoTraceRecord) : Prop :=
  ∃ s' p, s.blkiomonFetchTrace (s.mem t).bit = some (s', p) ∧
    bitD = Ledger.older (s.mem p).bit (s.mem t).bit ∧
    bitC = Ledger.younger (s.mem p).bit (s.mem t).bit ∧ isIssue bitD ∧ isComplete bitC

/-- The time and the size of the pair can be accounted, and there are statistics of the device. -/
structure Accountable (s : Monitor) (calls : TurnCalls) (bitD bitC : BlkIoTraceRecord) : Prop where
  elapses : 0 < elapsed bitD bitC
  dstat : calls.newDstat = true ∨ (s.dstat bitD.device).isSome = true
  thrput : Directed bitC → bitD.bytes.toNat * 1000 < 2 ^ 32 ∨
    bitD.bytes.toNat * 1000 < elapsed bitD bitC
  time : elapsed bitD bitC < 2 ^ 32 ∨ 2 ^ 25 < elapsed bitD bitC % 2 ^ 32

theorem fetchTrace_bit (h : s.blkiomonFetchTrace bit = some (s', p)) (q : Ptr) :
    (s'.mem q).bit = (s.mem q).bit := by
  rw [blkiomonFetchTrace] at h
  split at h
  · cases h
  · cases h
    exact bit_setNext _ _ _ _
  · cases h
    rfl

theorem dstat_freeTrace (s : Monitor) (t : Ptr) : (s.blkiomonFreeTrace t).dstat = s.dstat := by
  rw [blkiomonFreeTrace]
  split <;> rfl

theorem Matches.doTrace (h : s.Matches t bitD bitC) (calls : TurnCalls) : ∃ s' : Monitor, s'.dstat = s.dstat ∧
    (s.blkiomonDoTrace t calls).t = (s'.blkiomonAccount bitD bitC calls.newDstat).map (fun _ => t) ∧
    (s.blkiomonDoTrace t calls).dstat =
      (s'.blkiomonAccount bitD bitC calls.newDstat).elim s.dstat Monitor.dstat := by
  obtain ⟨s', p, hfetch, rfl, rfl, hpair⟩ := h
  have hdstat : s'.dstat = s.dstat := by rw [fetchTrace_frame hfetch]
  refine ⟨{ s' with matchCount := s'.matchCount + 1 }, hdstat, ?_⟩
  rw [doTrace_fetched hfetch (fetchTrace_bit hfetch), if_pos hpair]
  generalize blkiomonAccount _ _ _ _ = result
  cases result with
  | none => exact ⟨rfl, hdstat⟩
  | some s => exact ⟨rfl, dstat_freeTrace s p⟩

/-- A dispatch and a later completion that are matched are accounted as they are just if at least a
microsecond lies between them, the product that gives the throughput fits its 32 bits or is smaller
than the time, the time counts as what 32 bits hold of it does, and the device has statistics. -/
theorem account_exact_iff (s : Monitor) (t : Ptr) (calls : TurnCalls) (bitD bitC : BlkIoTraceRecord)
    (h : s.Matches t bitD bitC) (hlater : bitD.time < bitC.time) :
    ((s.blkiomonDoTrace t calls).t = some t ∧
      ∃ q, (s.blkiomonDoTrace t calls).dstat = update s.dstat bitD.device (some q) ∧
        AccountsExactly ((s.dstat bitD.device).getD (.init bitD.device)) q bitD bitC) ↔
      s.Accountable calls bitD bitC := by
  obtain ⟨s', hsame, ht, hdstat⟩ := h.doTrace calls
  rw [ht, hdstat]
  by_cases helapsed : elapsed bitD bitC = 0
  · have hzero : d2c bitD bitC = 0 := UInt64.toNat_inj.mp ((d2c_toNat hlater).trans helapsed)
    rw [blkiomonAccount, if_pos hzero]
    refine iff_of_false (fun hdone => ?_) fun hok => hok.elapses.ne' helapsed
    cases hdone.1
  have hpos := Nat.pos_of_ne_zero helapsed
  have hd2c : d2c bitD bitC ≠ 0 := by
    intro hzero
    have htime := d2c_toNat hlater
    rw [hzero] at htime
    exact helapsed htime.symm
  by_cases hmem : calls.newDstat = true ∨ (s.dstat bitD.device).isSome = true
  · rw [account_eq hd2c (hsame ▸ hmem), Option.elim_some, hsame, ← update_eq_accountPair]
    constructor
    · rintro ⟨-, q, hq, hexact⟩
      dsimp only at hq
      obtain rfl := Option.some.inj (update_injective s.dstat bitD.device hq)
      obtain ⟨hthrput, htime⟩ := (accountsExactly_iff _ hlater hpos).mp hexact
      exact ⟨hpos, hmem, hthrput, htime⟩
    · rintro ⟨-, -, hthrput, htime⟩
      exact ⟨rfl, _, rfl, (accountsExactly_iff _ hlater hpos).mpr ⟨hthrput, htime⟩⟩
  · obtain ⟨hnew, hnone⟩ := not_or.mp hmem
    rw [Option.not_isSome_iff_eq_none] at hnone
    have hlost : s'.blkiomonAccount bitD bitC calls.newDstat = some s' := by
      rw [blkiomonAccount, if_neg hd2c, hsame, hnone]
      dsimp only
      rw [if_neg hnew]
    rw [hlost, Option.elim_some, hsame]
    refine iff_of_false ?_ fun hok => hmem hok.dstat
    rintro ⟨-, q, hq, -⟩
    have hdevice := congrFun hq bitD.device
    rw [update_self, hnone] at hdevice
    cases hdevice

def readRecord (category : UInt32) (time : UInt64) (bytes : UInt32) : BlkIoTraceRecord :=
  ⟨⟨0x65617407, 1, time, blkTcAct (category ||| blkTcRead), 0x800010, 0⟩, 8, bytes, 1, 0, 0, 0, 0⟩

def dispatched (bytes : UInt32) (timeC : UInt64) : Monitor :=
  { start 1 with
    mem := update (update (fun _ => zeroTrace) 0 ⟨readRecord blkTcIssue 0 bytes, none, 0⟩) 1
      ⟨readRecord blkTcComplete timeC bytes, none, 0⟩
    allocated := {0, 1}
    thash := update (fun _ => none) 8 (some 0) }

def allCalls : TurnCalls := ⟨true, true, some 2, true⟩

theorem read_accounted :
    ((dispatched 4096 2000).blkiomonDoTrace 1 allCalls).t = some 1 ∧
      ∃ q, ((dispatched 4096 2000).blkiomonDoTrace 1 allCalls).dstat =
          update (dispatched 4096 2000).dstat 0x800010 (some q) ∧
        AccountsExactly (((dispatched 4096 2000).dstat 0x800010).getD (.init 0x800010)) q
          (readRecord blkTcIssue 0 4096) (readRecord blkTcComplete 2000 4096) := by
  have hmatch : (dispatched 4096 2000).Matches 1 (readRecord blkTcIssue 0 4096)
      (readRecord blkTcComplete 2000 4096) := ⟨_, 0, rfl, rfl, rfl, by decide, by decide⟩
  refine (account_exact_iff _ 1 allCalls _ _ hmatch (by decide)).mpr ⟨by decide, .inl rfl, ?_, ?_⟩
  · exact fun _ => .inl (by decide)
  · exact .inl (by decide)

/-- The throughput of a read of 4294968 bytes within a millisecond is accounted as 0. -/
theorem large_read_throughput :
    (dispatched 4294968 1000000).Matches 1 (readRecord blkTcIssue 0 4294968)
        (readRecord blkTcComplete 1000000 4294968) ∧
      bytesPerMsec (readRecord blkTcIssue 0 4294968) (readRecord blkTcComplete 1000000 4294968) =
        4294968 ∧
      ∃ q, ((dispatched 4294968 1000000).blkiomonDoTrace 1 allCalls).dstat =
          update (dispatched 4294968 1000000).dstat 0x800010 (some q) ∧
        q.thrputR.num = 1 ∧ q.thrputR.sum = 0 ∧
        ¬ AccountsExactly (((dispatched 4294968 1000000).dstat 0x800010).getD (.init 0x800010)) q
          (readRecord blkTcIssue 0 4294968) (readRecord blkTcComplete 1000000 4294968) := by
  refine ⟨⟨_, 0, rfl, rfl, rfl, by decide, by decide⟩, by decide, _, rfl, rfl, rfl, fun h => ?_⟩
  have hsum := congrArg Minmax.sum h.thrputR
  exact absurd hsum (by decide)

end Monitor

end SBlktrace
