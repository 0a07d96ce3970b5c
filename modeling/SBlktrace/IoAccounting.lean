import SBlktrace.IoStats
import SBlktrace.TraceDecode
import SBlktrace.ProcessDefault
import Mathlib

namespace SBlktrace

open Function

inductive Kind where
  | queue
  | issue
  | complete
  | merge
  | queuePc
  | issuePc
deriving DecidableEq

abbrev Category := Kind × Bool

namespace IoStats

def kbOf (ios : IoStats) : Category → UInt64
  | (.queue, false) => ios.qreadKb
  | (.queue, true) => ios.qwriteKb
  | (.issue, false) => ios.ireadKb
  | (.issue, true) => ios.iwriteKb
  | (.complete, false) => ios.creadKb
  | (.complete, true) => ios.cwriteKb
  | (.merge, false) => ios.mreadKb
  | (.merge, true) => ios.mwriteKb
  | (.queuePc, false) => ios.qreadKbPc
  | (.queuePc, true) => ios.qwriteKbPc
  | (.issuePc, false) => ios.ireadKbPc
  | (.issuePc, true) => ios.iwriteKbPc

def bOf (ios : IoStats) : Category → UInt64
  | (.queue, false) => ios.qreadB
  | (.queue, true) => ios.qwriteB
  | (.issue, false) => ios.ireadB
  | (.issue, true) => ios.iwriteB
  | (.complete, false) => ios.creadB
  | (.complete, true) => ios.cwriteB
  | (.merge, false) => ios.mreadB
  | (.merge, true) => ios.mwriteB
  | (.queuePc, false) => ios.qreadBPc
  | (.queuePc, true) => ios.qwriteBPc
  | (.issuePc, false) => ios.ireadBPc
  | (.issuePc, true) => ios.iwriteBPc

def counters (ios : IoStats) (c : Category) : UInt64 × UInt64 := (ios.kbOf c, ios.bOf c)

def amount (ios : IoStats) (c : Category) : UInt64 := 1024 * ios.kbOf c + ios.bOf c

end IoStats

namespace BlkIoTraceRecord

def kindPc (t : BlkIoTraceRecord) : Option (Kind × Bool) :=
  let act := t.action &&& 0xffff
  if act = blkTaQueue then some (.queuePc, false)
  else if act = blkTaRequeue then some (.issuePc, true)
  else if act = blkTaIssue then some (.issuePc, false)
  else none

def kindFs (t : BlkIoTraceRecord) : Option (Kind × Bool) :=
  let act := t.action &&& 0xffff
  if act = blkTaQueue then some (.queue, false)
  else if act = blkTaBackmerge then some (.merge, false)
  else if act = blkTaFrontmerge then some (.merge, false)
  else if act = blkTaRequeue then some (.issue, true)
  else if act = blkTaIssue then some (.issue, false)
  else if act = blkTaComplete then some (.complete, false)
  else none

def kind (t : BlkIoTraceRecord) : Option (Kind × Bool) :=
  if t.action = blkTnMessage then none
  else if t.has blkTcPc then t.kindPc
  else t.kindFs

def weight (t : BlkIoTraceRecord) (c : Category) : ℤ :=
  match t.kind with
  | none => 0
  | some (kind, requeue) => if c = (kind, t.has blkTcWrite) then if requeue then -1 else 1 else 0

def accountedPc (t : BlkIoTraceRecord) : IoStats → IoStats :=
  let w := t.has blkTcWrite
  let act := t.action &&& 0xffff
  if act = blkTaQueue then (·.accountPcQueue t w)
  else if act = blkTaRequeue then (·.accountPcRequeue t w)
  else if act = blkTaIssue then (·.accountPcIssue w t.bytes)
  else if act = blkTaComplete then (·.accountPcC w)
  else id

def accountedFs (t : BlkIoTraceRecord) : IoStats → IoStats :=
  let w := t.has blkTcWrite
  let act := t.action &&& 0xffff
  if act = blkTaQueue then (·.accountQueue t w)
  else if act = blkTaBackmerge then (·.accountM t w)
  else if act = blkTaFrontmerge then (·.accountM t w)
  else if act = blkTaRequeue then (·.accountRequeue t w)
  else if act = blkTaIssue then (·.accountIssue w t.bytes)
  else if act = blkTaComplete then (·.accountC w t.bytes)
  else if act = blkTaUnplugIo then (·.accountUnplug false)
  else if act = blkTaUnplugTimer then (·.accountUnplug true)
  else id

def accounted (t : BlkIoTraceRecord) : IoStats → IoStats :=
  if t.action = blkTnMessage then id
  else if t.has blkTcPc then t.accountedPc
  else t.accountedFs

end BlkIoTraceRecord

def StatsKey.concerns (key : StatsKey) (perProcessStats : Bool) (t : BlkIoTraceRecord) : Bool :=
  match key with
  | .cpu device n => t.device = device && t.cpu = n
  | .process pid => perProcessStats && t.pid = pid

def tracesOf (perProcessStats : Bool) (key : StatsKey) (ts : List BlkIoTraceRecord) :
    List BlkIoTraceRecord :=
  ts.filter (fun t => key.concerns perProcessStats t)

def kbTotal (c : Category) (ts : List BlkIoTraceRecord) : ℤ :=
  (ts.map (fun t => t.weight c * ((t.bytes.toNat : ℤ) / 1024))).sum

def bTotal (c : Category) (ts : List BlkIoTraceRecord) : ℤ :=
  (ts.map (fun t => t.weight c * ((t.bytes.toNat : ℤ) % 1024))).sum

def bytesTotal (c : Category) (ts : List BlkIoTraceRecord) : ℤ :=
  (ts.map (fun t => t.weight c * (t.bytes.toNat : ℤ))).sum

theorem bytesTotal_eq (c : Category) (ts : List BlkIoTraceRecord) :
    bytesTotal c ts = 1024 * kbTotal c ts + bTotal c ts := by
  induction ts with
  | nil => rfl
  | cons t ts ih =>
    have hsplit := Int.mul_ediv_add_emod (t.bytes.toNat : ℤ) 1024
    simp only [bytesTotal, kbTotal, bTotal, List.map_cons, List.sum_cons] at ih ⊢
    rw [ih]
    linear_combination (-t.weight c) * hsplit

namespace TraceStats

variable {st : TraceStats} {t : BlkIoTraceRecord}

@[simp] theorem decrDepth_ioStats (st : TraceStats) (device : UInt32) (w : Bool) :
    (st.decrDepth device w).ioStats = st.ioStats := by
  unfold decrDepth
  split <;> rfl

@[simp] theorem decrDepth_perProcessStats (st : TraceStats) (device : UInt32) (w : Bool) :
    (st.decrDepth device w).perProcessStats = st.perProcessStats := by
  unfold decrDepth
  split <;> rfl

theorem account_ioStats (st : TraceStats) (t : BlkIoTraceRecord) (f : IoStats → IoStats)
    (key : StatsKey) :
    (st.account t f).ioStats key =
      if key.concerns st.perProcessStats t then f (st.ioStats key) else st.ioStats key := by
  unfold account
  dsimp only
  cases key with
  | cpu device n =>
    have hne : StatsKey.cpu device n ≠ StatsKey.process t.pid := by simp
    by_cases hkey : t.device = device ∧ t.cpu = n
    · have hc : (StatsKey.cpu device n).concerns st.perProcessStats t = true := by
        simp [StatsKey.concerns, hkey]
      obtain ⟨rfl, rfl⟩ := hkey
      rw [if_pos hc]
      split
      · rw [update_of_ne hne, update_self]
      · rw [update_self]
    · have hc : ¬ (StatsKey.cpu device n).concerns st.perProcessStats t = true := by
        simpa [StatsKey.concerns] using hkey
      have hne' : StatsKey.cpu device n ≠ StatsKey.cpu t.device t.cpu := by
        rintro h
        obtain ⟨rfl, rfl⟩ := StatsKey.cpu.inj h
        exact hkey ⟨rfl, rfl⟩
      rw [if_neg hc]
      split
      · rw [update_of_ne hne, update_of_ne hne']
      · rw [update_of_ne hne']
  | process pid =>
    have hne : StatsKey.process pid ≠ StatsKey.cpu t.device t.cpu := by simp
    by_cases hper : st.perProcessStats = true
    · rw [if_pos hper]
      by_cases hpid : t.pid = pid
      · have hc : (StatsKey.process pid).concerns st.perProcessStats t = true := by
          simp [StatsKey.concerns, hper, hpid]
        subst hpid
        rw [if_pos hc, update_self, update_of_ne hne]
      · have hc : ¬ (StatsKey.process pid).concerns st.perProcessStats t = true := by
          simp [StatsKey.concerns, hpid]
        have hne' : StatsKey.process pid ≠ StatsKey.process t.pid := by simpa using Ne.symm hpid
        rw [if_neg hc, update_of_ne hne', update_of_ne hne]
    · have hc : ¬ (StatsKey.process pid).concerns st.perProcessStats t = true := by
        simp [StatsKey.concerns, hper]
      rw [if_neg hper, if_neg hc, update_of_ne hne]

def Accounts (st st' : TraceStats) (t : BlkIoTraceRecord) (f : IoStats → IoStats) : Prop :=
  st'.perProcessStats = st.perProcessStats ∧ ∀ key, st'.ioStats key =
    if key.concerns st.perProcessStats t then f (st.ioStats key) else st.ioStats key

theorem accounts_id (st : TraceStats) (t : BlkIoTraceRecord) : st.Accounts st t id :=
  ⟨rfl, fun _ => (ite_self _).symm⟩

theorem account_accounts (st : TraceStats) (t : BlkIoTraceRecord) (f : IoStats → IoStats) :
    st.Accounts (st.account t f) t f :=
  ⟨rfl, account_ioStats st t f⟩

theorem decrDepth_account_accounts (st : TraceStats) (t : BlkIoTraceRecord) (device : UInt32)
    (w : Bool) (f : IoStats → IoStats) :
    st.Accounts ((st.decrDepth device w).account t f) t f := by
  obtain ⟨hper, hios⟩ := account_accounts (st.decrDepth device w) t f
  rw [decrDepth_perProcessStats] at hper hios
  rw [decrDepth_ioStats] at hios
  exact ⟨hper, hios⟩

theorem account_incrDepth_accounts (st : TraceStats) (t : BlkIoTraceRecord) (device : UInt32)
    (w : Bool) (f : IoStats → IoStats) :
    st.Accounts ((st.account t f).incrDepth device w) t f :=
  account_accounts st t f

theorem dumpTracePc_accounts (st : TraceStats) (t : BlkIoTraceRecord) :
    st.Accounts (st.dumpTracePc t) t t.accountedPc := by
  unfold dumpTracePc BlkIoTraceRecord.accountedPc
  dsimp only
  split_ifs
  · apply account_accounts
  · apply decrDepth_account_accounts
  · apply account_incrDepth_accounts
  · apply decrDepth_account_accounts
  · apply accounts_id

theorem dumpTraceFs_accounts (st : TraceStats) (t : BlkIoTraceRecord) :
    st.Accounts (st.dumpTraceFs t) t t.accountedFs := by
  unfold dumpTraceFs BlkIoTraceRecord.accountedFs
  dsimp only
  split_ifs
  · apply account_accounts
  · apply account_accounts
  · apply account_accounts
  · apply decrDepth_account_accounts
  · apply account_incrDepth_accounts
  · apply decrDepth_account_accounts
  · apply account_accounts
  · apply account_accounts
  · apply accounts_id

theorem dumpTrace_accounts (st : TraceStats) (t : BlkIoTraceRecord) :
    st.Accounts (st.dumpTrace t) t t.accounted := by
  unfold dumpTrace BlkIoTraceRecord.accounted
  split_ifs
  · apply accounts_id
  · apply dumpTracePc_accounts
  · apply dumpTraceFs_accounts

theorem run_ioStats (st : TraceStats) (ts : List BlkIoTraceRecord) (key : StatsKey) :
    (st.run ts).ioStats key =
      (tracesOf st.perProcessStats key ts).foldl (fun ios t => t.accounted ios)
        (st.ioStats key) := by
  induction ts generalizing st with
  | nil => rfl
  | cons t ts ih =>
    obtain ⟨hper, hios⟩ := dumpTrace_accounts st t
    have hrun : (st.run (t :: ts)).ioStats key = ((st.dumpTrace t).run ts).ioStats key := rfl
    rw [hrun, ih, hper, hios, tracesOf, tracesOf, List.filter_cons]
    split
    · rfl
    · rfl

end TraceStats

namespace IoStats

variable (ios : IoStats) (t : BlkIoTraceRecord) (w : Bool) (bytes : UInt32) (c : Category)

theorem accountM_counters :
    (ios.accountM t w).counters c =
      if c = (.merge, w) then ios.counters c + (t.tKb, t.tB) else ios.counters c := by
  obtain ⟨kind, rw⟩ := c
  cases kind <;> cases rw <;> cases w <;> rfl

theorem accountPcQueue_counters :
    (ios.accountPcQueue t w).counters c =
      if c = (.queuePc, true) ∧ w = true then ios.counters c + (t.tKb, t.tB)
      else if c = (.queuePc, false) ∧ w = false then ios.counters c + (0, t.tB)
      else if c = (.queue, false) ∧ w = false then ios.counters c + (t.tKb, 0)
      else ios.counters c := by
  obtain ⟨kind, rw⟩ := c
  cases kind <;> cases rw <;> cases w <;> simp [accountPcQueue, counters, kbOf, bOf]

theorem accountPcIssue_counters :
    (ios.accountPcIssue w bytes).counters c =
      if c = (.issuePc, w) then ios.counters c + (shiftedBytes bytes, restBytes bytes)
      else ios.counters c := by
  obtain ⟨kind, rw⟩ := c
  cases kind <;> cases rw <;> cases w <;> rfl

theorem accountPcRequeue_counters :
    (ios.accountPcRequeue t w).counters c =
      if c = (.issuePc, w) then ios.counters c - (t.tKb, t.tB) else ios.counters c := by
  obtain ⟨kind, rw⟩ := c
  cases kind <;> cases rw <;> cases w <;> rfl

theorem accountPcC_counters : (ios.accountPcC w).counters c = ios.counters c := by
  obtain ⟨kind, rw⟩ := c
  cases kind <;> cases rw <;> cases w <;> rfl

theorem accountQueue_counters :
    (ios.accountQueue t w).counters c =
      if c = (.queue, w) then ios.counters c + (t.tKb, t.tB) else ios.counters c := by
  obtain ⟨kind, rw⟩ := c
  cases kind <;> cases rw <;> cases w <;> rfl

theorem accountC_counters :
    (ios.accountC w bytes).counters c =
      if c = (.complete, w) then
        ios.counters c + (UInt64.ofInt (asInt bytes / 1024), UInt64.ofInt (asInt bytes % 1024))
      else ios.counters c := by
  obtain ⟨kind, rw⟩ := c
  cases kind <;> cases rw <;> cases w <;> rfl

theorem accountIssue_counters :
    (ios.accountIssue w bytes).counters c =
      if c = (.issue, w) then ios.counters c + (shiftedBytes bytes, restBytes bytes)
      else ios.counters c := by
  obtain ⟨kind, rw⟩ := c
  cases kind <;> cases rw <;> cases w <;> rfl

theorem accountUnplug_counters (timer : Bool) :
    (ios.accountUnplug timer).counters c = ios.counters c := by
  obtain ⟨kind, rw⟩ := c
  cases kind <;> cases rw <;> cases timer <;> rfl

theorem accountRequeue_counters :
    (ios.accountRequeue t w).counters c =
      if c = (.issue, w) then ios.counters c - (t.tKb, t.tB) else ios.counters c := by
  obtain ⟨kind, rw⟩ := c
  cases kind <;> cases rw <;> cases w <;> rfl

end IoStats

theorem toNat_ofInt (x : ℤ) : ((UInt64.ofInt x).toNat : ℤ) = x % 2 ^ 64 := by
  have hlt : (x % 2 ^ 64).toNat < 2 ^ 64 := by omega
  rw [UInt64.ofInt, UInt64.toNat_ofNat_of_lt' hlt]
  omega

theorem ofInt_toNat (x : UInt64) : UInt64.ofInt (x.toNat : ℤ) = x := by
  have hlt := x.toNat_lt
  have hx := toNat_ofInt (x.toNat : ℤ)
  apply UInt64.toNat_inj.mp
  omega

theorem shiftedBytes_eq (bytes : UInt32) :
    shiftedBytes bytes = UInt64.ofInt ((bytes.toNat : ℤ) / 1024) := by
  have hlt := bytes.toNat_lt
  apply UInt64.toNat_inj.mp
  have hx := toNat_ofInt ((bytes.toNat : ℤ) / 1024)
  simp only [shiftedBytes, UInt32.toNat_toUInt64, UInt32.toNat_shiftRight]
  rw [show (10 : UInt32).toNat % 32 = 10 from rfl, Nat.shiftRight_eq_div_pow]
  omega

theorem restBytes_eq (bytes : UInt32) :
    restBytes bytes = UInt64.ofInt ((bytes.toNat : ℤ) % 1024) := by
  apply UInt64.toNat_inj.mp
  have hx := toNat_ofInt ((bytes.toNat : ℤ) % 1024)
  simp only [restBytes, UInt32.toNat_toUInt64, UInt32.toNat_and]
  rw [show (1023 : UInt32).toNat = 2 ^ 10 - 1 from rfl, Nat.and_two_pow_sub_one_eq_mod]
  omega

namespace BlkIoTraceRecord

/-- The bytes of the trace are accounted where its kind says, and as the number they are. -/
def Plain (t : BlkIoTraceRecord) : Prop :=
  (t.kind = some (.queuePc, false) → t.has blkTcWrite = false → t.bytes.toNat < 1024) ∧
    (t.kind = some (.complete, false) → t.bytes.toNat < 2 ^ 31)

instance (t : BlkIoTraceRecord) : Decidable t.Plain :=
  inferInstanceAs (Decidable ((_ → _ → _) ∧ (_ → _)))

def shares (t : BlkIoTraceRecord) (c : Category) : UInt64 × UInt64 :=
  (UInt64.ofInt (t.weight c * ((t.bytes.toNat : ℤ) / 1024)),
    UInt64.ofInt (t.weight c * ((t.bytes.toNat : ℤ) % 1024)))

variable {t : BlkIoTraceRecord} {kind : Kind} {c : Category}

theorem weight_eq {requeue : Bool} (h : t.kind = some (kind, requeue)) (c : Category) :
    t.weight c = if c = (kind, t.has blkTcWrite) then if requeue then -1 else 1 else 0 := by
  rw [weight, h]

theorem shares_eq_zero (h : t.weight c = 0) : t.shares c = 0 := by
  have hzero : UInt64.ofInt 0 = 0 := rfl
  rw [shares, h, zero_mul, zero_mul, hzero]
  rfl

theorem shares_none (h : t.kind = none) (c : Category) (x : UInt64 × UInt64) :
    x + t.shares c = x := by
  have hweight : t.weight c = 0 := by rw [weight, h]
  rw [shares_eq_zero hweight, add_zero]

theorem shares_add (h : t.kind = some (kind, false)) (c : Category) (x : UInt64 × UInt64) :
    x + t.shares c = if c = (kind, t.has blkTcWrite) then x + (t.tKb, t.tB) else x := by
  have hweight := weight_eq h c
  split
  case isTrue hc =>
    rw [if_pos hc] at hweight
    simp [shares, hweight, tKb, tB, shiftedBytes_eq, restBytes_eq]
  case isFalse hc =>
    rw [if_neg hc] at hweight
    rw [shares_eq_zero hweight, add_zero]

theorem shares_sub (h : t.kind = some (kind, true)) (c : Category) (x : UInt64 × UInt64) :
    x + t.shares c = if c = (kind, t.has blkTcWrite) then x - (t.tKb, t.tB) else x := by
  have hweight := weight_eq h c
  split
  case isTrue hc =>
    rw [if_pos hc] at hweight
    simp [shares, hweight, tKb, tB, shiftedBytes_eq, restBytes_eq, sub_eq_add_neg]
  case isFalse hc =>
    rw [if_neg hc] at hweight
    rw [shares_eq_zero hweight, add_zero]

inductive Accounting (t : BlkIoTraceRecord) : Prop
  | nothing (hkind : t.kind = none)
      (hacc : ∀ ios c, (t.accounted ios).counters c = ios.counters c)
  | queue (hkind : t.kind = some (.queue, false))
      (hacc : t.accounted = (·.accountQueue t (t.has blkTcWrite)))
  | merge (hkind : t.kind = some (.merge, false))
      (hacc : t.accounted = (·.accountM t (t.has blkTcWrite)))
  | issue (hkind : t.kind = some (.issue, false))
      (hacc : t.accounted = (·.accountIssue (t.has blkTcWrite) t.bytes))
  | requeue (hkind : t.kind = some (.issue, true))
      (hacc : t.accounted = (·.accountRequeue t (t.has blkTcWrite)))
  | complete (hkind : t.kind = some (.complete, false))
      (hacc : t.accounted = (·.accountC (t.has blkTcWrite) t.bytes))
  | queuePc (hkind : t.kind = some (.queuePc, false))
      (hacc : t.accounted = (·.accountPcQueue t (t.has blkTcWrite)))
  | issuePc (hkind : t.kind = some (.issuePc, false))
      (hacc : t.accounted = (·.accountPcIssue (t.has blkTcWrite) t.bytes))
  | requeuePc (hkind : t.kind = some (.issuePc, true))
      (hacc : t.accounted = (·.accountPcRequeue t (t.has blkTcWrite)))

theorem accounting_pc (hkind : t.kind = t.kindPc) (hacc : t.accounted = t.accountedPc) :
    t.Accounting := by
  unfold kindPc at hkind
  unfold accountedPc at hacc
  dsimp only at hkind hacc
  split_ifs at hkind hacc
  · exact .queuePc hkind hacc
  · exact .requeuePc hkind hacc
  · exact .issuePc hkind hacc
  · refine .nothing hkind fun ios c => ?_
    rw [hacc]
    apply IoStats.accountPcC_counters
  · refine .nothing hkind fun ios c => ?_
    rw [hacc, id]

theorem accounting_fs (hkind : t.kind = t.kindFs) (hacc : t.accounted = t.accountedFs) :
    t.Accounting := by
  unfold kindFs at hkind
  unfold accountedFs at hacc
  dsimp only at hkind hacc
  split_ifs at hkind hacc
  · exact .queue hkind hacc
  · exact .merge hkind hacc
  · exact .merge hkind hacc
  · exact .requeue hkind hacc
  · exact .issue hkind hacc
  · exact .complete hkind hacc
  · refine .nothing hkind fun ios c => ?_
    rw [hacc]
    apply IoStats.accountUnplug_counters
  · refine .nothing hkind fun ios c => ?_
    rw [hacc]
    apply IoStats.accountUnplug_counters
  · refine .nothing hkind fun ios c => ?_
    rw [hacc, id]

theorem accounting (t : BlkIoTraceRecord) : t.Accounting := by
  by_cases hmessage : t.action = blkTnMessage
  · refine .nothing (by rw [kind, if_pos hmessage]) fun ios c => ?_
    rw [accounted, if_pos hmessage, id]
  by_cases hpc : t.has blkTcPc = true
  · apply accounting_pc
    · rw [kind, if_neg hmessage, if_pos hpc]
    · rw [accounted, if_neg hmessage, if_pos hpc]
  · apply accounting_fs
    · rw [kind, if_neg hmessage, if_neg hpc]
    · rw [accounted, if_neg hmessage, if_neg hpc]

theorem asInt_eq {bytes : UInt32} (h : bytes.toNat < 2 ^ 31) : asInt bytes = bytes.toNat :=
  if_pos h

theorem tKb_eq_zero (h : t.bytes.toNat < 1024) : t.tKb = 0 := by
  have hzero : (t.bytes.toNat : ℤ) / 1024 = 0 := by omega
  rw [tKb, shiftedBytes_eq, hzero]
  rfl

theorem accounted_counters (h : t.Plain) (ios : IoStats) (c : Category) :
    (t.accounted ios).counters c = ios.counters c + t.shares c := by
  obtain ⟨hqueue, hcomplete⟩ := h
  cases t.accounting with
  | nothing hkind hacc => rw [hacc, shares_none hkind]
  | queue hkind hacc => rw [hacc, shares_add hkind, IoStats.accountQueue_counters]
  | merge hkind hacc => rw [hacc, shares_add hkind, IoStats.accountM_counters]
  | issue hkind hacc =>
    rw [hacc, shares_add hkind, IoStats.accountIssue_counters]
    rfl
  | requeue hkind hacc => rw [hacc, shares_sub hkind, IoStats.accountRequeue_counters]
  | complete hkind hacc =>
    rw [hacc, shares_add hkind, IoStats.accountC_counters, asInt_eq (hcomplete hkind), tKb, tB,
      shiftedBytes_eq, restBytes_eq]
  | queuePc hkind hacc =>
    rw [hacc, shares_add hkind, IoStats.accountPcQueue_counters]
    cases hw : t.has blkTcWrite with
    | true => simp
    | false =>
      -- The kilobytes of a read go to the wrong counter, and are none.
      have hzero := tKb_eq_zero (hqueue hkind hw)
      rw [hzero]
      by_cases hc : c = (.queue, false)
      · subst hc
        simp
      · simp [hc]
  | issuePc hkind hacc =>
    rw [hacc, shares_add hkind, IoStats.accountPcIssue_counters]
    rfl
  | requeuePc hkind hacc => rw [hacc, shares_sub hkind, IoStats.accountPcRequeue_counters]

theorem amount_eq {ios ios' : IoStats} {x : UInt64 × UInt64}
    (h : ios'.counters c = ios.counters c + x) :
    ios'.amount c = ios.amount c + (1024 * x.1 + x.2) := by
  obtain ⟨hkb, hb⟩ := Prod.mk.inj h
  rw [IoStats.amount, IoStats.amount, hkb, hb]
  change 1024 * (ios.kbOf c + x.1) + (ios.bOf c + x.2) = _
  grind

theorem accounted_queuePc (hkind : t.kind = some (.queuePc, false)) :
    t.accounted = (·.accountPcQueue t (t.has blkTcWrite)) := by
  cases t.accounting with
  | queuePc _ hacc => exact hacc
  | _ => simp_all

theorem accounted_complete (hkind : t.kind = some (.complete, false)) :
    t.accounted = (·.accountC (t.has blkTcWrite) t.bytes) := by
  cases t.accounting with
  | complete _ hacc => exact hacc
  | _ => simp_all

theorem lt_of_amount_queuePc {ios : IoStats} (hkind : t.kind = some (.queuePc, false))
    (hw : t.has blkTcWrite = false)
    (h : (t.accounted ios).amount (.queue, false) =
      ios.amount (.queue, false) +
        UInt64.ofInt (t.weight (.queue, false) * (t.bytes.toNat : ℤ))) :
    t.bytes.toNat < 1024 := by
  have hlt := t.bytes.toNat_lt
  have hweight : t.weight (.queue, false) = 0 := by
    rw [weight_eq hkind]
    simp
  have hcounters : (t.accounted ios).counters (.queue, false) =
      ios.counters (.queue, false) + (t.tKb, 0) := by
    rw [accounted_queuePc hkind, IoStats.accountPcQueue_counters]
    simp [hw]
  rw [amount_eq hcounters, hweight, zero_mul] at h
  have hzero : 1024 * t.tKb = 0 := by
    have hof : UInt64.ofInt 0 = 0 := rfl
    grind
  have hkb : t.tKb.toNat = t.bytes.toNat / 1024 := by
    have hofInt := toNat_ofInt ((t.bytes.toNat : ℤ) / 1024)
    rw [tKb, shiftedBytes_eq]
    omega
  have hmul := congrArg UInt64.toNat hzero
  rw [UInt64.toNat_mul, hkb, show (1024 : UInt64).toNat = 1024 from rfl] at hmul
  rw [show (0 : UInt64).toNat = 0 from rfl] at hmul
  omega

theorem lt_of_amount_complete {ios : IoStats} (hkind : t.kind = some (.complete, false))
    (h : (t.accounted ios).amount (.complete, t.has blkTcWrite) =
      ios.amount (.complete, t.has blkTcWrite) +
        UInt64.ofInt (t.weight (.complete, t.has blkTcWrite) * (t.bytes.toNat : ℤ))) :
    t.bytes.toNat < 2 ^ 31 := by
  by_contra hge
  have hweight : t.weight (.complete, t.has blkTcWrite) = 1 := by
    rw [weight_eq hkind]
    simp
  have hcounters : (t.accounted ios).counters (.complete, t.has blkTcWrite) =
      ios.counters (.complete, t.has blkTcWrite) +
        (UInt64.ofInt (asInt t.bytes / 1024), UInt64.ofInt (asInt t.bytes % 1024)) := by
    rw [accounted_complete hkind, IoStats.accountC_counters]
    simp
  have hsplit := Int.mul_ediv_add_emod (asInt t.bytes) 1024
  have hkb : (1024 : UInt64) = UInt64.ofInt 1024 := rfl
  rw [amount_eq hcounters, hweight, one_mul] at h
  dsimp only at h
  rw [hkb, ← UInt64.ofInt_mul, ← UInt64.ofInt_add, hsplit, asInt, if_neg hge, sub_eq_add_neg,
    UInt64.ofInt_add] at h
  have hwrap : UInt64.ofInt (-2 ^ 32) = 0 := by grind
  exact absurd hwrap (by decide)

theorem plain_of_amount {ios : IoStats}
    (h : ∀ c, (t.accounted ios).amount c =
      ios.amount c + UInt64.ofInt (t.weight c * (t.bytes.toNat : ℤ))) : t.Plain :=
  ⟨fun hkind hw => lt_of_amount_queuePc hkind hw (h _),
    fun hkind => lt_of_amount_complete hkind (h _)⟩

end BlkIoTraceRecord

section Runs

variable {per : Bool} {key : StatsKey} {c : Category} {t : BlkIoTraceRecord}
  {ts : List BlkIoTraceRecord}

theorem tracesOf_concat (per : Bool) (key : StatsKey) (ts : List BlkIoTraceRecord)
    (t : BlkIoTraceRecord) :
    tracesOf per key (ts ++ [t]) =
      tracesOf per key ts ++ if key.concerns per t then [t] else [] := by
  rw [tracesOf, List.filter_append, List.filter_singleton, cond_eq_ite]
  rfl

theorem bytesTotal_concat (c : Category) (ts : List BlkIoTraceRecord) (t : BlkIoTraceRecord) :
    bytesTotal c (ts ++ [t]) = bytesTotal c ts + t.weight c * (t.bytes.toNat : ℤ) := by
  simp [bytesTotal]

theorem kbTotal_concat (c : Category) (ts : List BlkIoTraceRecord) (t : BlkIoTraceRecord) :
    kbTotal c (ts ++ [t]) = kbTotal c ts + t.weight c * ((t.bytes.toNat : ℤ) / 1024) := by
  simp [kbTotal]

theorem bTotal_concat (c : Category) (ts : List BlkIoTraceRecord) (t : BlkIoTraceRecord) :
    bTotal c (ts ++ [t]) = bTotal c ts + t.weight c * ((t.bytes.toNat : ℤ) % 1024) := by
  simp [bTotal]

theorem bytesTotal_nonneg (h : ∀ t ∈ ts, ∀ kind, t.kind ≠ some (kind, true)) :
    0 ≤ bytesTotal c ts := by
  induction ts with
  | nil => exact le_refl _
  | cons t ts ih =>
    have hrest := ih fun u hu => h u (List.mem_cons_of_mem t hu)
    have hweight : 0 ≤ t.weight c := by
      cases hkind : t.kind with
      | none => rw [BlkIoTraceRecord.weight, hkind]
      | some entry =>
        obtain ⟨kind, requeue⟩ := entry
        cases requeue with
        | true => exact absurd hkind (h t List.mem_cons_self kind)
        | false =>
          rw [BlkIoTraceRecord.weight_eq hkind]
          split <;> simp
    have hfirst : 0 ≤ t.weight c * (t.bytes.toNat : ℤ) := by positivity
    simp only [bytesTotal, List.map_cons, List.sum_cons] at hrest ⊢
    omega

def statsOf (per : Bool) (key : StatsKey) (ts : List BlkIoTraceRecord) : IoStats :=
  ((newTraceStats per).run ts).ioStats key

theorem statsOf_eq (per : Bool) (key : StatsKey) (ts : List BlkIoTraceRecord) :
    statsOf per key ts =
      (tracesOf per key ts).foldl (fun ios t => t.accounted ios) zeroIoStats :=
  TraceStats.run_ioStats (newTraceStats per) ts key

theorem statsOf_concat (per : Bool) (key : StatsKey) (ts : List BlkIoTraceRecord)
    (t : BlkIoTraceRecord) :
    statsOf per key (ts ++ [t]) =
      if key.concerns per t then t.accounted (statsOf per key ts) else statsOf per key ts := by
  rw [statsOf_eq, statsOf_eq, tracesOf_concat, List.foldl_append]
  split
  · rfl
  · rfl

theorem zeroIoStats_counters (c : Category) : zeroIoStats.counters c = 0 := by
  obtain ⟨kind, rw⟩ := c
  cases kind <;> cases rw <;> rfl

theorem statsOf_counters (h : ∀ t ∈ ts, t.Plain) (per : Bool) (key : StatsKey) (c : Category) :
    (statsOf per key ts).counters c =
      (UInt64.ofInt (kbTotal c (tracesOf per key ts)),
        UInt64.ofInt (bTotal c (tracesOf per key ts))) := by
  induction ts using List.reverseRecOn with
  | nil => exact zeroIoStats_counters c
  | append_singleton ts t ih =>
    have hplain : t.Plain := h t (by simp)
    have hts := ih fun u hu => h u (by simp [hu])
    rw [statsOf_concat, tracesOf_concat]
    split
    · rw [BlkIoTraceRecord.accounted_counters hplain, hts, kbTotal_concat, bTotal_concat,
        UInt64.ofInt_add, UInt64.ofInt_add]
      rfl
    · rw [List.append_nil, hts]

theorem statsOf_amount (h : ∀ t ∈ ts, t.Plain) (key : StatsKey) (c : Category) :
    (statsOf per key ts).amount c = UInt64.ofInt (bytesTotal c (tracesOf per key ts)) := by
  have hkb : (1024 : UInt64) = UInt64.ofInt 1024 := rfl
  obtain ⟨hkbOf, hbOf⟩ := Prod.mk.inj (statsOf_counters h per key c)
  rw [IoStats.amount, hkbOf, hbOf, hkb, ← UInt64.ofInt_mul, ← UInt64.ofInt_add, bytesTotal_eq]

theorem plain_of_amounts
    (h : ∀ ts' : List BlkIoTraceRecord, ts' <+: ts → ∀ key c,
      (statsOf per key ts').amount c = UInt64.ofInt (bytesTotal c (tracesOf per key ts'))) :
    ∀ t ∈ ts, t.Plain := by
  induction ts using List.reverseRecOn with
  | nil => simp
  | append_singleton ts t ih =>
    have hts := ih fun us hus => h us (hus.trans (List.prefix_append ts [t]))
    rintro u hu
    obtain hu | hu := List.mem_append.mp hu
    · exact hts u hu
    obtain rfl := List.mem_singleton.mp hu
    have hconcerns : (StatsKey.cpu u.device u.cpu).concerns per u = true := by
      simp [StatsKey.concerns]
    refine @BlkIoTraceRecord.plain_of_amount u (statsOf per (.cpu u.device u.cpu) ts) fun c => ?_
    have hlast := h (ts ++ [u]) (List.prefix_refl _) (.cpu u.device u.cpu) c
    rw [statsOf_concat, if_pos hconcerns, tracesOf_concat, if_pos hconcerns, bytesTotal_concat,
      UInt64.ofInt_add, ← statsOf_amount hts] at hlast
    exact hlast

/-- The counters of the category, read as numbers, are the bytes of the traces. -/
def Exact (per : Bool) (ts : List BlkIoTraceRecord) (key : StatsKey) (c : Category) : Prop :=
  (1024 * ((statsOf per key ts).kbOf c).toNat + ((statsOf per key ts).bOf c).toNat : ℤ) =
    bytesTotal c (tracesOf per key ts)

/-- The kilobytes and the remainders of the traces, each added up, are numbers of 64 bits. -/
def Fits (per : Bool) (ts : List BlkIoTraceRecord) (key : StatsKey) (c : Category) : Prop :=
  (0 ≤ kbTotal c (tracesOf per key ts) ∧ kbTotal c (tracesOf per key ts) < 2 ^ 64) ∧
    0 ≤ bTotal c (tracesOf per key ts) ∧ bTotal c (tracesOf per key ts) < 2 ^ 64

theorem Exact.amount (h : Exact per ts key c) :
    (statsOf per key ts).amount c = UInt64.ofInt (bytesTotal c (tracesOf per key ts)) := by
  have hkb : (1024 : UInt64) = UInt64.ofInt 1024 := rfl
  rw [← h, UInt64.ofInt_add, UInt64.ofInt_mul, ofInt_toNat, ofInt_toNat, ← hkb]
  rfl

theorem statsOf_toNat (h : ∀ t ∈ ts, t.Plain) (per : Bool) (key : StatsKey) (c : Category) :
    (((statsOf per key ts).kbOf c).toNat : ℤ) = kbTotal c (tracesOf per key ts) % 2 ^ 64 ∧
      (((statsOf per key ts).bOf c).toNat : ℤ) = bTotal c (tracesOf per key ts) % 2 ^ 64 := by
  obtain ⟨hkbOf, hbOf⟩ := Prod.mk.inj (statsOf_counters h per key c)
  rw [hkbOf, hbOf]
  exact ⟨toNat_ofInt _, toNat_ofInt _⟩

theorem Fits.exact (h : Fits per ts key c) (hplain : ∀ t ∈ ts, t.Plain) :
    Exact per ts key c := by
  obtain ⟨⟨hkb, hkb'⟩, hb, hb'⟩ := h
  obtain ⟨hkbOf, hbOf⟩ := statsOf_toNat hplain per key c
  rw [Exact, hkbOf, hbOf, bytesTotal_eq, Int.emod_eq_of_lt hkb hkb', Int.emod_eq_of_lt hb hb']

theorem Fits.concat (h : Fits per ts key c) (hplain : ∀ u ∈ ts ++ [t], u.Plain)
    (hexact : Exact per (ts ++ [t]) key c) : Fits per (ts ++ [t]) key c := by
  obtain ⟨⟨hkb, hkb'⟩, hb, hb'⟩ := h
  obtain ⟨hkbOf, hbOf⟩ := statsOf_toNat hplain per key c
  rw [Exact, hkbOf, hbOf, bytesTotal_eq] at hexact
  rw [Fits]
  rw [tracesOf_concat] at hexact ⊢
  split at hexact
  case isFalse hc =>
    rw [if_neg hc, List.append_nil]
    exact ⟨⟨hkb, hkb'⟩, hb, hb'⟩
  case isTrue hc =>
    rw [if_pos hc]
    have hlt := t.bytes.toNat_lt
    have hweight : t.weight c = -1 ∨ t.weight c = 0 ∨ t.weight c = 1 := by
      unfold BlkIoTraceRecord.weight
      split
      · simp
      · split_ifs <;> simp
    rw [kbTotal_concat, bTotal_concat] at hexact ⊢
    obtain hw | hw | hw := hweight <;> rw [hw] at hexact ⊢ <;> omega

/-- The trace leaves the counters of the categories that it does not belong to as they are. -/
def Separate (per : Bool) (ts : List BlkIoTraceRecord) (t : BlkIoTraceRecord) : Prop :=
  ∀ key c, (key.concerns per t = true → t.weight c = 0) →
    (statsOf per key (ts ++ [t])).counters c = (statsOf per key ts).counters c

theorem separate_of_plain (h : t.Plain) : Separate per ts t := by
  rintro key c hweight
  rw [statsOf_concat]
  split
  case isTrue hc =>
    rw [BlkIoTraceRecord.accounted_counters h, BlkIoTraceRecord.shares_eq_zero (hweight hc),
      add_zero]
  case isFalse => rfl

theorem fits_of_exact (hplain : ∀ t ∈ ts, t.Plain)
    (h : ∀ ts' : List BlkIoTraceRecord, ts' <+: ts → Exact per ts' key c) :
    Fits per ts key c := by
  induction ts using List.reverseRecOn with
  | nil =>
    have hpos : (0 : ℤ) < 2 ^ 64 := by decide
    exact ⟨⟨le_refl _, hpos⟩, le_refl _, hpos⟩
  | append_singleton ts t ih =>
    have hts := List.prefix_append ts [t]
    have hfits := ih (fun u hu => hplain u (by simp [hu])) fun us hus => h us (hus.trans hts)
    exact hfits.concat hplain (h (ts ++ [t]) (List.prefix_refl _))

/-- The accounting of a sequence of traces is exact just if no kilobytes of a PC read are queued,
no completion is of `2 ^ 31` bytes or more, and neither the kilobytes nor the remainders that are
requeued ever exceed those that were issued, nor 64 bits. In the arithmetic of the counters the
last condition is not needed. -/
theorem dumpTrace_accounts_exactly_iff (per : Bool) (ts : List BlkIoTraceRecord) :
    (((∀ ts', ts' <+: ts → ∀ key c, Exact per ts' key c) ∧
        ∀ ts' t, ts' ++ [t] <+: ts → Separate per ts' t) ↔
      (∀ t ∈ ts, t.Plain) ∧ ∀ ts', ts' <+: ts → ∀ key c, Fits per ts' key c) ∧
    (((∀ ts', ts' <+: ts → ∀ key c,
          (statsOf per key ts').amount c = UInt64.ofInt (bytesTotal c (tracesOf per key ts'))) ∧
        ∀ ts' t, ts' ++ [t] <+: ts → Separate per ts' t) ↔
      ∀ t ∈ ts, t.Plain) := by
  have hseparate : (∀ t ∈ ts, t.Plain) → ∀ ts' t, ts' ++ [t] <+: ts → Separate per ts' t := by
    rintro hplain ts' t hts'
    exact separate_of_plain (hplain t (hts'.subset (by simp)))
  refine ⟨⟨?_, ?_⟩, ?_, ?_⟩
  · rintro ⟨hexact, -⟩
    have hplain := plain_of_amounts fun ts' hts' key c => (hexact ts' hts' key c).amount
    refine ⟨hplain, fun ts' hts' key c => ?_⟩
    apply fits_of_exact (fun t ht => hplain t (hts'.subset ht))
    exact fun us hus => hexact us (hus.trans hts') key c
  · rintro ⟨hplain, hfits⟩
    refine ⟨fun ts' hts' key c => ?_, hseparate hplain⟩
    exact (hfits ts' hts' key c).exact fun t ht => hplain t (hts'.subset ht)
  · rintro ⟨hamount, -⟩
    exact plain_of_amounts hamount
  · rintro hplain
    refine ⟨fun ts' hts' key c => ?_, hseparate hplain⟩
    exact statsOf_amount (fun t ht => hplain t (hts'.subset ht)) key c

def pcRead : BlkIoTraceRecord where
  magic := 0
  sequence := 0
  time := 0
  device := 0
  cpu := 0
  action := blkTcAct blkTcPc ||| blkTaQueue
  sector := 0
  bytes := 4096
  pid := 0
  error := 0
  vecCount := 0
  seq := 0
  pduLen := 0

/-- Nothing is requeued, and the kilobytes of the read are those of a file system request. -/
theorem pc_read_queue_miscounted :
    (∀ ts', ts' <+: [pcRead] → ∀ key c, 0 ≤ bytesTotal c (tracesOf false key ts')) ∧
      ¬ (∀ ts', ts' <+: [pcRead] → ∀ key c, Exact false ts' key c) ∧
      ¬ (∀ ts', ts' <+: [pcRead] → ∀ key c, (statsOf false key ts').amount c =
          UInt64.ofInt (bytesTotal c (tracesOf false key ts'))) ∧
      ¬ (∀ ts' t, ts' ++ [t] <+: [pcRead] → Separate false ts' t) := by
  refine ⟨fun ts' hts' key c => ?_, fun h => ?_, fun h => ?_, fun h => ?_⟩
  · apply bytesTotal_nonneg
    rintro t ht kind
    obtain rfl := List.mem_singleton.mp (hts'.subset (List.mem_of_mem_filter ht))
    have hkind : pcRead.kind = some (.queuePc, false) := by decide
    simp [hkind]
  · exact absurd (h [pcRead] (List.prefix_refl _) (.cpu 0 0) (.queue, false))
      (by unfold Exact; decide)
  · exact absurd (h [pcRead] (List.prefix_refl _) (.cpu 0 0) (.queue, false)) (by decide)
  · have hsame := h [] pcRead (List.prefix_refl _) (.cpu 0 0) (.queue, false) (by decide)
    exact absurd hsame (by decide)

end Runs

end SBlktrace
