import SBlktrace.IoMonitorTraces
import SBlktrace.StatMerge
import SBlktrace.KeyTable
import SBlktrace.Transition

namespace SBlktrace

open Function ByteOrder KeyTable

structure Ledger where
  stored : UInt32 × UInt64 × UInt32 → Option BlkIoTraceRecord
  matched : List (BlkIoTraceRecord × BlkIoTraceRecord)
  mismatched : ℕ

namespace Ledger

def empty : Ledger where
  stored := fun _ => none
  matched := []
  mismatched := 0

def older (other bit : BlkIoTraceRecord) : BlkIoTraceRecord :=
  if other.time < bit.time then other else bit

def younger (other bit : BlkIoTraceRecord) : BlkIoTraceRecord :=
  if other.time < bit.time then bit else other

/-- A dispatch and a strictly younger completion of one key leave together; else the younger of two
records of one key is kept. -/
def meet (l : Ledger) (bit : BlkIoTraceRecord) : Ledger :=
  match l.stored bit.traceKey with
  | none => { l with stored := update l.stored bit.traceKey (some bit) }
  | some other =>
    if (older other bit).time < (younger other bit).time ∧ isIssue (older other bit) ∧
        isComplete (younger other bit) then
      { l with
        stored := update l.stored bit.traceKey none
        matched := l.matched ++ [(older other bit, younger other bit)] }
    else
      { l with
        stored := update l.stored bit.traceKey (some (younger other bit))
        mismatched := l.mismatched + 1 }

end Ledger

def ledger (records : List BlkIoTraceRecord) : Ledger := records.foldl Ledger.meet .empty

def accountPair (device : UInt32) (stat : Option BlkiomonStat)
    (pair : BlkIoTraceRecord × BlkIoTraceRecord) : Option BlkiomonStat :=
  if pair.1.device = device then some ((stat.getD (.init device)).account pair.1 pair.2) else stat

def statOf (device : UInt32) (matched : List (BlkIoTraceRecord × BlkIoTraceRecord)) :
    Option BlkiomonStat :=
  matched.foldl (accountPair device) none

theorem ledger_snoc (records : List BlkIoTraceRecord) (bit : BlkIoTraceRecord) :
    ledger (records ++ [bit]) = (ledger records).meet bit := by
  rw [ledger, List.foldl_append]
  rfl

theorem statOf_snoc (device : UInt32) (matched : List (BlkIoTraceRecord × BlkIoTraceRecord))
    (pair : BlkIoTraceRecord × BlkIoTraceRecord) :
    statOf device (matched ++ [pair]) = accountPair device (statOf device matched) pair := by
  rw [statOf, List.foldl_append]
  rfl

abbrev MonitorStep := Monitor × FifoTurn × Monitor

namespace Monitor

def processed (host : Endian) (step : MonitorStep) : Option BlkIoTraceRecord :=
  match step.2.1 with
  | .stop => none
  | .trace raw calls =>
    let bit := traceToCpu host (step.1.native raw) raw
    if step.1.native raw = -1 ∨ bit.verifyTrace ≠ 0 ∨ (bit.pduLen ≠ 0 ∧ calls.payload = false) then
      none
    else if bit.action &&& blkTcAct blkTcDrvData ≠ 0 then none
    else if bit.action &&& blkTcAct (blkTcIssue ||| blkTcComplete) = 0 then none
    else some bit

def records (host : Endian) (steps : List MonitorStep) : List BlkIoTraceRecord :=
  steps.filterMap (processed host)

structure Matching (records : List BlkIoTraceRecord) (stored : Finset Ptr) (s : Monitor) : Prop where
  owned : s.Owned stored s.t.toList
  table : Tabulates BlkIoTraceRecord.traceKey (fun p => (s.mem p).bit) stored
    (ledger records).stored
  stat : ∀ device, s.dstat device = statOf device (ledger records).matched
  matchCount : s.matchCount = (ledger records).matched.length
  mismatch : s.mismatch = (ledger records).mismatched
  count : (records.length : ℤ) = stored.card + 2 * s.matchCount + s.mismatch

/-- Where the two records are counted as a match, the division has a result, and the device has a
statistic or gets one. -/
def Countable (s : Monitor) (calls : TurnCalls) (other bit : BlkIoTraceRecord) : Prop :=
  isIssue (Ledger.older other bit) → isComplete (Ledger.younger other bit) →
    (Ledger.older other bit).time.toNat + 1000 ≤ (Ledger.younger other bit).time.toNat ∧
      (calls.newDstat = true ∨ (s.dstat (Ledger.older other bit).device).isSome = true)

instance (s : Monitor) (calls : TurnCalls) (other bit : BlkIoTraceRecord) :
    Decidable (s.Countable calls other bit) := inferInstanceAs (Decidable (_ → _ → _))

/-- The trace of the hash that the record of the step meets, if any, can be counted with it. -/
def Sound (host : Endian) (step : MonitorStep) : Prop :=
  ∀ bit ∈ processed host step, ∀ calls ∈ step.2.1.calls, ∀ p ∈ step.1.leftover,
    (step.1.mem p).bit.traceKey = bit.traceKey → step.1.Countable calls (step.1.mem p).bit bit

instance (host : Endian) (step : MonitorStep) : Decidable (Sound host step) :=
  inferInstanceAs (Decidable (∀ bit ∈ processed host step, ∀ calls ∈ step.2.1.calls,
    ∀ p ∈ step.1.leftover, (step.1.mem p).bit.traceKey = bit.traceKey →
      step.1.Countable calls (step.1.mem p).bit bit))

variable {s s' : Monitor} {stored : Finset Ptr} {held : List Ptr} {p t : Ptr}
  {bit : BlkIoTraceRecord} {recs : List BlkIoTraceRecord} {calls : TurnCalls}

theorem fetchTrace_frame (h : s.blkiomonFetchTrace bit = some (s', p)) :
    s' = { s with mem := s'.mem, thash := s'.thash } := by
  rw [blkiomonFetchTrace] at h
  split at h
  · cases h
  · cases h
    rfl
  · cases h
    rfl

theorem matching_start (t : Ptr) : Matching [] ∅ (start t) where
  owned := by
    refine ⟨fun _ => [], ⟨fun o => ?_, fun _ => List.nodup_nil, fun _ _ _ => List.disjoint_nil_left _⟩,
      fun i => List.forall_mem_nil _, by simp, List.nodup_singleton t,
      fun p _ o => List.not_mem_nil, by simp [start], rfl, Nat.zero_le _⟩
    cases o <;> rfl
  table := Tabulates.empty _ _
  stat device := rfl
  matchCount := rfl
  mismatch := rfl
  count := rfl

theorem allocTrace_frame (s : Monitor) (newTrace : Option Ptr) :
    (s.blkiomonAllocTrace newTrace).1 =
      { s with
        mem := (s.blkiomonAllocTrace newTrace).1.mem
        allocated := (s.blkiomonAllocTrace newTrace).1.allocated
        vacantTracesList := (s.blkiomonAllocTrace newTrace).1.vacantTracesList
        vacantTraces := (s.blkiomonAllocTrace newTrace).1.vacantTraces } := by
  unfold blkiomonAllocTrace
  split
  · rfl
  · cases newTrace <;> rfl

theorem freeTrace_frame (s : Monitor) (t : Ptr) :
    s.blkiomonFreeTrace t =
      { s with
        mem := (s.blkiomonFreeTrace t).mem
        allocated := (s.blkiomonFreeTrace t).allocated
        vacantTracesList := (s.blkiomonFreeTrace t).vacantTracesList
        vacantTraces := (s.blkiomonFreeTrace t).vacantTraces } := by
  rw [blkiomonFreeTrace]
  split <;> rfl

theorem bit_freeTrace (s : Monitor) (t q : Ptr) :
    ((s.blkiomonFreeTrace t).mem q).bit = (s.mem q).bit := by
  rw [blkiomonFreeTrace]
  split
  · exact bit_setNext s t q _
  · rfl

theorem Owned.swap {q : Ptr} (h : s.Owned stored (p :: q :: held)) :
    s.Owned stored (q :: p :: held) := by
  obtain ⟨lists, h⟩ := h
  have hperm : (q :: p :: held).Perm (p :: q :: held) := List.Perm.swap _ _ _
  refine ⟨lists, h.chains, h.bucket, h.stored, hperm.nodup_iff.mpr h.held_nodup,
    fun r hr => h.held_off r (hperm.mem_iff.mp hr), fun r => ?_, h.vacant, h.vacant_le⟩
  rw [h.allocated r, hperm.mem_iff]

theorem update_eq_accountPair (dstat : UInt32 → Option BlkiomonStat) (d c : BlkIoTraceRecord) :
    update dstat d.device (some (((dstat d.device).getD (.init d.device)).account d c)) =
      fun device => accountPair device (dstat device) (d, c) := by
  funext device
  obtain rfl | hne := eq_or_ne device d.device
  · rw [update_self, accountPair, if_pos rfl]
  · rw [update_of_ne hne, accountPair, if_neg hne.symm]

theorem account_eq {d c : BlkIoTraceRecord} (hd2c : d2c d c ≠ 0)
    (hdstat : calls.newDstat = true ∨ (s.dstat d.device).isSome = true) :
    s.blkiomonAccount d c calls.newDstat =
      some { s with dstat := fun device => accountPair device (s.dstat device) (d, c) } := by
  have hpair := update_eq_accountPair s.dstat d c
  rw [blkiomonAccount, if_neg hd2c]
  cases hstat : s.dstat d.device with
  | some stat =>
    rw [hstat] at hpair
    dsimp only
    rw [← hpair]
    rfl
  | none =>
    have hnew := hdstat.resolve_right (by rw [hstat]; decide)
    rw [hstat] at hpair
    dsimp only
    rw [if_pos hnew, ← hpair]
    rfl

theorem d2c_ne_zero {d c : BlkIoTraceRecord} (h : d.time.toNat + 1000 ≤ c.time.toNat) :
    d2c d c ≠ 0 := by
  intro hzero
  have hnat := congrArg UInt64.toNat hzero
  have hle : d.time ≤ c.time := UInt64.le_iff_toNat_le.mpr (by omega)
  rw [d2c, UInt64.toNat_div, UInt64.toNat_sub_of_le _ _ hle,
    show (1000 : UInt64).toNat = 1000 from rfl, show (0 : UInt64).toNat = 0 from rfl] at hnat
  omega

theorem doTrace_fetched (hfetch : s.blkiomonFetchTrace (s.mem t).bit = some (s', p))
    (hbit : ∀ q, (s'.mem q).bit = (s.mem q).bit) :
    s.blkiomonDoTrace t calls =
      if isIssue (Ledger.older (s.mem p).bit (s.mem t).bit) ∧
          isComplete (Ledger.younger (s.mem p).bit (s.mem t).bit) then
        (({ s' with matchCount := s'.matchCount + 1 }).blkiomonAccount
            (Ledger.older (s.mem p).bit (s.mem t).bit) (Ledger.younger (s.mem p).bit (s.mem t).bit)
            calls.newDstat).elim
          { s' with matchCount := s'.matchCount + 1, t := none }
          fun s => { s.blkiomonFreeTrace p with t := some t }
      else
        { ({ s' with mismatch := s'.mismatch + 1 }).blkiomonStoreTrace
            (if (s.mem p).bit.time < (s.mem t).bit.time then t else p) with
          t := some (if (s.mem p).bit.time < (s.mem t).bit.time then p else t) } := by
  rw [blkiomonDoTrace, hfetch]
  dsimp only
  rw [hbit p, hbit t]
  by_cases hlt : (s.mem p).bit.time < (s.mem t).bit.time
  · simp only [if_pos hlt, hbit, Ledger.older, Ledger.younger]
    generalize blkiomonAccount _ _ _ _ = r
    cases r <;> rfl
  · simp only [if_neg hlt, hbit, Ledger.older, Ledger.younger]
    generalize blkiomonAccount _ _ _ _ = r
    cases r <;> rfl

theorem Matching.store (h : Matching recs stored s) (ht : s.t = some t)
    (hnew : ∀ q, calls.newTrace = some q → q ∉ s.allocated)
    (hfetch : s.blkiomonFetchTrace (s.mem t).bit = none) :
    Matching (recs ++ [(s.mem t).bit]) (insert t stored) (s.blkiomonDoTrace t calls) := by
  have hnone := fetchTrace_none h.owned hfetch
  have howned : s.Owned stored [t] := by
    have hall := h.owned
    rw [ht] at hall
    exact hall
  have hstore := howned.storeTrace
  have halloc := hstore.allocTrace hnew
  have hledger : ledger (recs ++ [(s.mem t).bit]) =
      { ledger recs with
        stored := update (ledger recs).stored (s.mem t).bit.traceKey (some (s.mem t).bit) } := by
    rw [ledger_snoc, Ledger.meet, h.table.find_none hnone]
  have hframe := allocTrace_frame (s.blkiomonStoreTrace t) calls.newTrace
  rw [blkiomonDoTrace, hfetch]
  dsimp only
  refine ⟨?_, ?_, ?_, ?_, ?_, ?_⟩
  · rw [List.append_nil] at halloc
    exact halloc.same rfl rfl rfl rfl rfl
  · rw [hledger]
    refine (h.table.insert hnone).congr fun q hq => ?_
    rw [allocTrace_bit hstore hnew hq]
    exact bit_setNext s t q _
  · intro device
    rw [hledger, hframe]
    exact h.stat device
  · rw [hledger, hframe]
    exact h.matchCount
  · rw [hledger, hframe]
    exact h.mismatch
  · have hcount := h.count
    rw [Finset.card_insert_of_notMem (howned.notMem_stored (List.mem_singleton_self t)), hframe,
      List.length_append]
    push_cast
    rw [hcount]
    change _ = (stored.card : ℤ) + 1 + 2 * s.matchCount + s.mismatch
    simp only [List.length_singleton]
    push_cast
    ring

theorem Matching.fetched (h : Matching recs stored s) (ht : s.t = some t)
    (hfetch : s.blkiomonFetchTrace (s.mem t).bit = some (s', p)) :
    (ledger recs).stored (s.mem t).bit.traceKey = some (s.mem p).bit ∧ p ∈ stored ∧
      (s.mem t).bit.traceKey = (s.mem p).bit.traceKey ∧
      s'.Owned (stored.erase p) [p, t] ∧ ∀ q, (s'.mem q).bit = (s.mem q).bit := by
  have howned := h.owned
  rw [ht] at howned
  obtain ⟨hp, hkey, hfetched, hbit⟩ := fetchTrace_some howned hfetch
  have hfind := h.table.find_mem hp
  rw [hkey] at hfind
  exact ⟨hfind, hp, hkey.symm, hfetched, hbit⟩

theorem older_lt_younger {other bit : BlkIoTraceRecord}
    (h : (Ledger.older other bit).time.toNat + 1000 ≤ (Ledger.younger other bit).time.toNat) :
    (Ledger.older other bit).time < (Ledger.younger other bit).time :=
  UInt64.lt_iff_toNat_lt.mpr (by omega)

theorem Matching.matched (h : Matching recs stored s) (ht : s.t = some t)
    (hfetch : s.blkiomonFetchTrace (s.mem t).bit = some (s', p))
    (hpair : isIssue (Ledger.older (s.mem p).bit (s.mem t).bit) ∧
      isComplete (Ledger.younger (s.mem p).bit (s.mem t).bit))
    (hcount : s.Countable calls (s.mem p).bit (s.mem t).bit) :
    Matching (recs ++ [(s.mem t).bit]) (stored.erase p) (s.blkiomonDoTrace t calls) := by
  obtain ⟨hfind, hp, hkey, howned, hbit⟩ := h.fetched ht hfetch
  obtain ⟨hsince, hdstat⟩ := hcount hpair.1 hpair.2
  have hframe := fetchTrace_frame hfetch
  have hledger : ledger (recs ++ [(s.mem t).bit]) =
      { ledger recs with
        stored := update (ledger recs).stored (s.mem t).bit.traceKey none
        matched := (ledger recs).matched ++
          [(Ledger.older (s.mem p).bit (s.mem t).bit,
            Ledger.younger (s.mem p).bit (s.mem t).bit)] } := by
    rw [ledger_snoc, Ledger.meet, hfind]
    exact if_pos ⟨older_lt_younger hsince, hpair⟩
  have haccount := @account_eq { s' with matchCount := s'.matchCount + 1 } calls _ _
    (d2c_ne_zero hsince) (by rw [hframe]; exact hdstat)
  rw [doTrace_fetched hfetch hbit, if_pos hpair, haccount, Option.elim_some]
  dsimp only
  generalize hcounted : ({ s' with
    matchCount := s'.matchCount + 1
    dstat := fun device => accountPair device (s'.dstat device)
      (Ledger.older (s.mem p).bit (s.mem t).bit,
        Ledger.younger (s.mem p).bit (s.mem t).bit) } : Monitor) = counted
  have hfree := freeTrace_frame counted p
  have hdstat : counted.dstat = fun device => accountPair device (s.dstat device)
      (Ledger.older (s.mem p).bit (s.mem t).bit,
        Ledger.younger (s.mem p).bit (s.mem t).bit) := by
    rw [← hcounted, hframe]
  have hmatchCount : counted.matchCount = s.matchCount + 1 := by
    rw [← hcounted, hframe]
  have hmismatch : counted.mismatch = s.mismatch := by
    rw [← hcounted, hframe]
  have howned' : counted.Owned (stored.erase p) [p, t] := by
    rw [← hcounted]
    exact howned.same rfl rfl rfl rfl rfl
  have hbit' : ∀ q, (counted.mem q).bit = (s.mem q).bit := by
    rw [← hcounted]
    exact hbit
  refine ⟨howned'.freeTrace.same rfl rfl rfl rfl rfl, ?_, ?_, ?_, ?_, ?_⟩
  · rw [hledger, hkey]
    refine (h.table.erase hp).congr fun q hq => ?_
    exact (bit_freeTrace counted p q).trans (hbit' q)
  · intro device
    rw [hledger, hfree]
    dsimp only
    rw [statOf_snoc, ← h.stat device, hdstat]
  · rw [hledger, hfree]
    dsimp only
    rw [hmatchCount, h.matchCount, List.length_append]
    rfl
  · rw [hledger, hfree]
    exact hmismatch.trans h.mismatch
  · have hcard := Finset.card_erase_add_one hp
    have hcount := h.count
    rw [hfree, List.length_append, List.length_singleton]
    dsimp only
    rw [hmatchCount, hmismatch]
    omega

theorem Matching.mismatched (h : Matching recs stored s) (ht : s.t = some t)
    (hfetch : s.blkiomonFetchTrace (s.mem t).bit = some (s', p))
    (hpair : ¬ (isIssue (Ledger.older (s.mem p).bit (s.mem t).bit) ∧
      isComplete (Ledger.younger (s.mem p).bit (s.mem t).bit))) :
    ∃ stored', Matching (recs ++ [(s.mem t).bit]) stored' (s.blkiomonDoTrace t calls) := by
  obtain ⟨hfind, hp, hkey, howned, hbit⟩ := h.fetched ht hfetch
  have hframe := fetchTrace_frame hfetch
  have hledger : ledger (recs ++ [(s.mem t).bit]) =
      { ledger recs with
        stored := update (ledger recs).stored (s.mem t).bit.traceKey
          (some (Ledger.younger (s.mem p).bit (s.mem t).bit))
        mismatched := (ledger recs).mismatched + 1 } := by
    rw [ledger_snoc, Ledger.meet, hfind]
    exact if_neg fun hall => hpair hall.2
  generalize hcounted : ({ s' with mismatch := s'.mismatch + 1 } : Monitor) = counted
  have howned' : counted.Owned (stored.erase p) [p, t] := by
    rw [← hcounted]
    exact howned.same rfl rfl rfl rfl rfl
  have hbit' : ∀ q, (counted.mem q).bit = (s.mem q).bit := by
    rw [← hcounted]
    exact hbit
  have ht' : t ∉ stored := by
    have hall := h.owned
    rw [ht] at hall
    exact hall.notMem_stored (List.mem_singleton_self t)
  have hcard := Finset.card_erase_add_one hp
  -- whichever of the two is kept, the other one is what the loop goes on with
  have hkeep : ∀ young old, young ∉ stored.erase p → counted.Owned (stored.erase p) [young, old] →
      (s.mem young).bit = Ledger.younger (s.mem p).bit (s.mem t).bit →
      (s.mem young).bit.traceKey = (s.mem p).bit.traceKey →
      Matching (recs ++ [(s.mem t).bit]) (insert young (stored.erase p))
        { counted.blkiomonStoreTrace young with t := some old } := by
    intro young old hyoung hholds hval hyoungKey
    refine ⟨hholds.storeTrace.same rfl rfl rfl rfl rfl, ?_, ?_, ?_, ?_, ?_⟩
    · rw [hledger, ← hval, hkey]
      refine (h.table.replace hp hyoungKey).congr fun q hq => ?_
      exact (bit_setNext counted young q _).trans (hbit' q)
    · intro device
      rw [hledger, ← h.stat device]
      change counted.dstat device = _
      rw [← hcounted, hframe]
    · rw [hledger, ← h.matchCount]
      change counted.matchCount = _
      rw [← hcounted, hframe]
    · rw [hledger]
      change counted.mismatch = _
      rw [← hcounted, hframe]
      push_cast
      rw [h.mismatch]
    · have hcount := h.count
      rw [Finset.card_insert_of_notMem hyoung, hcard, List.length_append, List.length_singleton]
      change _ = (stored.card : ℤ) + 2 * counted.matchCount + counted.mismatch
      rw [← hcounted, hframe]
      push_cast
      omega
  rw [doTrace_fetched hfetch hbit, if_neg hpair, hcounted]
  by_cases hlt : (s.mem p).bit.time < (s.mem t).bit.time
  · rw [if_pos hlt, if_pos hlt]
    refine ⟨_, hkeep t p (fun hmem => ht' (Finset.mem_of_mem_erase hmem)) howned'.swap ?_ hkey⟩
    rw [Ledger.younger, if_pos hlt]
  · rw [if_neg hlt, if_neg hlt]
    refine ⟨_, hkeep p t (Finset.notMem_erase p stored) howned' ?_ rfl⟩
    rw [Ledger.younger, if_neg hlt]

theorem account_ne (stat : BlkiomonStat) (d c : BlkIoTraceRecord) : stat.account d c ≠ stat := by
  intro h
  have hhist := congrFun (congrArg BlkiomonStat.d2cHist h) (d2cHist.index (d2c d c).toUInt32)
  rw [stat.account_d2cHist, Histlog2.account, update_self] at hhist
  simp at hhist

theorem accountPair_ne (stat : Option BlkiomonStat) (d c : BlkIoTraceRecord) :
    accountPair d.device stat (d, c) ≠ stat := by
  rw [accountPair, if_pos rfl]
  cases stat with
  | none => exact Option.some_ne_none _
  | some stat => exact fun h => account_ne stat d c (Option.some.inj h)

theorem Matching.missed (h : Matching recs stored s) (ht : s.t = some t)
    (hfetch : s.blkiomonFetchTrace (s.mem t).bit = some (s', p))
    (hcount : ¬ s.Countable calls (s.mem p).bit (s.mem t).bit) {stored' : Finset Ptr} :
    ¬ Matching (recs ++ [(s.mem t).bit]) stored' (s.blkiomonDoTrace t calls) := by
  obtain ⟨hfind, hp, hkey, -, hbit⟩ := h.fetched ht hfetch
  have hframe := fetchTrace_frame hfetch
  simp only [Countable, Classical.not_imp, not_and, not_or] at hcount
  obtain ⟨hissue, hcomplete, hmiss⟩ := hcount
  have hle : (Ledger.older (s.mem p).bit (s.mem t).bit).time.toNat ≤
      (Ledger.younger (s.mem p).bit (s.mem t).bit).time.toNat := by
    rw [Ledger.older, Ledger.younger]
    split_ifs with hlt
    · exact (UInt64.lt_iff_toNat_lt.mp hlt).le
    · exact UInt64.le_iff_toNat_le.mp (UInt64.not_lt.mp hlt)
  -- what is wrong with the statistics where the ledger has a match
  have hstuck : ∀ next : Monitor, next.dstat = s.dstat →
      (Ledger.older (s.mem p).bit (s.mem t).bit).time <
        (Ledger.younger (s.mem p).bit (s.mem t).bit).time →
      ¬ Matching (recs ++ [(s.mem t).bit]) stored' next := by
    intro next hdstat hlt hnext
    have hstat := hnext.stat (Ledger.older (s.mem p).bit (s.mem t).bit).device
    rw [ledger_snoc, Ledger.meet, hfind] at hstat
    dsimp only at hstat
    rw [if_pos ⟨hlt, hissue, hcomplete⟩] at hstat
    dsimp only at hstat
    rw [statOf_snoc, ← h.stat, hdstat] at hstat
    exact accountPair_ne _ _ _ hstat.symm
  rw [doTrace_fetched hfetch hbit, if_pos ⟨hissue, hcomplete⟩, blkiomonAccount]
  by_cases hd2c : d2c (Ledger.older (s.mem p).bit (s.mem t).bit)
      (Ledger.younger (s.mem p).bit (s.mem t).bit) = 0
  · rw [if_pos hd2c, Option.elim_none]
    by_cases hlt : (Ledger.older (s.mem p).bit (s.mem t).bit).time <
        (Ledger.younger (s.mem p).bit (s.mem t).bit).time
    · exact hstuck _ (by rw [hframe]) hlt
    · intro hnext
      have hmatchCount := hnext.matchCount
      have hold := h.matchCount
      rw [ledger_snoc, Ledger.meet, hfind, hframe] at hmatchCount
      dsimp only at hmatchCount
      rw [if_neg (fun hall => hlt hall.1)] at hmatchCount
      dsimp only at hmatchCount
      omega
  · have hsince : (Ledger.older (s.mem p).bit (s.mem t).bit).time.toNat + 1000 ≤
        (Ledger.younger (s.mem p).bit (s.mem t).bit).time.toNat := by
      by_contra hlt
      refine hd2c (UInt64.toNat_inj.mp ?_)
      rw [d2c, UInt64.toNat_div, UInt64.toNat_sub_of_le _ _ (UInt64.le_iff_toNat_le.mpr hle),
        show (1000 : UInt64).toNat = 1000 from rfl, show (0 : UInt64).toNat = 0 from rfl]
      omega
    obtain ⟨hnew, hdstat⟩ := hmiss hsince
    have hnone : s'.dstat (Ledger.older (s.mem p).bit (s.mem t).bit).device = none := by
      rw [hframe]
      exact Option.not_isSome_iff_eq_none.mp hdstat
    rw [if_neg hd2c, hnone]
    dsimp only
    rw [if_neg hnew, Option.elim_some]
    refine hstuck _ ?_ (older_lt_younger hsince)
    have hsame : s'.dstat = s.dstat := by
      rw [hframe]
    dsimp only
    rw [freeTrace_frame]
    exact hsame

structure ReadInto (s : Monitor) (t : Ptr) (read : Monitor) : Prop where
  mem : ∀ p, p ≠ t → read.mem p = s.mem p
  frame : read = { s with
    mem := read.mem
    dataIsNative := read.dataIsNative
    driverdata := read.driverdata
    sequence := read.sequence }

theorem ReadInto.setBit {read : Monitor} (h : s.ReadInto t read) (bit : BlkIoTraceRecord) :
    s.ReadInto t (read.setBit t bit) where
  mem p hp := (update_of_ne hp _ _).trans (h.mem p hp)
  frame := by
    conv_lhs => rw [h.frame]
    rfl

theorem ReadInto.native {read : Monitor} (h : s.ReadInto t read) (n : ℤ) :
    s.ReadInto t { read with dataIsNative := n } where
  mem := h.mem
  frame := by
    conv_lhs => rw [h.frame]

theorem ReadInto.sequence {read : Monitor} (h : s.ReadInto t read) :
    s.ReadInto t { read with
      mem := update read.mem t { read.mem t with sequence := read.sequence }
      sequence := read.sequence + 1 } where
  mem p hp := (update_of_ne hp _ _).trans (h.mem p hp)
  frame := by
    conv_lhs => rw [h.frame]

theorem ReadInto.driverdata {read : Monitor} (h : s.ReadInto t read) :
    s.ReadInto t { read with driverdata := read.driverdata + 1 } where
  mem := h.mem
  frame := by
    conv_lhs => rw [h.frame]

theorem doFifo_cases {host : Endian} {turn : FifoTurn}
    (h : s.blkiomonDoFifo host turn = some s') :
    ∃ t read, s.t = some t ∧ s.ReadInto t read ∧
      ((processed host (s, turn, s') = none ∧ (s' = read ∨ s' = read.stop t)) ∨
        ∃ calls, turn.calls = some calls ∧ (∀ q, calls.newTrace = some q → q ∉ s.allocated) ∧
          processed host (s, turn, s') = some (read.mem t).bit ∧
          s' = read.blkiomonDoTrace t calls) := by
  have hself : ∀ t, s.ReadInto t s := fun t => ⟨fun _ _ => rfl, rfl⟩
  unfold blkiomonDoFifo at h
  split at h
  · cases h
  · rename_i t ht
    cases h
    exact ⟨t, s, ht, hself t, .inl ⟨rfl, .inr rfl⟩⟩
  · rename_i t raw calls ht
    split at h
    · cases h
    rename_i hnew
    have hfresh : ∀ q, calls.newTrace = some q → q ∉ s.allocated :=
      fun q hq hmem => hnew ⟨q, hmem, hq⟩
    dsimp only at h
    split at h
    · rename_i hnative
      cases h
      exact ⟨t, _, ht, (hself t).setBit raw, .inl ⟨if_pos (.inl hnative), .inr rfl⟩⟩
    rename_i hnative
    have hread := (((hself t).setBit raw).setBit (traceToCpu host (s.native raw) raw)).native
      (s.native raw)
    split at h
    · rename_i hverify
      cases h
      exact ⟨t, _, ht, hread, .inl ⟨if_pos (.inr (.inl hverify)), .inr rfl⟩⟩
    rename_i hverify
    split at h
    · rename_i hpayload
      cases h
      exact ⟨t, _, ht, hread, .inl ⟨if_pos (.inr (.inr hpayload)), .inr rfl⟩⟩
    rename_i hpayload
    have hgood := fun hbad => Or.elim hbad hnative (Or.rec hverify hpayload)
    split at h
    · rename_i hdrv
      have hnone : processed host (s, .trace raw calls, s') = none :=
        (if_neg hgood).trans (if_pos hdrv)
      split at h
      · cases h
        exact ⟨t, _, ht, hread.sequence.driverdata, .inl ⟨hnone, .inl rfl⟩⟩
      · cases h
        exact ⟨t, _, ht, hread.sequence.driverdata, .inl ⟨hnone, .inr rfl⟩⟩
    rename_i hdrv
    split at h
    · rename_i hclass
      cases h
      exact ⟨t, _, ht, hread.sequence,
        .inl ⟨((if_neg hgood).trans (if_neg hdrv)).trans (if_pos hclass), .inl rfl⟩⟩
    · rename_i hclass
      cases h
      refine ⟨t, _, ht, hread.sequence, .inr ⟨calls, rfl, hfresh, ?_, rfl⟩⟩
      refine (((if_neg hgood).trans (if_neg hdrv)).trans (if_neg hclass)).trans ?_
      simp [Monitor.setBit]

theorem Matching.read {read : Monitor} (h : Matching recs stored s) (ht : s.t = some t)
    (hread : s.ReadInto t read) : Matching recs stored read := by
  have howned := h.owned
  rw [ht] at howned
  have hframe := hread.frame
  have ht' : read.t = some t := by
    rw [hframe]
    exact ht
  refine ⟨?_, h.table.congr fun p hp => ?_, fun device => ?_, ?_, ?_, ?_⟩
  · rw [ht']
    refine howned.congr (fun p hp => hread.mem p fun heq => hp ?_) ?_ ?_ ?_
    · exact List.mem_singleton.mpr heq
    · rw [hframe]
      exact head_congr rfl rfl
    · rw [hframe]
    · rw [hframe]
  · have hne : p ≠ t := by
      rintro rfl
      exact howned.notMem_stored (List.mem_singleton_self p) hp
    rw [hread.mem p hne]
  · rw [hframe]
    exact h.stat device
  · rw [hframe]
    exact h.matchCount
  · rw [hframe]
    exact h.mismatch
  · rw [hframe]
    exact h.count

theorem Matching.stop (h : Matching recs stored s) (ht : s.t = some t) :
    Matching recs stored (s.stop t) := by
  have howned := h.owned
  rw [ht] at howned
  have hframe := freeTrace_frame s t
  refine ⟨howned.freeTrace.same rfl rfl rfl rfl rfl, ?_, ?_, ?_, ?_, ?_⟩
  · exact h.table.congr fun p _ => bit_freeTrace s t p
  · rw [Monitor.stop, hframe]
    exact h.stat
  · rw [Monitor.stop, hframe]
    exact h.matchCount
  · rw [Monitor.stop, hframe]
    exact h.mismatch
  · rw [Monitor.stop, hframe]
    exact h.count

theorem records_snoc (host : Endian) (steps : List MonitorStep) (step : MonitorStep) :
    records host (steps ++ [step]) = records host steps ++ (processed host step).toList := by
  rw [records, List.filterMap_append]
  congr 1

theorem Matching.sound_iff {host : Endian} {turn : FifoTurn} {read : Monitor}
    (h : Matching recs stored s) (ht : s.t = some t) (hread : s.ReadInto t read)
    (hcalls : turn.calls = some calls) (hbit : processed host (s, turn, s') = some bit) :
    Sound host (s, turn, s') ↔ ∀ p ∈ stored, (read.mem p).bit.traceKey = bit.traceKey →
      read.Countable calls (read.mem p).bit bit := by
  obtain ⟨lists, howned⟩ := h.owned
  have hmem : ∀ p ∈ stored, read.mem p = s.mem p := by
    intro p hp
    refine hread.mem p ?_
    rintro rfl
    have hheld := h.owned
    rw [ht] at hheld
    exact hheld.notMem_stored (List.mem_singleton_self p) hp
  have hdstat : read.dstat = s.dstat := by
    rw [hread.frame]
  have hcount : ∀ other, read.Countable calls other bit ↔ s.Countable calls other bit := by
    intro other
    rw [Countable, Countable, hdstat]
  refine ⟨fun hsound p hp hkey => ?_, fun hall bit' hbit' calls' hcalls' p hp hkey => ?_⟩
  · rw [hmem p hp] at hkey ⊢
    rw [hcount]
    exact hsound bit hbit calls hcalls p (howned.mem_leftover.mpr hp) hkey
  · obtain rfl := Option.some.inj (hbit.symm.trans hbit')
    obtain rfl := Option.some.inj (hcalls.symm.trans hcalls')
    have hp' := howned.mem_leftover.mp hp
    have hcountable := hall p hp'
    rw [hmem p hp', hcount] at hcountable
    exact hcountable hkey

theorem Matching.turn_iff {host : Endian} {turn : FifoTurn} (h : Matching recs stored s)
    (hturn : s.blkiomonDoFifo host turn = some s') :
    (∃ stored', Matching (recs ++ (processed host (s, turn, s')).toList) stored' s') ↔
      Sound host (s, turn, s') := by
  obtain ⟨t, read, ht, hread, ⟨hnone, hs'⟩ | ⟨calls, hcalls, hnew, hbit, hs'⟩⟩ :=
    doFifo_cases hturn
  · have hreadMatching := h.read ht hread
    rw [hnone, Option.toList_none, List.append_nil]
    refine iff_of_true ⟨stored, ?_⟩ fun bit hbit => ?_
    · obtain rfl | rfl := hs'
      · exact hreadMatching
      · refine hreadMatching.stop ?_
        rw [hread.frame]
        exact ht
    · rw [hnone] at hbit
      cases hbit
  have hall := h.read ht hread
  have ht' : read.t = some t := by
    rw [hread.frame]
    exact ht
  have hnew' : ∀ q, calls.newTrace = some q → q ∉ read.allocated := by
    rw [hread.frame]
    exact hnew
  rw [h.sound_iff ht hread hcalls hbit, hbit, Option.toList_some, hs']
  cases hfetch : read.blkiomonFetchTrace (read.mem t).bit with
  | none =>
    refine iff_of_true ⟨_, hall.store ht' hnew' hfetch⟩ fun p hp hkey => ?_
    exact absurd hkey (fetchTrace_none hall.owned hfetch p hp)
  | some fetched =>
    obtain ⟨next, p⟩ := fetched
    obtain ⟨-, hp, hkey, -⟩ := hall.fetched ht' hfetch
    have honly : (∀ q ∈ stored, (read.mem q).bit.traceKey = (read.mem t).bit.traceKey →
        read.Countable calls (read.mem q).bit (read.mem t).bit) ↔
        read.Countable calls (read.mem p).bit (read.mem t).bit := by
      refine ⟨fun hq => hq p hp hkey.symm, fun hcount q hq hqkey => ?_⟩
      rw [hall.table.unique q hq p hp (hqkey.trans hkey)]
      exact hcount
    rw [honly]
    by_cases hcount : read.Countable calls (read.mem p).bit (read.mem t).bit
    · refine iff_of_true ?_ hcount
      by_cases hpair : isIssue (Ledger.older (read.mem p).bit (read.mem t).bit) ∧
          isComplete (Ledger.younger (read.mem p).bit (read.mem t).bit)
      · exact ⟨_, hall.matched ht' hfetch hpair hcount⟩
      · exact hall.mismatched ht' hfetch hpair
    · refine iff_of_false ?_ hcount
      rintro ⟨stored', hmatching⟩
      exact hall.missed ht' hfetch hcount hmatching

abbrev Monitors (host : Endian) (steps : List MonitorStep) (s : Monitor) : Prop :=
  Run (fun s => ∃ t, s = start t) (fun s turn s' => s.blkiomonDoFifo host turn = some s') steps s

/-- Hash, free list, counters and statistics are what the records seen make them, after every turn
of the loop, as long as each match can be counted. -/
theorem matching_iff (host : Endian) (steps : List MonitorStep) (s : Monitor)
    (h : Monitors host steps s) :
    (∀ before step after, steps = before ++ step :: after →
      ∃ stored, Matching (records host (before ++ [step])) stored step.2.2) ↔
      ∀ step ∈ steps, Sound host step := by
  refine h.forall_iff_history (fun before s => ∃ stored, Matching (records host before) stored s)
    ?_ ?_ ?_
  · rintro s ⟨t, rfl⟩
    exact ⟨∅, matching_start t⟩
  · rintro before s turn s' ⟨stored, hs⟩ hturn hsound
    rw [records_snoc]
    exact (hs.turn_iff hturn).mpr hsound
  · rintro before s turn s' ⟨stored, hs⟩ hturn
    rw [records_snoc]
    exact hs.turn_iff hturn

def readTrace (category : UInt32) (time : UInt64) (newTrace : Ptr) : FifoTurn :=
  .trace ⟨⟨0x65617407, 1, time, blkTcAct (category ||| blkTcRead), 0x800010, 0⟩, 8, 4096, 1, 0, 0, 0, 0⟩
    { payload := true, dump := true, newTrace := some newTrace, newDstat := true }

theorem monitors_trySteps {turns : List FifoTurn} {s : Monitor} {steps : List MonitorStep}
    (h : Run.trySteps (blkiomonDoFifo .little) (start 0) turns = some (steps, s)) :
    Monitors .little steps s :=
  Run.trySteps_run (fun _ _ _ h => h) ⟨0, rfl⟩ h

theorem matching_pair :
    ∃ steps s, Monitors .little steps s ∧ s.matchCount = 1 ∧
      ∀ before step after, steps = before ++ step :: after →
        ∃ stored, Matching (records .little (before ++ [step])) stored step.2.2 := by
  have hrun := @monitors_trySteps
    [readTrace blkTcIssue 100 1, readTrace blkTcComplete 2100 2] _ _ rfl
  exact ⟨_, _, hrun, rfl, (matching_iff _ _ _ hrun).mpr (by decide +kernel)⟩

/-- A completion within a microsecond of its dispatch is counted as a match, and the division by the
time between them stops the program before any statistic is updated. -/
theorem fast_completion_stops :
    ∃ steps s, Monitors .little steps s ∧ s.matchCount = 1 ∧ s.dstat 0x800010 = none ∧ s.t = none ∧
      ¬ ∀ before step after, steps = before ++ step :: after →
        ∃ stored, Matching (records .little (before ++ [step])) stored step.2.2 := by
  have hrun := @monitors_trySteps
    [readTrace blkTcIssue 100 1, readTrace blkTcComplete 600 2] _ _ rfl
  refine ⟨_, _, hrun, rfl, rfl, rfl, fun hall => ?_⟩
  obtain ⟨stored, hlast⟩ := hall [_] _ [] rfl
  exact absurd (hlast.stat 0x800010) (Option.some_ne_none _).symm

end Monitor

end SBlktrace
