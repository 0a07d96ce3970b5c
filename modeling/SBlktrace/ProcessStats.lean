import SBlktrace.CounterSums
import Mathlib

namespace SBlktrace

open Function

def rot (x k : UInt32) : UInt32 := (x <<< k) ||| (x >>> (32 - k))

structure Jhash where
  a : UInt32
  b : UInt32
  c : UInt32

namespace Jhash

def mix (s : Jhash) : Jhash :=
  let ⟨a, b, c⟩ := s
  let a := (a - c) ^^^ rot c 4
  let c := c + b
  let b := (b - a) ^^^ rot a 6
  let a := a + c
  let c := (c - b) ^^^ rot b 8
  let b := b + a
  let a := (a - c) ^^^ rot c 16
  let c := c + b
  let b := (b - a) ^^^ rot a 19
  let a := a + c
  let c := (c - b) ^^^ rot b 4
  let b := b + a
  ⟨a, b, c⟩

def final (s : Jhash) : Jhash :=
  let ⟨a, b, c⟩ := s
  let c := (c ^^^ b) - rot b 14
  let a := (a ^^^ c) - rot c 11
  let b := (b ^^^ a) - rot a 25
  let c := (c ^^^ b) - rot b 16
  let a := (a ^^^ c) - rot c 4
  let b := (b ^^^ a) - rot a 14
  let c := (c ^^^ b) - rot b 24
  ⟨a, b, c⟩

def word (k : List UInt8) (i : ℕ) : UInt32 :=
  let byte (j : ℕ) : UInt32 := (k.getD (i + j) 0).toUInt32
  byte 0 + (byte 1 <<< 8) + (byte 2 <<< 16) + (byte 3 <<< 24)

def addBlock (s : Jhash) (k : List UInt8) : Jhash :=
  ⟨s.a + word k 0, s.b + word k 4, s.c + word k 8⟩

def blocks (s : Jhash) (k : List UInt8) : Jhash :=
  if 12 < k.length then blocks (s.addBlock k).mix (k.drop 12)
  else if k.length = 0 then s
  else (s.addBlock k).final
termination_by k.length
decreasing_by
  rw [List.length_drop]
  omega

end Jhash

def jhashGoldenRatio : UInt32 := 0xdeadbeef

def jhash (key : List UInt8) (initval : UInt32) : UInt32 :=
  let start := jhashGoldenRatio + UInt32.ofNat key.length + initval
  (Jhash.blocks ⟨start, start, start⟩ key).c

def jhash3words (a b c initval : UInt32) : UInt32 :=
  (Jhash.final ⟨a + (jhashGoldenRatio + initval), b + (jhashGoldenRatio + initval),
    c + (jhashGoldenRatio + initval)⟩).c

def jhash1word (a initval : UInt32) : UInt32 := jhash3words 0 0 a initval

def commOf (name : List UInt8) : List UInt8 := (name.takeWhile (· ≠ 0)).take 15

def unknownName : List UInt8 := [117, 110, 107, 110, 111, 119, 110]

structure ProcessPidMap where
  pid : UInt32
  comm : List UInt8

/-- The map that `ppm` points to never changes once it is made. -/
structure PerProcessInfo where
  ppm : ProcessPidMap
  ioStats : IoStats
  moreThanOne : Bool

structure CpuStats where
  device : UInt32
  cpu : UInt32
  ioStats : IoStats

structure PpiHash where
  ppiHashByPid : Bool
  ppmHashPid : UInt32 → ℕ
  ppiHashPid : UInt32 → ℕ
  ppiHashName : List UInt8 → ℕ

def jhashRandom : UInt32 := 0x3af5f2ee

def blkparseHash (ppiHashByPid : Bool) : PpiHash where
  ppiHashByPid := ppiHashByPid
  ppmHashPid pid := (jhash1word pid jhashRandom &&& 0xff).toNat
  ppiHashPid pid := (jhash1word pid jhashRandom &&& 0xff).toNat
  ppiHashName name := (jhash (name ++ List.replicate (16 - name.length) 0) jhashRandom &&& 0xff).toNat

/-- The places in `ppis` are the addresses of the entries, in the order in which they are made. The
statistics of the CPUs that no trace was accounted to are left out. -/
structure ProcessStats where
  cpus : List CpuStats
  ppmHashTable : ℕ → List ProcessPidMap
  ppis : List PerProcessInfo
  ppiHashTable : ℕ → List ℕ
  ppiList : List ℕ
  ppiListEntries : ℕ

def newProcessStats : ProcessStats := ⟨[], fun _ => [], [], fun _ => [], [], 0⟩

inductive ProcessEvent where
  | notify (pid : UInt32) (payload : List UInt8)
  | trace (t : BlkIoTraceRecord)
  | track (pid : UInt32)

namespace ProcessStats

variable (h : PpiHash) (st : ProcessStats)

def findPpm (pid : UInt32) : Option ProcessPidMap :=
  (st.ppmHashTable (h.ppmHashPid pid)).find? (·.pid = pid)

def addPpmHash (pid : UInt32) (name : List UInt8) : ProcessStats × ProcessPidMap :=
  match st.findPpm h pid with
  | some ppm => (st, ppm)
  | none =>
    let hashIdx := h.ppmHashPid pid
    let ppm : ProcessPidMap := ⟨pid, commOf name⟩
    ({ st with ppmHashTable := update st.ppmHashTable hashIdx (ppm :: st.ppmHashTable hashIdx) },
      ppm)

def findProcessName (pid : UInt32) : Option (List UInt8) := (st.findPpm h pid).map (·.comm)

def ppiHash (h : PpiHash) (ppm : ProcessPidMap) : ℕ :=
  if h.ppiHashByPid then h.ppiHashPid ppm.pid else h.ppiHashName ppm.comm

def addPpiToHash (i : ℕ) (ppm : ProcessPidMap) : ProcessStats :=
  let hashIdx := ppiHash h ppm
  { st with ppiHashTable := update st.ppiHashTable hashIdx (i :: st.ppiHashTable hashIdx) }

def addPpiToList (i : ℕ) : ProcessStats :=
  { st with ppiList := i :: st.ppiList, ppiListEntries := st.ppiListEntries + 1 }

def findPpiIn (hashIdx : ℕ) (p : ProcessPidMap → Bool) : Option ℕ :=
  (st.ppiHashTable hashIdx).find? fun i => (st.ppis[i]?).any (p ·.ppm)

def findPpiByName (name : List UInt8) : Option ℕ :=
  st.findPpiIn (h.ppiHashName name) (·.comm = name)

def findPpiByPid (pid : UInt32) : Option ℕ := st.findPpiIn (h.ppiHashPid pid) (·.pid = pid)

def markMoreThanOne (i : ℕ) (pid : UInt32) : ProcessStats :=
  { st with
    ppis := st.ppis.modify i fun ppi =>
      if ppi.ppm.pid ≠ pid then { ppi with moreThanOne := true } else ppi }

def findPpi (pid : UInt32) : ProcessStats × Option ℕ :=
  if h.ppiHashByPid then (st, st.findPpiByPid h pid)
  else
    match st.findProcessName h pid with
    | none => (st, none)
    | some name =>
      match st.findPpiByName h name with
      | none => (st, none)
      | some i => (st.markMoreThanOne i pid, some i)

def findProcessIoStats (pid : UInt32) : ProcessStats × ℕ :=
  match st.findPpi h pid with
  | (st, some i) => (st, i)
  | (st, none) =>
    let (st, ppm) := st.addPpmHash h pid unknownName
    let i := st.ppis.length
    let st : ProcessStats := { st with ppis := st.ppis ++ [⟨ppm, zeroIoStats, false⟩] }
    ((st.addPpiToHash h i ppm).addPpiToList i, i)

def accountCpu (device cpu : UInt32) (f : IoStats → IoStats) : List CpuStats → List CpuStats
  | [] => [⟨device, cpu, f zeroIoStats⟩]
  | pci :: pcis =>
    if pci.device = device ∧ pci.cpu = cpu then { pci with ioStats := f pci.ioStats } :: pcis
    else pci :: accountCpu device cpu f pcis

def accountPpi (i : ℕ) (f : IoStats → IoStats) : ProcessStats :=
  { st with ppis := st.ppis.modify i fun ppi => { ppi with ioStats := f ppi.ioStats } }

def accountPci (t : BlkIoTraceRecord) (f : IoStats → IoStats) : ProcessStats :=
  { st with cpus := accountCpu t.device t.cpu f st.cpus }

def account (t : BlkIoTraceRecord) (f : IoStats → IoStats) : ProcessStats :=
  let (st, i) := (st.accountPci t f).findProcessIoStats h t.pid
  st.accountPpi i f

def step : ProcessEvent → ProcessStats
  | .notify pid payload => (st.addPpmHash h pid payload).1
  | .trace t =>
    match t.accountOf with
    | none => st
    | some f => st.account h t f
  | .track pid => (st.addPpmHash h pid unknownName).1

def run (events : List ProcessEvent) : ProcessStats := events.foldl (step h) newProcessStats

def keyOf (h : PpiHash) (ppm : ProcessPidMap) : UInt32 ⊕ List UInt8 :=
  if h.ppiHashByPid then .inl ppm.pid else .inr ppm.comm

def ppms : List ProcessPidMap := st.ppis.map (·.ppm)

def keys : List (UInt32 ⊕ List UInt8) := st.ppms.map (keyOf h)

def wanted (pid : UInt32) : Option (UInt32 ⊕ List UInt8) :=
  if h.ppiHashByPid then some (.inl pid) else (st.findProcessName h pid).map .inr

structure Chained : Prop where
  list : st.ppiList = (List.range st.ppms.length).reverse
  hash : ∀ b, st.ppiHashTable b =
    ((List.range st.ppms.length).filter fun i => (st.ppms[i]?).any (ppiHash h · = b)).reverse

variable {h st} {pid : UInt32}

theorem findPpm_pid {ppm : ProcessPidMap} (hppm : st.findPpm h pid = some ppm) : ppm.pid = pid := by
  simpa using List.find?_some hppm

theorem addPpmHash_eq (pid : UInt32) (name : List UInt8) :
    ∃ table, st.addPpmHash h pid name =
        ({ st with ppmHashTable := table }, (st.findPpm h pid).getD ⟨pid, commOf name⟩) ∧
      ∀ p, ProcessStats.findPpm h { st with ppmHashTable := table } p =
        (st.findPpm h p).or (if pid = p then some ⟨pid, commOf name⟩ else none) := by
  unfold addPpmHash
  cases hppm : st.findPpm h pid with
  | some ppm =>
    refine ⟨st.ppmHashTable, rfl, fun p => ?_⟩
    change st.findPpm h p = _
    split
    case isTrue hp => rw [← hp, hppm]; rfl
    case isFalse => rw [Option.or_none]
  | none =>
    refine ⟨_, rfl, fun p => ?_⟩
    unfold findPpm at hppm ⊢
    dsimp only
    by_cases hp : pid = p
    · subst hp
      rw [update_self, hppm, List.find?_cons, if_pos rfl]
      simp
    · rw [if_neg hp, Option.or_none]
      by_cases hhash : h.ppmHashPid p = h.ppmHashPid pid
      · rw [hhash, update_self, List.find?_cons]
        simp [hp]
      · rw [update_of_ne hhash]

theorem findPpiIn_some {b i : ℕ} {p : ProcessPidMap → Bool} (hi : st.findPpiIn b p = some i) :
    ∃ ppm, st.ppms[i]? = some ppm ∧ p ppm = true := by
  have hany := List.find?_some hi
  obtain ⟨ppi, hppi, hp⟩ := (Option.any_eq_true _ _).mp hany
  refine ⟨ppi.ppm, ?_, hp⟩
  rw [ppms, List.getElem?_map, hppi]
  rfl

theorem findPpiIn_none (hc : Chained h st) {b : ℕ} {p : ProcessPidMap → Bool}
    (hp : ∀ ppm, p ppm = true → ppiHash h ppm = b) (hi : st.findPpiIn b p = none) :
    ∀ ppm ∈ st.ppms, p ppm = false := by
  intro ppm hppm
  obtain ⟨i, hlt, hget⟩ := List.mem_iff_getElem.mp hppm
  have hsome : st.ppms[i]? = some ppm := by rw [List.getElem?_eq_getElem hlt, hget]
  by_contra hne
  have htrue : p ppm = true := by simpa using hne
  have hmem : i ∈ st.ppiHashTable b := by
    rw [hc.hash, List.mem_reverse, List.mem_filter]
    constructor
    · exact List.mem_range.mpr hlt
    · simpa [hsome] using hp ppm htrue
  have hnone := List.find?_eq_none.mp hi i hmem
  rw [ppms, List.getElem?_map] at hsome
  obtain ⟨ppi, hppi, rfl⟩ := Option.map_eq_some_iff.mp hsome
  simp [hppi, htrue] at hnone

theorem findPpi_snd (pid : UInt32) :
    (st.findPpi h pid).2 =
      (st.wanted h pid).bind (Sum.elim (st.findPpiByPid h) (st.findPpiByName h)) := by
  unfold findPpi wanted
  split
  case isTrue => rfl
  case isFalse =>
    cases st.findProcessName h pid with
    | none => rfl
    | some name =>
      change Prod.snd (match st.findPpiByName h name with
        | none => (st, none)
        | some i => (st.markMoreThanOne i pid, some i)) = st.findPpiByName h name
      cases st.findPpiByName h name with
      | none => rfl
      | some i => rfl

theorem findPpi_some {i : ℕ} (hi : (st.findPpi h pid).2 = some i) :
    ∃ k, st.wanted h pid = some k ∧ (st.keys h)[i]? = some k := by
  rw [findPpi_snd] at hi
  obtain ⟨k, hk, hfind⟩ := Option.bind_eq_some_iff.mp hi
  refine ⟨k, hk, ?_⟩
  unfold wanted at hk
  unfold keys
  rw [List.getElem?_map, Option.map_eq_some_iff]
  split at hk
  case isTrue hpid =>
    obtain rfl := Option.some.inj hk
    change st.findPpiByPid h pid = some i at hfind
    obtain ⟨ppm, hppm, hp⟩ := findPpiIn_some hfind
    exact ⟨ppm, hppm, by simpa [keyOf, hpid] using hp⟩
  case isFalse hpid =>
    obtain ⟨name, -, rfl⟩ := Option.map_eq_some_iff.mp hk
    change st.findPpiByName h name = some i at hfind
    obtain ⟨ppm, hppm, hp⟩ := findPpiIn_some hfind
    exact ⟨ppm, hppm, by simpa [keyOf, hpid] using hp⟩

theorem findPpi_none (hc : Chained h st) (hi : (st.findPpi h pid).2 = none) :
    ∀ k, st.wanted h pid = some k → k ∉ st.keys h := by
  rintro k hk hmem
  rw [findPpi_snd, hk] at hi
  unfold wanted at hk
  unfold keys at hmem
  obtain ⟨ppm, hppm, rfl⟩ := List.mem_map.mp hmem
  split at hk
  case isTrue hpid =>
    have hkey := Option.some.inj hk
    rw [keyOf, if_pos hpid] at hkey hi
    change st.findPpiByPid h ppm.pid = none at hi
    refine absurd (findPpiIn_none hc (fun q hq => ?_) hi ppm hppm) (by simp)
    have hq : q.pid = ppm.pid := by simpa using hq
    rw [ppiHash, if_pos hpid, hq]
  case isFalse hpid =>
    rw [keyOf, if_neg hpid] at hi
    change st.findPpiByName h ppm.comm = none at hi
    refine absurd (findPpiIn_none hc (fun q hq => ?_) hi ppm hppm) (by simp)
    have hq : q.comm = ppm.comm := by simpa using hq
    rw [ppiHash, if_neg hpid, hq]

theorem findPpi_fst_of_none (hi : (st.findPpi h pid).2 = none) : (st.findPpi h pid).1 = st := by
  unfold findPpi at hi ⊢
  split
  case isTrue => rfl
  case isFalse hpid =>
    rw [if_neg hpid] at hi
    cases hname : st.findProcessName h pid with
    | none => rfl
    | some name =>
      rw [hname] at hi
      dsimp only at hi ⊢
      cases hppi : st.findPpiByName h name with
      | none => rfl
      | some i => rw [hppi] at hi; cases hi

structure Marked (st st' : ProcessStats) : Prop where
  cpus : st'.cpus = st.cpus
  ppmHashTable : st'.ppmHashTable = st.ppmHashTable
  ppms : st'.ppms = st.ppms
  ioStats : st'.ppis.map (·.ioStats) = st.ppis.map (·.ioStats)
  ppiHashTable : st'.ppiHashTable = st.ppiHashTable
  ppiList : st'.ppiList = st.ppiList

theorem Marked.refl (st : ProcessStats) : Marked st st := ⟨rfl, rfl, rfl, rfl, rfl, rfl⟩

theorem map_modify {α β : Type} {φ : α → β} {f : β → β} {g : α → α} (hg : ∀ x, φ (g x) = f (φ x))
    (i : ℕ) (l : List α) : (l.modify i g).map φ = (l.map φ).modify i f := by
  apply List.ext_getElem?
  intro j
  rw [List.getElem?_map, List.getElem?_modify, List.getElem?_modify, List.getElem?_map]
  cases l[j]? with
  | none => rfl
  | some x =>
    change some (φ (if i = j then g x else x)) = some (if i = j then f (φ x) else φ x)
    split
    · rw [hg]
    · rfl

theorem map_modify_eq {α β : Type} {φ : α → β} {g : α → α} (hg : ∀ x, φ (g x) = φ x) (i : ℕ)
    (l : List α) : (l.modify i g).map φ = l.map φ := by
  rw [@map_modify α β φ id g hg, List.modify_id]

theorem markMoreThanOne_marked (st : ProcessStats) (i : ℕ) (pid : UInt32) :
    Marked st (st.markMoreThanOne i pid) where
  cpus := rfl
  ppmHashTable := rfl
  ppms := by
    apply map_modify_eq
    intro ppi
    split <;> rfl
  ioStats := by
    apply map_modify_eq
    intro ppi
    split <;> rfl
  ppiHashTable := rfl
  ppiList := rfl

theorem findPpi_fst (h : PpiHash) (st : ProcessStats) (pid : UInt32) :
    Marked st (st.findPpi h pid).1 := by
  unfold findPpi
  split
  case isTrue => exact Marked.refl st
  case isFalse =>
    cases st.findProcessName h pid with
    | none => exact Marked.refl st
    | some name =>
      dsimp only
      cases st.findPpiByName h name with
      | none => exact Marked.refl st
      | some i => exact markMoreThanOne_marked st i pid

theorem Chained.congr {st' : ProcessStats} (hc : Chained h st) (hppms : st'.ppms = st.ppms)
    (htable : st'.ppiHashTable = st.ppiHashTable) (hlist : st'.ppiList = st.ppiList) :
    Chained h st' where
  list := by rw [hlist, hppms, hc.list]
  hash := by
    intro b
    rw [htable, hppms, hc.hash]

structure Created (h : PpiHash) (st st' : ProcessStats) (ppm : ProcessPidMap) : Prop where
  cpus : st'.cpus = st.cpus
  ppms : st'.ppms = st.ppms ++ [ppm]
  ioStats : st'.ppis.map (·.ioStats) = st.ppis.map (·.ioStats) ++ [zeroIoStats]
  ppiHashTable : st'.ppiHashTable =
    update st.ppiHashTable (ppiHash h ppm) (st.ppms.length :: st.ppiHashTable (ppiHash h ppm))
  ppiList : st'.ppiList = st.ppms.length :: st.ppiList

theorem Created.chained {st' : ProcessStats} {ppm : ProcessPidMap} (hm : Created h st st' ppm)
    (hc : Chained h st) : Chained h st' where
  list := by
    rw [hm.ppiList, hm.ppms, List.length_append, List.length_singleton, List.range_succ,
      List.reverse_append, hc.list]
    rfl
  hash := by
    intro b
    have hlast : (st.ppms ++ [ppm])[st.ppms.length]? = some ppm := List.getElem?_concat_length
    have hrest : (List.range st.ppms.length).filter
          (fun i => ((st.ppms ++ [ppm])[i]?).any (ppiHash h · = b)) =
        (List.range st.ppms.length).filter fun i => (st.ppms[i]?).any (ppiHash h · = b) := by
      apply List.filter_congr
      intro i hi
      rw [List.getElem?_append_left (List.mem_range.mp hi)]
    rw [hm.ppiHashTable, hm.ppms, List.length_append, List.length_singleton, List.range_succ,
      List.filter_append, List.reverse_append, hrest, ← hc.hash, List.filter_singleton, hlast]
    by_cases hb : b = ppiHash h ppm
    · subst hb
      rw [update_self]
      simp
    · rw [update_of_ne hb]
      simp [Ne.symm hb]

def made (h : PpiHash) (st : ProcessStats) (pid : UInt32) : ProcessPidMap :=
  (st.findPpm h pid).getD ⟨pid, unknownName⟩

theorem findProcessIoStats_found {i : ℕ} (hi : (st.findPpi h pid).2 = some i) :
    (st.findProcessIoStats h pid) = ((st.findPpi h pid).1, i) := by
  unfold findProcessIoStats
  generalize st.findPpi h pid = found at hi ⊢
  obtain ⟨st', i'⟩ := found
  obtain rfl := hi
  rfl

theorem findProcessIoStats_created (hi : (st.findPpi h pid).2 = none) :
    (st.findProcessIoStats h pid).2 = st.ppms.length ∧
      Created h st (st.findProcessIoStats h pid).1 (st.made h pid) ∧
      ∀ p, (st.findProcessIoStats h pid).1.findPpm h p =
        (st.findPpm h p).or (if pid = p then some ⟨pid, unknownName⟩ else none) := by
  have hst := findPpi_fst_of_none hi
  obtain ⟨table, hadd, hfind⟩ := @addPpmHash_eq h st pid unknownName
  have hmade : (st.findPpm h pid).getD ⟨pid, commOf unknownName⟩ = st.made h pid := rfl
  have hres : st.findProcessIoStats h pid =
      (((ProcessStats.addPpiToHash h
        { st with
          ppmHashTable := table
          ppis := st.ppis ++ [⟨st.made h pid, zeroIoStats, false⟩] }
        st.ppis.length (st.made h pid)).addPpiToList st.ppis.length), st.ppis.length) := by
    unfold findProcessIoStats
    generalize st.findPpi h pid = found at hi hst ⊢
    obtain ⟨st', i'⟩ := found
    obtain rfl := hi
    obtain rfl := hst
    dsimp only
    rw [hadd, hmade]
  have hlen : st.ppms.length = st.ppis.length := List.length_map _
  rw [hres]
  refine ⟨hlen.symm, ⟨rfl, ?_, ?_, ?_, ?_⟩, ?_⟩
  · exact List.map_append
  · exact List.map_append
  · rw [hlen]
    rfl
  · rw [hlen]
    rfl
  · exact hfind

def SumsAgree (st : ProcessStats) : Prop :=
  (st.ppis.map (·.ioStats)).sum = (st.cpus.map (·.ioStats)).sum

theorem findProcessIoStats_spec (hc : Chained h st) (pid : UInt32) :
    Chained h (st.findProcessIoStats h pid).1 ∧
      (st.findProcessIoStats h pid).1.cpus = st.cpus ∧
      (st.findProcessIoStats h pid).2 < (st.findProcessIoStats h pid).1.ppis.length ∧
      ((st.findProcessIoStats h pid).1.ppis.map (·.ioStats)).sum =
        (st.ppis.map (·.ioStats)).sum := by
  cases hi : (st.findPpi h pid).2 with
  | some i =>
    have hm := findPpi_fst h st pid
    obtain ⟨k, -, hk⟩ := findPpi_some hi
    obtain ⟨hlt, -⟩ := List.getElem?_eq_some_iff.mp hk
    rw [findProcessIoStats_found hi]
    refine ⟨hc.congr hm.ppms hm.ppiHashTable hm.ppiList, hm.cpus, ?_, by rw [hm.ioStats]⟩
    have hlen := congrArg List.length hm.ppms
    simp only [keys, ppms, List.length_map] at hlt hlen
    exact hlt.trans_eq hlen.symm
  | none =>
    obtain ⟨hsnd, hm, -⟩ := findProcessIoStats_created hi
    refine ⟨hm.chained hc, hm.cpus, ?_, ?_⟩
    · have hlen := congrArg List.length hm.ppms
      simp only [ppms, List.length_map, List.length_append, List.length_singleton] at hlen hsnd
      omega
    · rw [hm.ioStats, List.sum_append, List.sum_singleton]
      apply add_zero

theorem sum_modify {f : IoStats → IoStats} (hf : IoStats.Translates f) {l : List IoStats} {i : ℕ}
    (hi : i < l.length) : (l.modify i f).sum = f l.sum := by
  induction l generalizing i with
  | nil => cases hi
  | cons ios l ih =>
    cases i with
    | zero => rw [List.modify_zero_cons, List.sum_cons, List.sum_cons, hf]
    | succ i =>
      have hlt : i < l.length := Nat.lt_of_succ_lt_succ hi
      rw [List.modify_succ_cons, List.sum_cons, List.sum_cons, ih hlt, hf.add_right]

theorem sum_accountCpu {f : IoStats → IoStats} (hf : IoStats.Translates f) (device cpu : UInt32)
    (cpus : List CpuStats) :
    ((accountCpu device cpu f cpus).map (·.ioStats)).sum = f (cpus.map (·.ioStats)).sum := by
  induction cpus with
  | nil => apply add_zero
  | cons pci pcis ih =>
    unfold accountCpu
    split
    · rw [List.map_cons, List.map_cons, List.sum_cons, List.sum_cons, hf]
    · rw [List.map_cons, List.map_cons, List.sum_cons, List.sum_cons, ih, hf.add_right]

theorem accountPpi_ppms (st : ProcessStats) (i : ℕ) (f : IoStats → IoStats) :
    (st.accountPpi i f).ppms = st.ppms := by
  apply map_modify_eq
  intro ppi
  rfl

theorem accountPpi_sum {f : IoStats → IoStats} (hf : IoStats.Translates f) {i : ℕ}
    (hi : i < st.ppis.length) :
    ((st.accountPpi i f).ppis.map (·.ioStats)).sum = f (st.ppis.map (·.ioStats)).sum := by
  have hmap : (st.accountPpi i f).ppis.map (·.ioStats) = (st.ppis.map (·.ioStats)).modify i f :=
    @map_modify PerProcessInfo IoStats (·.ioStats) f _ (fun _ => rfl) i st.ppis
  rw [hmap, sum_modify hf]
  rwa [List.length_map]

theorem account_spec {f : IoStats → IoStats} (hf : IoStats.Translates f) (hc : Chained h st)
    (ha : SumsAgree st) (t : BlkIoTraceRecord) :
    Chained h (st.account h t f) ∧ SumsAgree (st.account h t f) := by
  have hc' : Chained h (st.accountPci t f) := hc.congr rfl rfl rfl
  obtain ⟨hchained, hcpus, hlt, hsum⟩ := findProcessIoStats_spec hc' t.pid
  constructor
  · exact hchained.congr (accountPpi_ppms _ _ _) rfl rfl
  · unfold SumsAgree at ha ⊢
    calc ((st.account h t f).ppis.map (·.ioStats)).sum
        = f (((st.accountPci t f).findProcessIoStats h t.pid).1.ppis.map (·.ioStats)).sum :=
          accountPpi_sum hf hlt
      _ = f (st.ppis.map (·.ioStats)).sum := by rw [hsum]; rfl
      _ = f (st.cpus.map (·.ioStats)).sum := by rw [ha]
      _ = ((accountCpu t.device t.cpu f st.cpus).map (·.ioStats)).sum :=
          (sum_accountCpu hf t.device t.cpu st.cpus).symm
      _ = ((st.account h t f).cpus.map (·.ioStats)).sum := by
          have hcpu : (st.account h t f).cpus = accountCpu t.device t.cpu f st.cpus := hcpus
          rw [hcpu]

theorem step_trace_none {t : BlkIoTraceRecord} (hf : t.accountOf = none) :
    st.step h (.trace t) = st := by
  rw [step, hf]

theorem step_trace_some {t : BlkIoTraceRecord} {f : IoStats → IoStats}
    (hf : t.accountOf = some f) : st.step h (.trace t) = st.account h t f := by
  rw [step, hf]

theorem step_spec (hc : Chained h st) (ha : SumsAgree st) (e : ProcessEvent) :
    Chained h (st.step h e) ∧ SumsAgree (st.step h e) := by
  cases e with
  | notify pid payload =>
    obtain ⟨table, hadd, -⟩ := @addPpmHash_eq h st pid payload
    rw [step, hadd]
    exact ⟨hc.congr rfl rfl rfl, ha⟩
  | trace t =>
    cases hf : t.accountOf with
    | none =>
      rw [step_trace_none hf]
      exact ⟨hc, ha⟩
    | some f =>
      rw [step_trace_some hf]
      exact account_spec (BlkIoTraceRecord.accountOf_translates hf) hc ha t
  | track pid =>
    obtain ⟨table, hadd, -⟩ := @addPpmHash_eq h st pid unknownName
    rw [step, hadd]
    exact ⟨hc.congr rfl rfl rfl, ha⟩

theorem run_concat (h : PpiHash) (events : List ProcessEvent) (e : ProcessEvent) :
    run h (events ++ [e]) = (run h events).step h e :=
  List.foldl_concat _ _ _ _

theorem run_spec (h : PpiHash) (events : List ProcessEvent) :
    Chained h (run h events) ∧ SumsAgree (run h events) := by
  induction events using List.reverseRecOn with
  | nil => exact ⟨⟨rfl, fun _ => rfl⟩, rfl⟩
  | append_singleton events e ih =>
    rw [run_concat]
    exact step_spec ih.1 ih.2 e

section Cpus

def lookupCpu (device cpu : UInt32) (cpus : List CpuStats) : IoStats :=
  ((cpus.find? fun pci => pci.device = device ∧ pci.cpu = cpu).map (·.ioStats)).getD zeroIoStats

theorem lookupCpu_accountCpu (t : BlkIoTraceRecord) (f : IoStats → IoStats) (device cpu : UInt32)
    (cpus : List CpuStats) :
    lookupCpu device cpu (accountCpu t.device t.cpu f cpus) =
      if (StatsKey.cpu device cpu).concerns true t then f (lookupCpu device cpu cpus)
      else lookupCpu device cpu cpus := by
  have hconcerns : (StatsKey.cpu device cpu).concerns true t =
      decide (t.device = device ∧ t.cpu = cpu) := by simp [StatsKey.concerns]
  rw [hconcerns]
  induction cpus with
  | nil =>
    by_cases hcpu : t.device = device ∧ t.cpu = cpu
    · simp [accountCpu, lookupCpu, hcpu]
    · simp [accountCpu, lookupCpu, hcpu]
  | cons pci pcis ih =>
    unfold accountCpu
    split
    case isTrue hpci =>
      obtain ⟨hdevice, hcpu⟩ := hpci
      by_cases hkey : t.device = device ∧ t.cpu = cpu
      · simp [lookupCpu, hdevice, hcpu, hkey]
      · simp [lookupCpu, hdevice, hcpu, hkey]
    case isFalse hpci =>
      by_cases hkey : pci.device = device ∧ pci.cpu = cpu
      · have hne : ¬ (t.device = device ∧ t.cpu = cpu) := by
          rintro ⟨rfl, rfl⟩
          exact hpci hkey
        simp [lookupCpu, hkey, hne]
      · have hcons (pcis : List CpuStats) :
            lookupCpu device cpu (pci :: pcis) = lookupCpu device cpu pcis := by
          simp [lookupCpu, hkey]
        rw [hcons, hcons, ih]

def tracesIn (events : List ProcessEvent) : List BlkIoTraceRecord :=
  events.filterMap fun
    | .trace t => some t
    | _ => none

theorem lookupCpu_run (h : PpiHash) (events : List ProcessEvent) (device cpu : UInt32) :
    lookupCpu device cpu (run h events).cpus = statsOf true (.cpu device cpu) (tracesIn events) := by
  induction events using List.reverseRecOn with
  | nil => rfl
  | append_singleton events e ih =>
    rw [run_concat, tracesIn, List.filterMap_append]
    cases e with
    | notify pid payload =>
      obtain ⟨table, hadd, -⟩ := @addPpmHash_eq h (run h events) pid payload
      change _ = statsOf true _ (tracesIn events ++ [])
      rw [step, hadd, List.append_nil, ← ih]
    | track pid =>
      obtain ⟨table, hadd, -⟩ := @addPpmHash_eq h (run h events) pid unknownName
      change _ = statsOf true _ (tracesIn events ++ [])
      rw [step, hadd, List.append_nil, ← ih]
    | trace t =>
      change _ = statsOf true _ (tracesIn events ++ [t])
      rw [statsOf_concat, ← t.accountOf_getD, ← ih]
      cases hf : t.accountOf with
      | none =>
        rw [step_trace_none hf]
        exact (ite_self _).symm
      | some f =>
        have hc' : Chained h ((run h events).accountPci t f) := (run_spec h events).1.congr rfl rfl rfl
        obtain ⟨-, hcpus, -, -⟩ := findProcessIoStats_spec hc' t.pid
        have hcpu : ((run h events).account h t f).cpus =
            accountCpu t.device t.cpu f (run h events).cpus := hcpus
        rw [step_trace_some hf, hcpu, lookupCpu_accountCpu]
        rfl

end Cpus

def OnceEach (st : ProcessStats) : Prop :=
  ∀ i < st.ppis.length, st.ppiList.count i = 1 ∧
    ∃ b, (st.ppiHashTable b).count i = 1 ∧ ∀ b', b' ≠ b → i ∉ st.ppiHashTable b'

theorem Chained.onceEach (hc : Chained h st) : OnceEach st := by
  intro i hi
  have hlen : st.ppms.length = st.ppis.length := List.length_map _
  have hmem : i ∈ List.range st.ppms.length := by rwa [hlen, List.mem_range]
  constructor
  · rw [hc.list, List.count_reverse]
    exact List.count_eq_one_of_mem List.nodup_range hmem
  · have hget : st.ppms[i]? = some (st.ppis[i]).ppm := by
      rw [ppms, List.getElem?_map, List.getElem?_eq_getElem hi]
      rfl
    refine ⟨ppiHash h (st.ppis[i]).ppm, ?_, ?_⟩
    · rw [hc.hash, List.count_reverse]
      apply List.count_eq_one_of_mem (List.nodup_range.filter _)
      apply List.mem_filter.mpr
      exact ⟨hmem, by simp [hget]⟩
    · intro b hb hmem'
      rw [hc.hash, List.mem_reverse, List.mem_filter, hget] at hmem'
      have hb' : ppiHash h (st.ppis[i]).ppm = b := by simpa using hmem'.2
      exact hb hb'.symm

theorem account_keys (hc : Chained h st) (t : BlkIoTraceRecord) (f : IoStats → IoStats) :
    (∃ k, st.wanted h t.pid = some k ∧ k ∈ st.keys h ∧ (st.account h t f).keys h = st.keys h) ∨
      (∀ k, st.wanted h t.pid = some k → k ∉ st.keys h) ∧
        (st.account h t f).keys h = st.keys h ++ [keyOf h (st.made h t.pid)] := by
  have hc' : Chained h (st.accountPci t f) := hc.congr rfl rfl rfl
  have hkeys : (st.account h t f).keys h =
      ((st.accountPci t f).findProcessIoStats h t.pid).1.keys h :=
    congrArg (List.map (keyOf h)) (accountPpi_ppms _ _ _)
  rw [hkeys]
  cases hi : ((st.accountPci t f).findPpi h t.pid).2 with
  | some i =>
    obtain ⟨k, hk, hmem⟩ := findPpi_some hi
    refine Or.inl ⟨k, hk, List.mem_of_getElem? hmem, ?_⟩
    rw [findProcessIoStats_found hi]
    exact congrArg (List.map (keyOf h)) (findPpi_fst h (st.accountPci t f) t.pid).ppms
  | none =>
    obtain ⟨-, hm, -⟩ := findProcessIoStats_created hi
    have hnone := findPpi_none hc' hi
    refine Or.inr ⟨hnone, ?_⟩
    rw [keys, hm.ppms, List.map_append]
    rfl

theorem account_names (hname : h.ppiHashByPid = false) (t : BlkIoTraceRecord)
    (f : IoStats → IoStats) (pid : UInt32) :
    (st.account h t f).findProcessName h pid =
      (st.findProcessName h pid).or (if t.pid = pid then some unknownName else none) := by
  have hfind : (st.account h t f).findPpm h pid =
      ((st.accountPci t f).findProcessIoStats h t.pid).1.findPpm h pid := rfl
  unfold findProcessName
  rw [hfind]
  cases hi : ((st.accountPci t f).findPpi h t.pid).2 with
  | some i =>
    obtain ⟨k, hk, -⟩ := findPpi_some hi
    have hsame : ((st.accountPci t f).findProcessIoStats h t.pid).1.findPpm h pid =
        st.findPpm h pid := by
      rw [findProcessIoStats_found hi, findPpm,
        (findPpi_fst h (st.accountPci t f) t.pid).ppmHashTable]
      rfl
    rw [hsame]
    split
    case isTrue hpid =>
      -- The entry was found under the name, so the name is known.
      rw [wanted, if_neg (by simp [hname])] at hk
      obtain ⟨name, hknown, -⟩ := Option.map_eq_some_iff.mp hk
      have hknown' : (st.findPpm h pid).map (·.comm) = some name := hpid ▸ hknown
      rw [hknown', Option.some_or]
    case isFalse => rw [Option.or_none]
  | none =>
    obtain ⟨-, -, hppm⟩ := findProcessIoStats_created hi
    rw [hppm pid]
    change Option.map _ ((st.findPpm h pid).or _) = _
    cases st.findPpm h pid with
    | some ppm => rfl
    | none =>
      rw [Option.none_or, Option.map_none, Option.none_or]
      split
      · rfl
      · rfl

theorem addPpmHash_names (pid : UInt32) (name : List UInt8) (p : UInt32) :
    (st.addPpmHash h pid name).1.findProcessName h p =
      (st.findProcessName h p).or (if pid = p then some (commOf name) else none) := by
  obtain ⟨table, hadd, hfind⟩ := @addPpmHash_eq h st pid name
  unfold findProcessName
  rw [hadd, hfind]
  cases st.findPpm h p with
  | some ppm => rfl
  | none =>
    rw [Option.none_or, Option.map_none, Option.none_or]
    split
    · rfl
    · rfl

end ProcessStats

namespace ProcessEvent

def named (pid : UInt32) : ProcessEvent → Option (List UInt8)
  | .notify p payload => if p = pid then some (commOf payload) else none
  | .trace t => if t.accountOf.isSome then if t.pid = pid then some unknownName else none else none
  | .track p => if p = pid then some unknownName else none

def nameOf (events : List ProcessEvent) (pid : UInt32) : Option (List UInt8) :=
  events.findSome? (named pid)

theorem nameOf_concat (events : List ProcessEvent) (e : ProcessEvent) (pid : UInt32) :
    nameOf (events ++ [e]) pid = (nameOf events pid).or (e.named pid) := by
  rw [nameOf, List.findSome?_append]
  cases hname : e.named pid <;> simp [nameOf, hname]

theorem nameOf_of_mem {events : List ProcessEvent} {u : BlkIoTraceRecord}
    (hu : .trace u ∈ events) (hf : u.accountOf.isSome) : ∃ name, nameOf events u.pid = some name := by
  apply Option.isSome_iff_exists.mp
  apply List.findSome?_isSome_iff.mpr
  refine ⟨_, hu, ?_⟩
  rw [named, if_pos hf, if_pos rfl]
  rfl

theorem nameOf_concat_of_mem {events : List ProcessEvent} {u : BlkIoTraceRecord}
    (hu : .trace u ∈ events) (hf : u.accountOf.isSome) (e : ProcessEvent) :
    nameOf (events ++ [e]) u.pid = nameOf events u.pid := by
  obtain ⟨name, hname⟩ := nameOf_of_mem hu hf
  rw [nameOf_concat, hname, Option.some_or]

/-- No trace is accounted to a process that was not heard of before, after one that was accounted
to a process of the name `unknown`. -/
def FirstUnknown (events : List ProcessEvent) : Prop :=
  ∀ es t, es ++ [.trace t] <+: events → t.accountOf.isSome → nameOf es t.pid = none →
    ∀ u, .trace u ∈ es → u.accountOf.isSome → nameOf es u.pid ≠ some unknownName

theorem firstUnknown_concat (events : List ProcessEvent) (e : ProcessEvent) :
    FirstUnknown (events ++ [e]) ↔ FirstUnknown events ∧
      ∀ t, e = .trace t → t.accountOf.isSome → nameOf events t.pid = none →
        ∀ u, .trace u ∈ events → u.accountOf.isSome → nameOf events u.pid ≠ some unknownName := by
  constructor
  · intro hfirst
    constructor
    · intro es t hes
      exact hfirst es t (hes.trans (List.prefix_append _ _))
    · rintro t rfl
      exact hfirst events t (List.prefix_refl _)
  · rintro ⟨hfirst, hlast⟩ es t hes
    obtain heq | hes := List.prefix_concat_iff.mp hes
    · obtain ⟨rfl, he⟩ := List.append_inj' heq rfl
      exact hlast t (List.singleton_inj.mp he).symm
    · exact hfirst es t hes

end ProcessEvent

namespace ProcessStats

open ProcessEvent

variable {h : PpiHash} {st : ProcessStats}

theorem run_names (hname : h.ppiHashByPid = false) (events : List ProcessEvent) (pid : UInt32) :
    (run h events).findProcessName h pid = nameOf events pid := by
  induction events using List.reverseRecOn with
  | nil => rfl
  | append_singleton events e ih =>
    rw [run_concat, nameOf_concat, ← ih]
    cases e with
    | notify p payload => apply addPpmHash_names
    | track p => apply addPpmHash_names
    | trace t =>
      cases hf : t.accountOf with
      | none =>
        rw [step_trace_none hf, named, hf]
        exact Option.or_none.symm
      | some f =>
        rw [step_trace_some hf, account_names hname, named, hf]
        rfl

theorem made_pid (st : ProcessStats) (pid : UInt32) : (st.made h pid).pid = pid := by
  unfold made
  cases hppm : st.findPpm h pid with
  | none => rfl
  | some ppm => exact findPpm_pid hppm

theorem made_comm (st : ProcessStats) (pid : UInt32) :
    (st.made h pid).comm = (st.findProcessName h pid).getD unknownName := by
  unfold made findProcessName
  cases st.findPpm h pid with
  | none => rfl
  | some ppm => rfl

theorem step_keys (st : ProcessStats) {e : ProcessEvent}
    (he : ∀ t, e = .trace t → t.accountOf = none) : (st.step h e).keys h = st.keys h := by
  cases e with
  | notify pid payload =>
    obtain ⟨table, hadd, -⟩ := @addPpmHash_eq h st pid payload
    rw [step, hadd]
    rfl
  | trace t => rw [step_trace_none (he t rfl)]
  | track pid =>
    obtain ⟨table, hadd, -⟩ := @addPpmHash_eq h st pid unknownName
    rw [step, hadd]
    rfl

theorem nodup_concat {α : Type} {x : α} {l : List α} : (l ++ [x]).Nodup ↔ x ∉ l ∧ l.Nodup :=
  List.nodup_append_comm.trans List.nodup_cons

theorem nodup_keys_of_pid (hpid : h.ppiHashByPid = true) (events : List ProcessEvent) :
    ((run h events).keys h).Nodup := by
  induction events using List.reverseRecOn with
  | nil => exact List.nodup_nil
  | append_singleton events e ih =>
    rw [run_concat]
    by_cases he : ∀ t, e = .trace t → t.accountOf = none
    · rwa [step_keys _ he]
    push Not at he
    obtain ⟨t, rfl, hne⟩ := he
    obtain ⟨f, hf⟩ := Option.ne_none_iff_exists'.mp hne
    rw [step_trace_some hf]
    obtain ⟨k, -, -, hkeys⟩ | ⟨hnone, hkeys⟩ := account_keys (run_spec h events).1 t f
    · rwa [hkeys]
    · rw [hkeys, nodup_concat]
      refine ⟨?_, ih⟩
      apply hnone
      rw [wanted, if_pos hpid, keyOf, if_pos hpid, made_pid]

section ByName

variable (hname : h.ppiHashByPid = false) (events : List ProcessEvent)

include hname

theorem wanted_of_name (pid : UInt32) :
    (run h events).wanted h pid = (nameOf events pid).map .inr := by
  rw [wanted, if_neg (by simp [hname]), run_names hname]

theorem keyOf_made (pid : UInt32) :
    keyOf h ((run h events).made h pid) = .inr ((nameOf events pid).getD unknownName) := by
  rw [keyOf, if_neg (by simp [hname]), made_comm, run_names hname]

theorem mem_keys_iff (name : List UInt8) :
    .inr name ∈ (run h events).keys h ↔
      ∃ u, .trace u ∈ events ∧ u.accountOf.isSome ∧ nameOf events u.pid = some name := by
  induction events using List.reverseRecOn with
  | nil => simp [run, newProcessStats, keys, ppms]
  | append_singleton events e ih =>
    have hold : (∃ u, .trace u ∈ events ∧ u.accountOf.isSome ∧
          nameOf (events ++ [e]) u.pid = some name) ↔
        .inr name ∈ (run h events).keys h := by
      rw [ih]
      apply exists_congr
      intro u
      apply and_congr_right
      intro hu
      apply and_congr_right
      intro hf
      rw [nameOf_concat_of_mem hu hf]
    have hnew : (∃ u, .trace u ∈ events ++ [e] ∧ u.accountOf.isSome ∧
          nameOf (events ++ [e]) u.pid = some name) ↔
        .inr name ∈ (run h events).keys h ∨
          ∃ u, e = .trace u ∧ u.accountOf.isSome ∧ nameOf (events ++ [e]) u.pid = some name := by
      rw [← hold, ← exists_or]
      apply exists_congr
      intro u
      rw [List.mem_append, List.mem_singleton, eq_comm, or_and_right]
    rw [hnew, run_concat]
    by_cases he : ∀ t, e = .trace t → t.accountOf = none
    · rw [step_keys _ he]
      constructor
      · exact Or.inl
      · rintro (hmem | ⟨u, hu, hf, -⟩)
        · exact hmem
        · rw [he u hu] at hf
          cases hf
    push Not at he
    obtain ⟨t, rfl, hne⟩ := he
    obtain ⟨f, hf⟩ := Option.ne_none_iff_exists'.mp hne
    have hlast : (∃ u, ProcessEvent.trace t = .trace u ∧ u.accountOf.isSome ∧
          nameOf (events ++ [.trace t]) u.pid = some name) ↔
        (nameOf events t.pid).getD unknownName = name := by
      have hfound : nameOf (events ++ [.trace t]) t.pid =
          some ((nameOf events t.pid).getD unknownName) := by
        rw [nameOf_concat, named, hf]
        cases nameOf events t.pid <;> simp
      constructor
      · rintro ⟨u, hu, -, hnameOf⟩
        obtain rfl := ProcessEvent.trace.inj hu
        rw [hfound] at hnameOf
        exact Option.some.inj hnameOf
      · rintro rfl
        exact ⟨t, rfl, by rw [hf]; rfl, hfound⟩
    rw [step_trace_some hf, hlast]
    obtain ⟨k, hk, hmem, hkeys⟩ | ⟨-, hkeys⟩ := account_keys (run_spec h events).1 t f
    · rw [hkeys]
      rw [wanted_of_name hname] at hk
      obtain ⟨known, hknown, rfl⟩ := Option.map_eq_some_iff.mp hk
      rw [hknown]
      constructor
      · exact Or.inl
      · rintro (hmem' | rfl)
        · exact hmem'
        · exact hmem
    · rw [hkeys, keyOf_made hname, List.mem_append, List.mem_singleton, Sum.inr.injEq]
      exact or_congr_right eq_comm

theorem nodup_keys_iff : ((run h events).keys h).Nodup ↔ FirstUnknown events := by
  induction events using List.reverseRecOn with
  | nil =>
    constructor
    · intro _ es t hes
      simp at hes
    · intro _
      exact List.nodup_nil
  | append_singleton events e ih =>
    rw [run_concat, firstUnknown_concat, ← ih]
    by_cases he : ∀ t, e = .trace t → t.accountOf = none
    · rw [step_keys _ he]
      constructor
      · intro hnodup
        refine ⟨hnodup, fun t ht hf => ?_⟩
        rw [he t ht] at hf
        cases hf
      · exact And.left
    push Not at he
    obtain ⟨t, rfl, hne⟩ := he
    obtain ⟨f, hf⟩ := Option.ne_none_iff_exists'.mp hne
    have hlast : (∀ t', ProcessEvent.trace t = .trace t' → t'.accountOf.isSome →
          nameOf events t'.pid = none → ∀ u, .trace u ∈ events → u.accountOf.isSome →
            nameOf events u.pid ≠ some unknownName) ↔
        (nameOf events t.pid = none → .inr unknownName ∉ (run h events).keys h) := by
      rw [mem_keys_iff hname]
      constructor
      · rintro hlast hnone ⟨u, hu, hu', hnameOf⟩
        exact hlast t rfl (by rw [hf]; rfl) hnone u hu hu' hnameOf
      · rintro hlast t' ht' - hnone u hu hu' hnameOf
        obtain rfl := ProcessEvent.trace.inj ht'
        exact hlast hnone ⟨u, hu, hu', hnameOf⟩
    rw [step_trace_some hf, hlast]
    obtain ⟨k, hk, hmem, hkeys⟩ | ⟨hnone, hkeys⟩ := account_keys (run_spec h events).1 t f
    · rw [hkeys]
      rw [wanted_of_name hname] at hk
      obtain ⟨known, hknown, -⟩ := Option.map_eq_some_iff.mp hk
      rw [hknown]
      simp
    · rw [hkeys, nodup_concat, keyOf_made hname, and_comm]
      apply and_congr_right
      intro hnodup
      cases hknown : nameOf events t.pid with
      | none => simp
      | some known =>
        have hmem := hnone (.inr known) (by rw [wanted_of_name hname, hknown]; rfl)
        simpa using hmem

end ByName

def KeysUnique (h : PpiHash) (st : ProcessStats) : Prop :=
  (st.ppis.map fun ppi => keyOf h ppi.ppm).Nodup

theorem keysUnique_eq (h : PpiHash) (st : ProcessStats) :
    KeysUnique h st ↔ (st.keys h).Nodup := by
  rw [KeysUnique, keys, ppms, List.map_map]
  rfl

theorem keysUnique_run_iff (h : PpiHash) (events : List ProcessEvent) :
    KeysUnique h (run h events) ↔ h.ppiHashByPid = true ∨ FirstUnknown events := by
  rw [keysUnique_eq]
  cases hpid : h.ppiHashByPid with
  | true => simpa using nodup_keys_of_pid hpid events
  | false => simpa using nodup_keys_iff hpid events

/-- The statistics of the processes always add up to those of the CPUs, and every entry can be
found. By name the entries are told apart by their keys just if a process that was never announced
is not the second one that `unknown` stands for. -/
theorem process_stats_add_up_iff (h : PpiHash) (events : List ProcessEvent) :
    (SumsAgree (run h events) ∧ OnceEach (run h events) ∧ KeysUnique h (run h events)) ↔
      h.ppiHashByPid = true ∨ FirstUnknown events := by
  obtain ⟨hc, ha⟩ := run_spec h events
  rw [← keysUnique_run_iff]
  constructor
  · rintro ⟨-, -, hunique⟩
    exact hunique
  · intro hunique
    exact ⟨ha, hc.onceEach, hunique⟩

def queuedBy (pid : UInt32) : BlkIoTraceRecord where
  magic := 0
  sequence := 0
  time := 0
  device := 0
  cpu := 0
  action := blkTaQueue
  sector := 0
  bytes := 4096
  pid := pid
  error := 0
  vecCount := 0
  seq := 0
  pduLen := 0

/-- Two processes that were never announced queue a request each. -/
theorem two_unknown_entries :
    ¬ KeysUnique (blkparseHash false)
      (run (blkparseHash false) [.trace (queuedBy 1), .trace (queuedBy 2)]) := by
  rw [keysUnique_run_iff]
  have hone : (queuedBy 1).accountOf.isSome = true := by decide
  have htwo : (queuedBy 2).accountOf.isSome = true := by decide
  rintro (hpid | hfirst)
  · cases hpid
  · refine hfirst [.trace (queuedBy 1)] (queuedBy 2) (List.prefix_refl _) htwo ?_ (queuedBy 1)
      List.mem_cons_self hone ?_
    · decide
    · decide

end ProcessStats

end SBlktrace
