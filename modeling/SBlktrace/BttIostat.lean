import SBlktrace.IoStats
import SBlktrace.RangeTree

namespace SBlktrace

open Function

def blkTaGetrq : UInt32 := 4

def blkTaSleeprq : UInt32 := 5

def blkTaInsert : UInt32 := 12

def blkTaRemap : UInt32 := 15

structure BttIo where
  t : BlkIoTraceRecord
  gTime : UInt64
  iTime : UInt64
  mTime : UInt64
  dTime : UInt64
  sTime : UInt64
  dSec : UInt64
  dNsec : UInt32

structure BttStats where
  rqm : Bool → UInt64
  ios : Bool → UInt64
  sec : Bool → UInt64
  wait : UInt64
  svctm : UInt64
  curQusz : ℤ
  curDev : ℤ

/-- What `rb_insert_color` and `rb_erase` do to a tree, as far as its order goes. -/
structure RbBalance (ν : Type) [DecidableEq ν] where
  insertColor : RangeTree ν → RangeTree ν
  insertColor_toList : ∀ t, (insertColor t).toList = t.toList
  erase : ν → RangeTree ν → RangeTree ν
  erase_toList : ∀ x t, (erase x t).toList = t.toList.erase x

/-- With `-t` and `-T` the times are bounded: `early` and `late` compare them, as floating-point
numbers, with `t_astart` and `t_aend`. -/
structure Btt where
  rb : RbBalance ℕ
  ignoreRemaps : Bool
  timeBounded : Bool
  early : UInt64 → Bool
  late : UInt64 → Bool

/-- `struct d_info` of the device, with the I/Os that its tree `heads[IOP_Q]` points to. The trees of
the other types are empty between two traces. -/
structure DInfo where
  io : ℕ → BttIo
  queue : RangeTree ℕ
  preCulling : Bool
  stats : BttStats
  allStats : BttStats
  nQs : UInt64
  nDs : UInt64
  nActQ : UInt64
  tActQ : UInt64

def bitStart (t : BlkIoTraceRecord) : ℕ := t.sector.toNat

def bitEnd (t : BlkIoTraceRecord) : ℕ := (t.sector + t.tSec.toUInt64).toNat

def iopRw (t : BlkIoTraceRecord) : Bool := t.has blkTcRead

def tdelta (start stop : UInt64) : UInt64 := if start < stop then stop - start else 1

namespace DInfo

def zeroStats : BttStats where
  rqm := fun _ => 0
  ios := fun _ => 0
  sec := fun _ => 0
  wait := 0
  svctm := 0
  curQusz := 0
  curDev := 0

def zeroIo (t : BlkIoTraceRecord) : BttIo where
  t := t
  gTime := 0
  iTime := 0
  mTime := 0
  dTime := 0
  sTime := 0
  dSec := 0
  dNsec := 0

def fresh : DInfo where
  io := fun _ => zeroIo ⟨⟨0, 0, 0, 0, 0, 0⟩, 0, 0, 0, 0, 0, 0, 0⟩
  queue := .nil
  preCulling := true
  stats := zeroStats
  allStats := zeroStats
  nQs := 0
  nDs := 0
  nActQ := 0
  tActQ := 0

def bothStats (dip : DInfo) (f : BttStats → BttStats) : DInfo :=
  { dip with stats := f dip.stats, allStats := f dip.allStats }

def setIo (dip : DInfo) (p : ℕ) (f : BttIo → BttIo) : DInfo :=
  { dip with io := update dip.io p (f (dip.io p)) }

def findSec (dip : DInfo) (sec : UInt64) : Option ℕ :=
  dip.queue.find (fun p => bitStart (dip.io p).t) (fun p => bitEnd (dip.io p).t) sec.toNat

def foreachList (dip : DInfo) (t : BlkIoTraceRecord) : List ℕ :=
  dip.queue.gather (fun p => bitStart (dip.io p).t) (fun p => bitEnd (dip.io p).t) (bitStart t)
    (bitEnd t)

def atSec (dip : DInfo) (t : BlkIoTraceRecord) (f : BttIo → BttIo) : DInfo :=
  match dip.findSec t.sector with
  | some p => dip.setIo p f
  | none => dip

def iostatGetrq (dip : DInfo) : DInfo := dip.bothStats fun s => { s with curQusz := s.curQusz + 1 }

def iostatMerge (dip : DInfo) (t : BlkIoTraceRecord) : DInfo :=
  dip.bothStats fun s => { s with rqm := update s.rqm (iopRw t) (s.rqm (iopRw t) + 1) }

def iostatIssue (dip : DInfo) (t : BlkIoTraceRecord) : DInfo :=
  dip.bothStats fun s =>
    { s with
      ios := update s.ios (iopRw t) (s.ios (iopRw t) + 1)
      sec := update s.sec (iopRw t) (s.sec (iopRw t) + t.tSec.toUInt64)
      curDev := s.curDev + 1 }

def iostatComplete (dip : DInfo) (q : BttIo) (t : BlkIoTraceRecord) : DInfo :=
  dip.bothStats fun s =>
    { s with
      wait :=
        if q.iTime ≠ -1 then s.wait + tdelta q.iTime t.time
        else if q.mTime ≠ -1 then s.wait + tdelta q.mTime t.time
        else s.wait
      curQusz := s.curQusz - 1
      curDev := s.curDev - 1
      svctm := s.svctm + tdelta q.t.time t.time }

def ioSetup (dip : DInfo) : Bool := !dip.preCulling

def handleQueue (dip : DInfo) (p : ℕ) : DInfo :=
  { dip.setIo p (fun q => { q with iTime := -1, gTime := -1, mTime := -1, dTime := -1 }) with
    nQs := dip.nQs + 1
    tActQ := dip.tActQ + dip.nActQ
    nActQ := dip.nActQ + 1 }

def traceQueue (rb : RbBalance ℕ) (dip : DInfo) (t : BlkIoTraceRecord) (p : ℕ) : DInfo :=
  if t.bytes = 0 then dip
  else
    let dip := { dip with io := update dip.io p (zeroIo t), preCulling := false }
    match dip.queue.insert (fun p => bitStart (dip.io p).t) p with
    | some queue => { dip with queue := rb.insertColor queue }.handleQueue p
    | none => dip

def handleG (dip : DInfo) (t : BlkIoTraceRecord) : DInfo :=
  dip.iostatGetrq.atSec t fun q => { q with gTime := t.time }

def handleS (dip : DInfo) (t : BlkIoTraceRecord) : DInfo :=
  dip.atSec t fun q => { q with sTime := t.time }

def handleI (dip : DInfo) (t : BlkIoTraceRecord) : DInfo :=
  dip.atSec t fun q => { q with iTime := t.time }

def handleM (dip : DInfo) (t : BlkIoTraceRecord) : DInfo :=
  let dip := (dip.iostatMerge t).atSec t fun q => { q with mTime := t.time }
  if dip.nActQ ≠ 0 then { dip with nActQ := dip.nActQ - 1 } else dip

def handleIssue (dip : DInfo) (t : BlkIoTraceRecord) : DInfo :=
  let dip := if dip.nActQ ≠ 0 then { dip with nActQ := dip.nActQ - 1 } else dip
  let dip := { dip.iostatIssue t with nDs := dip.nDs + 1 }
  (dip.foreachList t).foldl
    (fun dip p => dip.setIo p fun q =>
      { q with dTime := t.time, dSec := t.sector, dNsec := t.tSec }) dip

def completeIo (rb : RbBalance ℕ) (t : BlkIoTraceRecord) (dip : DInfo) (p : ℕ) : DInfo :=
  let dip := if (dip.io p).dTime ≠ -1 then dip.iostatComplete (dip.io p) t else dip
  { dip with queue := rb.erase p dip.queue }

def handleComplete (rb : RbBalance ℕ) (dip : DInfo) (t : BlkIoTraceRecord) : DInfo :=
  (dip.foreachList t).foldl (completeIo rb t) dip

def handleRequeue (dip : DInfo) : DInfo :=
  { dip with
    nQs := dip.nQs + 1
    tActQ := dip.tActQ + dip.nActQ
    nActQ := dip.nActQ + 1 }

def handled (dip : DInfo) (t : BlkIoTraceRecord) (handle : DInfo → BlkIoTraceRecord → DInfo) :
    DInfo :=
  if t.bytes = 0 then dip else if dip.ioSetup then handle dip t else dip

def kind (t : BlkIoTraceRecord) : UInt32 := t.action &&& 0xffff

/-- What `__add_trace` does for the device. Plugs have no part in it, and of a remap only that it ends
the culling. -/
def addTraceAction (btt : Btt) (dip : DInfo) (t : BlkIoTraceRecord) (p : ℕ) : DInfo :=
  if kind t = blkTaQueue then dip.traceQueue btt.rb t p
  else if kind t = blkTaRemap then
    if btt.ignoreRemaps then dip else { dip with preCulling := false }
  else if kind t = blkTaInsert then dip.handled t handleI
  else if kind t = blkTaGetrq then dip.handled t handleG
  else if kind t = blkTaBackmerge then dip.handled t handleM
  else if kind t = blkTaFrontmerge then dip.handled t handleM
  else if kind t = blkTaRequeue then if dip.ioSetup then dip.handleRequeue else dip
  else if kind t = blkTaIssue then dip.handled t handleIssue
  else if kind t = blkTaComplete then dip.handled t (handleComplete btt.rb)
  else if kind t = blkTaSleeprq then dip.handled t handleS
  else dip

def addTrace (btt : Btt) (dip : DInfo) (t : BlkIoTraceRecord) (p : ℕ) : DInfo × Bool :=
  if t.has blkTcNotify then (dip, false)
  else if t.has blkTcPc then (dip, false)
  else if btt.timeBounded && btt.early t.time then (dip, false)
  else if btt.timeBounded && btt.late t.time then (dip, true)
  else (dip.addTraceAction btt t p, false)

end DInfo

end SBlktrace
