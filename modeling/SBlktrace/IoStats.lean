import SBlktrace.BlkTrace
import SBlktrace.TraceDecode
import SBlktrace.ProcessDefault
import Mathlib

namespace SBlktrace

open Function

structure IoStats where
  qreads : UInt64
  qwrites : UInt64
  creads : UInt64
  cwrites : UInt64
  mreads : UInt64
  mwrites : UInt64
  ireads : UInt64
  iwrites : UInt64
  rrqueue : UInt64
  wrqueue : UInt64
  qreadKb : UInt64
  qwriteKb : UInt64
  creadKb : UInt64
  cwriteKb : UInt64
  qreadB : UInt64
  qwriteB : UInt64
  creadB : UInt64
  cwriteB : UInt64
  ireadKb : UInt64
  iwriteKb : UInt64
  mreadKb : UInt64
  mwriteKb : UInt64
  mreadB : UInt64
  mwriteB : UInt64
  ireadB : UInt64
  iwriteB : UInt64
  qreadsPc : UInt64
  qwritesPc : UInt64
  ireadsPc : UInt64
  iwritesPc : UInt64
  rrqueuePc : UInt64
  wrqueuePc : UInt64
  creadsPc : UInt64
  cwritesPc : UInt64
  qreadKbPc : UInt64
  qwriteKbPc : UInt64
  ireadKbPc : UInt64
  iwriteKbPc : UInt64
  qreadBPc : UInt64
  qwriteBPc : UInt64
  ireadBPc : UInt64
  iwriteBPc : UInt64
  ioUnplugs : UInt64
  timerUnplugs : UInt64

def zeroIoStats : IoStats :=
  ⟨0, 0, 0, 0, 0, 0, 0, 0, 0, 0, 0, 0, 0, 0, 0, 0, 0, 0, 0, 0, 0, 0, 0, 0, 0, 0, 0, 0, 0, 0, 0, 0, 0,
    0, 0, 0, 0, 0, 0, 0, 0, 0, 0, 0⟩

def blkTaQueue : UInt32 := 1

def blkTaBackmerge : UInt32 := 2

def blkTaFrontmerge : UInt32 := 3

def blkTaRequeue : UInt32 := 6

def blkTaIssue : UInt32 := 7

def blkTaComplete : UInt32 := 8

def blkTaUnplugIo : UInt32 := 10

def blkTaUnplugTimer : UInt32 := 11

def shiftedBytes (bytes : UInt32) : UInt64 := (bytes >>> 10).toUInt64

def restBytes (bytes : UInt32) : UInt64 := (bytes &&& 1023).toUInt64

def asInt (bytes : UInt32) : ℤ := if bytes.toNat < 2 ^ 31 then bytes.toNat else bytes.toNat - 2 ^ 32

namespace BlkIoTraceRecord

def tKb (t : BlkIoTraceRecord) : UInt64 := shiftedBytes t.bytes

def tB (t : BlkIoTraceRecord) : UInt64 := restBytes t.bytes

end BlkIoTraceRecord

namespace IoStats

def accountM (ios : IoStats) (t : BlkIoTraceRecord) (rw : Bool) : IoStats :=
  if rw then
    { ios with
      mwrites := ios.mwrites + 1
      mwriteKb := ios.mwriteKb + t.tKb
      mwriteB := ios.mwriteB + t.tB }
  else
    { ios with
      mreads := ios.mreads + 1
      mreadKb := ios.mreadKb + t.tKb
      mreadB := ios.mreadB + t.tB }

def accountPcQueue (ios : IoStats) (t : BlkIoTraceRecord) (rw : Bool) : IoStats :=
  if rw then
    { ios with
      qwritesPc := ios.qwritesPc + 1
      qwriteKbPc := ios.qwriteKbPc + t.tKb
      qwriteBPc := ios.qwriteBPc + t.tB }
  else
    { ios with
      qreadsPc := ios.qreadsPc + 1
      qreadKb := ios.qreadKb + t.tKb
      qreadBPc := ios.qreadBPc + t.tB }

def accountPcIssue (ios : IoStats) (rw : Bool) (bytes : UInt32) : IoStats :=
  if rw then
    { ios with
      iwritesPc := ios.iwritesPc + 1
      iwriteKbPc := ios.iwriteKbPc + shiftedBytes bytes
      iwriteBPc := ios.iwriteBPc + restBytes bytes }
  else
    { ios with
      ireadsPc := ios.ireadsPc + 1
      ireadKbPc := ios.ireadKbPc + shiftedBytes bytes
      ireadBPc := ios.ireadBPc + restBytes bytes }

def accountPcRequeue (ios : IoStats) (t : BlkIoTraceRecord) (rw : Bool) : IoStats :=
  if rw then
    { ios with
      wrqueuePc := ios.wrqueuePc + 1
      iwriteKbPc := ios.iwriteKbPc - t.tKb
      iwriteBPc := ios.iwriteBPc - t.tB }
  else
    { ios with
      rrqueuePc := ios.rrqueuePc + 1
      ireadKbPc := ios.ireadKbPc - t.tKb
      ireadBPc := ios.ireadBPc - t.tB }

def accountPcC (ios : IoStats) (rw : Bool) : IoStats :=
  if rw then { ios with cwritesPc := ios.cwritesPc + 1 }
  else { ios with creadsPc := ios.creadsPc + 1 }

def accountQueue (ios : IoStats) (t : BlkIoTraceRecord) (rw : Bool) : IoStats :=
  if rw then
    { ios with
      qwrites := ios.qwrites + 1
      qwriteKb := ios.qwriteKb + t.tKb
      qwriteB := ios.qwriteB + t.tB }
  else
    { ios with
      qreads := ios.qreads + 1
      qreadKb := ios.qreadKb + t.tKb
      qreadB := ios.qreadB + t.tB }

def accountC (ios : IoStats) (rw : Bool) (bytes : UInt32) : IoStats :=
  if rw then
    { ios with
      cwrites := ios.cwrites + 1
      cwriteKb := ios.cwriteKb + UInt64.ofInt (asInt bytes / 1024)
      cwriteB := ios.cwriteB + UInt64.ofInt (asInt bytes % 1024) }
  else
    { ios with
      creads := ios.creads + 1
      creadKb := ios.creadKb + UInt64.ofInt (asInt bytes / 1024)
      creadB := ios.creadB + UInt64.ofInt (asInt bytes % 1024) }

def accountIssue (ios : IoStats) (rw : Bool) (bytes : UInt32) : IoStats :=
  if rw then
    { ios with
      iwrites := ios.iwrites + 1
      iwriteKb := ios.iwriteKb + shiftedBytes bytes
      iwriteB := ios.iwriteB + restBytes bytes }
  else
    { ios with
      ireads := ios.ireads + 1
      ireadKb := ios.ireadKb + shiftedBytes bytes
      ireadB := ios.ireadB + restBytes bytes }

def accountUnplug (ios : IoStats) (timer : Bool) : IoStats :=
  if timer then { ios with timerUnplugs := ios.timerUnplugs + 1 }
  else { ios with ioUnplugs := ios.ioUnplugs + 1 }

def accountRequeue (ios : IoStats) (t : BlkIoTraceRecord) (rw : Bool) : IoStats :=
  if rw then
    { ios with
      wrqueue := ios.wrqueue + 1
      iwriteKb := ios.iwriteKb - t.tKb
      iwriteB := ios.iwriteB - t.tB }
  else
    { ios with
      rrqueue := ios.rrqueue + 1
      ireadKb := ios.ireadKb - t.tKb
      ireadB := ios.ireadB - t.tB }

end IoStats

/-- Whose statistics: those of a CPU of a device, or with `per_process_stats` those of a process. -/
inductive StatsKey where
  | cpu (device cpu : UInt32)
  | process (pid : UInt32)
deriving DecidableEq

/-- What `dump_trace` keeps: the statistics, and the depths of each device for reads and writes. -/
structure TraceStats where
  perProcessStats : Bool
  ioStats : StatsKey → IoStats
  curDepth : UInt32 → Bool → UInt64
  maxDepth : UInt32 → Bool → UInt64

namespace TraceStats

def account (st : TraceStats) (t : BlkIoTraceRecord) (f : IoStats → IoStats) : TraceStats :=
  let ioStats := update st.ioStats (.cpu t.device t.cpu) (f (st.ioStats (.cpu t.device t.cpu)))
  { st with
    ioStats := if st.perProcessStats
      then update ioStats (.process t.pid) (f (ioStats (.process t.pid))) else ioStats }

def decrDepth (st : TraceStats) (device : UInt32) (w : Bool) : TraceStats :=
  if st.curDepth device w ≠ 0 then
    { st with
      curDepth := update st.curDepth device
        (update (st.curDepth device) w (st.curDepth device w - 1)) }
  else st

def incrDepth (st : TraceStats) (device : UInt32) (w : Bool) : TraceStats :=
  let depth := st.curDepth device w + 1
  { st with
    curDepth := update st.curDepth device (update (st.curDepth device) w depth)
    maxDepth := if depth > st.maxDepth device w
      then update st.maxDepth device (update (st.maxDepth device) w depth) else st.maxDepth }

def dumpTracePc (st : TraceStats) (t : BlkIoTraceRecord) : TraceStats :=
  let w := t.has blkTcWrite
  let act := t.action &&& 0xffff
  if act = blkTaQueue then st.account t (·.accountPcQueue t w)
  else if act = blkTaRequeue then (st.decrDepth t.device w).account t (·.accountPcRequeue t w)
  else if act = blkTaIssue then (st.account t (·.accountPcIssue w t.bytes)).incrDepth t.device w
  else if act = blkTaComplete then (st.decrDepth t.device w).account t (·.accountPcC w)
  else st

def dumpTraceFs (st : TraceStats) (t : BlkIoTraceRecord) : TraceStats :=
  let w := t.has blkTcWrite
  let act := t.action &&& 0xffff
  if act = blkTaQueue then st.account t (·.accountQueue t w)
  else if act = blkTaBackmerge then st.account t (·.accountM t w)
  else if act = blkTaFrontmerge then st.account t (·.accountM t w)
  else if act = blkTaRequeue then (st.decrDepth t.device w).account t (·.accountRequeue t w)
  else if act = blkTaIssue then (st.account t (·.accountIssue w t.bytes)).incrDepth t.device w
  else if act = blkTaComplete then (st.decrDepth t.device w).account t (·.accountC w t.bytes)
  else if act = blkTaUnplugIo then st.account t (·.accountUnplug false)
  else if act = blkTaUnplugTimer then st.account t (·.accountUnplug true)
  else st

def dumpTrace (st : TraceStats) (t : BlkIoTraceRecord) : TraceStats :=
  if t.action = blkTnMessage then st
  else if t.has blkTcPc then st.dumpTracePc t
  else st.dumpTraceFs t

def run (st : TraceStats) (ts : List BlkIoTraceRecord) : TraceStats := ts.foldl dumpTrace st

end TraceStats

def newTraceStats (perProcessStats : Bool) : TraceStats :=
  ⟨perProcessStats, fun _ => zeroIoStats, fun _ _ => 0, fun _ _ => 0⟩

end SBlktrace
