import SBlktrace.BlkTrace
import SBlktrace.SkipList
import Mathlib

namespace SBlktrace

open Function

structure Trace where
  bit : BlkIoTrace
  readSequence : UInt64

structure PerCpuInfo where
  lastSequence : UInt64
  smallestSeqRead : UInt64
  nelems : UInt32
  skips : SkipList

/-- What comes out of the pipe: a record, or a moment at which a read that does not block finds
nothing. -/
inductive PipeItem where
  | record (bit : BlkIoTrace)
  | gap

/-- The state of pipe mode. `rbSort` are the traces of the tree `rb_sort_root` in its order, `cpus`
the CPUs of each device, `cpuMap` the map of a device's online CPUs. -/
structure PipeMode where
  genesisTime : UInt64
  readSequence : UInt64
  traceList : List Trace
  rbSort : List Trace
  cpus : UInt32 × UInt32 → PerCpuInfo
  cpuMap : UInt32 → List UInt64
  dumps : List BlkIoTrace
  notified : List BlkIoTrace

def lastAllowedTime : UInt64 := 0xffffffffffffffff

def findGenesis (traceList : List Trace) : UInt64 :=
  traceList.foldl (fun genesis t => if t.bit.time < genesis then t.bit.time else genesis)
    0xffffffffffffffff

def checkStopwatch (opts : BlkparseOptions) (bit : BlkIoTrace) : ℤ :=
  if bit.time < opts.stopwatchEnd ∧ bit.time ≥ opts.stopwatchStart then 0 else 1

def rbLeft (t u : Trace) : Bool :=
  t.bit.time < u.bit.time || t.bit.time = u.bit.time &&
    (t.bit.device < u.bit.device || t.bit.device = u.bit.device &&
      t.bit.sequence < u.bit.sequence)

def rbInsert (t : Trace) : List Trace → List Trace
  | [] => [t]
  | u :: l => if rbLeft t u then t :: u :: l else u :: rbInsert t l

def traceCpus (rbSort : List Trace) (i : ℕ) : UInt64 :=
  rbSort.foldl (fun word t => if t.bit.cpu.toNat / 64 = i
    then word ||| (1 : UInt64) <<< UInt64.ofNat (t.bit.cpu.toNat % 64) else word) 0

def checkCpuMap (cpuMap : List UInt64) (rbSort : List Trace) : ℤ :=
  if cpuMap.zipIdx.any (fun w => w.1 &&& ~~~traceCpus rbSort w.2 ≠ 0) then 1 else 0

namespace PipeMode

def readEvents (st : PipeMode) (opts : BlkparseOptions) (events : ℕ) :
    List PipeItem → PipeMode × ℕ × List PipeItem
  | [] => (st, events, [])
  | .gap :: input =>
    if opts.rbBatch ≤ events then (st, events, .gap :: input)
    -- only the first event of a batch is waited for
    else if events = 0 then readEvents st opts events input
    else (st, events, input)
  | .record bit :: input =>
    if opts.rbBatch ≤ events then (st, events, .record bit :: input)
    else if ¬bit.checkMagic then (st, events, input)
    else if bit.verifyTrace ≠ 0 then readEvents st opts events input
    else if bit.isNotify then
      readEvents { st with notified := st.notified ++ [bit] } opts events input
    else
      readEvents { st with traceList := ⟨bit, st.readSequence⟩ :: st.traceList } opts (events + 1)
        input

def sortEntry (opts : BlkparseOptions) (acc : PipeMode × UInt64) (t : Trace) : PipeMode × UInt64 :=
  let st := acc.1
  let bit := t.bit.relative st.genesisTime
  let youngest := if bit.time < acc.2 ∨ acc.2 = 0 then bit.time else acc.2
  let pci := st.cpus (bit.device, bit.cpu)
  let pci := if bit.sequence.toUInt64 < pci.smallestSeqRead
    then { pci with smallestSeqRead := bit.sequence.toUInt64 } else pci
  let st := { st with cpus := update st.cpus (bit.device, bit.cpu) pci }
  if checkStopwatch opts bit ≠ 0 then (st, youngest)
  else ({ st with rbSort := rbInsert { t with bit := bit } st.rbSort }, youngest)

def sortEntries (st : PipeMode) (opts : BlkparseOptions) : PipeMode × UInt64 :=
  let genesis := if st.genesisTime = 0 then findGenesis st.traceList else st.genesisTime
  st.traceList.foldl (sortEntry opts) ({ st with genesisTime := genesis, traceList := [] }, 0)

def skipSequence (st : PipeMode) (bit : BlkIoTrace) (expectedSequence : UInt64) :
    Option (PipeMode × ℤ) := do
  let pci := st.cpus (bit.device, bit.cpu)
  let (skips, ret) ← pci.skips.checkCurrentSkips bit.sequence.toUInt64
  let st := { st with cpus := update st.cpus (bit.device, bit.cpu) { pci with skips := skips } }
  if ret ≠ 0 then some (st, 0)
  else if expectedSequence < bit.sequence.toUInt64 then do
    let skips ← skips.insertSkip expectedSequence (bit.sequence.toUInt64 - 1)
    some ({ st with cpus := update st.cpus (bit.device, bit.cpu) { pci with skips := skips } }, 0)
  else some (st, 0)

variable (traceRbFindLast : PipeMode → BlkIoTrace → UInt64 → Bool)

/-- `check_sequence` of the first trace of the tree `rbSort`. `traceRbFindLast` tells whether the
search of `rb_last`, made only for a sequence number below `smallest_seq_read`, finds a trace. -/
def checkSequence (st : PipeMode) (rbSort : List Trace) (bit : BlkIoTrace) (force : Bool) :
    Option (PipeMode × ℤ) :=
  let pci := st.cpus (bit.device, bit.cpu)
  let expectedSequence := pci.lastSequence + 1
  if expectedSequence = 0 then
    if bit.sequence = 1 then some (st, 0)
    else if bit.sequence.toUInt64 = pci.smallestSeqRead then some (st, 0)
    else some (st, checkCpuMap (st.cpuMap bit.device) rbSort)
  else if bit.sequence.toUInt64 = expectedSequence then some (st, 0)
  else if expectedSequence < pci.smallestSeqRead then
    if traceRbFindLast st bit expectedSequence then some (st, 0)
    else st.skipSequence bit expectedSequence
  else if ¬force then some (st, 1)
  else st.skipSequence bit expectedSequence

def showEntry (st : PipeMode) (opts : BlkparseOptions) (bit : BlkIoTrace) : PipeMode :=
  let pci := st.cpus (bit.device, bit.cpu)
  let pci := if bit.action = blkTnMessage then pci
    else { pci with lastSequence := bit.sequence.toUInt64 }
  { st with
    cpus := update st.cpus (bit.device, bit.cpu) { pci with nelems := pci.nelems + 1 }
    dumps := if bit.actMasked opts then st.dumps ++ [bit] else st.dumps }

def showEntriesRb (st : PipeMode) (opts : BlkparseOptions) (force : Bool) :
    List Trace → Option PipeMode
  | [] => some { st with rbSort := [] }
  | t :: l =>
    if st.readSequence - t.readSequence < 1 ∧ ¬force then some { st with rbSort := t :: l }
    else
      match (if t.bit.action = blkTnMessage then some (st, 0)
        else st.checkSequence traceRbFindLast (t :: l) t.bit force) with
      | none => none
      | some (st, ret) =>
        if ret ≠ 0 then some { st with rbSort := t :: l }
        else if ¬force ∧ t.bit.time > lastAllowedTime then some { st with rbSort := t :: l }
        else showEntriesRb (st.showEntry opts t.bit) opts force l

def loop (st : PipeMode) (opts : BlkparseOptions) (input : List PipeItem) : Option PipeMode :=
  match st.readEvents opts 0 input with
  | (st, 0, _) => some st
  | (st, _ + 1, input) =>
    match PipeMode.sortEntries { st with readSequence := st.readSequence + 1 } opts with
    | (st, youngest) =>
      if youngest > opts.stopwatchEnd then some st
      else do
        let st ← st.showEntriesRb traceRbFindLast opts false st.rbSort
        st |>.loop opts input
partial_fixpoint

end PipeMode

def newPerCpuInfo : PerCpuInfo := ⟨0xffffffffffffffff, 0, 0, SkipList.empty⟩

def newPipeMode : PipeMode := ⟨0, 0, [], [], fun _ => newPerCpuInfo, fun _ => [], [], []⟩

/-- `do_pipe`, when no signal stops it. No CPU is marked online in pipe mode. -/
def doPipe (traceRbFindLast : PipeMode → BlkIoTrace → UInt64 → Bool) (opts : BlkparseOptions)
    (input : List PipeItem) : Option PipeMode := do
  let st ← newPipeMode.loop traceRbFindLast opts input
  if st.rbSort ≠ [] then st.showEntriesRb traceRbFindLast opts true st.rbSort else some st

end SBlktrace
