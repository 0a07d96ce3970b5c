import Mathlib.Data.Finset.Card
import Mathlib.Logic.Function.Basic

namespace SBlktrace

open Function

inductive Errno where
  | EINVAL | ENOMEM | ENOENT | EIO | EBUSY | EFAULT | ENXIO | ENOTTY
  deriving DecidableEq, Repr

inductive TraceState where
  | zeroed | setup | running | stopped
  deriving DecidableEq, Repr

structure KernelTrace where
  traceState : TraceState
  rchan : Bool
  sequence : Bool
  msgData : Bool
  dir : Bool
  droppedFile : Bool
  msgFile : Bool
  dev : UInt32
  actMask : UInt16
  startLba : UInt64
  endLba : UInt64
  pid : UInt32
  deriving DecidableEq, Repr

def KernelTrace.zero : KernelTrace where
  traceState := .zeroed
  rchan := false
  sequence := false
  msgData := false
  dir := false
  droppedFile := false
  msgFile := false
  dev := 0
  actMask := 0
  startLba := 0
  endLba := 0
  pid := 0

structure BlkUserTraceSetup where
  name : List Char
  actMask : UInt16
  bufSize : UInt32
  bufNr : UInt32
  startLba : UInt64
  endLba : UInt64
  pid : UInt32
  deriving DecidableEq, Repr

structure HdStruct where
  startSect : UInt64
  nrSects : UInt64
  deriving DecidableEq, Repr

structure BlockDevice where
  dev : UInt32
  name : List Char
  part : Option HdStruct
  deriving DecidableEq, Repr

/-- `live` are the addresses of the objects allocated and not freed. -/
structure Kernel (κ : Type) where
  queue : κ → Option ℕ
  live : Finset ℕ
  trace : ℕ → KernelTrace
  blkProbesRef : ℤ
  registered : Bool
  blktraceSeq : UInt32
  blkTreeRoot : Bool

/-- Which of the allocations of a setup succeed; `bt` is the address `kzalloc` returns. -/
structure SetupAllocs where
  bt : Option ℕ
  sequence : Bool
  msgData : Bool
  treeRoot : Bool
  dir : Bool
  droppedFile : Bool
  msgFile : Bool
  rchan : Bool
  deriving DecidableEq, Repr

namespace Kernel

variable {κ : Type}

def boot (κ : Type) : Kernel κ where
  queue _ := none
  live := ∅
  trace _ := .zero
  blkProbesRef := 0
  registered := false
  blktraceSeq := 0
  blkTreeRoot := false

def kzalloc (s : Kernel κ) (bt : Option ℕ) : Option (ℕ × Kernel κ) :=
  bt.bind fun a =>
    if a ∈ s.live then none
    else some (a, { s with live := insert a s.live, trace := update s.trace a .zero })

def modify (s : Kernel κ) (a : ℕ) (f : KernelTrace → KernelTrace) : Kernel κ :=
  { s with trace := update s.trace a (f (s.trace a)) }

def blkTraceFree (s : Kernel κ) (a : ℕ) : Kernel κ :=
  { s with live := s.live.erase a }

def probesInc (s : Kernel κ) : Kernel κ :=
  { s with
    blkProbesRef := s.blkProbesRef + 1
    registered := if s.blkProbesRef + 1 = 1 then true else s.registered }

def probesDec (s : Kernel κ) : Kernel κ :=
  { s with
    blkProbesRef := s.blkProbesRef - 1
    registered := if s.blkProbesRef - 1 = 0 then false else s.registered }

def blkTraceCleanup (s : Kernel κ) (a : ℕ) : Kernel κ :=
  (s.blkTraceFree a).probesDec

def blkTraceSetupLba (bt : KernelTrace) (bdev : BlockDevice) : KernelTrace :=
  match bdev.part with
  | some part => { bt with startLba := part.startSect, endLba := part.startSect + part.nrSects }
  | none => { bt with startLba := 0, endLba := 0xffffffffffffffff }

def butsName (name : List Char) : List Char :=
  (name.take 31).map fun c => if c = '/' then '_' else c

section Queues

variable [DecidableEq κ]

def setQueue (s : Kernel κ) (q : κ) (bt : Option ℕ) : Kernel κ :=
  { s with queue := update s.queue q bt }

def blkTraceRemove (s : Kernel κ) (q : κ) : Option Errno × Kernel κ :=
  match s.queue q with
  | none => (some .EINVAL, s)
  | some bt =>
    let s := s.setQueue q none
    if (s.trace bt).traceState ≠ .running then (none, s.blkTraceCleanup bt) else (none, s)

def setupError (s : Kernel κ) (bt : ℕ) (ret : Errno) : Option Errno × Kernel κ :=
  (some ret, s.blkTraceFree bt)

/-- The exchange that publishes the new trace, which is put back when the queue has one. -/
def publish (s : Kernel κ) (q : κ) (bt : ℕ) : Option Errno × Kernel κ :=
  match s.queue q with
  | some oldBt => ((s.setQueue q (some bt)).setQueue q (some oldBt)).setupError bt .EBUSY
  | none => (none, (s.setQueue q (some bt)).probesInc)

def doBlkTraceSetup (s : Kernel κ) (q : κ) (bdev : BlockDevice) (buts : BlkUserTraceSetup)
    (al : SetupAllocs) : Option Errno × Kernel κ :=
  if buts.bufSize = 0 ∨ buts.bufNr = 0 then (some .EINVAL, s)
  else
    match s.kzalloc al.bt with
    | none => (some .ENOMEM, s)
    | some (bt, s) =>
      if !al.sequence then s.setupError bt .ENOMEM
      else if !al.msgData then s.setupError bt .ENOMEM
      else if !s.blkTreeRoot && !al.treeRoot then s.setupError bt .ENOENT
      else
        let s := { s with blkTreeRoot := true }
        if !al.dir then s.setupError bt .ENOENT
        else if !al.droppedFile then s.setupError bt Errno.EIO
        else if !al.msgFile then s.setupError bt Errno.EIO
        else if !al.rchan then s.setupError bt Errno.EIO
        else
          let s := s.modify bt fun t =>
            let t := { t with
              sequence := true, msgData := true, dir := true, dev := bdev.dev
              droppedFile := true, msgFile := true, rchan := true
              actMask := if buts.actMask = 0 then 0xffff else buts.actMask }
            let t := blkTraceSetupLba t bdev
            { t with
              startLba := if buts.startLba ≠ 0 then buts.startLba else t.startLba
              endLba := if buts.endLba ≠ 0 then buts.endLba else t.endLba
              pid := buts.pid
              traceState := .setup }
          s.publish q bt

/-- `copied` is what `copy_from_user` reads, `returned` whether `copy_to_user` succeeds. -/
def blkTraceSetup (s : Kernel κ) (q : κ) (bdev : BlockDevice) (copied : Option BlkUserTraceSetup)
    (al : SetupAllocs) (returned : Bool) : Except Errno BlkUserTraceSetup × Kernel κ :=
  match copied with
  | none => (.error .EFAULT, s)
  | some buts =>
    match s.doBlkTraceSetup q bdev buts al with
    | (some e, s) => (.error e, s)
    | (none, s) =>
      if returned then (.ok { buts with name := butsName bdev.name }, s)
      else (.error .EFAULT, (s.blkTraceRemove q).2)

def blkTraceStartstop (s : Kernel κ) (q : κ) (start : Bool) : Option Errno × Kernel κ :=
  match s.queue q with
  | none => (some .EINVAL, s)
  | some bt =>
    if start then
      if (s.trace bt).traceState = .setup ∨ (s.trace bt).traceState = .stopped then
        (none, { s with blktraceSeq := s.blktraceSeq + 1 }.modify bt
          fun t => { t with traceState := .running })
      else (some .EINVAL, s)
    else if (s.trace bt).traceState = .running then
      (none, s.modify bt fun t => { t with traceState := .stopped })
    else (some .EINVAL, s)

def blkTraceShutdown (s : Kernel κ) (q : κ) : Kernel κ :=
  match s.queue q with
  | none => s
  | some _ => ((s.blkTraceStartstop q false).2.blkTraceRemove q).2

def blkTraceRemoveQueue (s : Kernel κ) (q : κ) : Option Errno × Kernel κ :=
  match s.queue q with
  | none => (some .EINVAL, s)
  | some bt => (none, ((s.setQueue q none).probesDec).blkTraceFree bt)

def blkTraceSetupQueue (s : Kernel κ) (q : κ) (bdev : BlockDevice) (bt : Option ℕ)
    (msgData : Bool) : Option Errno × Kernel κ :=
  match s.kzalloc bt with
  | none => (some .ENOMEM, s)
  | some (bt, s) =>
    if !msgData then s.setupError bt .ENOMEM
    else
      let s := s.modify bt fun t =>
        blkTraceSetupLba { t with msgData := true, dev := bdev.dev, actMask := 0xffff } bdev
      s.publish q bt

end Queues

end Kernel

end SBlktrace
