import SBlktrace.LinkedChains
import SBlktrace.TraceDecode

namespace SBlktrace

open Function FifoQueue ByteOrder

def blkTcIssue : UInt32 := (1 : UInt32) <<< (6 : UInt32)

def blkTcComplete : UInt32 := (1 : UInt32) <<< (7 : UInt32)

def blkTcFs : UInt32 := (1 : UInt32) <<< (8 : UInt32)

def blkTcDrvData : UInt32 := (1 : UInt32) <<< (14 : UInt32)

structure Minmax where
  min : UInt64
  max : UInt64
  sum : UInt64
  sos : UInt64
  num : UInt64

namespace Minmax

def init : Minmax where
  min := -1
  max := 0
  sum := 0
  sos := 0
  num := 0

def account (mm : Minmax) (value : UInt64) : Minmax where
  min := if value < mm.min then value else mm.min
  max := if mm.max < value then value else mm.max
  sum := mm.sum + value
  sos := mm.sos + value * value
  num := mm.num + 1

end Minmax

structure Histlog2 where
  first : ℕ
  delta : ℕ
  num : ℕ

namespace Histlog2

def upperLimit (h : Histlog2) (index : ℕ) : ℕ :=
  h.first + if index ≠ 0 then h.delta <<< (index - 1) else 0

def index (h : Histlog2) (val : UInt32) : ℕ :=
  ((List.range (h.num - 1)).takeWhile fun i => h.upperLimit i < val.toNat).length

def account (h : Histlog2) (bucket : ℕ → UInt32) (val : UInt32) : ℕ → UInt32 :=
  update bucket (h.index val) (bucket (h.index val) + 1)

end Histlog2

def BLKIOMON_SIZE_BUCKETS : ℕ := 16

def BLKIOMON_D2C_BUCKETS : ℕ := 25

def sizeHist : Histlog2 where
  first := 0
  delta := 1024
  num := BLKIOMON_SIZE_BUCKETS

def d2cHist : Histlog2 where
  first := 0
  delta := 8
  num := BLKIOMON_D2C_BUCKETS

structure BlkiomonStat where
  sizeHist : ℕ → UInt32
  d2cHist : ℕ → UInt32
  device : UInt32
  sizeR : Minmax
  sizeW : Minmax
  d2cR : Minmax
  d2cW : Minmax
  thrputR : Minmax
  thrputW : Minmax
  bidir : UInt64

def d2c (bitD bitC : BlkIoTraceRecord) : UInt64 := (bitC.time - bitD.time) / 1000

def blkDatadir (action : UInt32) : UInt32 := action >>> blkTcShift &&& (blkTcRead ||| blkTcWrite)

namespace BlkiomonStat

def init (device : UInt32) : BlkiomonStat where
  sizeHist := fun _ => 0
  d2cHist := fun _ => 0
  device := device
  sizeR := .init
  sizeW := .init
  d2cR := .init
  d2cW := .init
  thrputR := .init
  thrputW := .init
  bidir := 0

def account (p : BlkiomonStat) (bitD bitC : BlkIoTraceRecord) : BlkiomonStat :=
  let d2c := d2c bitD bitC
  let size := bitD.bytes
  let thrput := (size * 1000).toUInt64 / d2c
  let p :=
    if blkDatadir bitC.action &&& blkTcRead ≠ 0 then
      { p with
        thrputR := p.thrputR.account thrput
        sizeR := p.sizeR.account size.toUInt64
        d2cR := p.d2cR.account d2c }
    else if blkDatadir bitC.action &&& blkTcWrite ≠ 0 then
      { p with
        thrputW := p.thrputW.account thrput
        sizeW := p.sizeW.account size.toUInt64
        d2cW := p.d2cW.account d2c }
    else { p with bidir := p.bidir + 1 }
  { p with
    sizeHist := SBlktrace.sizeHist.account p.sizeHist size
    d2cHist := SBlktrace.d2cHist.account p.d2cHist d2c.toUInt32 }

end BlkiomonStat

def TRACE_HASH_SIZE : ℕ := 128

abbrev Ptr := ℕ

structure MonitorTrace where
  bit : BlkIoTraceRecord
  next : Option Ptr
  sequence : ℤ

def zeroTrace : MonitorTrace where
  bit := ⟨⟨0, 0, 0, 0, 0, 0⟩, 0, 0, 0, 0, 0, 0, 0⟩
  next := none
  sequence := 0

/-- `allocated` holds the trace objects that are not freed, and `t` is what the loop of
`blkiomon_do_fifo` works on, none after its end. -/
structure Monitor where
  mem : Ptr → MonitorTrace
  allocated : Finset Ptr
  vacantTracesList : Option Ptr
  vacantTraces : ℤ
  thash : Fin 128 → Option Ptr
  dstat : UInt32 → Option BlkiomonStat
  dataIsNative : ℤ
  driverdata : ℤ
  matchCount : ℤ
  mismatch : ℤ
  sequence : ℤ
  t : Option Ptr

/-- What the calls outside of the program come back with in one turn of the loop: the reads of the
payload, the writes of driver data, and the memory for a trace and for a device statistic. -/
structure TurnCalls where
  payload : Bool
  dump : Bool
  newTrace : Option Ptr
  newDstat : Bool

inductive FifoTurn where
  | trace (bit : BlkIoTraceRecord) (calls : TurnCalls)
  | stop

def FifoTurn.calls : FifoTurn → Option TurnCalls
  | .trace _ calls => some calls
  | .stop => none

def traceAction (a : UInt32) : UInt32 :=
  a &&& blkTcAct (blkTcWrite ||| blkTcRead ||| blkTcFs ||| blkTcPc)

def isIssue (bit : BlkIoTraceRecord) : Prop := bit.action &&& blkTcAct blkTcIssue ≠ 0

def isComplete (bit : BlkIoTraceRecord) : Prop := bit.action &&& blkTcAct blkTcComplete ≠ 0

instance (bit : BlkIoTraceRecord) : Decidable (isIssue bit) := inferInstanceAs (Decidable (_ ≠ _))

instance (bit : BlkIoTraceRecord) : Decidable (isComplete bit) :=
  inferInstanceAs (Decidable (_ ≠ _))

def traceHash (sector : UInt64) : Fin 128 :=
  ⟨sector.toNat % TRACE_HASH_SIZE, Nat.mod_lt _ (by decide)⟩

namespace Monitor

def setNext (s : Monitor) (p : Ptr) (q : Option Ptr) : Monitor :=
  { s with mem := update s.mem p { s.mem p with next := q } }

def setBit (s : Monitor) (p : Ptr) (bit : BlkIoTraceRecord) : Monitor :=
  { s with mem := update s.mem p { s.mem p with bit := bit } }

/-- No memory stops the program, since `memset` is called in any case. -/
def blkiomonAllocTrace (s : Monitor) (newTrace : Option Ptr) : Monitor × Option Ptr :=
  match s.vacantTracesList with
  | some t =>
    ({ s with
        vacantTracesList := (s.mem t).next
        vacantTraces := s.vacantTraces - 1
        mem := update s.mem t zeroTrace },
      some t)
  | none =>
    match newTrace with
    | some t =>
      ({ s with allocated := insert t s.allocated, mem := update s.mem t zeroTrace }, some t)
    | none => (s, none)

def blkiomonFreeTrace (s : Monitor) (t : Ptr) : Monitor :=
  if s.vacantTraces < 256 then
    { s.setNext t s.vacantTracesList with
      vacantTracesList := some t
      vacantTraces := s.vacantTraces + 1 }
  else { s with allocated := s.allocated.erase t }

def blkiomonStoreTrace (s : Monitor) (t : Ptr) : Monitor :=
  let i := traceHash (s.mem t).bit.sector
  { s.setNext t (s.thash i) with thash := update s.thash i (some t) }

/-- The loop of `blkiomon_fetch_trace`; no list has more traces than there are. -/
def fetchLoop (s : Monitor) (bit : BlkIoTraceRecord) : Option (Option Ptr × Ptr) :=
  walk (fun p => (s.mem p).next)
    (fun t => (s.mem t).bit.device = bit.device && (s.mem t).bit.sector = bit.sector &&
      traceAction (s.mem t).bit.action = traceAction bit.action)
    (s.allocated.card + 1) none (s.thash (traceHash bit.sector))

def blkiomonFetchTrace (s : Monitor) (bit : BlkIoTraceRecord) : Option (Monitor × Ptr) :=
  match s.fetchLoop bit with
  | none => none
  | some (some prev, t) => some (s.setNext prev (s.mem t).next, t)
  | some (none, t) =>
    some ({ s with thash := update s.thash (traceHash bit.sector) (s.mem t).next }, t)

/-- `none` where the division by zero stops the program. -/
def blkiomonAccount (s : Monitor) (bitD bitC : BlkIoTraceRecord) (newDstat : Bool) :
    Option Monitor :=
  if d2c bitD bitC = 0 then none
  else
    match s.dstat bitD.device with
    | some p => some { s with dstat := update s.dstat bitD.device (some (p.account bitD bitC)) }
    | none =>
      if newDstat then
        some { s with
          dstat := update s.dstat bitD.device
            (some ((BlkiomonStat.init bitD.device).account bitD bitC)) }
      else some s

def blkiomonDoTrace (s : Monitor) (t : Ptr) (calls : TurnCalls) : Monitor :=
  match s.blkiomonFetchTrace (s.mem t).bit with
  | none =>
    let alloc := (s.blkiomonStoreTrace t).blkiomonAllocTrace calls.newTrace
    { alloc.1 with t := alloc.2 }
  | some (s, tStored) =>
    let tOld := if (s.mem tStored).bit.time < (s.mem t).bit.time then tStored else t
    let tYoung := if (s.mem tStored).bit.time < (s.mem t).bit.time then t else tStored
    if isIssue (s.mem tOld).bit ∧ isComplete (s.mem tYoung).bit then
      let s := { s with matchCount := s.matchCount + 1 }
      match s.blkiomonAccount (s.mem tOld).bit (s.mem tYoung).bit calls.newDstat with
      | none => { s with t := none }
      | some s => { s.blkiomonFreeTrace tStored with t := some t }
    else
      { ({ s with mismatch := s.mismatch + 1 }).blkiomonStoreTrace tYoung with t := some tOld }

def start (t : Ptr) : Monitor where
  mem := fun _ => zeroTrace
  allocated := {t}
  vacantTracesList := none
  vacantTraces := 0
  thash := fun _ => none
  dstat := fun _ => none
  dataIsNative := -1
  driverdata := 0
  matchCount := 0
  mismatch := 0
  sequence := 0
  t := some t

def stop (s : Monitor) (t : Ptr) : Monitor := { s.blkiomonFreeTrace t with t := none }

def native (s : Monitor) (bit : BlkIoTraceRecord) : ℤ :=
  if s.dataIsNative = -1 then (checkDataEndianness bit.magic s.dataIsNative).1 else s.dataIsNative

def blkiomonDoFifo (host : Endian) (s : Monitor) (turn : FifoTurn) : Option Monitor :=
  match s.t, turn with
  | none, _ => none
  | some t, .stop => some (s.stop t)
  | some t, .trace bit calls =>
    -- the memory for a new trace is not in use
    if ∃ p ∈ s.allocated, calls.newTrace = some p then none
    else
      let native := s.native bit
      let s := s.setBit t bit
      if native = -1 then some (s.stop t)
      else
        let bit := traceToCpu host native bit
        let s := { s.setBit t bit with dataIsNative := native }
        if bit.verifyTrace ≠ 0 then some (s.stop t)
        else if bit.pduLen ≠ 0 ∧ calls.payload = false then some (s.stop t)
        else
          let s := { s with
            mem := update s.mem t { s.mem t with sequence := s.sequence }
            sequence := s.sequence + 1 }
          if bit.action &&& blkTcAct blkTcDrvData ≠ 0 then
            let s := { s with driverdata := s.driverdata + 1 }
            if calls.dump then some s else some (s.stop t)
          else if bit.action &&& blkTcAct (blkTcIssue ||| blkTcComplete) = 0 then some s
          else some (s.blkiomonDoTrace t calls)

end Monitor

end SBlktrace
