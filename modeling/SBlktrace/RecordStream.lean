import SBlktrace.RecordFormat
import SBlktrace.TraceDecode

namespace SBlktrace

open ByteOrder

structure RecordOptions where
  maxBunchTm : UInt64
  maxPktsPerBunch : UInt64
  bunchTm_pos : 1 ≤ maxBunchTm
  pkts_pos : 1 ≤ maxPktsPerBunch
  pkts_lt : maxPktsPerBunch < 513

structure IoSpec where
  time : UInt64
  sector : UInt64
  bytes : UInt32
  rw : UInt32
  deriving DecidableEq

def IoSpec.pkt (spec : IoSpec) : IoPkt where
  sector := spec.sector
  nbytes := spec.bytes.toUInt64
  rw := spec.rw

structure IoStream where
  file : List ℕ
  cur : Option IoBunch
  startTime : UInt64
  lastTime : UInt64
  bunches : UInt64
  pkts : UInt64

structure IfileInfo where
  tpkts : UInt64
  genesis : UInt64

def taQueue : UInt32 := 1

def isQueue (action : UInt32) : Bool :=
  action &&& 0xffff = taQueue && action &&& blkTcAct blkTcQueue ≠ 0

namespace IoStream

def writeFileHdr (e : Endian) (stream : IoStream) (hdr : IoFileHdr) : IoStream :=
  { stream with
    file := { hdr with version := myBtversion }.bytes e ++ stream.file.drop IoFileHdr.size }

def ioBunchCreate (stream : IoStream) (startTime : UInt64) : IoStream :=
  { stream with cur := some { timeStamp := startTime, pkts := [] }, startTime := startTime }

/-- A failed assertion stops the program. -/
def ioBunchAdd (stream : IoStream) (spec : IoSpec) : Option IoStream :=
  match stream.cur with
  | none => none
  | some cur =>
    if ¬ cur.pkts.length < BT_MAX_PKTS then none
    else if ¬ (stream.lastTime = 0 ∨ stream.lastTime ≤ spec.time) then none
    else
      some { stream with
        cur := some { cur with pkts := cur.pkts ++ [spec.pkt] }, lastTime := spec.time }

def streamFlush (e : Endian) (stream : IoStream) : Option IoStream :=
  match stream.cur with
  | none => some stream
  | some cur =>
    if cur.pkts.length = 0 then some stream
    else if ¬ cur.pkts.length ≤ BT_MAX_PKTS then none
    else
      some { stream with
        file := stream.file ++ cur.bytes e
        bunches := stream.bunches + 1
        pkts := stream.pkts + UInt64.ofNat cur.pkts.length }

def bunchDone (opts : RecordOptions) (stream : IoStream) (cur : IoBunch) (spec : IoSpec) : Bool :=
  opts.maxPktsPerBunch ≤ UInt64.ofNat cur.pkts.length ||
    opts.maxBunchTm < spec.time - stream.startTime

def streamAddIo (e : Endian) (opts : RecordOptions) (stream : IoStream) (spec : IoSpec) :
    Option IoStream :=
  match stream.cur with
  | none => (stream.ioBunchCreate spec.time).ioBunchAdd spec
  | some cur =>
    if stream.bunchDone opts cur spec then
      (stream.streamFlush e).bind fun stream => (stream.ioBunchCreate spec.time).ioBunchAdd spec
    else stream.ioBunchAdd spec

def streamOpen (e : Endian) : IoStream :=
  writeFileHdr e
    { file := [], cur := none, startTime := 0, lastTime := 0, bunches := 0, pkts := 0 }
    { version := 0, genesis := 0, nbunches := 0, totalPkts := 0 }

def streamClose (e : Endian) (iip : IfileInfo) (stream : IoStream) : Option (List ℕ) :=
  let hdr : IoFileHdr :=
    { version := 0, genesis := iip.genesis, nbunches := stream.bunches, totalPkts := stream.pkts }
  (stream.streamFlush e).map fun stream => (stream.writeFileHdr e hdr).file

end IoStream

structure Recorder where
  dataIsNative : ℤ
  iip : IfileInfo
  stream : IoStream

def specOf (host : Endian) (dataIsNative : ℤ) (t : BlkIoTraceRecord) : IoSpec × UInt32 :=
  let action := if dataIsNative ≠ 0 then t.action else be32ToCpu host t.action
  ({ time := if dataIsNative ≠ 0 then t.time else be64ToCpu host t.time
     sector := if dataIsNative ≠ 0 then t.sector else be64ToCpu host t.sector
     bytes := if dataIsNative ≠ 0 then t.bytes else be32ToCpu host t.bytes
     rw := if action &&& blkTcAct blkTcRead ≠ 0 then 1 else 0 },
    action)

namespace Recorder

def native (r : Recorder) (t : BlkIoTraceRecord) : ℤ :=
  if r.dataIsNative = -1 then (checkDataEndianness t.magic r.dataIsNative).1 else r.dataIsNative

/-- One turn of the loop of `next_io` for a trace that was read whole, with its payload: the trace
is passed over, or it is what `next_io` returns. -/
def nextIo (host : Endian) (r : Recorder) (t : BlkIoTraceRecord) :
    Option (Recorder × Option IoSpec) :=
  if r.native t < 0 then none
  else
    let spec := (specOf host (r.native t) t).1
    let action := (specOf host (r.native t) t).2
    let iip := { r.iip with tpkts := r.iip.tpkts + 1 }
    if ¬ isQueue action = true then some ({ r with dataIsNative := r.native t, iip := iip }, none)
    else if iip.genesis = 0 then
      some ({ r with dataIsNative := r.native t, iip := { iip with genesis := spec.time } }, some spec)
    else if spec.time < iip.genesis then none
    else some ({ r with dataIsNative := r.native t, iip := iip }, some spec)

/-- The loop of `process`. A read that comes back short ends the input as its end does, so the
traces are those read before. -/
def record (host : Endian) (opts : RecordOptions) (r : Recorder) :
    List BlkIoTraceRecord → Option Recorder
  | [] => some r
  | t :: ts =>
    match nextIo host r t with
    | none => none
    | some (r, none) => record host opts r ts
    | some (r, some spec) =>
      (r.stream.streamAddIo host opts spec).bind fun stream =>
        record host opts { r with stream := stream } ts

def start (host : Endian) : Recorder where
  dataIsNative := -1
  iip := { tpkts := 0, genesis := 0 }
  stream := IoStream.streamOpen host

def process (host : Endian) (opts : RecordOptions) (ts : List BlkIoTraceRecord) :
    Option (List ℕ) :=
  (record host opts (start host) ts).bind fun r => r.stream.streamClose host r.iip

end Recorder

end SBlktrace
