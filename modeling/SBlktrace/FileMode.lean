import SBlktrace.BlkTrace
import Mathlib

namespace SBlktrace

/-- A stream in the list `ms_head`, which has a trace in its batch. `fd` is what is left to read
of its file, `none` once the file is closed. -/
structure MsStream where
  pdi : ℕ
  cpu : ℕ
  first : BlkIoTrace
  rest : List BlkIoTrace
  fd : Option (List BlkIoTrace)

/-- What the parser hands over: a notify record to `handle_notify`, a trace within the
stopwatch's end to be reported, `dumped` if `dump_trace` gets it. -/
inductive Handed where
  | notify (pdi cpu : ℕ) (bit : BlkIoTrace)
  | trace (pdi cpu : ℕ) (bit : BlkIoTrace) (dumped : Bool)
deriving DecidableEq

structure FileMode where
  msHead : List MsStream
  genesisTime : UInt64
  log : List Handed

structure Primed where
  traces : List BlkIoTrace
  notified : List BlkIoTrace
  fd : Option (List BlkIoTrace)

def primeFrom (rbBatch cpu i : ℕ) : List BlkIoTrace → Primed
  | [] => ⟨[], [], if i < rbBatch then none else some []⟩
  | bit :: file =>
    if rbBatch ≤ i then ⟨[], [], some (bit :: file)⟩
    else if ¬bit.checkMagic ∨ bit.verifyTrace ≠ 0 then ⟨[], [], none⟩
    else if bit.cpu.toNat ≠ cpu then primeFrom rbBatch cpu (i + 1) file
    else if bit.isNotify then
      -- a notify record does not count: `i -= 1; continue;`
      let p := primeFrom rbBatch cpu i file
      { p with notified := bit :: p.notified }
    else
      let p := primeFrom rbBatch cpu (i + 1) file
      { p with traces := bit :: p.traces }

def msPrime (opts : BlkparseOptions) (cpu : ℕ) : Option (List BlkIoTrace) → Primed
  | none => ⟨[], [], none⟩
  | some file => primeFrom opts.rbBatch cpu 0 file

def msPeekTime (msp : MsStream) : UInt64 := msp.first.time

def sortAfter (msp : MsStream) : List MsStream → List MsStream
  | [] => [msp]
  | next :: l =>
    if msPeekTime next < msPeekTime msp then next :: sortAfter msp l else msp :: next :: l

def msSort (msp : MsStream) : List MsStream → List MsStream
  | [] => [msp]
  | head :: l =>
    if msPeekTime msp < msPeekTime head then msp :: head :: l else head :: sortAfter msp l

def msResort (msp : MsStream) : List MsStream → List MsStream
  | [] => [msp]
  | next :: l =>
    if msPeekTime msp > msPeekTime next then msSort msp (next :: l) else msp :: next :: l

def msDeq (opts : BlkparseOptions) (msp : MsStream) (l : List MsStream) :
    List MsStream × List Handed :=
  match msp.rest with
  | t :: ts => (msResort { msp with first := t, rest := ts } l, [])
  | [] =>
    let p := msPrime opts msp.cpu msp.fd
    let notified := p.notified.map (Handed.notify msp.pdi msp.cpu)
    match p.traces with
    | [] => (l, notified)
    | t :: ts => (msResort { msp with first := t, rest := ts, fd := p.fd } l, notified)

namespace FileMode

def setupFile (st : FileMode) (opts : BlkparseOptions) (pdi cpu : ℕ) (file : List BlkIoTrace) :
    FileMode :=
  if file = [] then st
  else
    let p := msPrime opts cpu (some file)
    let st := { st with log := st.log ++ p.notified.map (Handed.notify pdi cpu) }
    match p.traces with
    | [] => st
    | t :: ts => { st with msHead := msSort ⟨pdi, cpu, t, ts, p.fd⟩ st.msHead }

def setupDevice (st : FileMode) (opts : BlkparseOptions) (pdi : ℕ) :
    ℕ → List (List BlkIoTrace) → FileMode
  | _, [] => st
  | cpu, file :: files => setupDevice (st.setupFile opts pdi cpu file) opts pdi (cpu + 1) files

def setupDevices (st : FileMode) (opts : BlkparseOptions) :
    ℕ → List (List (List BlkIoTrace)) → FileMode × ℤ
  | _, [] => (st, 0)
  | pdi, files :: devices =>
    if files = [] then (st, 1)
    else setupDevices (st.setupDevice opts pdi 0 files) opts (pdi + 1) devices

/-- `handle` of the stream at the head; `none` where it returns 0. -/
def handle (st : FileMode) (opts : BlkparseOptions) (msp : MsStream) (l : List MsStream) :
    Option FileMode :=
  let bit := msp.first.relative st.genesisTime
  if bit.time > opts.stopwatchEnd then none
  else
    let dumped := bit.actMasked opts && bit.time ≥ opts.stopwatchStart
    let (msHead, notified) := msDeq opts msp l
    some ⟨msHead, st.genesisTime,
      st.log ++ Handed.trace msp.pdi msp.cpu bit dumped :: notified⟩

def run (st : FileMode) (opts : BlkparseOptions) : Option FileMode :=
  match st.msHead with
  | [] => some st
  | msp :: l =>
    match st.handle opts msp l with
    | none => some st
    | some st' => st' |>.run opts
partial_fixpoint

def setGenesis (st : FileMode) : FileMode where
  msHead := st.msHead
  genesisTime := match st.msHead with
    | [] => st.genesisTime
    | msp :: _ => msPeekTime msp
  log := st.log

end FileMode

/-- `do_file` on the files of each device, by CPU, when no signal stops it. -/
def doFile (opts : BlkparseOptions) (devices : List (List (List BlkIoTrace))) :
    Option (FileMode × ℤ) :=
  let (st, ret) := FileMode.setupDevices ⟨[], 0, []⟩ opts 0 devices
  if ret ≠ 0 then some (st, ret)
  else (st.setGenesis.run opts).map (fun st => (st, 0))

end SBlktrace
