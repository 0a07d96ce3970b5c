import SBlktrace.IoStats
import Mathlib

namespace SBlktrace

open Function

/-- `struct blktrace_net_hdr` in the byte order of the server. A length of 0 is an open, one of 1 a
close, whose `cpu` is the number of drops. -/
structure BlktraceNetHdr where
  butsName : String
  cpu : UInt32
  maxCpus : UInt32
  len : UInt32
  clId : UInt32

/-- What a `struct devpath` of the server says of a device: `hostname` and `clConnectTime` are in the
names of its files, `ios` is what has been written to them. -/
structure Device where
  butsName : String
  hostname : UInt32
  clId : UInt32
  clConnectTime : ℤ
  ncpus : ℤ
  drops : UInt64
  stats : UInt32 → UInt64
  ios : UInt32 → List UInt8

structure Devpath extends Device where
  ch : ℕ

structure ClConn where
  ch : ℕ
  ncpus : ℤ
  connectTime : ℤ

structure ClHost (κ : Type) where
  clInAddr : UInt32
  connList : List κ
  devpaths : List ℕ
  clOpens : ℤ

/-- `struct net_server_s` and the memory: what is freed, or not yet allocated, is `none`. The files
are those of the devices that are done, with the number of CPUs whose files were closed. -/
structure NetServer (κ : Type) where
  connList : List κ
  chList : List ℕ
  conn : κ → Option ClConn
  ch : ℕ → Option (ClHost κ)
  dpp : ℕ → Option Devpath
  chs : ℕ
  dpps : ℕ
  files : List (Device × ℤ)

namespace NetServer

variable {κ : Type} [DecidableEq κ]

def netServer : NetServer κ where
  connList := []
  chList := []
  conn _ := none
  ch _ := none
  dpp _ := none
  chs := 0
  dpps := 0
  files := []

/-- The functions below are `none` where the code would use memory that is freed. -/
def netFindClientHost (ns : NetServer κ) (addr : UInt32) : List ℕ → Option (Option ℕ)
  | [] => some none
  | p :: ps => do
    let ch ← ns.ch p
    if ch.clInAddr = addr then some (some p) else ns.netFindClientHost addr ps

def netAddClientHost (ns : NetServer κ) (addr : UInt32) : NetServer κ :=
  { ns with
    ch := update ns.ch ns.chs (some ⟨addr, [], [], 0⟩)
    chList := ns.chList ++ [ns.chs]
    chs := ns.chs + 1 }

def chAddConnection (ns : NetServer κ) (p : ℕ) (nc : κ) (time : ℤ) : Option (NetServer κ) := do
  let ch ← ns.ch p
  some { ns with
    conn := update ns.conn nc (some ⟨p, -1, time⟩)
    ch := update ns.ch p (some { ch with connList := ch.connList ++ [nc] })
    connList := ns.connList ++ [nc] }

def netAddConnection (ns : NetServer κ) (addr : UInt32) (nc : κ) (time : ℤ) :
    Option (NetServer κ) := do
  let found ← ns.netFindClientHost addr ns.chList
  match found with
  | some p => ns.chAddConnection p nc time
  | none => (ns.netAddClientHost addr).chAddConnection ns.chs nc time

def chRemConnection (p : ℕ) (ns : NetServer κ) (nc : κ) : Option (NetServer κ) := do
  let ch ← ns.ch p
  let _ ← ns.conn nc
  some { ns with
    conn := update ns.conn nc none
    ch := update ns.ch p (some { ch with connList := ch.connList.erase nc })
    connList := ns.connList.erase nc }

def deviceDone (p : ℕ) (ncpus : ℤ) (ns : NetServer κ) (d : ℕ) : Option (NetServer κ) := do
  let ch ← ns.ch p
  let dpp ← ns.dpp d
  some { ns with
    dpp := update ns.dpp d none
    ch := update ns.ch p (some { ch with devpaths := ch.devpaths.erase d })
    files := ns.files ++ [(dpp.toDevice, ncpus)] }

def netChRemove (ns : NetServer κ) (p : ℕ) (ncpus : ℤ) : Option (NetServer κ) := do
  let ch ← ns.ch p
  let ns ← ch.devpaths.foldlM (deviceDone p ncpus) ns
  let ns ← ch.connList.foldlM (chRemConnection p) ns
  some { ns with
    chList := ns.chList.erase p
    ch := update ns.ch p none }

def findDpp (ns : NetServer κ) (bnh : BlktraceNetHdr) : ℤ → List ℕ → Option (ℕ ⊕ ℤ)
  | time, [] => some (.inr time)
  | time, d :: ds => do
    let dpp ← ns.dpp d
    if dpp.butsName = bnh.butsName then some (.inl d)
    else ns.findDpp bnh (if dpp.clId = bnh.clId then dpp.clConnectTime else time) ds

def ncAddDpp (ns : NetServer κ) (nc : ClConn) (bnh : BlktraceNetHdr) (connectTime : ℤ) :
    Option (NetServer κ × ℕ) := do
  let ch ← ns.ch nc.ch
  let dpp : Devpath :=
    { butsName := bnh.butsName
      hostname := ch.clInAddr
      clId := bnh.clId
      clConnectTime := connectTime
      ncpus := nc.ncpus
      drops := 0
      stats := fun _ => 0
      ios := fun _ => []
      ch := nc.ch }
  some ({ ns with
    dpp := update ns.dpp ns.dpps (some dpp)
    ch := update ns.ch nc.ch (some { ch with devpaths := ch.devpaths ++ [ns.dpps] })
    dpps := ns.dpps + 1 }, ns.dpps)

def ncFindDpp (ns : NetServer κ) (nc : ClConn) (bnh : BlktraceNetHdr) :
    Option (NetServer κ × ℕ) := do
  let ch ← ns.ch nc.ch
  let found ← ns.findDpp bnh nc.connectTime ch.devpaths
  match found with
  | .inl d => some (ns, d)
  | .inr connectTime => ns.ncAddDpp nc bnh connectTime

def netClientReadData (ns : NetServer κ) (d : ℕ) (bnh : BlktraceNetHdr) (payload : List UInt8) :
    Option (NetServer κ) := do
  let dpp ← ns.dpp d
  some { ns with
    dpp := update ns.dpp d (some { dpp with
      stats := update dpp.stats bnh.cpu (dpp.stats bnh.cpu + bnh.len.toUInt64)
      ios := update dpp.ios bnh.cpu (dpp.ios bnh.cpu ++ payload) }) }

def opened (ns : NetServer κ) (p : ℕ) : Option (NetServer κ) := do
  let ch ← ns.ch p
  some { ns with ch := update ns.ch p (some { ch with clOpens := ch.clOpens + 1 }) }

def closed (ns : NetServer κ) (nc : ClConn) (d : ℕ) (bnh : BlktraceNetHdr) :
    Option (NetServer κ) := do
  let dpp ← ns.dpp d
  let ch ← ns.ch nc.ch
  let ns := { ns with
    dpp := update ns.dpp d (some { dpp with drops := bnh.cpu.toUInt64 })
    ch := update ns.ch nc.ch (some { ch with clOpens := ch.clOpens - 1 }) }
  if ch.clOpens - 1 = 0 then ns.netChRemove nc.ch nc.ncpus else some ns

def netClientData (ns : NetServer κ) (id : κ) (bnh : BlktraceNetHdr) (payload : List UInt8) :
    Option (NetServer κ) := do
  let nc ← ns.conn id
  let nc := if nc.ncpus = -1 then { nc with ncpus := asInt bnh.maxCpus } else nc
  let (ns, d) ← { ns with conn := update ns.conn id (some nc) }.ncFindDpp nc bnh
  if bnh.len = 0 then ns.opened nc.ch
  else if bnh.len = 1 then ns.closed nc d bnh
  else ns.netClientReadData d bnh payload

end NetServer

end SBlktrace
