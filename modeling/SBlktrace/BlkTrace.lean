import Mathlib

namespace SBlktrace

/-- The fields of a `blk_io_trace` that the parser decides on, in the byte order of the CPU. -/
structure BlkIoTrace where
  magic : UInt32
  sequence : UInt32
  time : UInt64
  action : UInt32
  device : UInt32
  cpu : UInt32
deriving DecidableEq

def blkIoTraceMagic : UInt32 := 0x65617400

def supportedVersion : UInt32 := 0x07

def blkTcShift : UInt32 := 16

def blkTcAct (act : UInt32) : UInt32 := act <<< blkTcShift

def blkTcRead : UInt32 := (1 : UInt32) <<< (0 : UInt32)

def blkTcWrite : UInt32 := (1 : UInt32) <<< (1 : UInt32)

def blkTcQueue : UInt32 := (1 : UInt32) <<< (4 : UInt32)

def blkTcPc : UInt32 := (1 : UInt32) <<< (9 : UInt32)

def blkTcNotify : UInt32 := (1 : UInt32) <<< (10 : UInt32)

def blkTnMessage : UInt32 := 2 ||| blkTcAct blkTcNotify

structure BlkparseOptions where
  rbBatch : ℕ
  actMask : UInt32
  stopwatchStart : UInt64
  stopwatchEnd : UInt64

namespace BlkIoTrace

def checkMagic (t : BlkIoTrace) : Bool := t.magic &&& 0xffffff00 = blkIoTraceMagic

def verifyTrace (t : BlkIoTrace) : ℤ :=
  if ¬t.checkMagic then 1 else if t.magic &&& 0xff ≠ supportedVersion then 1 else 0

def isNotify (t : BlkIoTrace) : Bool :=
  t.action &&& blkTcAct blkTcNotify ≠ 0 && t.action ≠ blkTnMessage

def actMasked (t : BlkIoTrace) (opts : BlkparseOptions) : Bool :=
  t.action &&& (opts.actMask <<< blkTcShift) ≠ 0

def relative (t : BlkIoTrace) (genesisTime : UInt64) : BlkIoTrace :=
  { t with time := t.time - genesisTime }

end BlkIoTrace

end SBlktrace
