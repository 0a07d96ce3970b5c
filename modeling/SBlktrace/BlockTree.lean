import SBlktrace.BaseIntro
import SBlktrace.ExtStruct
import Mathlib

namespace SBlktrace

open Function

structure SBlock where
  sbLevel : UInt8
  sbOffset : UInt32
  sbSib : UInt32
  sbBh : UInt32
  sbInode : UInt32
deriving DecidableEq

structure SInode where
  siMode : UInt16
  siSize : UInt32
  siCtime : UInt32
  siMtime : UInt32
  siDtime : UInt32
  siBh : UInt32

structure ExtInode where
  iMode : UInt16
  iSize : UInt32
  iCtime : UInt32
  iMtime : UInt32
  iDtime : UInt32
  iBlock : Fin 15 → UInt32

/-- A file of the temporary file system, by what was written to it and where. -/
abbrev TmpFile := List (ℕ × List UInt8)

/-- `ptd` and the other globals. The cache is what `lookup_cache` finds in it. -/
structure PartitionData where
  blist : UInt32 → SBlock
  ilist : UInt32 → SInode
  dataCache : UInt32 → Option Buf
  globalVersion : UInt16
  tmpfs : UInt16 × UInt32 → Option TmpFile
  queue : List (UInt32 × UInt16)

def links (extdesc : ExtDesc) (buf : Buf) : List UInt32 :=
  (List.range (extdesc.edBlockSize >>> 2).toNat).map fun i => readui32le buf (4 * i)

def inodeIsdir (iMode : UInt16) : Bool := iMode &&& 0xf000 = 0x4000

def inodeIsregular (iMode : UInt16) : Bool := iMode &&& 0xf000 = 0x8000

namespace PartitionData

def setBlock (p : PartitionData) (blockid : UInt32) (sblock : SBlock) : PartitionData :=
  { p with blist := update p.blist blockid sblock }

def setBh (p : PartitionData) (blockid link : UInt32) : PartitionData :=
  p.setBlock blockid { p.blist blockid with sbBh := link }

def setSib (p : PartitionData) (blockid link : UInt32) : PartitionData :=
  p.setBlock blockid { p.blist blockid with sbSib := link }

def setInode (p : PartitionData) (inodeid : UInt32) (sinode : SInode) : PartitionData :=
  { p with ilist := update p.ilist inodeid sinode }

def setSiBh (p : PartitionData) (inodeid link : UInt32) : PartitionData :=
  p.setInode inodeid { p.ilist inodeid with siBh := link }

def linkNext (p : PartitionData) (inodeid : UInt32) (parent current : Option UInt32)
    (link : UInt32) : PartitionData :=
  match current with
  | some current => p.setSib current link
  | none =>
    match parent with
    | some parent => p.setBh parent link
    | none => p.setSiBh inodeid link

def endChain (p : PartitionData) : Option UInt32 → PartitionData
  | some current => p.setSib current 0
  | none => p

def decache (p : PartitionData) (blockid : UInt32) : PartitionData :=
  { p with dataCache := update p.dataCache blockid none }

end PartitionData

end SBlktrace
