import Mathlib

namespace SBlktrace

inductive FsType where
  | ext2
  | ext3
deriving DecidableEq

structure ExtSuperblock where
  sBlocksCount : UInt32
  sFirstDataBlock : UInt32
  sLogBlockSize : UInt32
  sBlocksPerGroup : UInt32
  sInodesPerGroup : UInt32
  sInodeSize : UInt16
  sJournalInum : UInt32

structure ExtBlockgroupdesc where
  bgBlockBitmap : UInt32

structure ExtDesc where
  sb : ExtSuperblock
  bgdesc : ExtBlockgroupdesc
  edBlockSize : UInt32
  edBlockShift : UInt32
  edGroups : UInt32
  edInodeTableBlocksPerGroup : UInt32
  edInodesPerBlock : UInt32
  edEntriesPerBlock : UInt32
  edJournalInum : UInt32
  fs : FsType

inductive BlockType where
  | bootrecord
  | superblock
  | groupdesctable
  | blockbitmap
  | inodebitmap
  | inodetable
  | datablock
  | unknown
deriving DecidableEq

structure BlockDesc where
  bdId : UInt32
  bdGroup : UInt32
  bdType : BlockType
  bdGroupOffset : UInt32
  bdGroupFirstBlock : UInt32
deriving DecidableEq

def ceiling (a d : UInt32) : UInt32 := a / d + a % d

def stripFactor (p i : UInt32) : UInt32 :=
  if i ≠ 0 ∧ 1 < p ∧ i % p = 0 then stripFactor p (i / p) else i
termination_by i.toNat
decreasing_by
  rename_i h
  rw [UInt32.toNat_div]
  apply Nat.div_lt_self
  · exact Nat.pos_of_ne_zero (fun hz => h.1 (UInt32.toNat_inj.mp hz))
  · exact UInt32.lt_iff_toNat_lt.mp h.2.1

def isBackupGroup (i : UInt32) : Bool :=
  if i = 0 ∨ i = 1 then true
  else if i % 3 = 0 then stripFactor 3 i = 1
  else if i % 5 = 0 then stripFactor 5 i = 1
  else if i % 7 = 0 then stripFactor 7 i = 1
  else false

def localInodeIndex (inodeid : UInt32) (sb : ExtSuperblock) : UInt32 :=
  (inodeid - 1) % sb.sInodesPerGroup

def initExtDesc (sb : ExtSuperblock) (bgdesc : ExtBlockgroupdesc) (fs : FsType) : ExtDesc where
  sb := sb
  bgdesc := bgdesc
  edBlockSize := 1024 <<< sb.sLogBlockSize
  edBlockShift := 10 + sb.sLogBlockSize
  edGroups := sb.sBlocksCount / sb.sBlocksPerGroup +
    if sb.sBlocksCount % sb.sBlocksPerGroup = 0 then 0 else 1
  edInodeTableBlocksPerGroup :=
    ceiling (sb.sInodeSize.toUInt32 * sb.sInodesPerGroup) (1024 <<< sb.sLogBlockSize)
  edInodesPerBlock := (1024 <<< sb.sLogBlockSize) / sb.sInodeSize.toUInt32
  edEntriesPerBlock := (1024 <<< sb.sLogBlockSize) >>> 2
  edJournalInum := sb.sJournalInum
  fs := fs

def getBlockdescType (extdesc : ExtDesc) (bdId groupOffset groupFirstBlock : UInt32) : BlockType :=
  if bdId < extdesc.sb.sFirstDataBlock then .bootrecord
  else if groupFirstBlock ≠ 0 ∧ groupOffset = 0 then .superblock
  else if groupFirstBlock ≠ 0 ∧ groupOffset < groupFirstBlock then .groupdesctable
  else
    let offset := groupOffset - groupFirstBlock
    if offset = 0 then .blockbitmap
    else if offset = 1 then .inodebitmap
    else if offset < extdesc.edInodeTableBlocksPerGroup + 2 then .inodetable
    else if offset < extdesc.sb.sBlocksPerGroup then .datablock
    else .unknown

/-- `none` where the source returns `-1`. -/
def initBlockdesc2 (blockid : UInt32) (extdesc : ExtDesc) : Option BlockDesc :=
  let group := (blockid - extdesc.sb.sFirstDataBlock) / extdesc.sb.sBlocksPerGroup
  if extdesc.edGroups ≤ group then none
  else
    let groupOffset := (blockid - extdesc.sb.sFirstDataBlock) % extdesc.sb.sBlocksPerGroup
    let groupFirstBlock := if isBackupGroup group then extdesc.bgdesc.bgBlockBitmap else 0
    let type := getBlockdescType extdesc blockid groupOffset groupFirstBlock
    if type = .unknown then none
    else some ⟨blockid, group, type, groupOffset, groupFirstBlock⟩

end SBlktrace
