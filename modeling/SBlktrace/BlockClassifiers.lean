import SBlktrace.GeometryAgreement
import Mathlib

namespace SBlktrace

def getBlockType (blockid : UInt32) (extdesc : ExtDesc) : BlockType :=
  if blockid < extdesc.sb.sFirstDataBlock then .bootrecord
  else
    let groupid := (blockid - extdesc.sb.sFirstDataBlock) / extdesc.sb.sBlocksPerGroup
    let groupoffset := (blockid - extdesc.sb.sFirstDataBlock) % extdesc.sb.sBlocksPerGroup
    if isBackupGroup groupid ∧ groupoffset = 0 then .superblock
    else if isBackupGroup groupid ∧ groupoffset < extdesc.bgdesc.bgBlockBitmap then .groupdesctable
    else
      let groupoffset :=
        if isBackupGroup groupid then groupoffset - extdesc.bgdesc.bgBlockBitmap else groupoffset
      if groupoffset = 0 then .blockbitmap
      else if groupoffset = 1 then .inodebitmap
      else if groupoffset < extdesc.edInodeTableBlocksPerGroup + 2 then .inodetable
      else if groupoffset < extdesc.sb.sBlocksPerGroup then .datablock
      else .unknown

def initBlockdesc (offset : UInt64) (extdesc : ExtDesc) : Option BlockDesc :=
  let bdId := (offset >>> extdesc.edBlockShift.toUInt64).toUInt32
  let group := (bdId - extdesc.sb.sFirstDataBlock) / extdesc.sb.sBlocksPerGroup
  if extdesc.edGroups ≤ group then none
  else
    let groupOffset := (bdId - extdesc.sb.sFirstDataBlock) % extdesc.sb.sBlocksPerGroup
    let groupFirstBlock := if isBackupGroup group then extdesc.bgdesc.bgBlockBitmap else 0
    let type := getBlockdescType extdesc bdId groupOffset groupFirstBlock
    if type = .unknown then none
    else some ⟨bdId, group, type, groupOffset, groupFirstBlock⟩

def byteOffset (id : UInt32) (extdesc : ExtDesc) : UInt64 :=
  id.toUInt64 <<< extdesc.edBlockShift.toUInt64

def ClassifiersAgree (extdesc : ExtDesc) (id : UInt32) : Prop :=
  ∃ bd, initBlockdesc2 id extdesc = some bd ∧
    initBlockdesc (byteOffset id extdesc) extdesc = some bd ∧
    bd.bdType = getBlockType id extdesc

/-- What a classification rests on: a block size `1024 << k` in 32 bits, the superblock in block
0 or 1, groups that are not empty, and their block bitmap behind the superblock. -/
structure GroupLayout (sb : ExtSuperblock) (bgdesc : ExtBlockgroupdesc) : Prop where
  logBlockSize : sb.sLogBlockSize.toNat ≤ 21
  firstDataBlock : sb.sFirstDataBlock.toNat ≤ 1
  blocksPerGroup : 0 < sb.sBlocksPerGroup.toNat
  blockBitmap : bgdesc.bgBlockBitmap ≠ 0

variable {sb : ExtSuperblock} {bgdesc : ExtBlockgroupdesc} {fs : FsType} {id : UInt32}

theorem getBlockdescType_eq_getBlockType {extdesc : ExtDesc}
    (hbitmap : extdesc.bgdesc.bgBlockBitmap ≠ 0) (id : UInt32) :
    getBlockdescType extdesc id
        ((id - extdesc.sb.sFirstDataBlock) % extdesc.sb.sBlocksPerGroup)
        (if isBackupGroup ((id - extdesc.sb.sFirstDataBlock) / extdesc.sb.sBlocksPerGroup) then
          extdesc.bgdesc.bgBlockBitmap else 0) =
      getBlockType id extdesc := by
  unfold getBlockdescType getBlockType
  by_cases hback :
    isBackupGroup ((id - extdesc.sb.sFirstDataBlock) / extdesc.sb.sBlocksPerGroup) = true
  · simp only [hback, if_true, true_and, ne_eq, hbitmap, not_false_eq_true]
  · simp only [hback, if_false, false_and, ne_eq, not_true_eq_false, UInt32.sub_zero,
      Bool.false_eq_true]

theorem getBlockdescType_ne_unknown {extdesc : ExtDesc} {offset : UInt32}
    (h : offset < extdesc.sb.sBlocksPerGroup) (id first : UInt32) :
    getBlockdescType extdesc id offset first ≠ .unknown := by
  unfold getBlockdescType
  by_cases hboot : id < extdesc.sb.sFirstDataBlock
  · rw [if_pos hboot]
    simp
  · rw [if_neg hboot]
    split
    · simp
    · split
      · simp
      · next hgdt =>
        have hin : offset - first < extdesc.sb.sBlocksPerGroup := by
          by_cases hfirst : first = 0
          · rw [hfirst, UInt32.sub_zero]
            exact h
          · have hle : first ≤ offset := UInt32.not_lt.mp fun hlt => hgdt ⟨hfirst, hlt⟩
            rw [UInt32.lt_iff_toNat_lt, UInt32.toNat_sub_of_le _ _ hle]
            rw [UInt32.lt_iff_toNat_lt] at h
            omega
        simp only [hin, if_true]
        split_ifs <;> simp

namespace GroupLayout

theorem byteOffset_shiftRight (hl : GroupLayout sb bgdesc) (id : UInt32) :
    (byteOffset id (initExtDesc sb bgdesc fs) >>>
      (initExtDesc sb bgdesc fs).edBlockShift.toUInt64).toUInt32 = id := by
  have hlog := hl.logBlockSize
  have hten : (10 : UInt32).toNat = 10 := rfl
  have hshift : (initExtDesc sb bgdesc fs).edBlockShift.toUInt64.toNat % 64 =
      10 + sb.sLogBlockSize.toNat := by
    simp only [initExtDesc, UInt32.toNat_toUInt64, UInt32.toNat_add, hten]
    omega
  have hid := id.toNat_lt
  -- a block number of 32 bits shifted by 31 at most stays in the 64 bits of the offset
  have hpow : 2 ^ (10 + sb.sLogBlockSize.toNat) ≤ 2 ^ 31 :=
    Nat.pow_le_pow_right (by omega) (by omega)
  have hfit : id.toNat * 2 ^ (10 + sb.sLogBlockSize.toNat) < 2 ^ 64 :=
    calc id.toNat * 2 ^ (10 + sb.sLogBlockSize.toNat)
        ≤ id.toNat * 2 ^ 31 := Nat.mul_le_mul_left _ hpow
      _ < 2 ^ 64 := by omega
  apply UInt32.toNat_inj.mp
  rw [UInt64.toNat_toUInt32, UInt64.toNat_shiftRight, byteOffset, UInt64.toNat_shiftLeft, hshift,
    UInt32.toNat_toUInt64, Nat.shiftLeft_eq, Nat.mod_eq_of_lt hfit, Nat.shiftRight_eq_div_pow,
    Nat.mul_div_cancel _ (Nat.two_pow_pos _)]
  exact Nat.mod_eq_of_lt hid

theorem initBlockdesc_byteOffset (hl : GroupLayout sb bgdesc) (fs : FsType) (id : UInt32) :
    initBlockdesc (byteOffset id (initExtDesc sb bgdesc fs)) (initExtDesc sb bgdesc fs) =
      initBlockdesc2 id (initExtDesc sb bgdesc fs) := by
  unfold initBlockdesc initBlockdesc2
  rw [hl.byteOffset_shiftRight]

theorem initBlockdesc2_eq_of_lt (hl : GroupLayout sb bgdesc)
    (hgroup : (id - sb.sFirstDataBlock) / sb.sBlocksPerGroup <
      (initExtDesc sb bgdesc fs).edGroups) :
    ∃ bd, initBlockdesc2 id (initExtDesc sb bgdesc fs) = some bd ∧
      bd.bdType = getBlockType id (initExtDesc sb bgdesc fs) := by
  have hoffset : (id - sb.sFirstDataBlock) % sb.sBlocksPerGroup <
      (initExtDesc sb bgdesc fs).sb.sBlocksPerGroup := by
    rw [UInt32.lt_iff_toNat_lt, UInt32.toNat_mod]
    exact Nat.mod_lt _ hl.blocksPerGroup
  have htype := getBlockdescType_ne_unknown hoffset id
    (firstBlock bgdesc ((id - sb.sFirstDataBlock) / sb.sBlocksPerGroup))
  have hbd := @ValidGeometry.initBlockdesc2_eq sb bgdesc fs id
  dsimp only at hbd
  rw [if_neg (UInt32.not_le.mpr hgroup), if_neg htype] at hbd
  refine ⟨_, hbd, ?_⟩
  exact getBlockdescType_eq_getBlockType hl.blockBitmap id

theorem agree_iff_group (hl : GroupLayout sb bgdesc) (fs : FsType) (id : UInt32) :
    ClassifiersAgree (initExtDesc sb bgdesc fs) id ↔
      ((id - sb.sFirstDataBlock) / sb.sBlocksPerGroup).toNat * sb.sBlocksPerGroup.toNat <
        sb.sBlocksCount.toNat := by
  rw [← @lt_edGroups_of_pos sb bgdesc fs _ hl.blocksPerGroup]
  constructor
  · rintro ⟨bd, hbd, -, -⟩
    by_contra hgroup
    rw [ValidGeometry.initBlockdesc2_eq, if_pos (UInt32.not_lt.mp hgroup)] at hbd
    cases hbd
  · intro hgroup
    obtain ⟨bd, hbd, htype⟩ := hl.initBlockdesc2_eq_of_lt hgroup
    refine ⟨bd, hbd, ?_, htype⟩
    rw [hl.initBlockdesc_byteOffset]
    exact hbd

end GroupLayout

/-- The classifiers agree on a block of the disk exactly when it is not the boot record before
the first data block, or when the last block number of 32 bits lies in a group of the disk. -/
theorem classifiersAgree_iff (sb : ExtSuperblock) (bgdesc : ExtBlockgroupdesc) (fs : FsType)
    (hl : GroupLayout sb bgdesc) (id : UInt32) (hid : id < sb.sBlocksCount) :
    ClassifiersAgree (initExtDesc sb bgdesc fs) id ↔
      sb.sFirstDataBlock ≤ id ∨
        (2 ^ 32 - 1) / sb.sBlocksPerGroup.toNat * sb.sBlocksPerGroup.toNat <
          sb.sBlocksCount.toNat := by
  rw [hl.agree_iff_group, UInt32.toNat_div]
  rw [UInt32.lt_iff_toNat_lt] at hid
  have hle := Nat.div_mul_le_self (id - sb.sFirstDataBlock).toNat sb.sBlocksPerGroup.toNat
  by_cases hfirst : sb.sFirstDataBlock ≤ id
  · rw [UInt32.toNat_sub_of_le _ _ hfirst] at hle ⊢
    constructor
    · intro _
      exact Or.inl hfirst
    · intro _
      omega
  · have hlast : (id - sb.sFirstDataBlock).toNat = 2 ^ 32 - 1 := by
      have := hl.firstDataBlock
      rw [UInt32.le_iff_toNat_le] at hfirst
      rw [UInt32.toNat_sub]
      omega
    rw [hlast]
    simp only [hfirst, false_or]

theorem smallBlocks_layout : GroupLayout smallBlocks ⟨3⟩ :=
  ⟨by decide, by decide, by decide, by decide⟩

theorem classifiersAgree_iff_smallBlocks :
    GroupLayout smallBlocks ⟨3⟩ ∧ (4 : UInt32) < smallBlocks.sBlocksCount ∧
      (ClassifiersAgree (initExtDesc smallBlocks ⟨3⟩ .ext2) 4 ↔
        smallBlocks.sFirstDataBlock ≤ 4 ∨
          (2 ^ 32 - 1) / smallBlocks.sBlocksPerGroup.toNat * smallBlocks.sBlocksPerGroup.toNat <
            smallBlocks.sBlocksCount.toNat) :=
  ⟨smallBlocks_layout, by decide,
    classifiersAgree_iff _ _ _ smallBlocks_layout 4 (by decide)⟩

/-- Block 0 of a disk with blocks of 1 KiB is its boot record, and has no descriptor. -/
theorem bootrecord_undescribed :
    getBlockType 0 (initExtDesc smallBlocks ⟨3⟩ .ext2) = .bootrecord ∧
      initBlockdesc2 0 (initExtDesc smallBlocks ⟨3⟩ .ext2) = none ∧
      ¬∀ sb bgdesc fs, GroupLayout sb bgdesc → ∀ id < sb.sBlocksCount,
        ClassifiersAgree (initExtDesc sb bgdesc fs) id := by
  have hnone : initBlockdesc2 0 (initExtDesc smallBlocks ⟨3⟩ .ext2) = none := by decide
  refine ⟨by decide, hnone, fun hall => ?_⟩
  obtain ⟨bd, hbd, -⟩ := hall _ _ .ext2 smallBlocks_layout 0 (by decide)
  rw [hnone] at hbd
  cases hbd

end SBlktrace
