import SBlktrace.BaseIntro
import SBlktrace.ExtStruct
import Mathlib

namespace SBlktrace

/-- An inode that `get_diskstat` looks at when bit `bit` of byte `byte` of the inode bitmap is
set: its number, and where it parses it in the inode table it has read. -/
structure ScanSlot where
  byte : ℕ
  bit : ℕ
  inodeid : UInt32
  itableOffset : UInt32

structure GroupRead where
  blockBitmap : UInt32
  inodeBitmap : UInt32
  inodeTable : List UInt32
  slots : List ScanSlot

def offsetBlockid (extdesc : ExtDesc) (i : UInt32) : UInt32 :=
  if isBackupGroup i then extdesc.sb.sBlocksPerGroup * i + extdesc.bgdesc.bgBlockBitmap
  else extdesc.sb.sBlocksPerGroup * i

def byteSlots (extdesc : ExtDesc) (i : UInt32) (j : ℕ) : List ScanSlot :=
  ((List.range 8).takeWhile
      (fun k => (j <<< 3) + k + 1 ≤ extdesc.sb.sInodesPerGroup.toNat)).map (fun k =>
    let inodeid := UInt32.ofNat ((j <<< 3) + k + 1) + i * extdesc.sb.sInodesPerGroup
    ⟨j, k, inodeid, localInodeIndex inodeid extdesc.sb * extdesc.sb.sInodeSize.toUInt32⟩)

def groupRead (extdesc : ExtDesc) (i : UInt32) : GroupRead where
  blockBitmap := offsetBlockid extdesc i
  inodeBitmap := offsetBlockid extdesc i + 1
  inodeTable := (List.range extdesc.edInodeTableBlocksPerGroup.toNat).map
    (fun k => offsetBlockid extdesc i + 2 + UInt32.ofNat k)
  slots := (List.range (extdesc.sb.sInodesPerGroup >>> 3).toNat).flatMap (byteSlots extdesc i)

/-- What `get_diskstat` has read of a group. A read that fails ends the scan, as does one that does not
fit its buffer; and the inode bitmap that is gone through is the block that was read. -/
def readGroup (build : Build) (extdesc : ExtDesc) (i : UInt32) : Option GroupRead :=
  let offset := offsetBlockid extdesc i
  let bsize := extdesc.edBlockSize
  let count := extdesc.edInodeTableBlocksPerGroup
  if alignReadblock build offset bsize dom0blocksize dom0blocksize = .returns 0 ∧
      alignReadblock build (offset + 1) bsize dom0blocksize dom0blocksize = .returns 0 ∧
      alignReadblocks build (offset + 2) bsize count (count <<< extdesc.edBlockShift)
        dom0blocksize = .returns 0 ∧
      extdesc.sb.sInodesPerGroup >>> 3 ≤ bsize then
    some (groupRead extdesc i)
  else none

/-- The number `inodetable_write_introspection` gives the first inode of a written block. -/
def inodetableInodeid (extdesc : ExtDesc) (bd : BlockDesc) : UInt32 :=
  (bd.bdGroupOffset - bd.bdGroupFirstBlock - 2) * extdesc.edInodesPerBlock +
    bd.bdGroup * extdesc.sb.sInodesPerGroup + 1

def Classified (extdesc : ExtDesc) (b : UInt32) (type : BlockType) (i : UInt32) : Prop :=
  ∃ bd, initBlockdesc2 b extdesc = some bd ∧ bd.bdType = type ∧ bd.bdGroup = i

/-- Every group is read, and scanning and classification agree on it: on the blocks of its metadata,
and on the numbers of the inodes in every slot of its inode table. -/
structure GeometryAgrees (build : Build) (extdesc : ExtDesc) : Prop where
  read : ∀ i < extdesc.edGroups, readGroup build extdesc i = some (groupRead extdesc i)
  blockBitmap : ∀ i < extdesc.edGroups, ∀ b,
    b = (groupRead extdesc i).blockBitmap ↔ Classified extdesc b .blockbitmap i
  inodeBitmap : ∀ i < extdesc.edGroups, ∀ b,
    b = (groupRead extdesc i).inodeBitmap ↔ Classified extdesc b .inodebitmap i
  inodeTable : ∀ i < extdesc.edGroups, ∀ b,
    b ∈ (groupRead extdesc i).inodeTable ↔ Classified extdesc b .inodetable i
  inodeids : ∀ b bd, initBlockdesc2 b extdesc = some bd → bd.bdType = .inodetable →
    ∀ j < extdesc.edInodesPerBlock.toNat,
      ∃ slot ∈ (groupRead extdesc bd.bdGroup).slots, ∃ k : ℕ,
        (groupRead extdesc bd.bdGroup).inodeTable[k]? = some b ∧
        slot.itableOffset.toNat =
          k * extdesc.edBlockSize.toNat + j * extdesc.sb.sInodeSize.toNat ∧
        slot.inodeid = inodetableInodeid extdesc bd + UInt32.ofNat j ∧
        bd.bdGroup.toNat * extdesc.sb.sInodesPerGroup.toNat < slot.inodeid.toNat ∧
        slot.inodeid.toNat ≤ (bd.bdGroup.toNat + 1) * extdesc.sb.sInodesPerGroup.toNat

def blockSize (sb : ExtSuperblock) : ℕ := 1024 * 2 ^ sb.sLogBlockSize.toNat

def itableBytes (sb : ExtSuperblock) : ℕ := sb.sInodeSize.toNat * sb.sInodesPerGroup.toNat

def metaBlocks (sb : ExtSuperblock) : ℕ := 2 + (itableBytes sb + (blockSize sb - 1)) / blockSize sb

/-- What the format promises of a superblock and the first group descriptor: block sizes up to
64 KiB, inodes that fill their block, each group's bitmaps and inode table inside the group and
inside the disk, inode numbers and the size of a table in 32 bits. -/
structure ValidGeometry (sb : ExtSuperblock) (bgdesc : ExtBlockgroupdesc) : Prop where
  logBlockSize : sb.sLogBlockSize.toNat ≤ 6
  inodeSize : 128 ≤ sb.sInodeSize.toNat ∧ sb.sInodeSize.toNat ∣ blockSize sb
  inodesPerGroup : 0 < sb.sInodesPerGroup.toNat
  itable : itableBytes sb < 2 ^ 32
  blockBitmap : sb.sFirstDataBlock.toNat < bgdesc.bgBlockBitmap.toNat
  blocks : sb.sFirstDataBlock.toNat < sb.sBlocksCount.toNat
  groupFits : bgdesc.bgBlockBitmap.toNat + metaBlocks sb ≤
    sb.sFirstDataBlock.toNat + sb.sBlocksPerGroup.toNat
  diskFits : ∀ i : UInt32,
    sb.sFirstDataBlock.toNat + i.toNat * sb.sBlocksPerGroup.toNat < sb.sBlocksCount.toNat →
    i.toNat * sb.sBlocksPerGroup.toNat + metaBlocks sb +
      (if isBackupGroup i then bgdesc.bgBlockBitmap.toNat else sb.sFirstDataBlock.toNat) ≤
        sb.sBlocksCount.toNat
  inodes : ∀ i : UInt32,
    sb.sFirstDataBlock.toNat + i.toNat * sb.sBlocksPerGroup.toNat < sb.sBlocksCount.toNat →
    (i.toNat + 1) * sb.sInodesPerGroup.toNat < 2 ^ 32

structure InodeTableFits (sb : ExtSuperblock) : Prop where
  logBlockSize : sb.sLogBlockSize.toNat ≤ 21
  inodeSize : sb.sInodeSize.toNat ∣ blockSize sb
  itable : itableBytes sb < 2 ^ 32

variable {sb : ExtSuperblock} {bgdesc : ExtBlockgroupdesc} {fs : FsType} {b i : UInt32}

theorem edGroups_toNat (hpos : 0 < sb.sBlocksPerGroup.toNat) :
    (initExtDesc sb bgdesc fs).edGroups.toNat =
      sb.sBlocksCount.toNat / sb.sBlocksPerGroup.toNat +
        if sb.sBlocksCount.toNat % sb.sBlocksPerGroup.toNat = 0 then 0 else 1 := by
  have hmod : sb.sBlocksCount % sb.sBlocksPerGroup = 0 ↔
      sb.sBlocksCount.toNat % sb.sBlocksPerGroup.toNat = 0 := by
    rw [← UInt32.toNat_inj, UInt32.toNat_mod]
    rfl
  have hlt := sb.sBlocksCount.toNat_lt
  simp only [initExtDesc, UInt32.toNat_add, UInt32.toNat_div]
  by_cases hz : sb.sBlocksCount % sb.sBlocksPerGroup = 0
  · rw [if_pos hz, if_pos (hmod.mp hz)]
    apply Nat.mod_eq_of_lt
    have hle := Nat.div_le_self sb.sBlocksCount.toNat sb.sBlocksPerGroup.toNat
    have : (0 : UInt32).toNat = 0 := rfl
    omega
  · rw [if_neg hz, if_neg (fun h => hz (hmod.mpr h))]
    apply Nat.mod_eq_of_lt
    -- a remainder is left only by groups of two blocks and more
    have htwo : 2 ≤ sb.sBlocksPerGroup.toNat := by
      by_contra hone
      have heq : sb.sBlocksPerGroup.toNat = 1 := by omega
      apply hz
      rw [hmod, heq, Nat.mod_one]
    have hdiv : sb.sBlocksCount.toNat / sb.sBlocksPerGroup.toNat ≤ sb.sBlocksCount.toNat / 2 :=
      Nat.div_le_div_left htwo (by omega)
    have : (1 : UInt32).toNat = 1 := rfl
    omega

theorem lt_edGroups_of_pos (hpos : 0 < sb.sBlocksPerGroup.toNat) :
    i < (initExtDesc sb bgdesc fs).edGroups ↔
      i.toNat * sb.sBlocksPerGroup.toNat < sb.sBlocksCount.toNat := by
  rw [UInt32.lt_iff_toNat_lt, edGroups_toNat hpos]
  have hdm := Nat.div_add_mod sb.sBlocksCount.toNat sb.sBlocksPerGroup.toNat
  have hml := Nat.mod_lt sb.sBlocksCount.toNat hpos
  generalize sb.sBlocksCount.toNat / sb.sBlocksPerGroup.toNat = q at hdm ⊢
  generalize hr : sb.sBlocksCount.toNat % sb.sBlocksPerGroup.toNat = r at hdm hml ⊢
  rw [← hdm]
  constructor
  · intro hi
    split at hi
    · calc i.toNat * sb.sBlocksPerGroup.toNat < q * sb.sBlocksPerGroup.toNat :=
          Nat.mul_lt_mul_of_pos_right hi hpos
        _ ≤ sb.sBlocksPerGroup.toNat * q + r := by rw [Nat.mul_comm]; omega
    · have hle : i.toNat * sb.sBlocksPerGroup.toNat ≤ q * sb.sBlocksPerGroup.toNat :=
        Nat.mul_le_mul_right _ (by omega)
      rw [Nat.mul_comm q] at hle
      omega
  · intro hi
    by_contra hge
    have hle : q * sb.sBlocksPerGroup.toNat ≤ i.toNat * sb.sBlocksPerGroup.toNat :=
      Nat.mul_le_mul_right _ (by split at hge <;> omega)
    rw [Nat.mul_comm q] at hle
    split at hge
    · omega
    · have hle' : (q + 1) * sb.sBlocksPerGroup.toNat ≤ i.toNat * sb.sBlocksPerGroup.toNat :=
        Nat.mul_le_mul_right _ (by omega)
      rw [Nat.add_mul, Nat.mul_comm q] at hle'
      omega

theorem ceiling_toNat (a : UInt32) {d : UInt32} (hd : 0 < d.toNat) :
    (ceiling a d).toNat = a.toNat / d.toNat + a.toNat % d.toNat := by
  have ha := a.toNat_lt
  have hdm := Nat.div_add_mod a.toNat d.toNat
  have hle : a.toNat / d.toNat ≤ d.toNat * (a.toNat / d.toNat) := Nat.le_mul_of_pos_left _ hd
  simp only [ceiling, UInt32.toNat_add, UInt32.toNat_div, UInt32.toNat_mod]
  apply Nat.mod_eq_of_lt
  omega

theorem blockSize_pos (sb : ExtSuperblock) : 0 < blockSize sb := by
  unfold blockSize
  positivity

namespace InodeTableFits

theorem blockSize_le (hf : InodeTableFits sb) : 1024 ≤ blockSize sb ∧ blockSize sb ≤ 2 ^ 31 := by
  have hone : 1 ≤ 2 ^ sb.sLogBlockSize.toNat := Nat.one_le_two_pow
  have hpow : 2 ^ sb.sLogBlockSize.toNat ≤ 2 ^ 21 :=
    Nat.pow_le_pow_right (by omega) hf.logBlockSize
  unfold blockSize
  omega

theorem edBlockSize (hf : InodeTableFits sb) (bgdesc : ExtBlockgroupdesc) (fs : FsType) :
    (initExtDesc sb bgdesc fs).edBlockSize.toNat = blockSize sb := by
  have hlog := hf.logBlockSize
  have hle := hf.blockSize_le
  have hk : (1024 : UInt32).toNat = 1024 := rfl
  simp only [blockSize] at hle
  simp only [initExtDesc, UInt32.toNat_shiftLeft, hk, Nat.shiftLeft_eq, blockSize]
  rw [Nat.mod_eq_of_lt (show sb.sLogBlockSize.toNat < 32 by omega)]
  apply Nat.mod_eq_of_lt
  omega

theorem edInodesPerBlock (hf : InodeTableFits sb) (bgdesc : ExtBlockgroupdesc) (fs : FsType) :
    (initExtDesc sb bgdesc fs).edInodesPerBlock.toNat = blockSize sb / sb.sInodeSize.toNat := by
  have hsize : (1024 <<< sb.sLogBlockSize : UInt32).toNat = blockSize sb :=
    hf.edBlockSize bgdesc fs
  simp only [initExtDesc, UInt32.toNat_div, hsize]
  rfl

theorem inodesPerBlock_mul (hf : InodeTableFits sb) (bgdesc : ExtBlockgroupdesc) (fs : FsType) :
    (initExtDesc sb bgdesc fs).edInodesPerBlock.toNat * sb.sInodeSize.toNat = blockSize sb := by
  rw [hf.edInodesPerBlock]
  exact Nat.div_mul_cancel hf.inodeSize

theorem itableSize (hf : InodeTableFits sb) :
    (sb.sInodeSize.toUInt32 * sb.sInodesPerGroup).toNat = itableBytes sb := by
  rw [UInt32.toNat_mul]
  exact Nat.mod_eq_of_lt hf.itable

theorem tableBlocks (hf : InodeTableFits sb) (bgdesc : ExtBlockgroupdesc) (fs : FsType) :
    (initExtDesc sb bgdesc fs).edInodeTableBlocksPerGroup.toNat =
      itableBytes sb / blockSize sb + itableBytes sb % blockSize sb := by
  have hsize : (1024 <<< sb.sLogBlockSize : UInt32).toNat = blockSize sb :=
    hf.edBlockSize bgdesc fs
  simp only [initExtDesc]
  rw [ceiling_toNat _ (by rw [hsize]; exact blockSize_pos sb), hsize, hf.itableSize]

theorem tableBlocks_lt (hf : InodeTableFits sb) :
    (initExtDesc sb bgdesc fs).edInodeTableBlocksPerGroup.toNat + 2 < 2 ^ 32 := by
  rw [hf.tableBlocks bgdesc fs]
  obtain ⟨hle, hup⟩ := hf.blockSize_le
  have hdiv : itableBytes sb / blockSize sb ≤ itableBytes sb / 1024 :=
    Nat.div_le_div_left hle (by omega)
  have hmod := Nat.mod_lt (itableBytes sb) (blockSize_pos sb)
  have := hf.itable
  omega

end InodeTableFits

namespace ValidGeometry

theorem inodeTableFits (hv : ValidGeometry sb bgdesc) : InodeTableFits sb where
  logBlockSize := hv.logBlockSize.trans (by omega)
  inodeSize := hv.inodeSize.2
  itable := hv.itable

theorem edBlockSize (hv : ValidGeometry sb bgdesc) (fs : FsType) :
    (initExtDesc sb bgdesc fs).edBlockSize.toNat = blockSize sb :=
  hv.inodeTableFits.edBlockSize bgdesc fs

theorem edInodesPerBlock (hv : ValidGeometry sb bgdesc) (fs : FsType) :
    (initExtDesc sb bgdesc fs).edInodesPerBlock.toNat = blockSize sb / sb.sInodeSize.toNat :=
  hv.inodeTableFits.edInodesPerBlock bgdesc fs

theorem inodesPerBlock_mul (hv : ValidGeometry sb bgdesc) (fs : FsType) :
    (initExtDesc sb bgdesc fs).edInodesPerBlock.toNat * sb.sInodeSize.toNat = blockSize sb :=
  hv.inodeTableFits.inodesPerBlock_mul bgdesc fs

theorem tableBlocks (hv : ValidGeometry sb bgdesc) (fs : FsType) :
    (initExtDesc sb bgdesc fs).edInodeTableBlocksPerGroup.toNat =
      itableBytes sb / blockSize sb + itableBytes sb % blockSize sb :=
  hv.inodeTableFits.tableBlocks bgdesc fs

theorem two_le_metaBlocks (sb : ExtSuperblock) : 2 ≤ metaBlocks sb := Nat.le_add_right _ _

theorem blocksPerGroup_pos (hv : ValidGeometry sb bgdesc) : 0 < sb.sBlocksPerGroup.toNat := by
  have h₁ := hv.groupFits
  have h₂ := hv.blockBitmap
  have h₃ := two_le_metaBlocks sb
  omega

theorem lt_edGroups (hv : ValidGeometry sb bgdesc) :
    i < (initExtDesc sb bgdesc fs).edGroups ↔
      i.toNat * sb.sBlocksPerGroup.toNat < sb.sBlocksCount.toNat :=
  lt_edGroups_of_pos hv.blocksPerGroup_pos

end ValidGeometry

def firstBlock (bgdesc : ExtBlockgroupdesc) (i : UInt32) : UInt32 :=
  if isBackupGroup i then bgdesc.bgBlockBitmap else 0

def metaType (extdesc : ExtDesc) (off : ℕ) : BlockType :=
  if off = 0 then .blockbitmap
  else if off = 1 then .inodebitmap
  else if off < extdesc.edInodeTableBlocksPerGroup.toNat + 2 then .inodetable
  else if off < extdesc.sb.sBlocksPerGroup.toNat then .datablock
  else .unknown

theorem InodeTableFits.getBlockdescType_eq (hf : InodeTableFits sb) (fs : FsType) (b : UInt32)
    (hboot : ¬b < sb.sFirstDataBlock) {offset first : UInt32} (hle : first.toNat ≤ offset.toNat)
    (hne : first ≠ 0 → offset ≠ 0) :
    getBlockdescType (initExtDesc sb bgdesc fs) b offset first =
      metaType (initExtDesc sb bgdesc fs) (offset.toNat - first.toNat) := by
  have hsub : (offset - first).toNat = offset.toNat - first.toNat :=
    UInt32.toNat_sub_of_le _ _ (UInt32.le_iff_toNat_le.mpr hle)
  have hb : ¬b < (initExtDesc sb bgdesc fs).sb.sFirstDataBlock := hboot
  have hsuper : ¬(first ≠ 0 ∧ offset = 0) := fun h => hne h.1 h.2
  have hgdt : ¬(first ≠ 0 ∧ offset < first) := by
    rintro ⟨-, h⟩
    rw [UInt32.lt_iff_toNat_lt] at h
    omega
  have h₀ : offset - first = 0 ↔ offset.toNat - first.toNat = 0 := by
    rw [← UInt32.toNat_inj, hsub]
    rfl
  have h₁ : offset - first = 1 ↔ offset.toNat - first.toNat = 1 := by
    rw [← UInt32.toNat_inj, hsub]
    rfl
  have htable : offset - first < (initExtDesc sb bgdesc fs).edInodeTableBlocksPerGroup + 2 ↔
      offset.toNat - first.toNat <
        (initExtDesc sb bgdesc fs).edInodeTableBlocksPerGroup.toNat + 2 := by
    rw [UInt32.lt_iff_toNat_lt, hsub, UInt32.toNat_add]
    have htwo : (2 : UInt32).toNat = 2 := rfl
    rw [htwo, Nat.mod_eq_of_lt hf.tableBlocks_lt]
  have hgroup : offset - first < (initExtDesc sb bgdesc fs).sb.sBlocksPerGroup ↔
      offset.toNat - first.toNat < (initExtDesc sb bgdesc fs).sb.sBlocksPerGroup.toNat := by
    rw [UInt32.lt_iff_toNat_lt, hsub]
  simp only [getBlockdescType, metaType, hb, hsuper, hgdt, if_false, h₀, h₁, htable, hgroup]

namespace ValidGeometry

theorem getBlockdescType_eq (hv : ValidGeometry sb bgdesc) (fs : FsType) (b : UInt32)
    (hz : sb.sFirstDataBlock = 0) {offset first : UInt32} (hle : first.toNat ≤ offset.toNat)
    (hne : first ≠ 0 → offset ≠ 0) :
    getBlockdescType (initExtDesc sb bgdesc fs) b offset first =
      metaType (initExtDesc sb bgdesc fs) (offset.toNat - first.toNat) := by
  apply hv.inodeTableFits.getBlockdescType_eq fs b _ hle hne
  rw [hz, UInt32.lt_iff_toNat_lt]
  exact Nat.not_lt_zero _

theorem initBlockdesc2_eq :
    initBlockdesc2 b (initExtDesc sb bgdesc fs) =
      let group := (b - sb.sFirstDataBlock) / sb.sBlocksPerGroup
      let offset := (b - sb.sFirstDataBlock) % sb.sBlocksPerGroup
      let type := getBlockdescType (initExtDesc sb bgdesc fs) b offset (firstBlock bgdesc group)
      if (initExtDesc sb bgdesc fs).edGroups ≤ group then none
      else if type = .unknown then none
      else some ⟨b, group, type, offset, firstBlock bgdesc group⟩ := rfl

theorem initBlockdesc2_some (hv : ValidGeometry sb bgdesc) (hz : sb.sFirstDataBlock = 0)
    {bd : BlockDesc} (hbd : initBlockdesc2 b (initExtDesc sb bgdesc fs) = some bd) :
    bd.bdGroup < (initExtDesc sb bgdesc fs).edGroups ∧
      bd.bdGroupOffset.toNat < sb.sBlocksPerGroup.toNat ∧
      b.toNat = bd.bdGroup.toNat * sb.sBlocksPerGroup.toNat + bd.bdGroupOffset.toNat ∧
      bd.bdGroupFirstBlock = firstBlock bgdesc bd.bdGroup ∧
      bd.bdType = getBlockdescType (initExtDesc sb bgdesc fs) b bd.bdGroupOffset
        bd.bdGroupFirstBlock := by
  simp only [initBlockdesc2_eq, hz, UInt32.sub_zero] at hbd
  split at hbd
  · simp at hbd
  · next hgroup =>
    split at hbd
    · simp at hbd
    · obtain rfl := Option.some.inj hbd
      refine ⟨UInt32.not_le.mp hgroup, ?_, ?_, rfl, rfl⟩
      · rw [UInt32.toNat_mod]
        exact Nat.mod_lt _ hv.blocksPerGroup_pos
      · simp only [UInt32.toNat_mod, UInt32.toNat_div]
        exact (Nat.div_add_mod' _ _).symm

theorem initBlockdesc2_of_place (hv : ValidGeometry sb bgdesc) (hz : sb.sFirstDataBlock = 0)
    {g : UInt32} (hi : i < (initExtDesc sb bgdesc fs).edGroups)
    (hg : g.toNat < sb.sBlocksPerGroup.toNat)
    (hb : b.toNat = i.toNat * sb.sBlocksPerGroup.toNat + g.toNat)
    (htype : getBlockdescType (initExtDesc sb bgdesc fs) b g (firstBlock bgdesc i) ≠ .unknown) :
    initBlockdesc2 b (initExtDesc sb bgdesc fs) =
      some ⟨b, i, getBlockdescType (initExtDesc sb bgdesc fs) b g (firstBlock bgdesc i), g,
        firstBlock bgdesc i⟩ := by
  have hpos := hv.blocksPerGroup_pos
  have hdiv : b / sb.sBlocksPerGroup = i := by
    rw [← UInt32.toNat_inj, UInt32.toNat_div, hb, Nat.mul_comm, Nat.mul_add_div hpos,
      Nat.div_eq_of_lt hg, Nat.add_zero]
  have hmod : b % sb.sBlocksPerGroup = g := by
    rw [← UInt32.toNat_inj, UInt32.toNat_mod, hb, Nat.mul_comm, Nat.mul_add_mod,
      Nat.mod_eq_of_lt hg]
  simp only [initBlockdesc2_eq, hz, UInt32.sub_zero, hdiv, hmod]
  rw [if_neg (UInt32.not_le.mpr hi), if_neg htype]

end ValidGeometry

end SBlktrace
