import SBlktrace.GeometryAgreement
import Mathlib

namespace SBlktrace

section Rounding

variable {d : ℕ}

theorem isLeast_ceilDiv (hd : 0 < d) (a : ℕ) : IsLeast {n | a ≤ n * d} (a ⌈/⌉ d) := by
  constructor
  · rw [Set.mem_ofPred_eq, Nat.mul_comm]
    exact (ceilDiv_le_iff_le_mul hd).mp le_rfl
  · intro n hn
    rw [Set.mem_ofPred_eq, Nat.mul_comm] at hn
    exact (ceilDiv_le_iff_le_mul hd).mpr hn

theorem ceilDiv_eq_div_add (hd : 0 < d) (a : ℕ) :
    a ⌈/⌉ d = a / d + if a % d = 0 then 0 else 1 := by
  have hdm := Nat.div_add_mod' a d
  have hlt := Nat.mod_lt a hd
  rw [Nat.ceilDiv_eq_add_pred_div]
  split
  · apply Nat.div_eq_of_lt_le
    · rw [Nat.add_zero]
      omega
    · rw [Nat.add_zero, Nat.add_mul, Nat.one_mul]
      omega
  · apply Nat.div_eq_of_lt_le
    · rw [Nat.add_mul, Nat.one_mul]
      omega
    · rw [Nat.add_mul, Nat.add_mul, Nat.one_mul]
      omega

theorem isLeast_div_add_mod_iff (hd : 0 < d) (a : ℕ) :
    IsLeast {n | a ≤ n * d} (a / d + a % d) ↔ a % d ≤ 1 := by
  have hceil := isLeast_ceilDiv hd a
  constructor
  · intro hleast
    have heq := hleast.unique hceil
    rw [ceilDiv_eq_div_add hd] at heq
    split at heq <;> omega
  · intro hr
    have heq : a / d + a % d = a ⌈/⌉ d := by
      rw [ceilDiv_eq_div_add hd]
      split <;> omega
    rw [heq]
    exact hceil

theorem isGreatest_sub_mod (d a : ℕ) : IsGreatest {m | m ≤ a ∧ d ∣ m} (a - a % d) := by
  refine ⟨⟨Nat.sub_le _ _, Nat.dvd_sub_mod a⟩, ?_⟩
  rintro m ⟨hle, k, rfl⟩
  rcases Nat.eq_zero_or_pos d with rfl | hd
  · simp
  · have hdm := Nat.div_add_mod a d
    calc d * k ≤ d * (a / d) :=
          Nat.mul_le_mul_left _ ((Nat.le_div_iff_mul_le hd).mpr (by rwa [Nat.mul_comm]))
      _ = a - a % d := by omega

theorem isLeast_add_sub_mod (hd : 0 < d) (a : ℕ) :
    IsLeast {m | a ≤ m ∧ d ∣ m} (a + (d - 1) - (a + (d - 1)) % d) := by
  have hlt := Nat.mod_lt (a + (d - 1)) hd
  have hdvd : d ∣ a + (d - 1) - (a + (d - 1)) % d := Nat.dvd_sub_mod _
  refine ⟨⟨by omega, hdvd⟩, ?_⟩
  rintro m ⟨hle, hm⟩
  by_contra hlow
  -- two multiples that differ lie a whole divisor apart
  have hstep := Nat.le_of_dvd (by omega) (Nat.dvd_sub hdvd hm)
  omega

end Rounding

theorem ceiling_isLeast_iff (a : UInt32) {d : UInt32} (hd : d ≠ 0) :
    IsLeast {n : ℕ | a.toNat ≤ n * d.toNat} (ceiling a d).toNat ↔ a.toNat % d.toNat ≤ 1 := by
  have hpos : 0 < d.toNat := toNat_pos_iff.mpr hd
  rw [ceiling_toNat a hpos]
  exact isLeast_div_add_mod_iff hpos a.toNat

variable {sb : ExtSuperblock} {bgdesc : ExtBlockgroupdesc} {fs : FsType} {b i : UInt32}

theorem InodeTableFits.tableBlocks_isLeast_iff (hf : InodeTableFits sb)
    (bgdesc : ExtBlockgroupdesc) (fs : FsType) :
    IsLeast {n : ℕ | sb.sInodesPerGroup.toNat ≤
        n * (initExtDesc sb bgdesc fs).edInodesPerBlock.toNat}
      (initExtDesc sb bgdesc fs).edInodeTableBlocksPerGroup.toNat ↔
      itableBytes sb % blockSize sb ≤ 1 := by
  have hpos : 0 < sb.sInodeSize.toNat := by
    apply Nat.pos_of_dvd_of_pos hf.inodeSize
    exact blockSize_pos sb
  have hset : {n : ℕ | sb.sInodesPerGroup.toNat ≤
      n * (initExtDesc sb bgdesc fs).edInodesPerBlock.toNat} =
        {n : ℕ | itableBytes sb ≤ n * blockSize sb} := by
    ext n
    simp only [Set.mem_ofPred_eq]
    rw [← hf.inodesPerBlock_mul bgdesc fs, ← Nat.mul_assoc, itableBytes,
      Nat.mul_comm sb.sInodeSize.toNat]
    exact (Nat.mul_le_mul_right_iff hpos).symm
  rw [hset, hf.tableBlocks]
  exact isLeast_div_add_mod_iff (blockSize_pos sb) (itableBytes sb)

theorem metaBlocks_eq_ceilDiv (sb : ExtSuperblock) :
    metaBlocks sb = 2 + itableBytes sb ⌈/⌉ blockSize sb := by
  rw [metaBlocks, Nat.ceilDiv_eq_add_pred_div, Nat.add_sub_assoc (blockSize_pos sb)]

/-- Where the first data block of group `i` lies in its group: behind the superblock and the group
descriptors of a backup group, the bitmaps and the blocks that hold the group's inodes. -/
def dataOffset (sb : ExtSuperblock) (bgdesc : ExtBlockgroupdesc) (i : UInt32) : ℕ :=
  (if isBackupGroup i then bgdesc.bgBlockBitmap.toNat - sb.sFirstDataBlock.toNat else 0) +
    metaBlocks sb

structure FirstDataBlock (sb : ExtSuperblock) (bgdesc : ExtBlockgroupdesc) (i b : UInt32) :
    Prop where
  inGroup : dataOffset sb bgdesc i < sb.sBlocksPerGroup.toNat
  inDisk : b < sb.sBlocksCount
  place : b.toNat = sb.sFirstDataBlock.toNat + i.toNat * sb.sBlocksPerGroup.toNat +
    dataOffset sb bgdesc i

theorem metaType_datablock {extdesc : ExtDesc} {off : ℕ} :
    metaType extdesc off = .datablock ↔
      extdesc.edInodeTableBlocksPerGroup.toNat + 2 ≤ off ∧
        off < extdesc.sb.sBlocksPerGroup.toNat := by
  unfold metaType
  split_ifs <;> simp <;> omega

theorem getBlockdescType_groupdesctable {extdesc : ExtDesc} {offset first : UInt32}
    (hboot : ¬b < extdesc.sb.sFirstDataBlock) (hne : offset ≠ 0) (hlt : offset < first) :
    getBlockdescType extdesc b offset first = .groupdesctable := by
  have hfirst : first ≠ 0 := by
    rintro rfl
    exact UInt32.not_lt_zero hlt
  simp [getBlockdescType, hboot, hne, hlt, hfirst]

namespace FirstDataBlock

theorem group_eq (hb : FirstDataBlock sb bgdesc i b) :
    (b - sb.sFirstDataBlock) / sb.sBlocksPerGroup = i ∧
      ((b - sb.sFirstDataBlock) % sb.sBlocksPerGroup).toNat = dataOffset sb bgdesc i := by
  have hin := hb.inGroup
  have hplace := hb.place
  have hsub : (b - sb.sFirstDataBlock).toNat =
      sb.sBlocksPerGroup.toNat * i.toNat + dataOffset sb bgdesc i := by
    rw [UInt32.toNat_sub_of_le _ _ (UInt32.le_iff_toNat_le.mpr (by omega)), hplace,
      Nat.mul_comm i.toNat]
    omega
  constructor
  · rw [← UInt32.toNat_inj, UInt32.toNat_div, hsub, Nat.mul_add_div (by omega),
      Nat.div_eq_of_lt hin, Nat.add_zero]
  · rw [UInt32.toNat_mod, hsub, Nat.mul_add_mod, Nat.mod_eq_of_lt hin]

theorem classified_iff (hb : FirstDataBlock sb bgdesc i b) (fs : FsType) {type : BlockType}
    (htype : type ≠ .unknown) :
    Classified (initExtDesc sb bgdesc fs) b type i ↔
      getBlockdescType (initExtDesc sb bgdesc fs) b
        ((b - sb.sFirstDataBlock) % sb.sBlocksPerGroup) (firstBlock bgdesc i) = type := by
  have hin := hb.inGroup
  have hplace := hb.place
  have hdisk := UInt32.lt_iff_toNat_lt.mp hb.inDisk
  have hgroup : i < (initExtDesc sb bgdesc fs).edGroups := by
    rw [lt_edGroups_of_pos (by omega)]
    omega
  unfold Classified
  simp only [ValidGeometry.initBlockdesc2_eq, hb.group_eq.1]
  rw [if_neg (UInt32.not_le.mpr hgroup)]
  constructor
  · rintro ⟨bd, hbd, rfl, -⟩
    split at hbd
    · cases hbd
    · rw [← Option.some.inj hbd]
  · intro heq
    rw [heq, if_neg htype]
    exact ⟨_, rfl, rfl, rfl⟩

theorem classified_datablock_iff (hb : FirstDataBlock sb bgdesc i b) (hf : InodeTableFits sb)
    (hbitmap : sb.sFirstDataBlock ≤ bgdesc.bgBlockBitmap) (fs : FsType) :
    Classified (initExtDesc sb bgdesc fs) b .datablock i ↔
      itableBytes sb % blockSize sb ≤ 1 ∧ (isBackupGroup i = true → sb.sFirstDataBlock = 0) := by
  rw [hb.classified_iff fs (by simp)]
  have hoff := hb.group_eq.2
  have hin := hb.inGroup
  have hplace := hb.place
  have hboot : ¬b < sb.sFirstDataBlock := by
    rw [UInt32.lt_iff_toNat_lt]
    omega
  rw [UInt32.le_iff_toNat_le] at hbitmap
  have hmeta := metaBlocks_eq_ceilDiv sb
  rw [ceilDiv_eq_div_add (blockSize_pos sb)] at hmeta
  have htable := hf.tableBlocks bgdesc fs
  have hzero : sb.sFirstDataBlock = 0 ↔ sb.sFirstDataBlock.toNat = 0 := by
    rw [← UInt32.toNat_inj]
    rfl
  have hz : (0 : UInt32).toNat = 0 := rfl
  have hbpg : (initExtDesc sb bgdesc fs).sb.sBlocksPerGroup = sb.sBlocksPerGroup := rfl
  generalize (b - sb.sFirstDataBlock) % sb.sBlocksPerGroup = offset at hoff ⊢
  unfold dataOffset at hoff hin
  by_cases hback : isBackupGroup i = true
  · have hfirst : firstBlock bgdesc i = bgdesc.bgBlockBitmap := if_pos hback
    rw [if_pos hback] at hoff hin
    rw [hfirst, hzero]
    have hne : offset ≠ 0 := by
      intro h
      have hmin := ValidGeometry.two_le_metaBlocks sb
      rw [h, hz] at hoff
      omega
    by_cases hgdt : offset < bgdesc.bgBlockBitmap
    · rw [getBlockdescType_groupdesctable hboot hne hgdt]
      rw [UInt32.lt_iff_toNat_lt] at hgdt
      simp only [hback, reduceCtorEq, false_iff, forall_const]
      omega
    · -- the number of the bitmap's block is one of the disk, not of the group
      rw [UInt32.lt_iff_toNat_lt] at hgdt
      rw [hf.getBlockdescType_eq fs b hboot (by omega) (fun _ => hne), metaType_datablock, htable,
        hbpg]
      simp only [hback, forall_const]
      split at hmeta <;> omega
  · have hfirst : firstBlock bgdesc i = 0 := if_neg hback
    rw [if_neg hback] at hoff hin
    rw [hfirst, hf.getBlockdescType_eq fs b hboot (by rw [hz]; omega) (fun h => absurd rfl h),
      metaType_datablock, htable, hbpg, hz]
    simp only [hback, Bool.false_eq_true, false_implies, and_true]
    split at hmeta <;> omega

end FirstDataBlock

/-- The inode tables have the size of the inodes they hold, and the first data block of every
group is classified as a data block of it. -/
structure InodeTableSized (sb : ExtSuperblock) (bgdesc : ExtBlockgroupdesc) (fs : FsType) :
    Prop where
  isLeast : IsLeast {n : ℕ | sb.sInodesPerGroup.toNat ≤
      n * (initExtDesc sb bgdesc fs).edInodesPerBlock.toNat}
    (initExtDesc sb bgdesc fs).edInodeTableBlocksPerGroup.toNat
  datablock : ∀ i b, FirstDataBlock sb bgdesc i b →
    Classified (initExtDesc sb bgdesc fs) b .datablock i

theorem InodeTableFits.sized_iff (hf : InodeTableFits sb)
    (hbitmap : sb.sFirstDataBlock ≤ bgdesc.bgBlockBitmap) (fs : FsType) :
    InodeTableSized sb bgdesc fs ↔
      itableBytes sb % blockSize sb ≤ 1 ∧
        (sb.sFirstDataBlock = 0 ∨
          ∀ i b, FirstDataBlock sb bgdesc i b → isBackupGroup i = false) := by
  constructor
  · intro hs
    refine ⟨(hf.tableBlocks_isLeast_iff bgdesc fs).mp hs.isLeast, ?_⟩
    by_cases hz : sb.sFirstDataBlock = 0
    · exact Or.inl hz
    · right
      intro i b hb
      have hgroup := ((hb.classified_datablock_iff hf hbitmap fs).mp (hs.datablock i b hb)).2
      rw [Bool.eq_false_iff]
      intro hback
      exact hz (hgroup hback)
  · rintro ⟨hr, hgroups⟩
    refine ⟨(hf.tableBlocks_isLeast_iff bgdesc fs).mpr hr, ?_⟩
    intro i b hb
    apply (hb.classified_datablock_iff hf hbitmap fs).mpr
    refine ⟨hr, fun hback => ?_⟩
    rcases hgroups with hz | hnone
    · exact hz
    · rw [hnone i b hb] at hback
      cases hback

/-- `CEILING` rounds up exactly when the division leaves a remainder of one at most, and with it the
inode tables have their size; `ROUNDDOWN` and `ROUNDUP` round to the nearest multiples. -/
theorem rounding_inodeTableSize_iff (a d : UInt32) (hd : d ≠ 0) (x : UInt64) (n : UInt32)
    (hn : n ≠ 0) (sb : ExtSuperblock) (bgdesc : ExtBlockgroupdesc) (fs : FsType)
    (hf : InodeTableFits sb) (hbitmap : sb.sFirstDataBlock ≤ bgdesc.bgBlockBitmap) :
    (IsLeast {k : ℕ | a.toNat ≤ k * d.toNat} (ceiling a d).toNat ↔ a.toNat % d.toNat ≤ 1) ∧
    (IsGreatest {m : ℕ | m ≤ x.toNat ∧ n.toNat ∣ m} (rounddown x n).toNat ∧
      (x.toNat + (n.toNat - 1) < 2 ^ 64 →
        IsLeast {m : ℕ | x.toNat ≤ m ∧ n.toNat ∣ m} (roundup x n).toNat)) ∧
    (InodeTableSized sb bgdesc fs ↔
      itableBytes sb % blockSize sb ≤ 1 ∧
        (sb.sFirstDataBlock = 0 ∨
          ∀ i b, FirstDataBlock sb bgdesc i b → isBackupGroup i = false)) := by
  refine ⟨ceiling_isLeast_iff a hd, ⟨?_, fun hfit => ?_⟩, hf.sized_iff hbitmap fs⟩
  · rw [rounddown_toNat]
    exact isGreatest_sub_mod n.toNat x.toNat
  · rw [roundup_toNat x hn hfit]
    exact isLeast_add_sub_mod (toNat_pos_iff.mpr hn) x.toNat

theorem rounding_inodeTableSize_iff_largeBlocks :
    (IsLeast {k : ℕ | (8193 : UInt32).toNat ≤ k * (4096 : UInt32).toNat}
        (ceiling 8193 4096).toNat ↔ (8193 : UInt32).toNat % (4096 : UInt32).toNat ≤ 1) ∧
      (IsGreatest {m : ℕ | m ≤ (5000 : UInt64).toNat ∧ (512 : UInt32).toNat ∣ m}
          (rounddown 5000 512).toNat ∧
        ((5000 : UInt64).toNat + ((512 : UInt32).toNat - 1) < 2 ^ 64 →
          IsLeast {m : ℕ | (5000 : UInt64).toNat ≤ m ∧ (512 : UInt32).toNat ∣ m}
            (roundup 5000 512).toNat)) ∧
      (InodeTableSized largeBlocks ⟨2⟩ .ext2 ↔
        itableBytes largeBlocks % blockSize largeBlocks ≤ 1 ∧
          (largeBlocks.sFirstDataBlock = 0 ∨
            ∀ i b, FirstDataBlock largeBlocks ⟨2⟩ i b → isBackupGroup i = false)) :=
  rounding_inodeTableSize_iff 8193 4096 (by decide) 5000 512 (by decide) largeBlocks ⟨2⟩ .ext2
    largeBlocks_valid.inodeTableFits (by decide)

def partialTable : ExtSuperblock := ⟨32768, 0, 2, 32768, 24, 256, 0⟩

theorem partialTable_fits : InodeTableFits partialTable :=
  ⟨by decide, by decide, by decide⟩

/-- 24 inodes of 256 bytes take two blocks of 4 KiB; the table gets 2049, and the first data block
of the group is taken for one of them. -/
theorem partialTable_oversized :
    (initExtDesc partialTable ⟨2⟩ .ext2).edInodeTableBlocksPerGroup = 2049 ∧
      FirstDataBlock partialTable ⟨2⟩ 0 6 ∧
      Classified (initExtDesc partialTable ⟨2⟩ .ext2) 6 .inodetable 0 ∧
      ¬(∀ a d : UInt32, d ≠ 0 →
        IsLeast {n : ℕ | a.toNat ≤ n * d.toNat} (ceiling a d).toNat) ∧
      ¬∀ (sb : ExtSuperblock) (bgdesc : ExtBlockgroupdesc) (fs : FsType), InodeTableFits sb →
        sb.sFirstDataBlock ≤ bgdesc.bgBlockBitmap → InodeTableSized sb bgdesc fs := by
  have hback : isBackupGroup 0 = true := by simp [isBackupGroup]
  have hdata : dataOffset partialTable ⟨2⟩ 0 = 6 := by
    rw [dataOffset, if_pos hback]
    decide
  have hfirst : FirstDataBlock partialTable ⟨2⟩ 0 6 := by
    constructor
    · rw [hdata]
      decide
    · decide
    · rw [hdata]
      decide
  refine ⟨by decide, hfirst, ?_, ?_, ?_⟩
  · exact ⟨⟨6, 0, .inodetable, 6, 2⟩, by decide, rfl, rfl⟩
  · intro hall
    exact absurd ((ceiling_isLeast_iff 6144 (by decide)).mp (hall 6144 4096 (by decide)))
      (by decide)
  · intro hall
    have hs := hall partialTable ⟨2⟩ .ext2 partialTable_fits (by decide)
    exact absurd ((partialTable_fits.sized_iff (by decide) .ext2).mp hs).1 (by decide)

end SBlktrace
