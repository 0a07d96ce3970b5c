import SBlktrace.DiskGeometry
import Mathlib

namespace SBlktrace

namespace ValidGeometry

variable {sb : ExtSuperblock} {bgdesc : ExtBlockgroupdesc} {fs : FsType} {b i : UInt32}

theorem lt_edGroups_of_zero (hv : ValidGeometry sb bgdesc) (hz : sb.sFirstDataBlock = 0)
    (hi : i < (initExtDesc sb bgdesc fs).edGroups) :
    sb.sFirstDataBlock.toNat + i.toNat * sb.sBlocksPerGroup.toNat < sb.sBlocksCount.toNat := by
  have hlt := hv.lt_edGroups.mp hi
  have hz' : sb.sFirstDataBlock.toNat = 0 := by rw [hz]; rfl
  omega

theorem firstBlock_fits (hv : ValidGeometry sb bgdesc) (hz : sb.sFirstDataBlock = 0) :
    (firstBlock bgdesc i).toNat + metaBlocks sb ≤ sb.sBlocksPerGroup.toNat := by
  have hz' : sb.sFirstDataBlock.toNat = 0 := by rw [hz]; rfl
  have hfit := hv.groupFits
  have h0 : (0 : UInt32).toNat = 0 := rfl
  unfold firstBlock
  split
  · omega
  · omega

theorem offsetBlockid_toNat (hv : ValidGeometry sb bgdesc) (hz : sb.sFirstDataBlock = 0)
    (hi : i < (initExtDesc sb bgdesc fs).edGroups) :
    (offsetBlockid (initExtDesc sb bgdesc fs) i).toNat =
        i.toNat * sb.sBlocksPerGroup.toNat + (firstBlock bgdesc i).toNat ∧
      (offsetBlockid (initExtDesc sb bgdesc fs) i).toNat + metaBlocks sb < 2 ^ 32 := by
  have hfit := hv.diskFits i (hv.lt_edGroups_of_zero hz hi)
  have hz' : sb.sFirstDataBlock.toNat = 0 := by rw [hz]; rfl
  have hcount := sb.sBlocksCount.toNat_lt
  have h0 : (0 : UInt32).toNat = 0 := rfl
  have hval : (offsetBlockid (initExtDesc sb bgdesc fs) i).toNat =
      i.toNat * sb.sBlocksPerGroup.toNat + (firstBlock bgdesc i).toNat := by
    unfold offsetBlockid firstBlock
    split at hfit
    · next hback =>
      rw [if_pos hback, if_pos hback, UInt32.toNat_add, UInt32.toNat_mul]
      simp only [initExtDesc]
      rw [Nat.mul_comm sb.sBlocksPerGroup.toNat, Nat.mod_eq_of_lt (by omega), Nat.mod_eq_of_lt]
      omega
    · next hback =>
      rw [if_neg hback, if_neg hback, UInt32.toNat_mul]
      simp only [initExtDesc]
      rw [Nat.mul_comm sb.sBlocksPerGroup.toNat, Nat.mod_eq_of_lt (by omega), h0, Nat.add_zero]
  refine ⟨hval, ?_⟩
  rw [hval]
  unfold firstBlock
  split at hfit
  · next hback =>
    rw [if_pos hback]
    omega
  · next hback =>
    rw [if_neg hback]
    omega

theorem initBlockdesc2_of_off (hv : ValidGeometry sb bgdesc) (hz : sb.sFirstDataBlock = 0)
    (hi : i < (initExtDesc sb bgdesc fs).edGroups) {off : ℕ}
    (hoff : (firstBlock bgdesc i).toNat + off < sb.sBlocksPerGroup.toNat)
    (hb : b.toNat = (offsetBlockid (initExtDesc sb bgdesc fs) i).toNat + off)
    (htype : metaType (initExtDesc sb bgdesc fs) off ≠ .unknown) :
    ∃ g, g.toNat = (firstBlock bgdesc i).toNat + off ∧
      initBlockdesc2 b (initExtDesc sb bgdesc fs) =
        some ⟨b, i, metaType (initExtDesc sb bgdesc fs) off, g, firstBlock bgdesc i⟩ := by
  have hlt := sb.sBlocksPerGroup.toNat_lt
  have hg : (UInt32.ofNat ((firstBlock bgdesc i).toNat + off)).toNat =
      (firstBlock bgdesc i).toNat + off := by
    rw [UInt32.toNat_ofNat']
    exact Nat.mod_eq_of_lt (by omega)
  have hne : firstBlock bgdesc i ≠ 0 → UInt32.ofNat ((firstBlock bgdesc i).toNat + off) ≠ 0 := by
    intro hf he
    have h0 : (UInt32.ofNat ((firstBlock bgdesc i).toNat + off)).toNat = 0 := by rw [he]; rfl
    apply hf
    rw [← UInt32.toNat_inj]
    have : (0 : UInt32).toNat = 0 := rfl
    omega
  have heq := hv.getBlockdescType_eq fs b hz (by rw [hg]; omega) hne
  rw [hg, Nat.add_sub_cancel_left] at heq
  refine ⟨_, hg, ?_⟩
  rw [hv.initBlockdesc2_of_place hz hi (by rw [hg]; exact hoff) _ (by rw [heq]; exact htype), heq]
  rw [hb, (hv.offsetBlockid_toNat hz hi).1, hg, Nat.add_assoc]

theorem off_of_initBlockdesc2 (hv : ValidGeometry sb bgdesc) (hz : sb.sFirstDataBlock = 0)
    {bd : BlockDesc} (hbd : initBlockdesc2 b (initExtDesc sb bgdesc fs) = some bd)
    (hs : bd.bdType ≠ .superblock) (hg : bd.bdType ≠ .groupdesctable) :
    ∃ off, (firstBlock bgdesc bd.bdGroup).toNat + off < sb.sBlocksPerGroup.toNat ∧
      b.toNat = (offsetBlockid (initExtDesc sb bgdesc fs) bd.bdGroup).toNat + off ∧
      bd.bdType = metaType (initExtDesc sb bgdesc fs) off ∧
      bd.bdGroupOffset.toNat = bd.bdGroupFirstBlock.toNat + off ∧
      bd.bdGroup < (initExtDesc sb bgdesc fs).edGroups := by
  obtain ⟨hi, hlt, hb, hfirst, htype⟩ := hv.initBlockdesc2_some hz hbd
  have hb₀ : ¬b < (initExtDesc sb bgdesc fs).sb.sFirstDataBlock := by
    rw [show (initExtDesc sb bgdesc fs).sb.sFirstDataBlock = 0 from hz, UInt32.lt_iff_toNat_lt]
    exact Nat.not_lt_zero _
  have hne : ¬(bd.bdGroupFirstBlock ≠ 0 ∧ bd.bdGroupOffset = 0) := by
    intro h
    apply hs
    rw [htype, getBlockdescType, if_neg hb₀, if_pos h]
  have hle : bd.bdGroupFirstBlock.toNat ≤ bd.bdGroupOffset.toNat := by
    by_contra hgt
    have hpos : bd.bdGroupFirstBlock ≠ 0 := by
      intro h
      rw [h] at hgt
      exact hgt (Nat.zero_le _)
    apply hg
    rw [htype, getBlockdescType, if_neg hb₀, if_neg hne, if_pos]
    exact ⟨hpos, UInt32.lt_iff_toNat_lt.mpr (by omega)⟩
  have heq := hv.getBlockdescType_eq fs b hz hle (fun h h' => hne ⟨h, h'⟩)
  refine ⟨bd.bdGroupOffset.toNat - bd.bdGroupFirstBlock.toNat, ?_, ?_, ?_, ?_, hi⟩
  · rw [← hfirst]
    omega
  · rw [(hv.offsetBlockid_toNat hz hi).1, ← hfirst]
    omega
  · rw [htype, heq]
  · omega

theorem classified_iff (hv : ValidGeometry sb bgdesc) (hz : sb.sFirstDataBlock = 0)
    (hi : i < (initExtDesc sb bgdesc fs).edGroups) {type : BlockType} (hs : type ≠ .superblock)
    (hg : type ≠ .groupdesctable) (hu : type ≠ .unknown) :
    Classified (initExtDesc sb bgdesc fs) b type i ↔
      ∃ off, (firstBlock bgdesc i).toNat + off < sb.sBlocksPerGroup.toNat ∧
        b.toNat = (offsetBlockid (initExtDesc sb bgdesc fs) i).toNat + off ∧
        metaType (initExtDesc sb bgdesc fs) off = type := by
  constructor
  · rintro ⟨bd, hbd, rfl, rfl⟩
    obtain ⟨off, hoff, hb, htype, -, -⟩ := hv.off_of_initBlockdesc2 hz hbd hs hg
    exact ⟨off, hoff, hb, htype.symm⟩
  · rintro ⟨off, hoff, hb, rfl⟩
    obtain ⟨g, -, hbd⟩ := hv.initBlockdesc2_of_off hz hi hoff hb hu
    exact ⟨_, hbd, rfl, rfl⟩

theorem metaType_inodetable {extdesc : ExtDesc} {off : ℕ} :
    metaType extdesc off = .inodetable ↔
      2 ≤ off ∧ off < extdesc.edInodeTableBlocksPerGroup.toNat + 2 := by
  unfold metaType
  split_ifs <;> simp <;> omega

theorem metaType_blockbitmap {extdesc : ExtDesc} {off : ℕ} :
    metaType extdesc off = .blockbitmap ↔ off = 0 := by
  unfold metaType
  split_ifs <;> simp <;> omega

theorem metaType_inodebitmap {extdesc : ExtDesc} {off : ℕ} :
    metaType extdesc off = .inodebitmap ↔ off = 1 := by
  unfold metaType
  split_ifs <;> simp <;> omega

theorem inodetableInodeid_toNat (sb : ExtSuperblock) (bgdesc : ExtBlockgroupdesc) (fs : FsType)
    {bd : BlockDesc} {k : ℕ} (j : ℕ)
    (hoff : bd.bdGroupOffset.toNat = bd.bdGroupFirstBlock.toNat + (2 + k))
    (hlt : k * (initExtDesc sb bgdesc fs).edInodesPerBlock.toNat +
      bd.bdGroup.toNat * sb.sInodesPerGroup.toNat + 1 + j < 2 ^ 32) :
    (inodetableInodeid (initExtDesc sb bgdesc fs) bd + UInt32.ofNat j).toNat =
      k * (initExtDesc sb bgdesc fs).edInodesPerBlock.toNat +
        bd.bdGroup.toNat * sb.sInodesPerGroup.toNat + 1 + j := by
  have htwo : (2 : UInt32).toNat = 2 := rfl
  have hone : (1 : UInt32).toNat = 1 := rfl
  have hk : (bd.bdGroupOffset - bd.bdGroupFirstBlock - 2).toNat = k := by
    have hle : bd.bdGroupFirstBlock ≤ bd.bdGroupOffset := by
      rw [UInt32.le_iff_toNat_le]
      omega
    have hsub := UInt32.toNat_sub_of_le _ _ hle
    rw [UInt32.toNat_sub_of_le _ _ (by rw [UInt32.le_iff_toNat_le]; omega), hsub]
    omega
  have hj : (UInt32.ofNat j).toNat = j := by
    rw [UInt32.toNat_ofNat']
    exact Nat.mod_eq_of_lt (by omega)
  simp only [inodetableInodeid, UInt32.toNat_add, UInt32.toNat_mul, hk, hj, hone]
  have hsb : (initExtDesc sb bgdesc fs).sb.sInodesPerGroup = sb.sInodesPerGroup := rfl
  rw [hsb]
  omega

def scanSlot (extdesc : ExtDesc) (i : UInt32) (l : ℕ) : ScanSlot :=
  let inodeid := UInt32.ofNat (l + 1) + i * extdesc.sb.sInodesPerGroup
  ⟨l / 8, l % 8, inodeid, localInodeIndex inodeid extdesc.sb * extdesc.sb.sInodeSize.toUInt32⟩

theorem byteSlots_eq {extdesc : ExtDesc} {j : ℕ} (hj : j < extdesc.sb.sInodesPerGroup.toNat / 8) :
    byteSlots extdesc i j = (List.range 8).map (fun k => scanSlot extdesc i (8 * j + k)) := by
  have hall : (List.range 8).takeWhile
      (fun k => decide ((j <<< 3) + k + 1 ≤ extdesc.sb.sInodesPerGroup.toNat)) =
        List.range 8 := by
    rw [List.takeWhile_eq_self_iff]
    intro k hk
    have := List.mem_range.mp hk
    simp only [Nat.shiftLeft_eq, decide_eq_true_eq]
    omega
  rw [byteSlots, hall]
  apply List.map_congr_left
  intro k hk
  have := List.mem_range.mp hk
  have hdiv : (8 * j + k) / 8 = j := by omega
  have hmod : (8 * j + k) % 8 = k := by omega
  have hshift : j <<< 3 = 8 * j := by rw [Nat.shiftLeft_eq]; omega
  simp only [scanSlot, hdiv, hmod, hshift]

theorem mem_slots_iff {extdesc : ExtDesc} {slot : ScanSlot} :
    slot ∈ (groupRead extdesc i).slots ↔
      ∃ l < extdesc.sb.sInodesPerGroup.toNat / 8 * 8, slot = scanSlot extdesc i l := by
  have hbytes : (extdesc.sb.sInodesPerGroup >>> 3).toNat = extdesc.sb.sInodesPerGroup.toNat / 8 := by
    rw [UInt32.toNat_shiftRight, show (3 : UInt32).toNat % 32 = 3 from rfl,
      Nat.shiftRight_eq_div_pow]
  simp only [groupRead, List.mem_flatMap, List.mem_range, hbytes]
  constructor
  · rintro ⟨j, hj, hs⟩
    rw [byteSlots_eq hj, List.mem_map] at hs
    obtain ⟨k, hk, rfl⟩ := hs
    have := List.mem_range.mp hk
    exact ⟨8 * j + k, by omega, rfl⟩
  · rintro ⟨l, hl, rfl⟩
    refine ⟨l / 8, by omega, ?_⟩
    rw [byteSlots_eq (by omega), List.mem_map]
    exact ⟨l % 8, List.mem_range.mpr (by omega), by rw [Nat.div_add_mod]⟩

theorem scanSlot_toNat (hv : ValidGeometry sb bgdesc) (hz : sb.sFirstDataBlock = 0)
    (hi : i < (initExtDesc sb bgdesc fs).edGroups) {l : ℕ} (hl : l < sb.sInodesPerGroup.toNat) :
    (scanSlot (initExtDesc sb bgdesc fs) i l).inodeid.toNat =
        i.toNat * sb.sInodesPerGroup.toNat + l + 1 ∧
      (scanSlot (initExtDesc sb bgdesc fs) i l).itableOffset.toNat =
        l * sb.sInodeSize.toNat := by
  have hmax := hv.inodes i (hv.lt_edGroups_of_zero hz hi)
  rw [Nat.add_mul, Nat.one_mul] at hmax
  have hone : (1 : UInt32).toNat = 1 := rfl
  have hid : (UInt32.ofNat (l + 1) + i * sb.sInodesPerGroup).toNat =
      i.toNat * sb.sInodesPerGroup.toNat + l + 1 := by
    rw [UInt32.toNat_add, UInt32.toNat_mul, UInt32.toNat_ofNat']
    omega
  refine ⟨hid, ?_⟩
  have hlocal : ((UInt32.ofNat (l + 1) + i * sb.sInodesPerGroup - 1) % sb.sInodesPerGroup).toNat =
      l := by
    rw [UInt32.toNat_mod, UInt32.toNat_sub_of_le _ _ (by rw [UInt32.le_iff_toNat_le]; omega), hid,
      hone, Nat.add_sub_cancel, Nat.mul_comm, Nat.mul_add_mod, Nat.mod_eq_of_lt hl]
  have hbytes : l * sb.sInodeSize.toNat < 2 ^ 32 := by
    have hle : l * sb.sInodeSize.toNat ≤ sb.sInodesPerGroup.toNat * sb.sInodeSize.toNat :=
      Nat.mul_le_mul_right _ hl.le
    have := hv.itable
    rw [itableBytes, Nat.mul_comm] at this
    omega
  simp only [scanSlot, localInodeIndex, initExtDesc]
  rw [UInt32.toNat_mul, hlocal]
  exact Nat.mod_eq_of_lt hbytes

theorem offset_add_toNat (hv : ValidGeometry sb bgdesc) (hz : sb.sFirstDataBlock = 0)
    (hi : i < (initExtDesc sb bgdesc fs).edGroups) {off : ℕ} (hoff : off < metaBlocks sb) :
    (offsetBlockid (initExtDesc sb bgdesc fs) i + UInt32.ofNat off).toNat =
      (offsetBlockid (initExtDesc sb bgdesc fs) i).toNat + off := by
  have := (hv.offsetBlockid_toNat hz hi).2
  rw [UInt32.toNat_add, UInt32.toNat_ofNat']
  omega

theorem inodeSize_pos (hv : ValidGeometry sb bgdesc) : 0 < sb.sInodeSize.toNat := by
  have := hv.inodeSize.1
  omega

theorem inodesPerGroup_small (hv : ValidGeometry sb bgdesc) :
    sb.sInodesPerGroup.toNat + 1 < 2 ^ 32 := by
  have h₁ : 128 * sb.sInodesPerGroup.toNat ≤ itableBytes sb :=
    Nat.mul_le_mul_right _ hv.inodeSize.1
  have h₂ := hv.itable
  omega

theorem inodesPerBlock_pos (hv : ValidGeometry sb bgdesc) (fs : FsType) :
    0 < (initExtDesc sb bgdesc fs).edInodesPerBlock.toNat := by
  apply Nat.pos_of_ne_zero
  intro h
  have hmul := hv.inodesPerBlock_mul fs
  have := blockSize_pos sb
  rw [h, Nat.zero_mul] at hmul
  omega

theorem itable_divMod (hv : ValidGeometry sb bgdesc) (fs : FsType) :
    itableBytes sb / blockSize sb =
        sb.sInodesPerGroup.toNat / (initExtDesc sb bgdesc fs).edInodesPerBlock.toNat ∧
      itableBytes sb % blockSize sb = sb.sInodeSize.toNat *
        (sb.sInodesPerGroup.toNat % (initExtDesc sb bgdesc fs).edInodesPerBlock.toNat) := by
  rw [← hv.inodesPerBlock_mul fs, itableBytes,
    Nat.mul_comm (initExtDesc sb bgdesc fs).edInodesPerBlock.toNat]
  exact ⟨Nat.mul_div_mul_left _ _ hv.inodeSize_pos, Nat.mul_mod_mul_left _ _ _⟩

theorem metaBlocks_eq (hv : ValidGeometry sb bgdesc) (fs : FsType) :
    metaBlocks sb =
      2 + sb.sInodesPerGroup.toNat / (initExtDesc sb bgdesc fs).edInodesPerBlock.toNat +
        if sb.sInodesPerGroup.toNat % (initExtDesc sb bgdesc fs).edInodesPerBlock.toNat = 0
        then 0 else 1 := by
  obtain ⟨hdiv, hmod⟩ := hv.itable_divMod fs
  have hpos := blockSize_pos sb
  have hlt := Nat.mod_lt (itableBytes sb) hpos
  have hdm := Nat.div_add_mod (itableBytes sb) (blockSize sb)
  rw [metaBlocks, ← hdiv, Nat.add_assoc]
  congr 1
  split
  · next h =>
    rw [h, Nat.mul_zero] at hmod
    have hsplit : itableBytes sb + (blockSize sb - 1) =
        blockSize sb * (itableBytes sb / blockSize sb) + (blockSize sb - 1) := by omega
    rw [hsplit, Nat.mul_add_div hpos, Nat.div_eq_of_lt (Nat.sub_one_lt_of_lt hpos)]
  · next h =>
    have hne : 0 < itableBytes sb % blockSize sb := by
      rw [hmod]
      exact Nat.mul_pos hv.inodeSize_pos (Nat.pos_of_ne_zero h)
    have hsplit : itableBytes sb + (blockSize sb - 1) =
        blockSize sb * (itableBytes sb / blockSize sb + 1) +
          (itableBytes sb % blockSize sb - 1) := by
      rw [Nat.mul_add, Nat.mul_one]
      omega
    have hsmall : itableBytes sb % blockSize sb - 1 < blockSize sb := by omega
    rw [hsplit, Nat.mul_add_div hpos, Nat.div_eq_of_lt hsmall, Nat.add_zero]

theorem tableBlock (hv : ValidGeometry sb bgdesc) (hz : sb.sFirstDataBlock = 0)
    (hi : i < (initExtDesc sb bgdesc fs).edGroups) {k : ℕ}
    (hk : k < (initExtDesc sb bgdesc fs).edInodeTableBlocksPerGroup.toNat)
    (hfit : 2 + k < metaBlocks sb) :
    ∃ b bd, b.toNat = (offsetBlockid (initExtDesc sb bgdesc fs) i).toNat + (2 + k) ∧
      initBlockdesc2 b (initExtDesc sb bgdesc fs) = some bd ∧ bd.bdType = .inodetable ∧
      bd.bdGroup = i ∧ bd.bdGroupOffset.toNat = bd.bdGroupFirstBlock.toNat + (2 + k) := by
  have hb := hv.offset_add_toNat hz hi hfit
  have hroom := hv.firstBlock_fits (i := i) hz
  have htype : metaType (initExtDesc sb bgdesc fs) (2 + k) = .inodetable :=
    metaType_inodetable.mpr (by omega)
  obtain ⟨g, hg, hbd⟩ := hv.initBlockdesc2_of_off hz hi (by omega) hb (by rw [htype]; simp)
  exact ⟨_, _, hb, hbd, htype, rfl, hg⟩

variable {build : Build}

theorem byteOffset_toNat (hv : ValidGeometry sb bgdesc) (fs : FsType) (b : UInt32) :
    (b.toUInt64 * (initExtDesc sb bgdesc fs).edBlockSize.toUInt64).toNat =
      b.toNat * blockSize sb := by
  have hb := b.toNat_lt
  have hsize := (initExtDesc sb bgdesc fs).edBlockSize.toNat_lt
  rw [UInt64.toNat_mul, UInt32.toNat_toUInt64, UInt32.toNat_toUInt64, ← hv.edBlockSize fs]
  apply Nat.mod_eq_of_lt
  calc b.toNat * (initExtDesc sb bgdesc fs).edBlockSize.toNat < 2 ^ 32 * 2 ^ 32 :=
        Nat.mul_lt_mul_of_lt_of_lt hb hsize
    _ = 2 ^ 64 := by decide

theorem tableBytes_eq (hv : ValidGeometry sb bgdesc) (fs : FsType) (count : UInt32) :
    (initExtDesc sb bgdesc fs).edBlockSize * count =
      count <<< (initExtDesc sb bgdesc fs).edBlockShift := by
  have hlog := hv.logBlockSize
  have hten : (10 : UInt32).toNat = 10 := rfl
  have hshift : (initExtDesc sb bgdesc fs).edBlockShift.toNat = 10 + sb.sLogBlockSize.toNat := by
    change (10 + sb.sLogBlockSize).toNat = _
    rw [UInt32.toNat_add, hten, Nat.mod_eq_of_lt (by omega)]
  apply UInt32.toNat_inj.mp
  rw [UInt32.toNat_mul, hv.edBlockSize fs, UInt32.toNat_shiftLeft, hshift,
    Nat.mod_eq_of_lt (show 10 + sb.sLogBlockSize.toNat < 32 by omega), Nat.shiftLeft_eq, blockSize,
    Nat.pow_add, Nat.mul_comm]

theorem bitmapBytes_le_iff (hv : ValidGeometry sb bgdesc) (fs : FsType) :
    (initExtDesc sb bgdesc fs).sb.sInodesPerGroup >>> 3 ≤ (initExtDesc sb bgdesc fs).edBlockSize ↔
      sb.sInodesPerGroup.toNat / 8 ≤ blockSize sb := by
  rw [UInt32.le_iff_toNat_le, hv.edBlockSize fs, UInt32.toNat_shiftRight,
    show (3 : UInt32).toNat % 32 = 3 from rfl, Nat.shiftRight_eq_div_pow]
  rfl

theorem readGroup_of_fits (hv : ValidGeometry sb bgdesc) (i : UInt32)
    (hxen : build = .xen → blockSize sb = 4096) (hle : blockSize sb ≤ 4096)
    (hbits : sb.sInodesPerGroup.toNat / 8 ≤ blockSize sb) :
    readGroup build (initExtDesc sb bgdesc fs) i = some (groupRead (initExtDesc sb bgdesc fs) i) := by
  have hsize := hv.edBlockSize fs
  unfold readGroup
  dsimp only
  apply if_pos
  rw [hv.bitmapBytes_le_iff fs]
  cases build with
  | kvm =>
    have hfit : (initExtDesc sb bgdesc fs).edBlockSize ≤ dom0blocksize := by
      rw [UInt32.le_iff_toNat_le, hsize]
      exact hle
    simp only [alignReadblock, alignReadblocks, alignRead_kvm_iff, hv.tableBytes_eq fs]
    exact ⟨hfit, hfit, UInt32.le_refl _, hbits⟩
  | xen =>
    have hpage := hxen rfl
    have hoff : ∀ b : UInt32,
        4096 ∣ (b.toUInt64 * (initExtDesc sb bgdesc fs).edBlockSize.toUInt64).toNat := by
      intro b
      rw [hv.byteOffset_toNat fs, hpage]
      exact Nat.dvd_mul_left _ _
    have hblock : (initExtDesc sb bgdesc fs).edBlockSize = dom0blocksize := by
      apply UInt32.toNat_inj.mp
      rw [hsize, hpage, dom0blocksize_toNat]
    have hround : ∀ count : UInt32, (roundup ((initExtDesc sb bgdesc fs).edBlockSize *
        count).toUInt64 dom0blocksize).toUInt32 = (initExtDesc sb bgdesc fs).edBlockSize * count := by
      intro count
      apply roundup_of_dvd
      rw [UInt32.toNat_mul, hsize, hpage]
      omega
    have htable := hround (initExtDesc sb bgdesc fs).edInodeTableBlocksPerGroup
    have hone := hround 1
    rw [UInt32.mul_one, hblock] at hone
    rw [hv.tableBytes_eq fs] at htable
    simp only [alignReadblock, alignReadblocks, alignRead_xen_iff, hv.tableBytes_eq fs, htable]
    rw [hblock] at hoff ⊢
    rw [hone]
    exact ⟨⟨hoff _, UInt32.le_refl _⟩, ⟨hoff _, UInt32.le_refl _⟩, ⟨hoff _, UInt32.le_refl _⟩, hbits⟩

theorem fits_of_readGroup (hv : ValidGeometry sb bgdesc) (hz : sb.sFirstDataBlock = 0)
    (hi : i < (initExtDesc sb bgdesc fs).edGroups) {read : GroupRead}
    (hread : readGroup build (initExtDesc sb bgdesc fs) i = some read) :
    (build = .xen → blockSize sb = 4096) ∧ blockSize sb ≤ 4096 ∧
      sb.sInodesPerGroup.toNat / 8 ≤ blockSize sb := by
  have hsize := hv.edBlockSize fs
  have hpos := blockSize_pos sb
  have hle64 : blockSize sb ≤ 65536 := by
    have hpow : 2 ^ sb.sLogBlockSize.toNat ≤ 2 ^ 6 := Nat.pow_le_pow_right (by omega) hv.logBlockSize
    unfold blockSize
    omega
  unfold readGroup at hread
  dsimp only at hread
  split at hread
  · next hok =>
    obtain ⟨hbitmap, hnext, -, hbits⟩ := hok
    rw [hv.bitmapBytes_le_iff fs] at hbits
    cases build with
    | kvm =>
      rw [alignReadblock, alignRead_kvm_iff, UInt32.le_iff_toNat_le, hsize] at hbitmap
      exact ⟨by rintro ⟨⟩, hbitmap, hbits⟩
    | xen =>
      rw [alignReadblock, alignRead_xen_iff, hv.byteOffset_toNat fs] at hbitmap hnext
      obtain ⟨hdvd, hround⟩ := hbitmap
      have hfit := le_of_roundup_le (by rw [hsize]; omega) hround
      rw [UInt32.le_iff_toNat_le, hsize, dom0blocksize_toNat] at hfit
      -- the two bitmaps are one block apart, and both start on a page
      have hone : (1 : UInt32) = UInt32.ofNat 1 := rfl
      have htwo := two_le_metaBlocks sb
      have hdvd' := hnext.1
      rw [hone, hv.offset_add_toNat hz hi (by omega), Nat.add_mul, Nat.one_mul] at hdvd'
      have hpage := Nat.le_of_dvd hpos ((Nat.dvd_add_right hdvd).mp hdvd')
      exact ⟨fun _ => Nat.le_antisymm hfit hpage, hfit, hbits⟩
  · cases hread

theorem firstDataBlock_of_agrees (hv : ValidGeometry sb bgdesc)
    (ha : GeometryAgrees build (initExtDesc sb bgdesc fs)) : sb.sFirstDataBlock = 0 := by
  by_contra hne
  have hpos : 0 < sb.sFirstDataBlock.toNat := toNat_pos_iff.mpr hne
  have h0 : (0 : UInt32).toNat = 0 := rfl
  have hgroup : (0 : UInt32) < (initExtDesc sb bgdesc fs).edGroups := by
    rw [hv.lt_edGroups, h0, Nat.zero_mul]
    have := hv.blocks
    omega
  have hback : isBackupGroup 0 = true := by simp [isBackupGroup]
  have hoff : offsetBlockid (initExtDesc sb bgdesc fs) 0 = bgdesc.bgBlockBitmap := by
    simp [offsetBlockid, hback, initExtDesc]
  obtain ⟨bd, hbd, htype, -⟩ := (ha.blockBitmap 0 hgroup bgdesc.bgBlockBitmap).mp hoff.symm
  -- the block bitmap that is read lies before the one that is looked for
  have hsub : (bgdesc.bgBlockBitmap - sb.sFirstDataBlock).toNat =
      bgdesc.bgBlockBitmap.toNat - sb.sFirstDataBlock.toNat := by
    apply UInt32.toNat_sub_of_le
    rw [UInt32.le_iff_toNat_le]
    exact hv.blockBitmap.le
  have hlt : (bgdesc.bgBlockBitmap - sb.sFirstDataBlock).toNat < sb.sBlocksPerGroup.toNat := by
    have h₁ := hv.groupFits
    have h₂ := two_le_metaBlocks sb
    have h₃ := hv.blockBitmap
    omega
  have hdiv : (bgdesc.bgBlockBitmap - sb.sFirstDataBlock) / sb.sBlocksPerGroup = 0 := by
    rw [← UInt32.toNat_inj, UInt32.toNat_div, Nat.div_eq_of_lt hlt]
    rfl
  have hmod : (bgdesc.bgBlockBitmap - sb.sFirstDataBlock) % sb.sBlocksPerGroup =
      bgdesc.bgBlockBitmap - sb.sFirstDataBlock := by
    rw [← UInt32.toNat_inj, UInt32.toNat_mod, Nat.mod_eq_of_lt hlt]
  have hbb : ¬bgdesc.bgBlockBitmap < sb.sFirstDataBlock := by
    rw [UInt32.lt_iff_toNat_lt]
    have := hv.blockBitmap
    omega
  have hnz : bgdesc.bgBlockBitmap ≠ 0 := by
    intro h
    have := hv.blockBitmap
    rw [h, h0] at this
    omega
  have hbefore : bgdesc.bgBlockBitmap - sb.sFirstDataBlock < bgdesc.bgBlockBitmap := by
    rw [UInt32.lt_iff_toNat_lt, hsub]
    have := hv.blockBitmap
    omega
  have hgt : getBlockdescType (initExtDesc sb bgdesc fs) bgdesc.bgBlockBitmap
      (bgdesc.bgBlockBitmap - sb.sFirstDataBlock) bgdesc.bgBlockBitmap ≠ .blockbitmap := by
    simp only [getBlockdescType]
    rw [if_neg (show ¬bgdesc.bgBlockBitmap < (initExtDesc sb bgdesc fs).sb.sFirstDataBlock from hbb)]
    split
    · simp
    · rw [if_pos ⟨hnz, hbefore⟩]
      simp
  have hfirst : firstBlock bgdesc 0 = bgdesc.bgBlockBitmap := if_pos hback
  simp only [initBlockdesc2_eq, hdiv, hmod, hfirst] at hbd
  rw [if_neg (UInt32.not_le.mpr hgroup)] at hbd
  split at hbd
  · simp at hbd
  · obtain rfl := Option.some.inj hbd
    exact hgt htype

theorem zero_lt_edGroups (hv : ValidGeometry sb bgdesc) (fs : FsType) :
    (0 : UInt32) < (initExtDesc sb bgdesc fs).edGroups := by
  have h0 : (0 : UInt32).toNat = 0 := rfl
  rw [hv.lt_edGroups, h0, Nat.zero_mul]
  have := hv.blocks
  omega

theorem dvd_of_agrees (hv : ValidGeometry sb bgdesc) (hz : sb.sFirstDataBlock = 0)
    (ha : GeometryAgrees build (initExtDesc sb bgdesc fs)) :
    (initExtDesc sb bgdesc fs).edInodesPerBlock.toNat ∣ sb.sInodesPerGroup.toNat := by
  by_contra hdvd
  have hp := hv.inodesPerBlock_pos fs
  have hrem : sb.sInodesPerGroup.toNat % (initExtDesc sb bgdesc fs).edInodesPerBlock.toNat ≠ 0 :=
    fun h => hdvd (Nat.dvd_of_mod_eq_zero h)
  have hmod := Nat.mod_lt sb.sInodesPerGroup.toNat hp
  have hmeta := hv.metaBlocks_eq fs
  rw [if_neg hrem] at hmeta
  have htable := hv.tableBlocks fs
  obtain ⟨hq, hr⟩ := hv.itable_divMod fs
  have hr' : 0 < itableBytes sb % blockSize sb := by
    rw [hr]
    exact Nat.mul_pos hv.inodeSize_pos (Nat.pos_of_ne_zero hrem)
  rw [hq] at htable
  obtain ⟨b, bd, -, hbd, htype, hgroup, hoff⟩ :=
    hv.tableBlock hz (hv.zero_lt_edGroups fs)
      (k := sb.sInodesPerGroup.toNat / (initExtDesc sb bgdesc fs).edInodesPerBlock.toNat)
      (by omega) (by omega)
  obtain ⟨slot, -, k, -, -, hid, -, hle⟩ := ha.inodeids b bd hbd htype _ hmod
  have h0 : (0 : UInt32).toNat = 0 := rfl
  have hdm := Nat.div_add_mod' sb.sInodesPerGroup.toNat
    (initExtDesc sb bgdesc fs).edInodesPerBlock.toNat
  have hsum : sb.sInodesPerGroup.toNat / (initExtDesc sb bgdesc fs).edInodesPerBlock.toNat *
      (initExtDesc sb bgdesc fs).edInodesPerBlock.toNat +
      bd.bdGroup.toNat * sb.sInodesPerGroup.toNat + 1 +
      sb.sInodesPerGroup.toNat % (initExtDesc sb bgdesc fs).edInodesPerBlock.toNat =
        sb.sInodesPerGroup.toNat + 1 := by
    rw [hgroup, h0, Nat.zero_mul]
    omega
  have hnum := inodetableInodeid_toNat sb bgdesc fs _ hoff
    (by rw [hsum]; exact hv.inodesPerGroup_small)
  rw [hid, hnum, hsum, hgroup, h0] at hle
  simp [initExtDesc] at hle

theorem eight_dvd_of_agrees (hv : ValidGeometry sb bgdesc) (hz : sb.sFirstDataBlock = 0)
    (hdvd : (initExtDesc sb bgdesc fs).edInodesPerBlock.toNat ∣ sb.sInodesPerGroup.toNat)
    (ha : GeometryAgrees build (initExtDesc sb bgdesc fs)) : 8 ∣ sb.sInodesPerGroup.toNat := by
  by_contra h8
  have hp := hv.inodesPerBlock_pos fs
  have hmeta := hv.metaBlocks_eq fs
  have htable := hv.tableBlocks fs
  obtain ⟨hq, hr⟩ := hv.itable_divMod fs
  rw [Nat.mod_eq_zero_of_dvd hdvd] at hmeta hr
  rw [hq, hr] at htable
  have hlast : sb.sInodesPerGroup.toNat / 8 * 8 < sb.sInodesPerGroup.toNat := by omega
  -- the first inode that is not scanned, as a slot of the table
  have hmod := Nat.mod_lt (sb.sInodesPerGroup.toNat / 8 * 8) hp
  have hdm := Nat.div_add_mod' (sb.sInodesPerGroup.toNat / 8 * 8)
    (initExtDesc sb bgdesc fs).edInodesPerBlock.toNat
  have hk : sb.sInodesPerGroup.toNat / 8 * 8 / (initExtDesc sb bgdesc fs).edInodesPerBlock.toNat <
      sb.sInodesPerGroup.toNat / (initExtDesc sb bgdesc fs).edInodesPerBlock.toNat :=
    Nat.div_lt_div_of_lt_of_dvd hdvd hlast
  obtain ⟨b, bd, -, hbd, htype, hgroup, hoff⟩ :=
    hv.tableBlock hz (hv.zero_lt_edGroups fs)
      (k := sb.sInodesPerGroup.toNat / 8 * 8 / (initExtDesc sb bgdesc fs).edInodesPerBlock.toNat)
      (by omega) (by omega)
  obtain ⟨slot, hslot, -, -, -, hid, -⟩ := ha.inodeids b bd hbd htype _ hmod
  have h0 : (0 : UInt32).toNat = 0 := rfl
  rw [hgroup] at hslot
  obtain ⟨l, hl, rfl⟩ := mem_slots_iff.mp hslot
  have hl' : l < sb.sInodesPerGroup.toNat / 8 * 8 := hl
  have hscan := (hv.scanSlot_toNat hz (hv.zero_lt_edGroups fs) (lt_trans hl' hlast)).1
  have hsmall := hv.inodesPerGroup_small
  have hnum := inodetableInodeid_toNat sb bgdesc fs
    (sb.sInodesPerGroup.toNat / 8 * 8 % (initExtDesc sb bgdesc fs).edInodesPerBlock.toNat) hoff
    (by rw [hgroup, h0, Nat.zero_mul]; omega)
  rw [← hid, hscan, hgroup, h0, Nat.zero_mul] at hnum
  omega

theorem aligned_blocks (hv : ValidGeometry sb bgdesc) (fs : FsType)
    (hdvd : (initExtDesc sb bgdesc fs).edInodesPerBlock.toNat ∣ sb.sInodesPerGroup.toNat) :
    (initExtDesc sb bgdesc fs).edInodeTableBlocksPerGroup.toNat *
        (initExtDesc sb bgdesc fs).edInodesPerBlock.toNat = sb.sInodesPerGroup.toNat ∧
      metaBlocks sb = 2 + (initExtDesc sb bgdesc fs).edInodeTableBlocksPerGroup.toNat := by
  have hmeta := hv.metaBlocks_eq fs
  have htable := hv.tableBlocks fs
  obtain ⟨hq, hr⟩ := hv.itable_divMod fs
  rw [Nat.mod_eq_zero_of_dvd hdvd] at hmeta hr
  rw [hq, hr, Nat.mul_zero, Nat.add_zero] at htable
  rw [if_pos rfl, Nat.add_zero, ← htable] at hmeta
  refine ⟨?_, hmeta⟩
  rw [htable]
  exact Nat.div_mul_cancel hdvd

theorem inodeids_of_aligned (hv : ValidGeometry sb bgdesc) (hz : sb.sFirstDataBlock = 0)
    (hdvd : (initExtDesc sb bgdesc fs).edInodesPerBlock.toNat ∣ sb.sInodesPerGroup.toNat)
    (h8 : 8 ∣ sb.sInodesPerGroup.toNat) {bd : BlockDesc}
    (hbd : initBlockdesc2 b (initExtDesc sb bgdesc fs) = some bd) (htype : bd.bdType = .inodetable) :
    ∀ j < (initExtDesc sb bgdesc fs).edInodesPerBlock.toNat,
      ∃ slot ∈ (groupRead (initExtDesc sb bgdesc fs) bd.bdGroup).slots, ∃ k : ℕ,
        (groupRead (initExtDesc sb bgdesc fs) bd.bdGroup).inodeTable[k]? = some b ∧
        slot.itableOffset.toNat = k * (initExtDesc sb bgdesc fs).edBlockSize.toNat +
          j * (initExtDesc sb bgdesc fs).sb.sInodeSize.toNat ∧
        slot.inodeid = inodetableInodeid (initExtDesc sb bgdesc fs) bd + UInt32.ofNat j ∧
        bd.bdGroup.toNat * (initExtDesc sb bgdesc fs).sb.sInodesPerGroup.toNat < slot.inodeid.toNat ∧
        slot.inodeid.toNat ≤
          (bd.bdGroup.toNat + 1) * (initExtDesc sb bgdesc fs).sb.sInodesPerGroup.toNat := by
  obtain ⟨hmul, hmeta⟩ := hv.aligned_blocks fs hdvd
  intro j hj
  obtain ⟨off, -, hb, hmt, hoff, hi⟩ :=
    hv.off_of_initBlockdesc2 hz hbd (by rw [htype]; simp) (by rw [htype]; simp)
  obtain ⟨h₁, h₂⟩ := metaType_inodetable.mp (hmt.symm.trans htype)
  obtain ⟨k, rfl⟩ : ∃ k, off = 2 + k := ⟨off - 2, by omega⟩
  have hk : k < (initExtDesc sb bgdesc fs).edInodeTableBlocksPerGroup.toNat := by omega
  -- slot `j` of table block `k` is inode `k * edInodesPerBlock + j` of the group
  have hl : k * (initExtDesc sb bgdesc fs).edInodesPerBlock.toNat + j <
      sb.sInodesPerGroup.toNat := by
    have hle : (k + 1) * (initExtDesc sb bgdesc fs).edInodesPerBlock.toNat ≤
        sb.sInodesPerGroup.toNat := by
      rw [← hmul]
      exact Nat.mul_le_mul_right _ hk
    rw [Nat.add_mul, Nat.one_mul] at hle
    omega
  have hipg : sb.sInodesPerGroup.toNat / 8 * 8 = sb.sInodesPerGroup.toNat :=
    Nat.div_mul_cancel h8
  have hmax := hv.inodes bd.bdGroup (hv.lt_edGroups_of_zero hz hi)
  obtain ⟨hid, hpos⟩ := hv.scanSlot_toNat hz hi hl
  have hsum : bd.bdGroup.toNat * sb.sInodesPerGroup.toNat + sb.sInodesPerGroup.toNat < 2 ^ 32 := by
    rw [Nat.add_mul, Nat.one_mul] at hmax
    exact hmax
  have hnum := inodetableInodeid_toNat sb bgdesc fs j hoff (by omega)
  have hsb : (initExtDesc sb bgdesc fs).sb = sb := rfl
  refine ⟨_, mem_slots_iff.mpr ⟨_, by rw [hsb, hipg]; exact hl, rfl⟩, k, ?_, ?_, ?_, ?_, ?_⟩
  · simp only [groupRead, List.getElem?_map, List.getElem?_range hk, Option.map_some]
    congr 1
    apply UInt32.toNat_inj.mp
    rw [hb, ← hv.offset_add_toNat hz hi (by omega), UInt32.ofNat_add, ← UInt32.add_assoc]
    rfl
  · rw [hpos, hv.edBlockSize, ← hv.inodesPerBlock_mul fs, Nat.add_mul, Nat.mul_assoc, hsb]
  · apply UInt32.toNat_inj.mp
    rw [hid, hnum]
    omega
  · rw [hid, hsb]
    omega
  · rw [hid, hsb, Nat.add_mul, Nat.one_mul]
    omega

theorem agrees_of_aligned (hv : ValidGeometry sb bgdesc) (hz : sb.sFirstDataBlock = 0)
    (hdvd : (initExtDesc sb bgdesc fs).edInodesPerBlock.toNat ∣ sb.sInodesPerGroup.toNat)
    (h8 : 8 ∣ sb.sInodesPerGroup.toNat) (hxen : build = .xen → blockSize sb = 4096)
    (hle : blockSize sb ≤ 4096) (hbits : sb.sInodesPerGroup.toNat ≤ 8 * blockSize sb) :
    GeometryAgrees build (initExtDesc sb bgdesc fs) := by
  obtain ⟨-, hmeta⟩ := hv.aligned_blocks fs hdvd
  constructor
  · exact fun i _ => hv.readGroup_of_fits i hxen hle (by omega)
  · intro i hi b
    have hroom := hv.firstBlock_fits (i := i) hz
    rw [hv.classified_iff hz hi (by simp) (by simp) (by simp)]
    constructor
    · rintro rfl
      exact ⟨0, by omega, rfl, metaType_blockbitmap.mpr rfl⟩
    · rintro ⟨off, -, hb, htype⟩
      rw [metaType_blockbitmap.mp htype] at hb
      exact UInt32.toNat_inj.mp hb
  · intro i hi b
    have hroom := hv.firstBlock_fits (i := i) hz
    have hone := hv.offset_add_toNat hz hi (show 1 < metaBlocks sb by omega)
    rw [hv.classified_iff hz hi (by simp) (by simp) (by simp)]
    constructor
    · rintro rfl
      exact ⟨1, by omega, hone, metaType_inodebitmap.mpr rfl⟩
    · rintro ⟨off, -, hb, htype⟩
      rw [metaType_inodebitmap.mp htype] at hb
      exact UInt32.toNat_inj.mp (hb.trans hone.symm)
  · intro i hi b
    have hroom := hv.firstBlock_fits (i := i) hz
    rw [hv.classified_iff hz hi (by simp) (by simp) (by simp)]
    simp only [groupRead, List.mem_map, List.mem_range]
    constructor
    · rintro ⟨k, hk, rfl⟩
      refine ⟨2 + k, by omega, ?_, metaType_inodetable.mpr (by omega)⟩
      rw [← hv.offset_add_toNat hz hi (by omega), UInt32.ofNat_add, ← UInt32.add_assoc]
      rfl
    · rintro ⟨off, -, hb, htype⟩
      obtain ⟨h₁, h₂⟩ := metaType_inodetable.mp htype
      refine ⟨off - 2, by omega, ?_⟩
      apply UInt32.toNat_inj.mp
      rw [hb, ← hv.offset_add_toNat hz hi (by omega), show off = 2 + (off - 2) by omega,
        UInt32.ofNat_add, ← UInt32.add_assoc, Nat.add_sub_cancel_left]
      rfl
  · exact fun b bd hbd htype => hv.inodeids_of_aligned hz hdvd h8 hbd htype

end ValidGeometry

/-- Scanning and classification agree on a valid geometry exactly when groups start at block 0,
every inode table fills its last block, every inode bitmap its last byte and none more than a block,
and the blocks can be read: they fit a page, and in the build for Xen fill it. -/
theorem geometryAgrees_iff (build : Build) (sb : ExtSuperblock) (bgdesc : ExtBlockgroupdesc)
    (fs : FsType) (hv : ValidGeometry sb bgdesc) :
    GeometryAgrees build (initExtDesc sb bgdesc fs) ↔
      sb.sFirstDataBlock = 0 ∧
        blockSize sb / sb.sInodeSize.toNat ∣ sb.sInodesPerGroup.toNat ∧
        8 ∣ sb.sInodesPerGroup.toNat ∧ sb.sInodesPerGroup.toNat ≤ 8 * blockSize sb ∧
        blockSize sb ≤ 4096 ∧ (build = .xen → blockSize sb = 4096) := by
  rw [← hv.edInodesPerBlock fs]
  constructor
  · intro ha
    have hz := hv.firstDataBlock_of_agrees ha
    have hdvd := hv.dvd_of_agrees hz ha
    have h8 := hv.eight_dvd_of_agrees hz hdvd ha
    have hzero := hv.zero_lt_edGroups fs
    obtain ⟨hxen, hle, hbits⟩ := hv.fits_of_readGroup hz hzero (ha.read 0 hzero)
    exact ⟨hz, hdvd, h8, by omega, hle, hxen⟩
  · rintro ⟨hz, hdvd, h8, hbits, hle, hxen⟩
    exact hv.agrees_of_aligned hz hdvd h8 hxen hle hbits

def smallBlocks : ExtSuperblock := ⟨8192, 1, 0, 8192, 1024, 128, 0⟩

def largeBlocks : ExtSuperblock := ⟨32768, 0, 2, 32768, 8192, 128, 0⟩

theorem smallBlocks_valid : ValidGeometry smallBlocks ⟨3⟩ := by
  have hgroup : ∀ i : UInt32, smallBlocks.sFirstDataBlock.toNat +
      i.toNat * smallBlocks.sBlocksPerGroup.toNat < smallBlocks.sBlocksCount.toNat → i = 0 := by
    intro i hi
    have h : 1 + i.toNat * 8192 < 8192 := hi
    apply UInt32.toNat_inj.mp
    have h0 : (0 : UInt32).toNat = 0 := rfl
    omega
  refine ⟨by decide, by decide, by decide, by decide, by decide, by decide, by decide, ?_, ?_⟩
  · intro i hi
    obtain rfl := hgroup i hi
    decide
  · intro i hi
    obtain rfl := hgroup i hi
    decide

theorem largeBlocks_valid : ValidGeometry largeBlocks ⟨2⟩ := by
  have hgroup : ∀ i : UInt32, largeBlocks.sFirstDataBlock.toNat +
      i.toNat * largeBlocks.sBlocksPerGroup.toNat < largeBlocks.sBlocksCount.toNat → i = 0 := by
    intro i hi
    have h : 0 + i.toNat * 32768 < 32768 := hi
    apply UInt32.toNat_inj.mp
    have h0 : (0 : UInt32).toNat = 0 := rfl
    omega
  refine ⟨by decide, by decide, by decide, by decide, by decide, by decide, by decide, ?_, ?_⟩
  · intro i hi
    obtain rfl := hgroup i hi
    decide
  · intro i hi
    obtain rfl := hgroup i hi
    decide

theorem geometryAgrees_iff_largeBlocks :
    ValidGeometry largeBlocks ⟨2⟩ ∧ (GeometryAgrees .xen (initExtDesc largeBlocks ⟨2⟩ .ext2) ↔
      largeBlocks.sFirstDataBlock = 0 ∧
        blockSize largeBlocks / largeBlocks.sInodeSize.toNat ∣ largeBlocks.sInodesPerGroup.toNat ∧
        8 ∣ largeBlocks.sInodesPerGroup.toNat ∧
        largeBlocks.sInodesPerGroup.toNat ≤ 8 * blockSize largeBlocks ∧
        blockSize largeBlocks ≤ 4096 ∧ (Build.xen = .xen → blockSize largeBlocks = 4096)) :=
  ⟨largeBlocks_valid, geometryAgrees_iff _ _ _ _ largeBlocks_valid⟩

/-- With blocks of 1 KiB `get_diskstat` looks for the block bitmap of group 0 in block 3, and a write
of block 3 is classified as part of the group descriptor table. -/
theorem smallBlocks_disagree :
    ¬∀ build sb bgdesc fs, ValidGeometry sb bgdesc →
      GeometryAgrees build (initExtDesc sb bgdesc fs) := by
  intro hall
  have hz := smallBlocks_valid.firstDataBlock_of_agrees (hall .kvm _ _ .ext2 smallBlocks_valid)
  exact absurd hz (by decide)

end SBlktrace
