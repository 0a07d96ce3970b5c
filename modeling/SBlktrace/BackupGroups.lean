import SBlktrace.BlockClassifiers
import Mathlib

namespace SBlktrace

/-- `while (i % p == 0) i /= p;` for at most `fuel` rounds, `none` when they do not end it. -/
def stripLoop (p : UInt32) : ℕ → UInt32 → Option UInt32
  | 0, _ => none
  | fuel + 1, i => if i % p = 0 then stripLoop p fuel (i / p) else some i

/-- `is_backup_group`, each of its loops given `fuel` rounds. -/
def isBackupGroupLoop (fuel : ℕ) (i : UInt32) : Option Bool :=
  if i = 0 ∨ i = 1 then some true
  else if i % 3 = 0 then (stripLoop 3 fuel i).map (fun i => decide (i = 1))
  else if i % 5 = 0 then (stripLoop 5 fuel i).map (fun i => decide (i = 1))
  else if i % 7 = 0 then (stripLoop 7 fuel i).map (fun i => decide (i = 1))
  else some false

def SparseSuper (n : ℕ) : Prop := n = 0 ∨ n = 1 ∨ ∃ k, n = 3 ^ k ∨ n = 5 ^ k ∨ n = 7 ^ k

section Powers

variable {p q n : ℕ}

theorem exists_eq_pow_mul_iff (hp : 1 < p) : (∃ k, p * n = p ^ k) ↔ ∃ k, n = p ^ k := by
  constructor
  · rintro ⟨k, hk⟩
    cases k with
    | zero =>
      -- one is no multiple of `p`
      rw [pow_zero] at hk
      have := Nat.eq_one_of_mul_eq_one_right hk
      omega
    | succ k =>
      rw [pow_succ, Nat.mul_comm (p ^ k)] at hk
      exact ⟨k, Nat.eq_of_mul_eq_mul_left (by omega) hk⟩
  · rintro ⟨k, rfl⟩
    exact ⟨k + 1, by rw [pow_succ, Nat.mul_comm]⟩

theorem exists_eq_pow_of_not_dvd (hn : ¬p ∣ n) : (∃ k, n = p ^ k) ↔ n = 1 := by
  constructor
  · rintro ⟨k, rfl⟩
    cases k with
    | zero => exact pow_zero p
    | succ k => exact absurd (dvd_pow_self p k.succ_ne_zero) hn
  · rintro rfl
    exact ⟨0, (pow_zero p).symm⟩

theorem not_exists_eq_pow_of_dvd (hp : p.Prime) (hpq : ¬p ∣ q) (hn : p ∣ n) : ¬∃ k, n = q ^ k := by
  rintro ⟨k, rfl⟩
  exact hpq (hp.dvd_of_dvd_pow hn)

end Powers

theorem mod_eq_zero_iff_dvd (i p : UInt32) : i % p = 0 ↔ p.toNat ∣ i.toNat := by
  rw [← UInt32.toNat_inj, UInt32.toNat_mod, Nat.dvd_iff_mod_eq_zero]
  rfl

theorem div_pos_of_dvd {p i : UInt32} (hi : i ≠ 0) (hdvd : i % p = 0) : i / p ≠ 0 := by
  rw [← toNat_pos_iff, UInt32.toNat_div]
  rw [← toNat_pos_iff] at hi
  rw [mod_eq_zero_iff_dvd] at hdvd
  exact Nat.div_pos (Nat.le_of_dvd hi hdvd) (Nat.pos_of_dvd_of_pos hdvd hi)

theorem stripFactor_eq_one_iff {p : UInt32} (hp : 1 < p) (i : UInt32) (hi : i ≠ 0) :
    stripFactor p i = 1 ↔ ∃ k, i.toNat = p.toNat ^ k := by
  have hone : 1 < p.toNat := UInt32.lt_iff_toNat_lt.mp hp
  fun_induction stripFactor p i with
  | case1 i h ih =>
    obtain ⟨-, -, hmod⟩ := h
    have hrec : stripFactor p (i / p) = 1 ↔ ∃ k, (i / p).toNat = p.toNat ^ k :=
      ih (div_pos_of_dvd hi hmod)
    rw [hrec, UInt32.toNat_div, ← exists_eq_pow_mul_iff hone,
      Nat.mul_div_cancel' ((mod_eq_zero_iff_dvd i p).mp hmod)]
  | case2 i h =>
    have hdvd : ¬p.toNat ∣ i.toNat := by
      rw [← mod_eq_zero_iff_dvd]
      intro hmod
      exact h ⟨hi, hp, hmod⟩
    rw [exists_eq_pow_of_not_dvd hdvd, ← UInt32.toNat_inj]
    rfl

theorem stripLoop_eq_some {p : UInt32} (hp : 1 < p) (fuel : ℕ) (i : UInt32) (hi : i ≠ 0)
    (hfuel : i.toNat < 2 ^ fuel) : stripLoop p fuel i = some (stripFactor p i) := by
  induction fuel generalizing i with
  | zero =>
    rw [← toNat_pos_iff] at hi
    omega
  | succ fuel ih =>
    rw [stripLoop, stripFactor]
    by_cases hmod : i % p = 0
    · have hhalf : (i / p).toNat ≤ i.toNat / 2 := by
        rw [UInt32.toNat_div]
        exact Nat.div_le_div_left (UInt32.lt_iff_toNat_lt.mp hp) (by omega)
      rw [if_pos hmod, if_pos ⟨hi, hp, hmod⟩]
      apply ih _ (div_pos_of_dvd hi hmod)
      rw [pow_succ] at hfuel
      omega
    · rw [if_neg hmod, if_neg (fun h => hmod h.2.2)]

theorem isBackupGroupLoop_eq_some {fuel : ℕ} (hfuel : 32 ≤ fuel) (i : UInt32) :
    isBackupGroupLoop fuel i = some (isBackupGroup i) := by
  have hlt : i.toNat < 2 ^ fuel := i.toNat_lt.trans_le (Nat.pow_le_pow_right (by omega) hfuel)
  unfold isBackupGroupLoop isBackupGroup
  by_cases hsmall : i = 0 ∨ i = 1
  · rw [if_pos hsmall, if_pos hsmall]
  · have hi : i ≠ 0 := fun h => hsmall (Or.inl h)
    rw [if_neg hsmall, if_neg hsmall, stripLoop_eq_some (by decide) fuel i hi hlt,
      stripLoop_eq_some (by decide) fuel i hi hlt, stripLoop_eq_some (by decide) fuel i hi hlt]
    split_ifs <;> rfl

theorem isBackupGroup_iff (i : UInt32) : isBackupGroup i = true ↔ SparseSuper i.toNat := by
  have h₀ : i = 0 ↔ i.toNat = 0 := UInt32.toNat_inj.symm
  have h₁ : i = 1 ↔ i.toNat = 1 := UInt32.toNat_inj.symm
  unfold SparseSuper isBackupGroup
  simp only [exists_or]
  by_cases hsmall : i = 0 ∨ i = 1
  · rw [if_pos hsmall]
    rw [h₀, h₁] at hsmall
    tauto
  · have hi : i ≠ 0 := fun h => hsmall (Or.inl h)
    have hi₁ : i.toNat ≠ 1 := fun h => hsmall (Or.inr (h₁.mpr h))
    have hi₀ : i.toNat ≠ 0 := fun h => hi (h₀.mpr h)
    rw [if_neg hsmall]
    simp only [hi₀, hi₁, false_or]
    have hpow {p : ℕ} (hn : ¬p ∣ i.toNat) : ¬∃ k, i.toNat = p ^ k := by
      rw [exists_eq_pow_of_not_dvd hn]
      exact hi₁
    -- the first prime that divides the number decides: it divides no power of another one
    by_cases h3 : i % 3 = 0
    · have hdvd : 3 ∣ i.toNat := (mod_eq_zero_iff_dvd i 3).mp h3
      have h5 : ¬∃ k, i.toNat = 5 ^ k :=
        not_exists_eq_pow_of_dvd Nat.prime_three (by decide) hdvd
      have h7 : ¬∃ k, i.toNat = 7 ^ k :=
        not_exists_eq_pow_of_dvd Nat.prime_three (by decide) hdvd
      rw [if_pos h3, decide_eq_true_iff, stripFactor_eq_one_iff (by decide) i hi]
      simp only [h5, h7, or_false]
      rfl
    · have hno3 : ¬∃ k, i.toNat = 3 ^ k :=
        hpow (fun h => h3 ((mod_eq_zero_iff_dvd i 3).mpr h))
      rw [if_neg h3]
      by_cases h5 : i % 5 = 0
      · have hdvd : 5 ∣ i.toNat := (mod_eq_zero_iff_dvd i 5).mp h5
        have h7 : ¬∃ k, i.toNat = 7 ^ k :=
          not_exists_eq_pow_of_dvd Nat.prime_five (by decide) hdvd
        rw [if_pos h5, decide_eq_true_iff, stripFactor_eq_one_iff (by decide) i hi]
        simp only [hno3, h7, or_false, false_or]
        rfl
      · have hno5 : ¬∃ k, i.toNat = 5 ^ k :=
          hpow (fun h => h5 ((mod_eq_zero_iff_dvd i 5).mpr h))
        rw [if_neg h5]
        by_cases h7 : i % 7 = 0
        · rw [if_pos h7, decide_eq_true_iff, stripFactor_eq_one_iff (by decide) i hi]
          simp only [hno3, hno5, false_or]
          rfl
        · have hno7 : ¬∃ k, i.toNat = 7 ^ k :=
            hpow (fun h => h7 ((mod_eq_zero_iff_dvd i 7).mpr h))
          rw [if_neg h7]
          simp only [hno3, hno5, hno7, Bool.false_eq_true, or_self]

/-- What the descriptor of a block says about the superblock copies, and that `get_block_type` and
`get_diskstat` say the same. -/
structure DescribesCopies (extdesc : ExtDesc) (bd : BlockDesc) : Prop where
  copy : SparseSuper bd.bdGroup.toNat → bd.bdGroupFirstBlock = extdesc.bgdesc.bgBlockBitmap
  noCopy : ¬SparseSuper bd.bdGroup.toNat → bd.bdGroupFirstBlock = 0
  superblock : bd.bdType = .superblock ↔
    extdesc.sb.sFirstDataBlock ≤ bd.bdId ∧
      (SparseSuper bd.bdGroup.toNat ∧ extdesc.bgdesc.bgBlockBitmap ≠ 0) ∧ bd.bdGroupOffset = 0
  getBlockType : extdesc.bgdesc.bgBlockBitmap ≠ 0 →
    (getBlockType bd.bdId extdesc = .superblock ↔ bd.bdType = .superblock)
  getDiskstat : (groupRead extdesc bd.bdGroup).blockBitmap =
    extdesc.sb.sBlocksPerGroup * bd.bdGroup + bd.bdGroupFirstBlock

/-- The callers of `is_backup_group` take the groups of the `sparse_super` rule, and no others, for
those that start with a copy of the superblock. -/
structure CallersSparse (extdesc : ExtDesc) : Prop where
  getBlockType : ∀ b, getBlockType b extdesc = .superblock ↔
    extdesc.sb.sFirstDataBlock ≤ b ∧
      SparseSuper ((b - extdesc.sb.sFirstDataBlock) / extdesc.sb.sBlocksPerGroup).toNat ∧
      (b - extdesc.sb.sFirstDataBlock) % extdesc.sb.sBlocksPerGroup = 0
  initBlockdesc : ∀ offset bd, initBlockdesc offset extdesc = some bd →
    DescribesCopies extdesc bd
  initBlockdesc2 : ∀ b bd, initBlockdesc2 b extdesc = some bd → DescribesCopies extdesc bd
  getDiskstat : ∀ i,
    (SparseSuper i.toNat → (groupRead extdesc i).blockBitmap =
      extdesc.sb.sBlocksPerGroup * i + extdesc.bgdesc.bgBlockBitmap) ∧
    (¬SparseSuper i.toNat → (groupRead extdesc i).blockBitmap = extdesc.sb.sBlocksPerGroup * i) ∧
    (groupRead extdesc i).inodeBitmap = (groupRead extdesc i).blockBitmap + 1

variable {extdesc : ExtDesc} {b : UInt32} {bd : BlockDesc}

theorem getBlockdescType_superblock {offset first : UInt32} :
    getBlockdescType extdesc b offset first = .superblock ↔
      extdesc.sb.sFirstDataBlock ≤ b ∧ first ≠ 0 ∧ offset = 0 := by
  unfold getBlockdescType
  by_cases hboot : b < extdesc.sb.sFirstDataBlock
  · rw [if_pos hboot]
    exact iff_of_false (by simp) (fun h => UInt32.not_le.mpr hboot h.1)
  · rw [if_neg hboot]
    by_cases hsuper : first ≠ 0 ∧ offset = 0
    · rw [if_pos hsuper]
      exact iff_of_true rfl ⟨UInt32.not_lt.mp hboot, hsuper⟩
    · rw [if_neg hsuper]
      apply iff_of_false
      · dsimp only
        split_ifs <;> simp
      · exact fun h => hsuper h.2

theorem getBlockType_superblock :
    getBlockType b extdesc = .superblock ↔
      extdesc.sb.sFirstDataBlock ≤ b ∧
        isBackupGroup ((b - extdesc.sb.sFirstDataBlock) / extdesc.sb.sBlocksPerGroup) = true ∧
        (b - extdesc.sb.sFirstDataBlock) % extdesc.sb.sBlocksPerGroup = 0 := by
  unfold getBlockType
  by_cases hboot : b < extdesc.sb.sFirstDataBlock
  · rw [if_pos hboot]
    exact iff_of_false (by simp) (fun h => UInt32.not_le.mpr hboot h.1)
  · rw [if_neg hboot]
    dsimp only
    generalize (b - extdesc.sb.sFirstDataBlock) / extdesc.sb.sBlocksPerGroup = groupid
    generalize (b - extdesc.sb.sFirstDataBlock) % extdesc.sb.sBlocksPerGroup = groupoffset
    by_cases hsuper : isBackupGroup groupid = true ∧ groupoffset = 0
    · rw [if_pos hsuper]
      exact iff_of_true rfl ⟨UInt32.not_lt.mp hboot, hsuper⟩
    · rw [if_neg hsuper]
      apply iff_of_false
      · generalize (if isBackupGroup groupid = true then groupoffset - extdesc.bgdesc.bgBlockBitmap
          else groupoffset) = inner
        split_ifs <;> simp
      · exact fun h => hsuper h.2

theorem initBlockdesc2_eq_some (hbd : initBlockdesc2 b extdesc = some bd) :
    bd.bdId = b ∧
      bd.bdGroup = (b - extdesc.sb.sFirstDataBlock) / extdesc.sb.sBlocksPerGroup ∧
      bd.bdGroupOffset = (b - extdesc.sb.sFirstDataBlock) % extdesc.sb.sBlocksPerGroup ∧
      bd.bdGroupFirstBlock = firstBlock extdesc.bgdesc bd.bdGroup ∧
      bd.bdType = getBlockdescType extdesc b bd.bdGroupOffset bd.bdGroupFirstBlock := by
  simp only [initBlockdesc2, Option.ite_none_left_eq_some, Option.some.injEq] at hbd
  obtain ⟨-, -, rfl⟩ := hbd
  exact ⟨rfl, rfl, rfl, rfl, rfl⟩

theorem firstBlock_ne_zero {bgdesc : ExtBlockgroupdesc} {i : UInt32} :
    firstBlock bgdesc i ≠ 0 ↔ SparseSuper i.toNat ∧ bgdesc.bgBlockBitmap ≠ 0 := by
  rw [← isBackupGroup_iff]
  unfold firstBlock
  split_ifs with hback <;> simp [hback]

theorem offsetBlockid_eq (extdesc : ExtDesc) (i : UInt32) :
    offsetBlockid extdesc i = extdesc.sb.sBlocksPerGroup * i + firstBlock extdesc.bgdesc i := by
  unfold offsetBlockid firstBlock
  split_ifs
  · rfl
  · rw [UInt32.add_zero]

theorem describesCopies_of_some (hbd : initBlockdesc2 b extdesc = some bd) :
    DescribesCopies extdesc bd := by
  obtain ⟨hid, hgroup, hoffset, hfirst, htype⟩ := initBlockdesc2_eq_some hbd
  have hsuper : bd.bdType = .superblock ↔
      extdesc.sb.sFirstDataBlock ≤ bd.bdId ∧
        (SparseSuper bd.bdGroup.toNat ∧ extdesc.bgdesc.bgBlockBitmap ≠ 0) ∧
        bd.bdGroupOffset = 0 := by
    rw [htype, getBlockdescType_superblock, hfirst, firstBlock_ne_zero, hid]
  constructor
  · intro hcopy
    rw [hfirst]
    exact if_pos ((isBackupGroup_iff _).mpr hcopy)
  · intro hno
    rw [hfirst]
    exact if_neg (fun hback => hno ((isBackupGroup_iff _).mp hback))
  · exact hsuper
  · intro hbitmap
    rw [hsuper, getBlockType_superblock, isBackupGroup_iff, hid, ← hgroup, ← hoffset]
    simp only [hbitmap, ne_eq, not_false_eq_true, and_true]
  · rw [hfirst]
    exact offsetBlockid_eq extdesc bd.bdGroup

theorem callersSparse (extdesc : ExtDesc) : CallersSparse extdesc where
  getBlockType b := by rw [getBlockType_superblock, isBackupGroup_iff]
  initBlockdesc offset bd hbd := by
    -- the two differ in where the number of the block comes from
    have hbd₂ : SBlktrace.initBlockdesc2
        (offset >>> extdesc.edBlockShift.toUInt64).toUInt32 extdesc = some bd := hbd
    exact describesCopies_of_some hbd₂
  initBlockdesc2 b bd hbd := describesCopies_of_some hbd
  getDiskstat i := by
    refine ⟨fun hcopy => ?_, fun hno => ?_, rfl⟩
    · exact if_pos ((isBackupGroup_iff i).mpr hcopy)
    · exact if_neg (fun hback => hno ((isBackupGroup_iff i).mp hback))

/-- `is_backup_group` ends on every group number, with the answer of the `sparse_super` rule, and
its callers follow it. -/
theorem isBackupGroup_sparseSuper :
    (∀ i : UInt32, ∃ backup, (∀ fuel, 32 ≤ fuel → isBackupGroupLoop fuel i = some backup) ∧
      (backup = true ↔ SparseSuper i.toNat)) ∧
    ∀ extdesc, CallersSparse extdesc := by
  constructor
  · intro i
    refine ⟨isBackupGroup i, ?_, isBackupGroup_iff i⟩
    intro fuel hfuel
    exact isBackupGroupLoop_eq_some hfuel i
  · exact callersSparse

end SBlktrace
