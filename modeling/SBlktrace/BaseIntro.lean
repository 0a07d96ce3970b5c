import Mathlib

namespace SBlktrace

abbrev Buf := ℕ → UInt8

def readui32be (buf : Buf) (offset : ℕ) : UInt32 :=
  (buf offset).toUInt32 <<< 24 ||| (buf (offset + 1)).toUInt32 <<< 16 |||
    (buf (offset + 2)).toUInt32 <<< 8 ||| (buf (offset + 3)).toUInt32

def readui32le (buf : Buf) (offset : ℕ) : UInt32 :=
  (buf offset).toUInt32 ||| (buf (offset + 1)).toUInt32 <<< 8 |||
    (buf (offset + 2)).toUInt32 <<< 16 ||| (buf (offset + 3)).toUInt32 <<< 24

def writeui32le (buf : Buf) (v : UInt32) : Buf := fun i =>
  if i < 4 then (v >>> UInt32.ofNat (8 * i)).toUInt8 else buf i

def memcpy (dst src : Buf) (size : ℕ) : Buf := fun i => if i < size then src i else dst i

def dom0blocksize : UInt32 := 4096

def rounddown (a : UInt64) (n : UInt32) : UInt64 := a - a % n.toUInt64

def roundup (a : UInt64) (n : UInt32) : UInt64 := rounddown (a + (n - 1).toUInt64) n

/-- With `-DKVM` the disk is read without alignment. -/
inductive Build where
  | xen
  | kvm

/-- What `align_read` does where `lseek` and `read` succeed. It returns -1, or how far into the buffer
the bytes lie; or `read` is told to put more into the buffer than it holds. -/
inductive AlignedRead where
  | error
  | returns (offset : UInt64)
  | overruns
deriving DecidableEq

def alignRead (build : Build) (offset : UInt64) (size capacity alignment : UInt32) : AlignedRead :=
  match build with
  | .xen =>
    let start := rounddown offset alignment
    let rounded := (roundup (offset - start + size.toUInt64) alignment).toUInt32
    if capacity < rounded then .error else .returns (offset - start)
  | .kvm => if capacity < size then .overruns else .returns 0

def alignReadblock (build : Build) (blockid bsize capacity alignment : UInt32) : AlignedRead :=
  alignRead build (blockid.toUInt64 * bsize.toUInt64) bsize capacity alignment

def alignReadblocks (build : Build) (blockid bsize blockCount capacity alignment : UInt32) :
    AlignedRead :=
  alignRead build (blockid.toUInt64 * bsize.toUInt64) (bsize * blockCount) capacity alignment

variable {buf buf' : Buf} {offset size : ℕ}

theorem readui32be_congr (h : ∀ i < size, buf i = buf' i) (ho : offset + 4 ≤ size) :
    readui32be buf offset = readui32be buf' offset := by
  rw [readui32be, readui32be, h offset (by omega), h (offset + 1) (by omega),
    h (offset + 2) (by omega), h (offset + 3) (by omega)]

theorem memcpy_agrees (dst src : Buf) : ∀ i < size, memcpy dst src size i = src i :=
  fun _ hi => if_pos hi

theorem toNat_pos_iff {i : UInt32} : 0 < i.toNat ↔ i ≠ 0 := by
  rw [Nat.pos_iff_ne_zero, ne_eq, ne_eq, ← UInt32.toNat_inj]
  rfl

theorem rounddown_toNat (a : UInt64) (n : UInt32) :
    (rounddown a n).toNat = a.toNat - a.toNat % n.toNat := by
  have hmod : (a % n.toUInt64).toNat = a.toNat % n.toNat := by
    rw [UInt64.toNat_mod, UInt32.toNat_toUInt64]
  rw [rounddown, UInt64.toNat_sub_of_le, hmod]
  rw [UInt64.le_iff_toNat_le, hmod]
  exact Nat.mod_le _ _

theorem roundup_toNat (a : UInt64) {n : UInt32} (hn : n ≠ 0)
    (hfit : a.toNat + (n.toNat - 1) < 2 ^ 64) :
    (roundup a n).toNat = a.toNat + (n.toNat - 1) - (a.toNat + (n.toNat - 1)) % n.toNat := by
  have hone : (1 : UInt32).toNat = 1 := rfl
  have hle : (1 : UInt32) ≤ n := by
    rw [UInt32.le_iff_toNat_le, hone]
    exact toNat_pos_iff.mpr hn
  have hsum : (a + (n - 1).toUInt64).toNat = a.toNat + (n.toNat - 1) := by
    rw [UInt64.toNat_add, UInt32.toNat_toUInt64, UInt32.toNat_sub_of_le _ _ hle, hone]
    exact Nat.mod_eq_of_lt hfit
  rw [roundup, rounddown_toNat, hsum]

theorem dom0blocksize_toNat : dom0blocksize.toNat = 4096 := rfl

theorem alignRead_kvm_iff (offset : UInt64) (size capacity : UInt32) :
    alignRead .kvm offset size capacity dom0blocksize = .returns 0 ↔ size ≤ capacity := by
  rw [alignRead]
  split
  · next hlt => simpa using hlt
  · next hle => simpa using hle

theorem alignRead_xen_iff (offset : UInt64) (size capacity : UInt32) :
    alignRead .xen offset size capacity dom0blocksize = .returns 0 ↔
      4096 ∣ offset.toNat ∧ (roundup size.toUInt64 dom0blocksize).toUInt32 ≤ capacity := by
  have hle : rounddown offset dom0blocksize ≤ offset := by
    rw [UInt64.le_iff_toNat_le, rounddown_toNat]
    exact Nat.sub_le _ _
  have hoff : (offset - rounddown offset dom0blocksize).toNat = offset.toNat % 4096 := by
    have hmod := Nat.mod_le offset.toNat 4096
    rw [UInt64.toNat_sub_of_le _ _ hle, rounddown_toNat, dom0blocksize_toNat]
    omega
  have hzero : offset - rounddown offset dom0blocksize = 0 ↔ 4096 ∣ offset.toNat := by
    rw [← UInt64.toNat_inj, hoff, Nat.dvd_iff_mod_eq_zero]
    rfl
  rw [alignRead]
  split
  · next hlt =>
    constructor
    · rintro ⟨⟩
    · rintro ⟨hdvd, hfit⟩
      rw [hzero.mpr hdvd, UInt64.zero_add] at hlt
      exact absurd hfit (UInt32.not_le.mpr hlt)
  · next hfit =>
    rw [AlignedRead.returns.injEq, hzero]
    constructor
    · intro hdvd
      rw [hzero.mpr hdvd, UInt64.zero_add] at hfit
      exact ⟨hdvd, UInt32.not_lt.mp hfit⟩
    · exact fun h => h.1

theorem roundup_dom0_toNat (size : UInt32) :
    (roundup size.toUInt64 dom0blocksize).toNat =
      size.toNat + 4095 - (size.toNat + 4095) % 4096 := by
  have hlt := size.toNat_lt
  rw [roundup_toNat _ (by decide), UInt32.toNat_toUInt64, dom0blocksize_toNat]
  rw [UInt32.toNat_toUInt64, dom0blocksize_toNat]
  omega

theorem roundup_of_dvd {size : UInt32} (hdvd : 4096 ∣ size.toNat) :
    (roundup size.toUInt64 dom0blocksize).toUInt32 = size := by
  have hlt := size.toNat_lt
  apply UInt32.toNat_inj.mp
  rw [UInt64.toNat_toUInt32, roundup_dom0_toNat]
  omega

theorem le_of_roundup_le {size capacity : UInt32} (hsize : size.toNat + 4096 ≤ 2 ^ 32)
    (hfit : (roundup size.toUInt64 dom0blocksize).toUInt32 ≤ capacity) : size ≤ capacity := by
  rw [UInt32.le_iff_toNat_le, UInt64.toNat_toUInt32, roundup_dom0_toNat] at hfit
  rw [UInt32.le_iff_toNat_le]
  omega

end SBlktrace
