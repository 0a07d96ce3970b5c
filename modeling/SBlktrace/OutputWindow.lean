import Mathlib

namespace SBlktrace

structure SystemCalls where
  ftruncate : Bool
  mmap : Bool
  mlock : Bool

/-- `fsBuf` is the file offset at which the mapping starts, `none` where `fs_buf` is NULL or
MAP_FAILED. -/
structure MmapInfo where
  fsBuf : Option UInt64
  fsSize : UInt64
  fsMaxSize : UInt64
  fsOff : UInt64
  fsBufLen : UInt64
  bufSize : UInt64
  bufNr : UInt64
  pagesize : UInt64

def initMmapInfo (bufSize bufNr pagesize : UInt64) : MmapInfo :=
  ⟨none, 0, 0, 0, 0, bufSize, bufNr, pagesize⟩

namespace MmapInfo

def windowLen (mip : MmapInfo) : UInt64 :=
  (if 16 > mip.bufNr then 16 else mip.bufNr) * mip.bufSize

def setupMmap (mip : MmapInfo) (maxlen : UInt32) (calls : SystemCalls) : MmapInfo × ℤ :=
  if mip.fsOff + maxlen.toUInt64 > mip.fsBufLen then
    let fsOff := mip.fsSize &&& (mip.pagesize - 1)
    let fsBufLen := mip.windowLen - fsOff
    let fsMaxSize := mip.fsMaxSize + fsBufLen
    let mip := { mip with
      fsBuf := none, fsOff := fsOff, fsBufLen := fsBufLen, fsMaxSize := fsMaxSize }
    if ¬(calls.ftruncate ∧ fsMaxSize < 0x8000000000000000) then (mip, 1)
    else if ¬calls.mmap then (mip, 1)
    else
      let mip := { mip with fsBuf := some (mip.fsSize - fsOff) }
      if ¬calls.mlock then (mip, 1) else (mip, 0)
  else (mip, 0)

def store (mip : MmapInfo) (ret : UInt32) : MmapInfo :=
  match mip.fsBuf with
  | none => mip
  | some _ =>
    { mip with fsSize := mip.fsSize + ret.toUInt64, fsOff := mip.fsOff + ret.toUInt64 }

end MmapInfo

structure Received where
  maxlen : UInt32
  calls : SystemCalls
  ret : UInt32
  le_maxlen : ret ≤ maxlen

namespace MmapInfo

/-- One round of `handle_pfds_file`, which goes on after a failure of `setup_mmap` (it returns 1,
and only a negative result is looked for), or of `net_client_read_data`, which does not. -/
def receive (mip : MmapInfo) (r : Received) : MmapInfo :=
  (mip.setupMmap r.maxlen r.calls).1.store r.ret

def run (mip : MmapInfo) (rs : List Received) : MmapInfo := rs.foldl receive mip

/-- There is room for `maxlen` bytes, in a mapping of the file that is in line with it. -/
structure Window (mip : MmapInfo) (maxlen : UInt32) (start : UInt64) : Prop where
  mapped : mip.fsBuf = some start
  room : mip.fsOff.toNat + maxlen.toNat ≤ mip.fsBufLen.toNat
  noUnderflow : mip.fsBufLen ≤ mip.windowLen
  aligned : mip.pagesize.toNat ∣ start.toNat
  inside : start.toNat + mip.fsBufLen.toNat ≤ mip.fsMaxSize.toNat
  position : start.toNat + mip.fsOff.toNat = mip.fsSize.toNat

/-- If the window has to move, the part of a page before `fs_size` fits in it twice in addition to
`maxlen`, and the file size does not overflow; else there is a mapping. -/
def Fits (mip : MmapInfo) (maxlen : UInt32) : Prop :=
  if mip.fsBufLen.toNat < mip.fsOff.toNat + maxlen.toNat then
    2 * (mip.fsSize.toNat % mip.pagesize.toNat) + maxlen.toNat ≤ mip.windowLen.toNat ∧
      mip.fsMaxSize.toNat + mip.windowLen.toNat <
        2 ^ 64 + mip.fsSize.toNat % mip.pagesize.toNat
  else mip.fsBuf ≠ none

def FitsAll (mip : MmapInfo) : List Received → Prop
  | [] => True
  | r :: rs => mip.Fits r.maxlen ∧ (mip.receive r).FitsAll rs

structure Aligned (mip : MmapInfo) : Prop where
  size : mip.fsSize ≤ mip.fsMaxSize
  off : mip.fsOff ≤ mip.fsSize
  small : mip.fsSize.toNat < 2 ^ 63
  mapping : ∀ start, mip.fsBuf = some start → mip.Window 0 start ∧ mip.fsMaxSize.toNat < 2 ^ 63

variable {mip : MmapInfo} {maxlen : UInt32} {calls : SystemCalls} {k : ℕ}

theorem and_pagesize (hk : mip.pagesize.toNat = 2 ^ k) (x : UInt64) :
    (x &&& (mip.pagesize - 1)).toNat = x.toNat % mip.pagesize.toNat := by
  have hone : (1 : UInt64) ≤ mip.pagesize := by
    rw [UInt64.le_iff_toNat_le, hk]
    exact Nat.one_le_two_pow
  rw [UInt64.toNat_and, UInt64.toNat_sub_of_le _ _ hone, hk, UInt64.toNat_one,
    Nat.and_two_pow_sub_one_eq_mod]

theorem moves_iff (ha : mip.Aligned) (maxlen : UInt32) :
    mip.fsOff + maxlen.toUInt64 > mip.fsBufLen ↔
      mip.fsBufLen.toNat < mip.fsOff.toNat + maxlen.toNat := by
  have hoff := UInt64.le_iff_toNat_le.mp ha.off
  have hsmall := ha.small
  have hmaxlen := maxlen.toNat_lt
  rw [gt_iff_lt, UInt64.lt_iff_toNat_lt, UInt64.toNat_add, UInt32.toNat_toUInt64,
    Nat.mod_eq_of_lt (by omega)]

def moved (mip : MmapInfo) : MmapInfo :=
  let fsOff := mip.fsSize &&& (mip.pagesize - 1)
  { mip with
    fsBuf := none
    fsOff := fsOff
    fsBufLen := mip.windowLen - fsOff
    fsMaxSize := mip.fsMaxSize + (mip.windowLen - fsOff) }

def mapped (mip : MmapInfo) : MmapInfo :=
  { mip.moved with fsBuf := some (mip.fsSize - mip.moved.fsOff) }

theorem setupMmap_stays (h : ¬mip.fsOff + maxlen.toUInt64 > mip.fsBufLen) :
    mip.setupMmap maxlen calls = (mip, 0) := if_neg h

theorem setupMmap_moves (h : mip.fsOff + maxlen.toUInt64 > mip.fsBufLen) :
    mip.setupMmap maxlen calls = (mip.moved, 1) ∨
      mip.moved.fsMaxSize.toNat < 2 ^ 63 ∧ ∃ ret, mip.setupMmap maxlen calls = (mip.mapped, ret) := by
  unfold setupMmap
  rw [if_pos h]
  dsimp only
  split
  · exact Or.inl rfl
  · next hfile =>
    split
    · exact Or.inl rfl
    · have hsmall : mip.moved.fsMaxSize < 0x8000000000000000 := (not_not.mp hfile).2
      refine Or.inr ⟨UInt64.lt_iff_toNat_lt.mp hsmall, ?_⟩
      split
      · exact ⟨1, rfl⟩
      · exact ⟨0, rfl⟩

theorem moved_fsOff (hk : mip.pagesize.toNat = 2 ^ k) :
    mip.moved.fsOff.toNat = mip.fsSize.toNat % mip.pagesize.toNat := and_pagesize hk mip.fsSize

theorem moved_toNat (hk : mip.pagesize.toNat = 2 ^ k)
    (hle : mip.fsSize.toNat % mip.pagesize.toNat ≤ mip.windowLen.toNat)
    (hmax : mip.fsMaxSize.toNat + mip.windowLen.toNat <
      2 ^ 64 + mip.fsSize.toNat % mip.pagesize.toNat) :
    mip.moved.fsBufLen.toNat + mip.moved.fsOff.toNat = mip.windowLen.toNat ∧
      mip.moved.fsMaxSize.toNat = mip.fsMaxSize.toNat + mip.moved.fsBufLen.toNat := by
  have hoff := moved_fsOff hk
  have hle' : mip.moved.fsOff ≤ mip.windowLen := by
    rw [UInt64.le_iff_toNat_le, hoff]
    exact hle
  have hlen : mip.moved.fsBufLen.toNat = mip.windowLen.toNat - mip.moved.fsOff.toNat :=
    UInt64.toNat_sub_of_le _ _ hle'
  have hsum : mip.moved.fsMaxSize.toNat =
      (mip.fsMaxSize.toNat + mip.moved.fsBufLen.toNat) % 2 ^ 64 :=
    UInt64.toNat_add mip.fsMaxSize mip.moved.fsBufLen
  rw [← hoff] at hle hmax
  refine ⟨by omega, ?_⟩
  rw [hsum, Nat.mod_eq_of_lt (by omega)]

theorem start_toNat (hk : mip.pagesize.toNat = 2 ^ k) :
    (mip.fsSize - mip.moved.fsOff).toNat + mip.moved.fsOff.toNat = mip.fsSize.toNat ∧
      mip.pagesize.toNat ∣ (mip.fsSize - mip.moved.fsOff).toNat := by
  have hoff := moved_fsOff hk
  have hmod := Nat.mod_le mip.fsSize.toNat mip.pagesize.toNat
  have hle : mip.moved.fsOff ≤ mip.fsSize := by
    rw [UInt64.le_iff_toNat_le, hoff]
    exact hmod
  rw [UInt64.toNat_sub_of_le _ _ hle, hoff]
  exact ⟨by omega, Nat.dvd_sub_mod _⟩

theorem mapped_window (hk : mip.pagesize.toNat = 2 ^ k) (ha : mip.Aligned)
    (hfit : 2 * (mip.fsSize.toNat % mip.pagesize.toNat) + maxlen.toNat ≤ mip.windowLen.toNat)
    (hmax : mip.fsMaxSize.toNat + mip.windowLen.toNat <
      2 ^ 64 + mip.fsSize.toNat % mip.pagesize.toNat) :
    mip.mapped.Window maxlen (mip.fsSize - mip.moved.fsOff) := by
  have hoff := moved_fsOff hk
  obtain ⟨hlen, hsum⟩ := moved_toNat hk (by omega) hmax
  obtain ⟨hstart, hdvd⟩ := start_toNat hk
  have hsize := UInt64.le_iff_toNat_le.mp ha.size
  refine ⟨rfl, ?_, ?_, hdvd, ?_, hstart⟩
  · change mip.moved.fsOff.toNat + maxlen.toNat ≤ mip.moved.fsBufLen.toNat
    omega
  · change mip.moved.fsBufLen ≤ mip.windowLen
    rw [UInt64.le_iff_toNat_le]
    omega
  · change (mip.fsSize - mip.moved.fsOff).toNat + mip.moved.fsBufLen.toNat ≤
      mip.moved.fsMaxSize.toNat
    omega

theorem mapped_fits (hk : mip.pagesize.toNat = 2 ^ k) {start : UInt64}
    (hw : mip.mapped.Window maxlen start) :
    2 * (mip.fsSize.toNat % mip.pagesize.toNat) + maxlen.toNat ≤ mip.windowLen.toNat ∧
      mip.fsMaxSize.toNat + mip.windowLen.toNat <
        2 ^ 64 + mip.fsSize.toNat % mip.pagesize.toNat := by
  have hoff := moved_fsOff hk
  have hroom : mip.moved.fsOff.toNat + maxlen.toNat ≤ mip.moved.fsBufLen.toNat := hw.room
  have hunder : mip.moved.fsBufLen.toNat ≤ mip.windowLen.toNat :=
    UInt64.le_iff_toNat_le.mp hw.noUnderflow
  have hinside : start.toNat + mip.moved.fsBufLen.toNat ≤ mip.moved.fsMaxSize.toNat := hw.inside
  have hsum : mip.moved.fsMaxSize.toNat =
      (mip.fsMaxSize.toNat + mip.moved.fsBufLen.toNat) % 2 ^ 64 :=
    UInt64.toNat_add mip.fsMaxSize mip.moved.fsBufLen
  have hdiff : mip.moved.fsBufLen.toNat =
      (2 ^ 64 - mip.moved.fsOff.toNat + mip.windowLen.toNat) % 2 ^ 64 :=
    UInt64.toNat_sub mip.windowLen mip.moved.fsOff
  have h₁ := mip.moved.fsOff.toNat_lt
  have h₂ := mip.windowLen.toNat_lt
  have h₃ := mip.fsMaxSize.toNat_lt
  have h₄ := mip.moved.fsBufLen.toNat_lt
  omega

theorem Window.store {start : UInt64} (hw : mip.Window maxlen start)
    (hmax : mip.fsMaxSize.toNat < 2 ^ 63) {ret : UInt32} (hret : ret ≤ maxlen) :
    (mip.store ret).Aligned := by
  obtain ⟨hmapped, hroom, hunder, hdvd, hinside, hposition⟩ := hw
  have hret' := UInt32.le_iff_toNat_le.mp hret
  have hstore : mip.store ret =
      { mip with fsSize := mip.fsSize + ret.toUInt64, fsOff := mip.fsOff + ret.toUInt64 } := by
    rw [MmapInfo.store, hmapped]
  have hsize : (mip.fsSize + ret.toUInt64).toNat = mip.fsSize.toNat + ret.toNat := by
    rw [UInt64.toNat_add, UInt32.toNat_toUInt64, Nat.mod_eq_of_lt (by omega)]
  have hoff : (mip.fsOff + ret.toUInt64).toNat = mip.fsOff.toNat + ret.toNat := by
    rw [UInt64.toNat_add, UInt32.toNat_toUInt64, Nat.mod_eq_of_lt (by omega)]
  rw [hstore]
  refine ⟨?_, ?_, ?_, ?_⟩
  · rw [UInt64.le_iff_toNat_le, hsize]
    dsimp only
    omega
  · rw [UInt64.le_iff_toNat_le, hsize, hoff]
    omega
  · rw [hsize]
    omega
  · intro start' hstart'
    obtain rfl := Option.some.inj (hmapped.symm.trans hstart')
    refine ⟨⟨hmapped, ?_, hunder, hdvd, hinside, ?_⟩, hmax⟩
    · rw [hoff, UInt32.toNat_zero]
      dsimp only
      omega
    · rw [hoff, hsize]
      omega

theorem Aligned.moved (ha : mip.Aligned) (hk : mip.pagesize.toNat = 2 ^ k)
    (hle : mip.fsSize.toNat % mip.pagesize.toNat ≤ mip.windowLen.toNat)
    (hmax : mip.fsMaxSize.toNat + mip.windowLen.toNat <
      2 ^ 64 + mip.fsSize.toNat % mip.pagesize.toNat) : mip.moved.Aligned := by
  obtain ⟨-, hsum⟩ := moved_toNat hk hle hmax
  have hsize := UInt64.le_iff_toNat_le.mp ha.size
  have hmod := Nat.mod_le mip.fsSize.toNat mip.pagesize.toNat
  refine ⟨?_, ?_, ha.small, fun _ h => absurd h (by simp [MmapInfo.moved])⟩
  · rw [UInt64.le_iff_toNat_le, hsum]
    exact hsize.trans (Nat.le_add_right _ _)
  · rw [UInt64.le_iff_toNat_le, moved_fsOff hk]
    exact hmod

theorem setupMmap_spec (ha : mip.Aligned) (hk : mip.pagesize.toNat = 2 ^ k)
    (hfits : mip.Fits maxlen) :
    (mip.setupMmap maxlen calls).1.pagesize = mip.pagesize ∧
    ((mip.setupMmap maxlen calls).1.Aligned ∧ (mip.setupMmap maxlen calls).1.fsBuf = none ∧
        (mip.setupMmap maxlen calls).2 = 1 ∨
      (mip.setupMmap maxlen calls).1.fsMaxSize.toNat < 2 ^ 63 ∧
        ∃ start, (mip.setupMmap maxlen calls).1.Window maxlen start) := by
  unfold Fits at hfits
  by_cases hmove : mip.fsOff + maxlen.toUInt64 > mip.fsBufLen
  · rw [if_pos ((moves_iff ha maxlen).mp hmove)] at hfits
    obtain ⟨hfit, hmax⟩ := hfits
    rcases setupMmap_moves hmove with h | ⟨hsmall, ret, h⟩
    · rw [h]
      exact ⟨rfl, Or.inl ⟨ha.moved hk (by omega) hmax, rfl, rfl⟩⟩
    · rw [h]
      exact ⟨rfl, Or.inr ⟨hsmall, _, mapped_window hk ha hfit hmax⟩⟩
  · rw [if_neg (fun h => hmove ((moves_iff ha maxlen).mpr h))] at hfits
    obtain ⟨start, hstart⟩ := Option.ne_none_iff_exists'.mp hfits
    obtain ⟨hw, hsmall⟩ := ha.mapping start hstart
    rw [setupMmap_stays hmove]
    have hroom := not_lt.mp (fun h => hmove ((moves_iff ha maxlen).mpr h))
    exact ⟨rfl, Or.inr ⟨hsmall, start, hw.mapped, hroom, hw.noUnderflow, hw.aligned, hw.inside,
      hw.position⟩⟩

theorem Aligned.receive (ha : mip.Aligned) (hk : mip.pagesize.toNat = 2 ^ k) {r : Received}
    (hfits : mip.Fits r.maxlen) :
    (mip.receive r).Aligned ∧ (mip.receive r).pagesize = mip.pagesize := by
  obtain ⟨hpage, ⟨ha', hnone, -⟩ | ⟨hsmall, start, hw⟩⟩ :=
    @setupMmap_spec mip r.maxlen r.calls k ha hk hfits
  · rw [MmapInfo.receive, MmapInfo.store, hnone]
    exact ⟨ha', hpage⟩
  · refine ⟨hw.store hsmall r.le_maxlen, ?_⟩
    rw [MmapInfo.receive, MmapInfo.store, hw.mapped]
    exact hpage

theorem Aligned.run (ha : mip.Aligned) (hk : mip.pagesize.toNat = 2 ^ k) {rs : List Received}
    (hfits : mip.FitsAll rs) : (mip.run rs).Aligned ∧ (mip.run rs).pagesize = mip.pagesize := by
  induction rs generalizing mip with
  | nil => exact ⟨ha, rfl⟩
  | cons r rs ih =>
    obtain ⟨ha', hpage⟩ := ha.receive hk hfits.1
    obtain ⟨harun, hrun⟩ := ih ha' (by rw [hpage, hk]) hfits.2
    exact ⟨harun, hrun.trans hpage⟩

theorem window_iff (ha : mip.Aligned) (hk : mip.pagesize.toNat = 2 ^ k)
    (hok : (mip.setupMmap maxlen calls).2 = 0) :
    (∃ start, (mip.setupMmap maxlen calls).1.Window maxlen start) ↔ mip.Fits maxlen := by
  constructor
  · rintro ⟨start, hw⟩
    unfold Fits
    by_cases hmove : mip.fsOff + maxlen.toUInt64 > mip.fsBufLen
    · rw [if_pos ((moves_iff ha maxlen).mp hmove)]
      rcases setupMmap_moves hmove with h | ⟨-, ret, h⟩
      · rw [h] at hok
        exact absurd hok one_ne_zero
      · rw [h] at hw
        exact mapped_fits hk hw
    · rw [if_neg (fun h => hmove ((moves_iff ha maxlen).mpr h))]
      rw [setupMmap_stays hmove] at hw
      rw [hw.mapped]
      exact Option.some_ne_none start
  · intro hfits
    obtain ⟨-, ⟨-, -, hone⟩ | ⟨-, hw⟩⟩ := @setupMmap_spec mip maxlen calls k ha hk hfits
    · rw [hok] at hone
      exact absurd hone zero_ne_one
    · exact hw

end MmapInfo

theorem initMmapInfo_aligned (bufSize bufNr pagesize : UInt64) :
    (initMmapInfo bufSize bufNr pagesize).Aligned where
  size := UInt64.le_refl 0
  off := UInt64.le_refl 0
  small := Nat.two_pow_pos 63
  mapping _ h := absurd h (by simp [initMmapInfo])

/-- After any calls whose windows fit, a successful call leaves a window as claimed exactly if it
fits too. -/
theorem output_window_iff (bufSize bufNr pagesize : UInt64) (k : ℕ)
    (hk : pagesize.toNat = 2 ^ k) (rs : List Received)
    (hfits : (initMmapInfo bufSize bufNr pagesize).FitsAll rs) (maxlen : UInt32)
    (calls : SystemCalls)
    (hok : (((initMmapInfo bufSize bufNr pagesize).run rs).setupMmap maxlen calls).2 = 0) :
    (∃ start, (((initMmapInfo bufSize bufNr pagesize).run rs).setupMmap maxlen calls).1.Window
        maxlen start) ↔
      ((initMmapInfo bufSize bufNr pagesize).run rs).Fits maxlen := by
  obtain ⟨ha, hpage⟩ := (initMmapInfo_aligned bufSize bufNr pagesize).run hk hfits
  exact MmapInfo.window_iff ha (by rw [hpage]; exact hk) hok

theorem output_window_iff_firstRead :
    let mip := initMmapInfo 524288 4 4096
    (mip.FitsAll [] ∧ (mip.setupMmap 524288 ⟨true, true, true⟩).2 = 0) ∧
      ((∃ start, (mip.setupMmap 524288 ⟨true, true, true⟩).1.Window 524288 start) ↔
        mip.Fits 524288) :=
  ⟨⟨trivial, by decide⟩,
    output_window_iff 524288 4 4096 12 (by decide) [] trivial 524288 ⟨true, true, true⟩ (by decide)⟩

/-- A client that runs with `-b 16384` announces 16 MiB to a server that runs with the defaults. -/
theorem large_message_overruns :
    ¬∀ (bufSize bufNr pagesize : UInt64) (k : ℕ) (maxlen : UInt32) (calls : SystemCalls),
      (∃ kb : ℕ, 0 < kb ∧ kb ≤ 16 * 1024 ∧ bufSize.toNat = kb * 1024) → 0 < bufNr →
      pagesize.toNat = 2 ^ k →
      ((initMmapInfo bufSize bufNr pagesize).setupMmap maxlen calls).2 = 0 →
      ∃ start, ((initMmapInfo bufSize bufNr pagesize).setupMmap maxlen calls).1.Window maxlen
        start := by
  intro hall
  obtain ⟨start, hw⟩ := hall 524288 4 4096 12 16777216 ⟨true, true, true⟩
    ⟨512, by decide, by decide, by decide⟩ (by decide) (by decide) (by decide)
  exact absurd hw.room (by decide)

end SBlktrace
