import Mathlib

namespace SBlktrace

def BT_MAX_PKTS : ℕ := 512

structure IoPkt where
  sector : UInt64
  nbytes : UInt64
  rw : UInt32
  deriving DecidableEq, Repr

structure IoBunch where
  timeStamp : UInt64
  pkts : List IoPkt
  deriving DecidableEq, Repr

structure IoRequest where
  read : Bool
  n : ℤ
  off : ℤ
  deriving DecidableEq, Repr

structure IocbPkt where
  nbytes : ℤ
  buf : Option ℤ
  io : IoRequest
  deriving DecidableEq, Repr

def toInt (x : UInt64) : ℤ := Int.bmod x.toNat (2 ^ 32)

def toLongLong (x : UInt64) : ℤ := Int.bmod x.toNat (2 ^ 64)

namespace IocbPkt

def init : IocbPkt where
  nbytes := 0
  buf := none
  io := { read := false, n := 0, off := 0 }

/-- A failed assertion stops the program. -/
def iocbSetup (writeEnabled : Bool) (iocbp : IocbPkt) (rw : UInt32) (n off : ℤ) : Option IocbPkt :=
  if ¬ (rw = 0 ∨ rw = 1) then none
  else if ¬ (0 < n ∧ n % 512 = 0) then none
  else if ¬ 0 ≤ off then none
  else
    let prep (iocbp : IocbPkt) : Option IocbPkt :=
      if rw ≠ 0 then some { iocbp with io := { read := true, n := n, off := off } }
      else if writeEnabled then some { iocbp with io := { read := false, n := n, off := off } }
      else none
    if iocbp.nbytes ≠ 0 then
      if n ≤ iocbp.nbytes then prep iocbp
      else if iocbp.buf = none then none
      else prep { iocbp with buf := some n, nbytes := n }
    else prep { iocbp with buf := some n, nbytes := n }

structure Buffered (iocbp : IocbPkt) : Prop where
  nonneg : 0 ≤ iocbp.nbytes
  buf : iocbp.nbytes ≠ 0 → iocbp.buf = some iocbp.nbytes

theorem buffered_init : Buffered init where
  nonneg := le_refl 0
  buf h := absurd rfl h

variable {writeEnabled : Bool} {iocbp iocbp' : IocbPkt} {rw : UInt32} {n off : ℤ}

theorem iocbSetup_some (h : iocbSetup writeEnabled iocbp rw n off = some iocbp') :
    0 < n ∧ n % 512 = 0 ∧ 0 ≤ off ∧ iocbp'.io = { read := rw ≠ 0, n := n, off := off } ∧
      ((iocbp.nbytes ≠ 0 ∧ n ≤ iocbp.nbytes ∧ iocbp'.nbytes = iocbp.nbytes ∧
          iocbp'.buf = iocbp.buf) ∨
        (iocbp'.nbytes = n ∧ iocbp'.buf = some n)) := by
  have hprep : ∀ nbytes buf,
      (if rw ≠ 0 then
          some { nbytes := nbytes, buf := buf, io := { read := true, n := n, off := off } }
        else if writeEnabled then
          some { nbytes := nbytes, buf := buf, io := { read := false, n := n, off := off } }
        else none) = some iocbp' →
      iocbp'.io = { read := rw ≠ 0, n := n, off := off } ∧ iocbp'.nbytes = nbytes ∧
        iocbp'.buf = buf := by
    intro nbytes buf hp
    split at hp
    · cases hp
      simp_all
    split at hp
    · cases hp
      simp_all
    · cases hp
  rw [iocbSetup] at h
  split at h
  · cases h
  split at h
  · cases h
  rename_i hn
  split at h
  · cases h
  rename_i hoff
  obtain ⟨hpos, hsectors⟩ := not_not.mp hn
  refine ⟨hpos, hsectors, not_not.mp hoff, ?_⟩
  dsimp only at h
  split at h
  · rename_i hne
    split at h
    · rename_i hle
      obtain ⟨hio, hnbytes, hbuf⟩ := hprep _ _ h
      exact ⟨hio, .inl ⟨hne, hle, hnbytes, hbuf⟩⟩
    split at h
    · cases h
    · obtain ⟨hio, hnew⟩ := hprep _ _ h
      exact ⟨hio, .inr hnew⟩
  · obtain ⟨hio, hnew⟩ := hprep _ _ h
    exact ⟨hio, .inr hnew⟩

theorem iocbSetup_isSome (hbuf : iocbp.Buffered) (hrw : rw = 0 ∨ rw = 1)
    (hwrite : rw = 0 → writeEnabled = true) (hpos : 0 < n) (hsectors : n % 512 = 0)
    (hoff : 0 ≤ off) : (iocbSetup writeEnabled iocbp rw n off).isSome = true := by
  rw [iocbSetup, if_neg (not_not_intro hrw), if_neg (not_not_intro ⟨hpos, hsectors⟩),
    if_neg (not_not_intro hoff)]
  have hbuffer : iocbp.nbytes ≠ 0 → iocbp.buf ≠ none := by
    intro hne hnone
    cases (hbuf.buf hne).symm.trans hnone
  obtain rfl | rfl := hrw
  · rw [hwrite rfl]
    split_ifs <;> simp_all
  · split_ifs <;> simp_all

theorem iocbSetup_buffered (hbuf : iocbp.Buffered)
    (h : iocbSetup writeEnabled iocbp rw n off = some iocbp') :
    iocbp'.Buffered ∧ n ≤ iocbp'.nbytes := by
  obtain ⟨hpos, -, -, -, ⟨hne, hle, hnbytes, hbuf'⟩ | ⟨hnbytes, hbuf'⟩⟩ := iocbSetup_some h
  · refine ⟨⟨?_, fun h => ?_⟩, ?_⟩
    · rw [hnbytes]
      exact hbuf.nonneg
    · rw [hbuf', hnbytes]
      exact hbuf.buf hne
    · rw [hnbytes]
      exact hle
  · refine ⟨⟨?_, fun h => ?_⟩, ?_⟩
    · rw [hnbytes]
      exact hpos.le
    · rw [hbuf', hnbytes]
    · rw [hnbytes]

end IocbPkt

namespace IoPkt

def replayRw (writeEnabled : Bool) (pkt : IoPkt) : UInt32 :=
  if pkt.rw = 0 ∧ writeEnabled = false then 1 else pkt.rw

def setup (writeEnabled : Bool) (pkt : IoPkt) (iocbp : IocbPkt) : Option IocbPkt :=
  iocbp.iocbSetup writeEnabled (pkt.replayRw writeEnabled) (toInt pkt.nbytes)
    (toLongLong (pkt.sector * 512))

def request (writeEnabled : Bool) (pkt : IoPkt) : IoRequest where
  read := pkt.replayRw writeEnabled ≠ 0
  n := toInt pkt.nbytes
  off := toLongLong (pkt.sector * 512)

theorem setup_io {writeEnabled : Bool} {pkt : IoPkt} {iocbp iocbp' : IocbPkt}
    (h : pkt.setup writeEnabled iocbp = some iocbp') : iocbp'.io = pkt.request writeEnabled :=
  (IocbPkt.iocbSetup_some h).2.2.2.1

/-- The packet passes the assertions with any buffer, and what is asked for is what it says. -/
def Replayable (pkt : IoPkt) : Prop :=
  ∀ (writeEnabled : Bool) (iocbp : IocbPkt), iocbp.Buffered →
    ∃ iocbp', pkt.setup writeEnabled iocbp = some iocbp' ∧ iocbp'.Buffered ∧
      iocbp'.io.n ≤ iocbp'.nbytes ∧ iocbp'.io.n = pkt.nbytes.toNat ∧
      iocbp'.io.off = pkt.sector.toNat * 512

theorem toInt_eq_iff (x : UInt64) (hx : x.toNat < 2 ^ 32) :
    0 < toInt x ↔ 0 < x.toNat ∧ x.toNat < 2 ^ 31 := by
  unfold toInt
  rw [Int.bmod_def]
  split <;> omega

theorem toInt_of_lt {x : UInt64} (hx : x.toNat < 2 ^ 31) : toInt x = x.toNat := by
  unfold toInt
  apply Int.bmod_eq_of_le <;> omega

theorem toLongLong_eq_iff (x : UInt64) :
    toLongLong (x * 512) = x.toNat * 512 ↔ x.toNat < 2 ^ 54 := by
  have hx := x.toNat_lt
  unfold toLongLong
  rw [Int.bmod_def, UInt64.toNat_mul, show (512 : UInt64).toNat = 512 from rfl]
  push_cast
  split <;> omega

theorem replayable_iff (pkt : IoPkt) (hrw : pkt.rw = 0 ∨ pkt.rw = 1)
    (hnbytes : pkt.nbytes.toNat < 2 ^ 32) :
    pkt.Replayable ↔ 0 < pkt.nbytes.toNat ∧ pkt.nbytes.toNat % 512 = 0 ∧
      pkt.nbytes.toNat < 2 ^ 31 ∧ pkt.sector.toNat < 2 ^ 54 := by
  refine ⟨fun h => ?_, fun ⟨hpos, hsectors, hlt, hsector⟩ writeEnabled iocbp hbuf => ?_⟩
  · obtain ⟨iocbp', hsetup, -, -, hn, hoff⟩ := h true .init IocbPkt.buffered_init
    obtain ⟨hpos, hsectors, -, hio, -⟩ := IocbPkt.iocbSetup_some hsetup
    rw [hio] at hn hoff
    obtain ⟨hpos', hlt⟩ := (toInt_eq_iff pkt.nbytes hnbytes).mp hpos
    dsimp only at hn hoff
    rw [hn] at hsectors
    exact ⟨hpos', by omega, hlt, (toLongLong_eq_iff pkt.sector).mp hoff⟩
  · have hn := toInt_of_lt hlt
    have hoff := (toLongLong_eq_iff pkt.sector).mpr hsector
    have hsome : (pkt.setup writeEnabled iocbp).isSome = true := by
      apply IocbPkt.iocbSetup_isSome hbuf
      · rw [replayRw]
        split
        · exact .inr rfl
        · exact hrw
      · rw [replayRw]
        split
        · intro h
          exact absurd h (by decide)
        · rename_i hwrite
          intro h
          exact Bool.eq_true_of_not_eq_false fun hdisabled => hwrite ⟨h, hdisabled⟩
      · omega
      · omega
      · omega
    obtain ⟨iocbp', hsetup⟩ := Option.isSome_iff_exists.mp hsome
    obtain ⟨hbuf', hle⟩ := IocbPkt.iocbSetup_buffered hbuf hsetup
    have hio := setup_io hsetup
    simp only [request] at hio
    refine ⟨iocbp', hsetup, hbuf', ?_, ?_, ?_⟩ <;> simp only [hio]
    · exact hle
    · exact hn
    · exact hoff

end IoPkt

end SBlktrace
