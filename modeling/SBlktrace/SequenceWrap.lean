import SBlktrace.PipeMode
import Mathlib

namespace SBlktrace

open Function

namespace PipeMode

variable (find : PipeMode → BlkIoTrace → UInt64 → Bool) (opts : BlkparseOptions)
  (key : UInt32 × UInt32)

structure IsEvent (k : ℕ) (bit : BlkIoTrace) : Prop where
  stream : (bit.device, bit.cpu) = key
  sequence : bit.sequence = UInt32.ofNat (k + 1)
  action : bit.action ≠ blkTnMessage

/-- The states in which `k` events of the stream were shown, one after the other. What is done for
other streams, and what is read and sorted, leaves `last_sequence` and the skips of this one. -/
inductive Shown : PipeMode → ℕ → Prop
  | init {st : PipeMode} (hlast : (st.cpus key).lastSequence = newPerCpuInfo.lastSequence)
      (hskips : (st.cpus key).skips = SkipList.empty) : Shown st 0
  | other {st st' : PipeMode} {k : ℕ} (hst : Shown st k)
      (hlast : (st'.cpus key).lastSequence = (st.cpus key).lastSequence)
      (hskips : (st'.cpus key).skips = (st.cpus key).skips) : Shown st' k
  | event {st st' : PipeMode} {k : ℕ} {bit : BlkIoTrace} {rbSort : List Trace} {force : Bool}
      (hst : Shown st k) (hbit : IsEvent key k bit)
      (hcheck : st.checkSequence find rbSort bit force = some (st', 0)) :
      Shown (st'.showEntry opts bit) (k + 1)

/-- Each of the first `n` events is accepted without force once the one before it was shown, and no
skip is recorded. -/
def StreamAccepted (n : ℕ) : Prop :=
  ∀ k st, Shown find opts key st k →
    (k ≤ n → (st.cpus key).skips = SkipList.empty) ∧
      (k < n → ∀ rbSort bit, IsEvent key k bit →
        ∃ st', st.checkSequence find rbSort bit false = some (st', 0))

variable {find opts key} {st : PipeMode} {k : ℕ} {bit : BlkIoTrace}

def lastAfter (k : ℕ) : UInt64 := if k = 0 then newPerCpuInfo.lastSequence else UInt64.ofNat k

theorem lastAfter_add_one (k : ℕ) :
    lastAfter k + 1 = if k = 0 then 0 else UInt64.ofNat (k + 1) := by
  unfold lastAfter
  split
  · rfl
  · rw [UInt64.ofNat_add]
    rfl

theorem checkSequence_accepts (hlast : (st.cpus key).lastSequence = lastAfter k)
    (hk : k + 1 < 2 ^ 32) (hbit : IsEvent key k bit) (rbSort : List Trace) (force : Bool) :
    st.checkSequence find rbSort bit force = some (st, 0) := by
  have hseq : bit.sequence.toUInt64 = UInt64.ofNat (k + 1) := by
    apply UInt64.toNat_inj.mp
    rw [hbit.sequence, UInt32.toNat_toUInt64, UInt32.toNat_ofNat_of_lt' hk,
      UInt64.toNat_ofNat_of_lt' (show k + 1 < 2 ^ 64 by omega)]
  unfold checkSequence
  dsimp only
  rw [hbit.stream, hlast, lastAfter_add_one]
  by_cases hzero : k = 0
  · rw [if_pos hzero, if_pos rfl, if_pos (by rw [hbit.sequence, hzero]; rfl)]
  · have hne : UInt64.ofNat (k + 1) ≠ 0 := by
      intro h
      have hz : k + 1 = 0 := by
        rw [← UInt64.toNat_ofNat_of_lt' (show k + 1 < 2 ^ 64 by omega), h]
        rfl
      exact Nat.succ_ne_zero k hz
    rw [if_neg hzero, if_neg hne, if_pos hseq]

theorem Shown.invariant (h : Shown find opts key st k) (hk : k < 2 ^ 32) :
    (st.cpus key).lastSequence = lastAfter k ∧ (st.cpus key).skips = SkipList.empty := by
  induction h with
  | init hlast hskips => exact ⟨hlast, hskips⟩
  | other _ hlast hskips ih =>
    obtain ⟨hlast', hskips'⟩ := ih hk
    exact ⟨hlast.trans hlast', hskips.trans hskips'⟩
  | @event st st' k bit rbSort force _ hbit hcheck ih =>
    obtain ⟨hlast, hskips⟩ := ih (by omega)
    rw [checkSequence_accepts hlast hk hbit] at hcheck
    cases hcheck
    have hpci : (st.showEntry opts bit).cpus key =
        { st.cpus key with
          lastSequence := bit.sequence.toUInt64
          nelems := (st.cpus key).nelems + 1 } := by
      unfold showEntry
      dsimp only
      rw [hbit.stream, if_neg hbit.action, update_self]
    rw [hpci]
    refine ⟨?_, hskips⟩
    apply UInt64.toNat_inj.mp
    rw [UInt32.toNat_toUInt64, hbit.sequence, UInt32.toNat_ofNat_of_lt' hk]
    exact (UInt64.toNat_ofNat_of_lt' (show k + 1 < 2 ^ 64 by omega)).symm

def event (key : UInt32 × UInt32) (k : ℕ) : BlkIoTrace :=
  ⟨blkIoTraceMagic ||| supportedVersion, UInt32.ofNat (k + 1), 0, blkTcAct blkTcQueue ||| 1, key.1,
    key.2⟩

theorem event_isEvent (key : UInt32 × UInt32) (k : ℕ) : IsEvent key k (event key k) := by
  refine ⟨rfl, rfl, ?_⟩
  change blkTcAct blkTcQueue ||| 1 ≠ blkTnMessage
  decide

theorem exists_shown (hk : k < 2 ^ 32) :
    ∃ st, Shown find opts key st k ∧ (st.cpus key).smallestSeqRead = 0 := by
  induction k with
  | zero => exact ⟨newPipeMode, .init rfl rfl, rfl⟩
  | succ k ih =>
    obtain ⟨st, hst, hsmall⟩ := ih (by omega)
    obtain ⟨hlast, -⟩ := hst.invariant (by omega)
    have hbit := event_isEvent key k
    refine ⟨_, .event hst hbit (checkSequence_accepts hlast hk hbit [] false), ?_⟩
    unfold showEntry
    dsimp only
    rw [hbit.stream, if_neg hbit.action, update_self]
    exact hsmall

theorem checkSequence_wrap (hlast : (st.cpus key).lastSequence = lastAfter (2 ^ 32 - 1))
    (hsmall : (st.cpus key).smallestSeqRead = 0) (hbit : IsEvent key (2 ^ 32 - 1) bit)
    (rbSort : List Trace) : st.checkSequence find rbSort bit false = some (st, 1) := by
  have hexpected : lastAfter (2 ^ 32 - 1) + 1 = 0x100000000 := rfl
  have hseq : bit.sequence.toUInt64 = 0 := by
    rw [hbit.sequence]
    rfl
  unfold checkSequence
  dsimp only
  rw [hbit.stream, hlast, hsmall, hexpected, hseq, if_neg (by decide), if_neg (by decide),
    if_neg (by decide), if_pos (by decide)]

theorem not_accepted_wrap (n : ℕ) (hn : 2 ^ 32 ≤ n) : ¬StreamAccepted find opts key n := by
  intro hall
  obtain ⟨st, hst, hsmall⟩ := @exists_shown find opts key (2 ^ 32 - 1) (by omega)
  obtain ⟨hlast, -⟩ := hst.invariant (by omega)
  have hbit := event_isEvent key (2 ^ 32 - 1)
  obtain ⟨st', haccept⟩ := (hall (2 ^ 32 - 1) st hst).2 (by omega) [] _ hbit
  rw [checkSequence_wrap hlast hsmall hbit] at haccept
  cases haccept

/-- All the events of a stream are accepted in turn, with no skip, exactly if there are fewer than
`2 ^ 32`. -/
theorem streamAccepted_iff (find : PipeMode → BlkIoTrace → UInt64 → Bool) (opts : BlkparseOptions)
    (key : UInt32 × UInt32) (n : ℕ) : StreamAccepted find opts key n ↔ n < 2 ^ 32 := by
  constructor
  · intro h
    by_contra hn
    exact not_accepted_wrap n (by omega) h
  · intro hn k st hst
    constructor
    · intro hk
      exact (hst.invariant (by omega)).2
    · intro hk rbSort bit hbit
      exact ⟨st, checkSequence_accepts (hst.invariant (by omega)).1 (by omega) hbit rbSort false⟩

theorem wrapped_sequence_waits :
    ¬∀ (find : PipeMode → BlkIoTrace → UInt64 → Bool) (opts : BlkparseOptions)
      (key : UInt32 × UInt32) (n : ℕ), StreamAccepted find opts key n :=
  fun hall => not_accepted_wrap (2 ^ 32) le_rfl
    (hall (fun _ _ _ => false) ⟨512, 0xffff, 0, 0xffffffffffffffff⟩ (0, 0) (2 ^ 32))

end PipeMode

end SBlktrace
