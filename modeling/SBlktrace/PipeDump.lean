import SBlktrace.PipeMode
import SBlktrace.SkipIntervals
import Mathlib

namespace SBlktrace

open Function

namespace PipeMode

variable {opts : BlkparseOptions} {find : PipeMode → BlkIoTrace → UInt64 → Bool}
  {st st' : PipeMode} {force : Bool}

/-- The skip lists can be walked, `smallest_seq_read` is as zeroed, no CPU is marked online. -/
structure Regular (st : PipeMode) : Prop where
  skips : ∀ k, ∃ ivs, (st.cpus k).skips.Holds ivs
  smallest : ∀ k, (st.cpus k).smallestSeqRead = 0
  offline : ∀ device, st.cpuMap device = []

structure SameTraces (st st' : PipeMode) : Prop where
  genesisTime : st'.genesisTime = st.genesisTime
  readSequence : st'.readSequence = st.readSequence
  traceList : st'.traceList = st.traceList
  dumps : st'.dumps = st.dumps

theorem Regular.setSkips (hr : Regular st) (k : UInt32 × UInt32) {skips : SkipList}
    {ivs : List (UInt64 × UInt64)} (hs : skips.Holds ivs) :
    Regular { st with cpus := update st.cpus k { st.cpus k with skips := skips } } := by
  refine ⟨?_, ?_, hr.offline⟩
  · intro k'
    by_cases hk : k' = k
    · subst hk
      exact ⟨ivs, by simpa using hs⟩
    · simpa [update_of_ne hk] using hr.skips k'
  · intro k'
    by_cases hk : k' = k
    · subst hk
      simpa using hr.smallest k'
    · simpa [update_of_ne hk] using hr.smallest k'

theorem skipSequence_spec (hr : Regular st) (bit : BlkIoTrace) (expected : UInt64) :
    ∃ st', st.skipSequence bit expected = some (st', 0) ∧ Regular st' ∧ SameTraces st st' := by
  obtain ⟨ivs, hi⟩ := hr.skips (bit.device, bit.cpu)
  have hcheck : ∃ skips ret ivs', (st.cpus (bit.device, bit.cpu)).skips.checkCurrentSkips
      bit.sequence.toUInt64 = some (skips, ret) ∧ skips.Holds ivs' := by
    rcases hi.checkCurrentSkips bit.sequence.toUInt64 with ⟨-, hrun⟩ |
        ⟨cs, r, ds, skips, -, -, hrun, ⟨-, hi'⟩ | ⟨-, skips₁, hi₁, hins⟩⟩
    · exact ⟨_, _, _, hrun, hi⟩
    · exact ⟨_, _, _, hrun, hi'⟩
    · obtain ⟨skips', hins', ⟨_, _, _, -, -, -, hi'⟩ | ⟨-, hi'⟩⟩ :=
        hi₁.insertSkip (bit.sequence.toUInt64 + 1) (bit.sequence.toUInt64 - 1)
      · obtain rfl := Option.some.inj (hins.symm.trans hins')
        exact ⟨_, _, _, hrun, hi'⟩
      · obtain rfl := Option.some.inj (hins.symm.trans hins')
        exact ⟨_, _, _, hrun, hi'⟩
  obtain ⟨skips, ret, ivs', hrun, hi'⟩ := hcheck
  obtain ⟨skips', hins, hcase⟩ := hi'.insertSkip expected (bit.sequence.toUInt64 - 1)
  have hi'' : ∃ ivs'', skips'.Holds ivs'' := by
    rcases hcase with ⟨_, _, _, -, -, -, h⟩ | ⟨-, h⟩
    · exact ⟨_, h⟩
    · exact ⟨_, h⟩
  obtain ⟨ivs'', hi''⟩ := hi''
  unfold skipSequence
  simp only [hrun, Option.bind_eq_bind, Option.bind_some]
  by_cases hret : ret ≠ 0
  · rw [if_pos hret]
    exact ⟨_, rfl, hr.setSkips _ hi', ⟨rfl, rfl, rfl, rfl⟩⟩
  · rw [if_neg hret]
    by_cases hlt : expected < bit.sequence.toUInt64
    · rw [if_pos hlt]
      simp only [hins, Option.bind_some]
      refine ⟨_, rfl, ?_, ⟨rfl, rfl, rfl, rfl⟩⟩
      simpa using hr.setSkips (bit.device, bit.cpu) hi''
    · rw [if_neg hlt]
      exact ⟨_, rfl, hr.setSkips _ hi', ⟨rfl, rfl, rfl, rfl⟩⟩

theorem checkSequence_spec (hr : Regular st) (rbSort : List Trace) (bit : BlkIoTrace) :
    ∃ st' ret, st.checkSequence find rbSort bit force = some (st', ret) ∧ Regular st' ∧
      SameTraces st st' ∧ (force → ret = 0) := by
  have hmap : checkCpuMap (st.cpuMap bit.device) rbSort = 0 := by
    rw [hr.offline]
    rfl
  have hnot : ¬(st.cpus (bit.device, bit.cpu)).lastSequence + 1 <
      (st.cpus (bit.device, bit.cpu)).smallestSeqRead := by
    rw [hr.smallest, UInt64.lt_iff_toNat_lt]
    exact Nat.not_lt_zero _
  unfold checkSequence
  simp only [hmap, hnot, if_false, ite_self]
  split
  · exact ⟨st, 0, rfl, hr, ⟨rfl, rfl, rfl, rfl⟩, fun _ => rfl⟩
  · split
    · exact ⟨st, 0, rfl, hr, ⟨rfl, rfl, rfl, rfl⟩, fun _ => rfl⟩
    · cases force with
      | false => exact ⟨st, 1, by simp, hr, ⟨rfl, rfl, rfl, rfl⟩, by simp⟩
      | true =>
        obtain ⟨st', hrun, hr', hsame⟩ := skipSequence_spec hr bit
          ((st.cpus (bit.device, bit.cpu)).lastSequence + 1)
        exact ⟨st', 0, by simpa using hrun, hr', hsame, fun _ => rfl⟩

def masked (opts : BlkparseOptions) (l : List Trace) : List BlkIoTrace :=
  (l.map Trace.bit).filter (fun b => b.actMasked opts)

theorem Regular.showEntry (hr : Regular st) (opts : BlkparseOptions) (bit : BlkIoTrace) :
    Regular (st.showEntry opts bit) := by
  refine ⟨?_, ?_, hr.offline⟩
  · intro k
    by_cases hk : k = (bit.device, bit.cpu)
    · subst hk
      unfold PipeMode.showEntry
      simp only [update_self]
      split <;> exact hr.skips _
    · unfold PipeMode.showEntry
      simp only [update_of_ne hk]
      exact hr.skips k
  · intro k
    by_cases hk : k = (bit.device, bit.cpu)
    · subst hk
      unfold PipeMode.showEntry
      simp only [update_self]
      split <;> exact hr.smallest _
    · unfold PipeMode.showEntry
      simp only [update_of_ne hk]
      exact hr.smallest k

theorem showEntriesRb_spec (hr : Regular st) (l : List Trace) :
    ∃ st', st.showEntriesRb find opts force l = some st' ∧ Regular st' ∧
      st'.genesisTime = st.genesisTime ∧ st'.readSequence = st.readSequence ∧
      st'.traceList = st.traceList ∧
      st'.dumps ++ masked opts st'.rbSort = st.dumps ++ masked opts l ∧
      (force → st'.rbSort = []) ∧ st.dumps <+: st'.dumps := by
  induction l generalizing st with
  | nil =>
    exact ⟨_, rfl, ⟨hr.skips, hr.smallest, hr.offline⟩, rfl, rfl, rfl, rfl, fun _ => rfl,
      List.prefix_refl _⟩
  | cons t l ih =>
    rw [showEntriesRb]
    by_cases hnew : st.readSequence - t.readSequence < 1 ∧ ¬force
    · rw [if_pos hnew]
      exact ⟨_, rfl, ⟨hr.skips, hr.smallest, hr.offline⟩, rfl, rfl, rfl, rfl,
        fun hf => absurd hf hnew.2, List.prefix_refl _⟩
    · rw [if_neg hnew]
      have hstep : ∃ st₁ ret, (if t.bit.action = blkTnMessage then some (st, 0)
          else st.checkSequence find (t :: l) t.bit force) = some (st₁, ret) ∧ Regular st₁ ∧
            SameTraces st st₁ ∧ (force → ret = 0) := by
        split
        · exact ⟨st, 0, rfl, hr, ⟨rfl, rfl, rfl, rfl⟩, fun _ => rfl⟩
        · exact checkSequence_spec hr _ _
      obtain ⟨st₁, ret, hrun, hr₁, hsame, hret⟩ := hstep
      simp only [hrun]
      have hstop : ∃ st', some { st₁ with rbSort := t :: l } = some st' ∧ Regular st' ∧
          st'.genesisTime = st.genesisTime ∧ st'.readSequence = st.readSequence ∧
          st'.traceList = st.traceList ∧
          st'.dumps ++ masked opts st'.rbSort = st.dumps ++ masked opts (t :: l) ∧
          st.dumps <+: st'.dumps := by
        refine ⟨_, rfl, ⟨hr₁.skips, hr₁.smallest, hr₁.offline⟩, hsame.genesisTime,
          hsame.readSequence, hsame.traceList, ?_, ?_⟩
        · rw [← hsame.dumps]
        · rw [← hsame.dumps]
      by_cases hz : ret ≠ 0
      · rw [if_pos hz]
        obtain ⟨st', h₁, h₂, h₃, h₄, h₅, h₆, h₇⟩ := hstop
        exact ⟨st', h₁, h₂, h₃, h₄, h₅, h₆, fun hf => absurd (hret hf) hz, h₇⟩
      · rw [if_neg hz]
        by_cases hlate : ¬force ∧ t.bit.time > lastAllowedTime
        · rw [if_pos hlate]
          obtain ⟨st', h₁, h₂, h₃, h₄, h₅, h₆, h₇⟩ := hstop
          exact ⟨st', h₁, h₂, h₃, h₄, h₅, h₆, fun hf => absurd hf hlate.1, h₇⟩
        · rw [if_neg hlate]
          obtain ⟨st', h₁, h₂, h₃, h₄, h₅, h₆, h₇, h₈⟩ := ih (hr₁.showEntry opts t.bit)
          refine ⟨st', h₁, h₂, h₃.trans hsame.genesisTime, h₄.trans hsame.readSequence,
            h₅.trans hsame.traceList, ?_, h₇, List.IsPrefix.trans ?_ h₈⟩
          · rw [h₆, ← hsame.dumps]
            by_cases hm : t.bit.actMasked opts = true
            · simp [masked, showEntry, hm]
            · simp [masked, showEntry, hm]
          · rw [← hsame.dumps, showEntry]
            dsimp only
            split
            · exact List.prefix_append _ _
            · exact List.prefix_refl _

end PipeMode

end SBlktrace
