import SBlktrace.JournalRuns
import Mathlib

namespace SBlktrace

open Function

/-- The sequence number of the transaction that waits for its commit, after a write to the block
`w.1` and with `pending` waiting before. -/
def pendingAfter (jn : Journal) (pending : Option UInt32) (w : UInt32 × Buf) : Option UInt32 :=
  match jn.lookup w.1 with
  | none => pending
  | some _ =>
    if isJournalFsBlock w.2 then pending
    else
      match parseJournalStandardHeader w.2 jn.extdesc.edBlockSize.toNat with
      | none => pending
      | some header =>
        if header.jshBlockType = journalDescriptorBlock then
          if pending = none then some header.jshSequence else pending
        else if header.jshBlockType = journalCommitBlock then
          if pending = some header.jshSequence then none else pending
        else pending

def pendingOf (jn : Journal) (history : List (UInt32 × Buf)) : Option UInt32 :=
  history.foldl (pendingAfter jn) none

variable {σ : Type} {jn : Journal} {fs : FileSystem σ} {st : JournalState σ}

namespace JournalState

def pending (st : JournalState σ) : Option UInt32 :=
  st.sjTransaction.map SjournalTransaction.sjtSeq

theorem Pooled.freeTrans_ne_zero (hp : st.Pooled) (ht : st.sjTransaction = none) :
    st.freeTrans ≠ 0 := by
  have h := hp.trans
  rw [ht, journalFreeTransaction] at h
  simp only [Option.isSome_none, Bool.false_eq_true, if_false] at h
  omega

theorem Pooled.setData (hp : st.Pooled) (q : ℕ) (buf : Buf) : (st.setData q buf).Pooled :=
  ⟨hp.queues, hp.items, hp.trans⟩

theorem initJournal_pooled (ptd : σ) (sjbData : ℕ → Buf) : (initJournal ptd sjbData).Pooled :=
  ⟨fun _ => rfl, rfl, rfl⟩

theorem write_descriptor_pooled (hp : st.Pooled) (q : ℕ) (sequence : UInt32) :
    (st.beginTransaction q sequence).1.Pooled ∧
      (st.beginTransaction q sequence).1.pending =
        if st.pending = none then some sequence else st.pending := by
  unfold beginTransaction pending
  cases ht : st.sjTransaction with
  | some t => exact ⟨hp, by simp [ht]⟩
  | none =>
    have hfree := hp.freeTrans_ne_zero ht
    have htrans := hp.trans
    rw [ht] at htrans
    simp only [Option.isSome_none, Bool.false_eq_true, if_false] at htrans
    rw [if_neg hfree]
    refine ⟨⟨hp.queues, hp.items, ?_⟩, by simp⟩
    simp only [Option.isSome_some, if_true]
    omega

theorem write_spec (hs : jn.jsBlockSize ≤ 4096) (hp : st.Pooled) (w : UInt32 × Buf) :
    (st.journalRwIntrospection jn fs true w.1 w.2).1.Pooled ∧
      (st.journalRwIntrospection jn fs true w.1 w.2).1.pending =
        pendingAfter jn st.pending w := by
  unfold journalRwIntrospection pendingAfter
  cases hl : jn.lookup w.1 with
  | none => exact ⟨hp, rfl⟩
  | some q =>
    simp only [not_true_eq_false, if_false]
    by_cases hdata : isJournalFsBlock w.2 = true
    · rw [if_pos hdata, if_pos hdata]
      exact ⟨hp.setData _ _, rfl⟩
    · rw [if_neg hdata, if_neg hdata]
      cases hh : parseJournalStandardHeader w.2 jn.extdesc.edBlockSize.toNat with
      | none => exact ⟨hp, rfl⟩
      | some header =>
        dsimp only
        by_cases hdesc : header.jshBlockType = journalDescriptorBlock
        · rw [if_pos hdesc, if_pos hdesc]
          obtain ⟨hp', hpend⟩ := write_descriptor_pooled hp q header.jshSequence
          rw [← hpend]
          split
          · next st' heq =>
            rw [heq] at hp' ⊢
            exact ⟨hp'.setData _ _, rfl⟩
          · next st' ret heq =>
            rw [heq] at hp' ⊢
            exact ⟨hp', rfl⟩
        · rw [if_neg hdesc, if_neg hdesc]
          by_cases hcommit : header.jshBlockType = journalCommitBlock
          · rw [if_pos hcommit, if_pos hcommit]
            cases ht : st.sjTransaction with
            | none => exact ⟨hp, by simp [pending, ht]⟩
            | some t =>
              dsimp only
              by_cases hseq : t.sjtSeq = header.jshSequence
              · obtain ⟨st', hrun, hp', hnone, -⟩ := @commit_spec σ jn fs st hp hs t ht
                rw [if_neg (not_not.mpr hseq), hrun]
                refine ⟨hp', ?_⟩
                simp [pending, ht, hnone, hseq]
              · rw [if_pos hseq]
                refine ⟨hp, ?_⟩
                simp [pending, ht, hseq]
          · rw [if_neg hcommit, if_neg hcommit]
            split
            · exact ⟨hp.setData _ _, rfl⟩
            · exact ⟨hp, rfl⟩

theorem run_spec (hs : jn.jsBlockSize ≤ 4096) (hp : st.Pooled) (history : List (UInt32 × Buf)) :
    (st.run jn fs history).Pooled ∧
      (st.run jn fs history).pending = history.foldl (pendingAfter jn) st.pending := by
  induction history generalizing st with
  | nil => exact ⟨hp, rfl⟩
  | cons w history ih =>
    obtain ⟨hp', hpend⟩ := @write_spec σ jn fs st hs hp w
    rw [List.foldl_cons, ← hpend]
    exact ih hp'

end JournalState

end SBlktrace
