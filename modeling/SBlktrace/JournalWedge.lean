import SBlktrace.JournalCompleteness
import Mathlib

namespace SBlktrace

open Function JournalState

variable {σ : Type} {jn : Journal} {fs : FileSystem σ} {st : JournalState σ} {q : ℕ}

def singleDescriptor (sequence : UInt32) (g : DescriptorGroup) (commit : Buf) :
    LoggedTransaction := ⟨sequence, [g], commit⟩

variable {sequence : UInt32} {g : DescriptorGroup} {commit : Buf}

theorem single_introspectable {blist : UInt32 → Sblock} {sjbData : ℕ → Buf}
    (hw : jn.WellFormed q (singleDescriptor sequence g commit))
    (hfound : ∀ p ∈ jn.placeAfter q (singleDescriptor sequence g commit).blocks,
      jn.heard p.2 = true) :
    Introspectable jn blist sjbData q (singleDescriptor sequence g commit) := by
  have hgs : jn.placeGroups q (singleDescriptor sequence g commit).groups = [(jn.next q, g)] := rfl
  have hblocks : jn.placeAfter q (singleDescriptor sequence g commit).blocks =
      jn.groupWrites (jn.next q, g) ++
        [(commit, jn.commitAt q (singleDescriptor sequence g commit))] := by
    rw [Journal.placeAfter_blocks, hgs, List.flatMap_singleton]
    rfl
  have hdesc : jn.heard (jn.next q) = true :=
    hfound (g.desc, jn.next q) (by simp [hblocks, Journal.groupWrites])
  have hcommit : jn.heard (jn.commitAt q (singleDescriptor sequence g commit)) = true :=
    hfound (commit, jn.commitAt q (singleDescriptor sequence g commit)) (by rw [hblocks]; simp)
  have hfind : [(jn.next q, g)].find? (fun p => jn.heard p.1) = some (jn.next q, g) := by
    simp [hdesc]
  unfold Introspectable
  rw [hgs, hfind]
  dsimp only
  refine ⟨hcommit, ?_, ?_⟩
  · intro p hp hne
    obtain rfl := List.mem_singleton.mp hp
    exact absurd rfl hne
  · intro t ht _
    left
    have hlen := (hw.datas g (by simp [singleDescriptor])).1
    have hpos : t.2 ∈ (jn.groupDatas (jn.next q, g)).map Prod.snd := by
      rw [Journal.groupDatas, Journal.placeAfter_snd hlen]
      exact List.mem_map_of_mem ht
    obtain ⟨w, hwg, hwt⟩ := List.mem_map.mp hpos
    rw [← hwt]
    exact hfound w (by simp [hblocks, Journal.groupWrites, hwg])

theorem pendingAfter_fsBlock {b : Buf} (hb : isJournalFsBlock b = true) (pending : Option UInt32)
    (blockid : UInt32) : pendingAfter jn pending (blockid, b) = pending := by
  unfold pendingAfter
  split
  · rfl
  · rw [if_pos hb]

theorem pendingAfter_descriptor {b : Buf} (hb : jn.isHeader journalDescriptorBlock sequence b)
    {s : UInt32} (blockid : UInt32) : pendingAfter jn (some s) (blockid, b) = some s := by
  have hparse : parseJournalStandardHeader b jn.extdesc.edBlockSize.toNat =
    some ⟨journalSignature, journalDescriptorBlock, sequence⟩ := hb
  unfold pendingAfter
  split
  · rfl
  · simp [hb.not_fsBlock, hparse]

theorem pendingAfter_commit {b : Buf} (hb : jn.isHeader journalCommitBlock sequence b)
    {s : UInt32} (hs : s ≠ sequence) (blockid : UInt32) :
    pendingAfter jn (some s) (blockid, b) = some s := by
  have hparse : parseJournalStandardHeader b jn.extdesc.edBlockSize.toNat =
    some ⟨journalSignature, journalCommitBlock, sequence⟩ := hb
  unfold pendingAfter
  split
  · rfl
  · simp [hb.not_fsBlock, hparse, hs]

theorem pending_stays {tx : LoggedTransaction} (hw : jn.WellFormed q tx) {s : UInt32}
    (hs : s ≠ tx.sequence) :
    (jn.writes (jn.placeAfter q tx.blocks)).foldl (pendingAfter jn) (some s) = some s := by
  have hstep : ∀ w ∈ jn.writes (jn.placeAfter q tx.blocks),
      pendingAfter jn (some s) w = some s := by
    intro w hwm
    obtain ⟨p, hp, rfl⟩ := List.mem_map.mp hwm
    rcases List.mem_append.mp (Journal.mem_of_placeAfter hp) with hp | hp
    · obtain ⟨g, hg, hpg⟩ := List.mem_flatMap.mp hp
      rcases List.mem_cons.mp hpg with hpg | hpg
      · rw [hpg]
        exact pendingAfter_descriptor (hw.descriptors g hg) _
      · exact pendingAfter_fsBlock ((hw.datas g hg).2 _ hpg) _ _
    · rw [List.mem_singleton.mp hp]
      exact pendingAfter_commit hw.commit hs _
  generalize jn.writes (jn.placeAfter q tx.blocks) = writes at hstep
  induction writes with
  | nil => rfl
  | cons w writes ih =>
    rw [List.foldl_cons, hstep w (by simp)]
    exact ih (fun w' hw' => hstep w' (by simp [hw']))

theorem sjTransaction_of_pending (h : st.pending = none) : st.sjTransaction = none := by
  unfold JournalState.pending at h
  exact Option.map_eq_none_iff.mp h

/-- After a history with no transaction waiting for its commit, every transaction with a single
descriptor whose blocks are found is introspected completely. While one waits, every transaction of
another number leaves it open. -/
theorem wedged_iff_pending (jn : Journal) (fs : FileSystem σ) (ptd : σ) (sjbData : ℕ → Buf)
    (history : List (UInt32 × Buf)) (q : ℕ) (sequence : UInt32) (g : DescriptorGroup)
    (commit : Buf) (hv : jn.Valid)
    (hw : jn.WellFormed q (singleDescriptor sequence g commit))
    (hfound : ∀ p ∈ jn.placeAfter q (singleDescriptor sequence g commit).blocks,
      jn.heard p.2 = true) :
    (pendingOf jn history = none →
        ((initJournal ptd sjbData).run jn fs history).Replays jn fs q
          (singleDescriptor sequence g commit)) ∧
      ∀ s, pendingOf jn history = some s → s ≠ sequence →
        ¬((initJournal ptd sjbData).run jn fs history).Replays jn fs q
          (singleDescriptor sequence g commit) := by
  obtain ⟨hp, hpend⟩ := @run_spec σ jn fs _ hv.fits (initJournal_pooled ptd sjbData) history
  rw [show (initJournal ptd sjbData).pending = none from rfl, ← pendingOf] at hpend
  constructor
  · intro hnone
    rw [replays_iff hv hp (sjTransaction_of_pending (hpend.trans hnone)) hw]
    exact single_introspectable hw hfound
  · rintro s hsome hne ⟨-, hidle⟩
    obtain ⟨-, hafter⟩ := @run_spec σ jn fs _ hv.fits hp
      (jn.writes (jn.placeAfter q (singleDescriptor sequence g commit).blocks))
    rw [hpend, hsome, pending_stays hw hne] at hafter
    rw [JournalState.pending, hidle] at hafter
    exact absurd hafter (by simp)

def lostCommit : List (UInt32 × Buf) := [(101, oneTag 0xf4)]

def nextTransaction : DescriptorGroup :=
  ⟨bytes [0xc0, 0x3b, 0x39, 0x98, 0, 0, 0, 1, 0, 0, 0, 8, 0, 0, 1, 0xf4, 0, 0, 0, 0x0a], [bytes [1]]⟩

theorem nextTransaction_wellFormed :
    smallJournal.WellFormed 3 (singleDescriptor 8 nextTransaction (commitOf 8)) where
  start := by decide
  fits := by decide
  descriptors := by
    unfold Journal.isHeader
    decide
  datas := by
    intro g hg
    obtain rfl : g = nextTransaction := List.mem_singleton.mp hg
    have hparse : parseJournalDescriptorEntry nextTransaction.desc 12 1012 =
        some (⟨500, 0x0a⟩, 1004) := by decide
    have hlast : (0x0a : UInt32) &&& journalDescLastEntry ≠ 0 := by decide
    have htags : smallJournal.tagsOf nextTransaction.desc = [⟨500, 0x0a⟩] :=
      (tagsFrom_some hparse).trans (by rw [if_pos hlast])
    rw [htags]
    exact ⟨rfl, by decide⟩
  commit := by
    unfold Journal.isHeader
    decide

theorem smallJournal_found {α : Type} {l : List α} (hq : q < smallJournal.jsBlocks) :
    ∀ p ∈ smallJournal.placeAfter q l, smallJournal.heard p.2 = true :=
  fun _ hp => Journal.heard_of_ascending smallJournal_ascending
    (Journal.placeAfter_lt hq (by decide) hp)

theorem wedged_iff_pending_next :
    smallJournal.Valid ∧
      smallJournal.WellFormed 3 (singleDescriptor 8 nextTransaction (commitOf 8)) ∧
      (∀ p ∈ smallJournal.placeAfter 3 (singleDescriptor 8 nextTransaction (commitOf 8)).blocks,
        smallJournal.heard p.2 = true) ∧
      (pendingOf smallJournal [] = none →
        ((initJournal () fun _ => bytes []).run smallJournal emptyFiles []).Replays smallJournal
          emptyFiles 3 (singleDescriptor 8 nextTransaction (commitOf 8))) :=
  ⟨smallJournal_valid, nextTransaction_wellFormed, smallJournal_found (by decide),
    (wedged_iff_pending smallJournal emptyFiles () (fun _ => bytes []) [] 3 8 nextTransaction
      (commitOf 8) smallJournal_valid nextTransaction_wellFormed
      (smallJournal_found (by decide))).1⟩

/-- After a lost commit, the next transaction is not introspected and stays out for good. -/
theorem lost_commit_wedges :
    ¬∀ (jn : Journal) (fs : FileSystem Unit) (sjbData : ℕ → Buf) (history : List (UInt32 × Buf))
      (q : ℕ) (sequence : UInt32) (g : DescriptorGroup) (commit : Buf), jn.Valid →
      jn.WellFormed q (singleDescriptor sequence g commit) →
      (∀ p ∈ jn.placeAfter q (singleDescriptor sequence g commit).blocks, jn.heard p.2 = true) →
      ((initJournal () sjbData).run jn fs history).Replays jn fs q
        (singleDescriptor sequence g commit) := by
  intro hall
  have hreplays := hall smallJournal emptyFiles (fun _ => bytes []) lostCommit 3 8 nextTransaction
    (commitOf 8) smallJournal_valid nextTransaction_wellFormed (smallJournal_found (by decide))
  obtain ⟨hp, hpend⟩ := @run_spec Unit smallJournal emptyFiles _ smallJournal_valid.fits
    (initJournal_pooled () fun _ => bytes []) lostCommit
  obtain ⟨-, hafter⟩ := @run_spec Unit smallJournal emptyFiles _ smallJournal_valid.fits hp
    (smallJournal.writes (smallJournal.placeAfter 3
      (singleDescriptor 8 nextTransaction (commitOf 8)).blocks))
  have hlookup : smallJournal.lookup 101 = some 1 := by
    have h := smallJournal.lookup_eq smallJournal_valid (show 1 < smallJournal.jsBlocks by decide)
    rw [if_pos (Journal.heard_of_ascending smallJournal_ascending (by decide))] at h
    exact h
  have hopen : lostCommit.foldl (pendingAfter smallJournal) none = some 7 := by
    have hparse : parseJournalStandardHeader (oneTag 0xf4) smallJournal.extdesc.edBlockSize.toNat =
      some ⟨journalSignature, journalDescriptorBlock, 7⟩ := by decide
    have hdata : isJournalFsBlock (oneTag 0xf4) = false := by decide
    simp [lostCommit, pendingAfter, hlookup, hparse, hdata]
  rw [show (initJournal () fun _ => bytes []).pending = none from rfl, hopen] at hpend
  rw [hpend, pending_stays nextTransaction_wellFormed (by decide), JournalState.pending,
    hreplays.2] at hafter
  exact absurd hafter (by simp)

end SBlktrace
