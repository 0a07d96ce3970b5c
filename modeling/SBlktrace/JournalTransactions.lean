import SBlktrace.JournalRuns
import Mathlib

namespace SBlktrace

open Function

structure DescriptorGroup where
  desc : Buf
  datas : List Buf

structure LoggedTransaction where
  sequence : UInt32
  groups : List DescriptorGroup
  commit : Buf

namespace DescriptorGroup

def blocks (g : DescriptorGroup) : List Buf := g.desc :: g.datas

end DescriptorGroup

namespace LoggedTransaction

def blocks (tx : LoggedTransaction) : List Buf :=
  tx.groups.flatMap DescriptorGroup.blocks ++ [tx.commit]

end LoggedTransaction

namespace Journal

def isHeader (jn : Journal) (blockType sequence : UInt32) (buf : Buf) : Prop :=
  parseJournalStandardHeader buf jn.extdesc.edBlockSize.toNat =
    some ⟨journalSignature, blockType, sequence⟩

def skip (jn : Journal) (q : ℕ) : ℕ → ℕ
  | 0 => q
  | n + 1 => jn.skip (jn.next q) n

def placeGroups (jn : Journal) (q : ℕ) : List DescriptorGroup → List (ℕ × DescriptorGroup)
  | [] => []
  | g :: gs => (jn.next q, g) :: jn.placeGroups (jn.skip q g.blocks.length) gs

def placedTags (jn : Journal) (p : ℕ × DescriptorGroup) : List (JournalDescriptorEntry × ℕ) :=
  jn.placeAfter p.1 (jn.tagsOf p.2.desc)

def written (jn : Journal) (sjbData : ℕ → Buf) (w : List (Buf × ℕ)) : ℕ → Buf :=
  w.foldl (fun mem p => update mem p.2 (memcpy (mem p.2) p.1 jn.jsBlockSize)) sjbData

/-- A transaction as the journal stores it after the block `q`: it fits the journal, its blocks
have the headers of their kind, and there is a data block for each tag. -/
structure WellFormed (jn : Journal) (q : ℕ) (tx : LoggedTransaction) : Prop where
  start : q < jn.jsBlocks
  fits : tx.blocks.length < jn.jsBlocks
  descriptors : ∀ g ∈ tx.groups, jn.isHeader journalDescriptorBlock tx.sequence g.desc
  datas : ∀ g ∈ tx.groups, g.datas.length = (jn.tagsOf g.desc).length ∧
    ∀ b ∈ g.datas, isJournalFsBlock b = true
  commit : jn.isHeader journalCommitBlock tx.sequence tx.commit

def writes (jn : Journal) (w : List (Buf × ℕ)) : List (UInt32 × Buf) :=
  w.map (fun p => (jn.sjbBlockid p.2, p.1))

end Journal

namespace JournalState

variable {σ : Type}

/-- Fed with the transaction stored after `q`, the state machine introspects every tag of a class,
class by class and in the order of the tags, with the block at the tag's own position, and no
transaction is open afterwards. -/
def Replays (st : JournalState σ) (jn : Journal) (fs : FileSystem σ) (q : ℕ)
    (tx : LoggedTransaction) : Prop :=
  (st.run jn fs (jn.writes (jn.placeAfter q tx.blocks))).introspected =
      st.introspected ++ callsOf (jn.written st.sjbData (jn.placeAfter q tx.blocks))
        (itemsOf jn (fs.blist st.ptd) ((jn.placeGroups q tx.groups).flatMap jn.placedTags)) ∧
    (st.run jn fs (jn.writes (jn.placeAfter q tx.blocks))).sjTransaction = none

end JournalState

variable {σ : Type} {jn : Journal} {fs : FileSystem σ} {st : JournalState σ} {q : ℕ}
  {tx : LoggedTransaction}

namespace Journal

theorem placeAfter_append {α : Type} (l l' : List α) :
    jn.placeAfter q (l ++ l') = jn.placeAfter q l ++ jn.placeAfter (jn.skip q l.length) l' := by
  induction l generalizing q with
  | nil => rfl
  | cons a l ih => rw [List.cons_append, placeAfter, placeAfter, ih]; rfl

def groupDatas (jn : Journal) (p : ℕ × DescriptorGroup) : List (Buf × ℕ) :=
  jn.placeAfter p.1 p.2.datas

def groupWrites (jn : Journal) (p : ℕ × DescriptorGroup) : List (Buf × ℕ) :=
  (p.2.desc, p.1) :: jn.groupDatas p

theorem placeAfter_groups (gs : List DescriptorGroup) :
    jn.placeAfter q (gs.flatMap DescriptorGroup.blocks) =
      (jn.placeGroups q gs).flatMap jn.groupWrites := by
  induction gs generalizing q with
  | nil => rfl
  | cons g gs ih =>
    rw [List.flatMap_cons, placeAfter_append, ih, placeGroups, List.flatMap_cons]
    rfl

def commitAt (jn : Journal) (q : ℕ) (tx : LoggedTransaction) : ℕ :=
  jn.next (jn.skip q (tx.groups.flatMap DescriptorGroup.blocks).length)

theorem placeAfter_blocks : jn.placeAfter q tx.blocks =
    (jn.placeGroups q tx.groups).flatMap jn.groupWrites ++ [(tx.commit, jn.commitAt q tx)] := by
  rw [LoggedTransaction.blocks, placeAfter_append, placeAfter_groups]
  rfl

theorem written_other (jn : Journal) {w : List (Buf × ℕ)} (mem : ℕ → Buf) {q : ℕ}
    (hq : q ∉ w.map Prod.snd) : jn.written mem w q = mem q := by
  induction w generalizing mem with
  | nil => rfl
  | cons p w ih =>
    rw [List.map_cons, List.mem_cons, not_or] at hq
    have h := ih (update mem p.2 (memcpy (mem p.2) p.1 jn.jsBlockSize)) hq.2
    rw [update_of_ne hq.1] at h
    exact h

theorem written_mem (jn : Journal) {w : List (Buf × ℕ)} (mem : ℕ → Buf)
    (hd : (w.map Prod.snd).Nodup) {b : Buf} (hb : (b, q) ∈ w) : jn.written mem w q = memcpy (mem q) b jn.jsBlockSize := by
  induction w generalizing mem with
  | nil => exact absurd hb (by simp)
  | cons p w ih =>
    rw [List.map_cons, List.nodup_cons] at hd
    rcases List.mem_cons.mp hb with rfl | hb
    · have h := jn.written_other (update mem q (memcpy (mem q) b jn.jsBlockSize)) hd.1
      rw [update_self] at h
      exact h
    · have hne : q ≠ p.2 := fun h => hd.1 (h ▸ List.mem_map_of_mem hb)
      have h := ih (update mem p.2 (memcpy (mem p.2) p.1 jn.jsBlockSize)) hd.2 hb
      rw [update_of_ne hne] at h
      exact h

def found (jn : Journal) (w : List (Buf × ℕ)) : List (Buf × ℕ) := w.filter (fun p => jn.heard p.2)

theorem isHeader.not_fsBlock {blockType sequence : UInt32} {buf : Buf}
    (h : jn.isHeader blockType sequence buf) : isJournalFsBlock buf = false := by
  unfold isHeader parseJournalStandardHeader at h
  split at h
  · exact absurd h (by simp)
  · dsimp only at h
    split at h
    · exact absurd h (by simp)
    · next hsig =>
      rw [not_not] at hsig
      simp [isJournalFsBlock, hsig]

end Journal

namespace JournalState

theorem run_append (st : JournalState σ) (w w' : List (UInt32 × Buf)) :
    st.run jn fs (w ++ w') = (st.run jn fs w).run jn fs w' := List.foldl_append ..

def withData (st : JournalState σ) (sjbData : ℕ → Buf) : JournalState σ :=
  { st with sjbData := sjbData }

theorem write_missed {b : Buf} (hv : jn.Valid) (hq : q < jn.jsBlocks) (hh : jn.heard q = false) :
    (st.journalRwIntrospection jn fs true (jn.sjbBlockid q) b).1 = st := by
  have hl := jn.lookup_eq hv hq
  rw [hh, if_neg (by simp)] at hl
  rw [journalRwIntrospection, hl]

theorem run_datas (st : JournalState σ) (hv : jn.Valid) {w : List (Buf × ℕ)}
    (hw : ∀ p ∈ w, p.2 < jn.jsBlocks ∧ isJournalFsBlock p.1 = true) :
    st.run jn fs (jn.writes w) = st.withData (jn.written st.sjbData (jn.found w)) := by
  induction w generalizing st with
  | nil => rfl
  | cons p w ih =>
    obtain ⟨hp, hdata⟩ := hw p (by simp)
    have hrest := fun st : JournalState σ => ih st (fun p' hp' => hw p' (by simp [hp']))
    change run (st.journalRwIntrospection jn fs true (jn.sjbBlockid p.2) p.1).1 jn fs
      (jn.writes w) = _
    cases hh : jn.heard p.2 with
    | false =>
      have hfound : jn.found (p :: w) = jn.found w := List.filter_cons_of_neg (by simp [hh])
      rw [write_missed hv hp hh, hrest, hfound]
    | true =>
      have hl := jn.lookup_eq hv hp
      rw [hh, if_pos rfl] at hl
      rw [journalRwIntrospection, hl]
      simp only [not_true_eq_false, if_false, hdata, if_true]
      have hfound : jn.found (p :: w) = p :: jn.found w := List.filter_cons_of_pos (by simpa)
      rw [hrest, hfound]
      rfl

theorem write_descriptor_open {b : Buf} {sequence : UInt32} (hv : jn.Valid) (hq : q < jn.jsBlocks)
    (hb : jn.isHeader journalDescriptorBlock sequence b) {t : SjournalTransaction}
    (ht : st.sjTransaction = some t) :
    (st.journalRwIntrospection jn fs true (jn.sjbBlockid q) b).1 = st := by
  cases hh : jn.heard q with
  | false => exact write_missed hv hq hh
  | true =>
    have hl := jn.lookup_eq hv hq
    rw [hh, if_pos rfl] at hl
    have hparse : parseJournalStandardHeader b jn.extdesc.edBlockSize.toNat =
      some ⟨journalSignature, journalDescriptorBlock, sequence⟩ := hb
    rw [journalRwIntrospection, hl]
    simp [hb.not_fsBlock, hparse, beginTransaction, ht]

theorem write_descriptor_begin (st : JournalState σ) {b : Buf} {sequence : UInt32} (hv : jn.Valid)
    (hq : q < jn.jsBlocks) (hb : jn.isHeader journalDescriptorBlock sequence b)
    (hh : jn.heard q = true) (ht : st.sjTransaction = none) (hfree : st.freeTrans ≠ 0) :
    (st.journalRwIntrospection jn fs true (jn.sjbBlockid q) b).1 =
      { st with
        sjTransaction := some ⟨sequence, q⟩
        freeTrans := st.freeTrans - 1
        sjbData := jn.written st.sjbData [(b, q)] } := by
  have hl := jn.lookup_eq hv hq
  rw [hh, if_pos rfl] at hl
  have hparse : parseJournalStandardHeader b jn.extdesc.edBlockSize.toNat =
    some ⟨journalSignature, journalDescriptorBlock, sequence⟩ := hb
  rw [journalRwIntrospection, hl]
  simp [hb.not_fsBlock, hparse, beginTransaction, ht, hfree, setData, Journal.written]

structure GroupPlaced (jn : Journal) (sequence : UInt32) (p : ℕ × DescriptorGroup) : Prop where
  lt : p.1 < jn.jsBlocks
  header : jn.isHeader journalDescriptorBlock sequence p.2.desc
  datas : ∀ w ∈ jn.groupDatas p, w.2 < jn.jsBlocks ∧ isJournalFsBlock w.1 = true

theorem run_group_ignored {sequence : UInt32} (st : JournalState σ) (hv : jn.Valid)
    {p : ℕ × DescriptorGroup} (hp : GroupPlaced jn sequence p)
    (hopen : st.sjTransaction ≠ none ∨ jn.heard p.1 = false) :
    st.run jn fs (jn.writes (jn.groupWrites p)) =
      st.withData (jn.written st.sjbData (jn.found (jn.groupDatas p))) := by
  have hdesc : (st.journalRwIntrospection jn fs true (jn.sjbBlockid p.1) p.2.desc).1 = st := by
    rcases hopen with hopen | hmissed
    · obtain ⟨t, ht⟩ := Option.ne_none_iff_exists'.mp hopen
      exact write_descriptor_open hv hp.lt hp.header ht
    · exact write_missed hv hp.lt hmissed
  rw [← run_datas st hv hp.datas]
  change run (st.journalRwIntrospection jn fs true (jn.sjbBlockid p.1) p.2.desc).1 jn fs _ = _
  rw [hdesc]
  rfl

theorem run_groups_ignored {sequence : UInt32} (st : JournalState σ) (hv : jn.Valid)
    {gs : List (ℕ × DescriptorGroup)} (hp : ∀ p ∈ gs, GroupPlaced jn sequence p)
    (hopen : st.sjTransaction ≠ none ∨ ∀ p ∈ gs, jn.heard p.1 = false) :
    st.run jn fs (jn.writes (gs.flatMap jn.groupWrites)) = st.withData (jn.written st.sjbData
      (jn.found (gs.flatMap jn.groupDatas))) := by
  induction gs generalizing st with
  | nil => rfl
  | cons p gs ih =>
    have hfirst : st.sjTransaction ≠ none ∨ jn.heard p.1 = false :=
      hopen.imp_right (fun h => h p (by simp))
    have hrest := ih (st.withData (jn.written st.sjbData
      (jn.found (jn.groupDatas p)))) (fun p' hp' => hp p' (by simp [hp']))
      (hopen.imp_right (fun h p' hp' => h p' (by simp [hp'])))
    rw [List.flatMap_cons, List.flatMap_cons, Journal.writes, List.map_append, ← Journal.writes,
      ← Journal.writes, run_append, run_group_ignored st hv (hp p (by simp)) hfirst, hrest]
    simp only [withData, Journal.found, Journal.written, List.filter_append,
      List.foldl_append]

def storedAt (jn : Journal) (before : List (ℕ × DescriptorGroup)) (p : ℕ × DescriptorGroup)
    (after : List (ℕ × DescriptorGroup)) : List (Buf × ℕ) :=
  jn.found (before.flatMap jn.groupDatas) ++
    ((p.2.desc, p.1) :: jn.found (jn.groupDatas p) ++ jn.found (after.flatMap jn.groupDatas))

theorem run_groups_taken {sequence : UInt32} (hv : jn.Valid)
    {before after : List (ℕ × DescriptorGroup)} {p : ℕ × DescriptorGroup}
    (hp : ∀ p' ∈ before ++ p :: after, GroupPlaced jn sequence p')
    (hmissed : ∀ p' ∈ before, jn.heard p'.1 = false) (hh : jn.heard p.1 = true)
    (ht : st.sjTransaction = none) (hfree : st.freeTrans ≠ 0) :
    st.run jn fs (jn.writes ((before ++ p :: after).flatMap jn.groupWrites)) =
      { st with
        sjTransaction := some ⟨sequence, p.1⟩
        freeTrans := st.freeTrans - 1
        sjbData := jn.written st.sjbData (storedAt jn before p after) } := by
  have hpp := hp p (by simp)
  have hsplit : jn.writes ((before ++ p :: after).flatMap jn.groupWrites) =
      jn.writes (before.flatMap jn.groupWrites) ++ ((jn.sjbBlockid p.1, p.2.desc) ::
        (jn.writes (jn.groupDatas p) ++ jn.writes (after.flatMap jn.groupWrites))) := by
    simp [Journal.writes, Journal.groupWrites]
  rw [hsplit, run_append, run_groups_ignored st hv (fun p' hp' => hp p' (by simp [hp']))
    (Or.inr hmissed)]
  change run (journalRwIntrospection _ jn fs true (jn.sjbBlockid p.1) p.2.desc).1 jn fs
    (jn.writes (jn.groupDatas p) ++ jn.writes (after.flatMap jn.groupWrites)) = _
  have hbegin : ∀ mem, ((st.withData mem).journalRwIntrospection jn fs true (jn.sjbBlockid p.1)
      p.2.desc).1 = { st with
        sjTransaction := some ⟨sequence, p.1⟩
        freeTrans := st.freeTrans - 1
        sjbData := jn.written mem [(p.2.desc, p.1)] } :=
    fun mem => write_descriptor_begin (st.withData mem) hv hpp.lt hpp.header hh ht hfree
  rw [hbegin, run_append,
    run_datas _ hv hpp.datas,
    run_groups_ignored _ hv (fun p' hp' => hp p' (by simp [hp'])) (Or.inl (by simp [withData]))]
  simp only [withData, storedAt, Journal.written, List.foldl_append, List.foldl_cons,
    List.foldl_nil]

end JournalState

namespace Journal

theorem mem_placeGroups {gs : List DescriptorGroup} {p : ℕ × DescriptorGroup}
    (hp : p ∈ jn.placeGroups q gs) : p.2 ∈ gs := by
  induction gs generalizing q with
  | nil => exact absurd hp (by simp [placeGroups])
  | cons g gs ih =>
    rcases List.mem_cons.mp hp with rfl | hp
    · simp
    · exact List.mem_cons_of_mem _ (ih hp)

theorem mem_of_placeAfter {α : Type} {l : List α} {p : α × ℕ} (hp : p ∈ jn.placeAfter q l) :
    p.1 ∈ l := by
  induction l generalizing q with
  | nil => exact absurd hp (by simp [placeAfter])
  | cons a l ih =>
    rcases List.mem_cons.mp hp with rfl | hp
    · simp
    · exact List.mem_cons_of_mem _ (ih hp)

theorem WellFormed.nodup (hw : jn.WellFormed q tx) :
    ((jn.placeAfter q tx.blocks).map Prod.snd).Nodup := placeAfter_nodup _ hw.start hw.fits

theorem WellFormed.two_le (hw : jn.WellFormed q tx) : 2 ≤ jn.jsBlocks := by
  have h := hw.fits
  rw [LoggedTransaction.blocks, List.length_append, List.length_singleton] at h
  omega

theorem WellFormed.groupPlaced (hw : jn.WellFormed q tx) {p : ℕ × DescriptorGroup}
    (hp : p ∈ jn.placeGroups q tx.groups) : JournalState.GroupPlaced jn tx.sequence p := by
  have hg := mem_placeGroups hp
  have hin : ∀ w ∈ jn.groupWrites p, w ∈ jn.placeAfter q tx.blocks := by
    intro w hwp
    rw [placeAfter_blocks]
    exact List.mem_append_left _ (List.mem_flatMap.mpr ⟨p, hp, hwp⟩)
  have hlt : ∀ w ∈ jn.groupWrites p, w.2 < jn.jsBlocks :=
    fun w hwp => placeAfter_lt hw.start hw.two_le (hin w hwp)
  refine ⟨hlt (p.2.desc, p.1) (by simp [groupWrites]), hw.descriptors p.2 hg, ?_⟩
  intro w hwp
  exact ⟨hlt w (by simp [groupWrites, hwp]), (hw.datas p.2 hg).2 w.1 (mem_of_placeAfter hwp)⟩

end Journal

end SBlktrace
