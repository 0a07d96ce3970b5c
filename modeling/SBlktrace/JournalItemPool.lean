import SBlktrace.JournalItems
import SBlktrace.JournalCompleteness
import Mathlib

namespace SBlktrace

open Function FifoQueue

/-- The journal with its items as they are linked, and every pool of items there was. The lists of
items that `st` has are not used. -/
structure JournalMachine (σ : Type) where
  st : JournalState σ
  pool : ItemPool
  pools : List ItemPool

variable {σ : Type}

def initMachine (ptd : σ) (sjbData : ℕ → Buf) (calloc : JournalItem) : JournalMachine σ where
  st := initJournal ptd sjbData
  pool := initItems calloc
  pools := [initItems calloc]

namespace JournalMachine

def setPool (m : JournalMachine σ) (pool : ItemPool) : JournalMachine σ :=
  { m with pool := pool, pools := m.pools ++ [pool] }

def setState (m : JournalMachine σ) (st : JournalState σ) : JournalMachine σ := { m with st := st }

def queueTag (m : JournalMachine σ) (jn : Journal) (fs : FileSystem σ)
    (entry : JournalDescriptorEntry) (journalBlock : ℕ) : Option (JournalMachine σ) :=
  match initBlockdesc2 entry.jdeFsBlock jn.extdesc with
  | none => some m
  | some blockdesc =>
    let i := getJournalType (fs.blist m.st.ptd) blockdesc.bdId blockdesc.bdType
    if i ≥ 0 ∧ i < 5 then
      (m.pool.append i.toNat ⟨entry.jdeEntryFlags, blockdesc, journalBlock⟩).map m.setPool
    else some m

def queueTags (m : JournalMachine σ) (jn : Journal) (fs : FileSystem σ) (buf : Buf)
    (offset size journalBlock : ℕ) : JournalMachine σ × ℤ :=
  match _h : parseJournalDescriptorEntry buf offset size with
  | none => (m, 0)
  | some (entry, size') =>
    match m.queueTag jn fs entry (jn.next journalBlock) with
    | none => (m, -1)
    | some m' =>
      if entry.jdeEntryFlags &&& journalDescLastEntry ≠ 0 then (m', 0)
      else queueTags m' jn fs buf
        (if entry.jdeEntryFlags &&& journalDescSameUuid ≠ 0 then offset + 8 else offset + 24) size'
        (jn.next journalBlock)
termination_by size
decreasing_by
  have := parseJournalDescriptorEntry_lt _h
  omega

def introspectClass (m : JournalMachine σ) (fs : FileSystem σ) (i : ℕ) : JournalMachine σ :=
  (m.setState ((m.pool.queued i).foldl (fun st item => st.introspectItem fs item) m.st)).setPool
    (m.pool.splice i)

def commit (m : JournalMachine σ) (jn : Journal) (fs : FileSystem σ)
    (transaction : SjournalTransaction) : JournalMachine σ × ℤ :=
  match m.queueTags jn fs (m.st.sjbData transaction.sjtDesc) 12 (jn.jsBlockSize - 12)
      transaction.sjtDesc with
  | (m, -1) => (m, -1)
  | (m, _) =>
    let m := (List.range 5).foldl (fun m i => m.introspectClass fs i) m
    (m.setState m.st.endTransaction.1, m.st.endTransaction.2)

def journalRwIntrospection (m : JournalMachine σ) (jn : Journal) (fs : FileSystem σ) (op : Bool)
    (bdId : UInt32) (buf : Buf) : JournalMachine σ × ℤ :=
  match jn.lookup bdId with
  | none => (m, 0)
  | some journalBlock =>
    if ¬op then (m, 0)
    else if isJournalFsBlock buf then
      (m.setState (m.st.setData journalBlock
        (memcpy (m.st.sjbData journalBlock) buf jn.jsBlockSize)), 0)
    else
      match parseJournalStandardHeader buf jn.extdesc.edBlockSize.toNat with
      | none => (m, -1)
      | some header =>
        if header.jshBlockType = journalDescriptorBlock then
          match m.st.beginTransaction journalBlock header.jshSequence with
          | (st, 0) =>
            (m.setState (st.setData journalBlock
              (memcpy (st.sjbData journalBlock) buf jn.jsBlockSize)), 0)
          | (st, _) => (m.setState st, -1)
        else if header.jshBlockType = journalCommitBlock then
          match m.st.sjTransaction with
          | none => (m, 0)
          | some transaction =>
            if transaction.sjtSeq ≠ header.jshSequence then (m, -1)
            else m.commit jn fs transaction
        else if header.jshBlockType = journalRevokeBlock then
          (m.setState (m.st.setData journalBlock
            (memcpy (m.st.sjbData journalBlock) buf jn.jsBlockSize)), 0)
        else (m, 0)

def run (m : JournalMachine σ) (jn : Journal) (fs : FileSystem σ) (writes : List (UInt32 × Buf)) :
    JournalMachine σ :=
  writes.foldl (fun m w => (m.journalRwIntrospection jn fs true w.1 w.2).1) m

def abs (m : JournalMachine σ) : JournalState σ := m.st.setPools m.pool.queued m.pool.free.length

structure Inv (m : JournalMachine σ) : Prop where
  pool : ∃ lists, m.pool.Conserved lists
  pools : ∀ p ∈ m.pools, ∃ lists, p.Conserved lists

variable {m m' : JournalMachine σ} {jn : Journal} {fs : FileSystem σ}

theorem Inv.setState (h : m.Inv) (st : JournalState σ) : (m.setState st).Inv := ⟨h.pool, h.pools⟩

theorem Inv.setPool (h : m.Inv) {pool : ItemPool} (hpool : ∃ lists, pool.Conserved lists) :
    (m.setPool pool).Inv where
  pool := hpool
  pools p hp := by
    obtain hp | hp := List.mem_append.mp hp
    · exact h.pools p hp
    · rwa [List.mem_singleton.mp hp]

theorem inv_initMachine (ptd : σ) (sjbData : ℕ → Buf) (calloc : JournalItem) :
    (initMachine ptd sjbData calloc).Inv where
  pool := ⟨_, ItemPool.conserved_initItems calloc⟩
  pools p hp := by
    rw [List.mem_singleton.mp hp]
    exact ⟨_, ItemPool.conserved_initItems calloc⟩

theorem abs_append {lists : Option ℕ → List ℕ} (h : m.pool.Conserved lists) (i : ℕ)
    (item : JournalItem) :
    (m.pool.free = [] → m.pool.append i item = none) ∧
    (m.pool.free ≠ [] → ∃ p', m.pool.append i item = some p' ∧ (∃ lists, p'.Conserved lists) ∧
      p'.queued = update m.pool.queued i (m.pool.queued i ++ [item]) ∧
      p'.free.length = m.pool.free.length - 1) := by
  rw [h.free]
  refine ⟨fun hfree => h.append_none hfree, fun hfree => ?_⟩
  obtain ⟨n, rest, hfree⟩ := List.exists_cons_of_ne_nil hfree
  obtain ⟨p', hp', hconserved, hitem⟩ := @ItemPool.Conserved.append_some _ _ i item h n rest hfree
  refine ⟨p', hp', ⟨_, hconserved⟩, ?_, ?_⟩
  · have hn : ∀ k, k ≠ none → n ∉ lists k := by
      intro k hk hmem
      have hnone : n ∈ lists none := by
        rw [hfree]
        exact List.mem_cons_self
      exact h.chains.disjoint k none hk hmem hnone
    have hmap : ∀ l : List ℕ, n ∉ l → l.map p'.item = l.map m.pool.item := by
      intro l hl
      apply List.map_congr_left
      intro k hk
      rw [hitem, update_of_ne]
      rintro rfl
      exact hl hk
    funext j
    rw [hconserved.queued, ItemPool.appended]
    by_cases hji : j = i
    · subst hji
      rw [update_self, update_self, List.map_append, hmap _ (hn _ (by simp)), h.queued,
        List.map_singleton, hitem, update_self]
    · have hsome : some j ≠ some i := fun h => hji (Option.some.inj h)
      rw [update_of_ne hsome, update_of_ne (by simp), update_of_ne hji, hmap _ (hn _ (by simp)),
        h.queued]
  · rw [hconserved.free, ItemPool.appended, update_of_ne (by simp), update_self, hfree]
    rfl

theorem abs_splice {lists : Option ℕ → List ℕ} (h : m.pool.Conserved lists) (i : ℕ) :
    (∃ lists, (m.pool.splice i).Conserved lists) ∧
      (m.pool.splice i).queued = update m.pool.queued i [] ∧
      (m.pool.splice i).free.length = m.pool.free.length + (m.pool.queued i).length := by
  obtain ⟨hconserved, hitem⟩ := @ItemPool.Conserved.splice _ _ i h
  refine ⟨⟨_, hconserved⟩, ?_, ?_⟩
  · funext j
    rw [hconserved.queued, ItemPool.spliced, hitem]
    by_cases hji : j = i
    · subst hji
      rw [update_self, update_self, List.map_nil]
    · have hsome : some j ≠ some i := fun h => hji (Option.some.inj h)
      rw [update_of_ne hsome, update_of_ne (by simp), update_of_ne hji, h.queued]
  · rw [hconserved.free, ItemPool.spliced, update_of_ne (by simp), update_self, List.length_append,
      h.free, h.queued, List.length_map]
    omega

theorem queueTag_abs (h : m.Inv) (entry : JournalDescriptorEntry) (q : ℕ) :
    (m.queueTag jn fs entry q).map abs = m.abs.queueTag jn fs entry q ∧
      ∀ m', m.queueTag jn fs entry q = some m' → m'.Inv := by
  obtain ⟨lists, hlists⟩ := h.pool
  unfold queueTag JournalState.queueTag
  cases initBlockdesc2 entry.jdeFsBlock jn.extdesc with
  | none =>
    refine ⟨rfl, fun m' hm' => ?_⟩
    cases hm'
    exact h
  | some blockdesc =>
    have hptd : m.abs.ptd = m.st.ptd := rfl
    rw [hptd]
    dsimp only
    generalize getJournalType (fs.blist m.st.ptd) blockdesc.bdId blockdesc.bdType = i
    by_cases hclass : i ≥ 0 ∧ i < 5
    · rw [if_pos hclass, if_pos hclass]
      obtain ⟨hnone, hsome⟩ := abs_append hlists i.toNat ⟨entry.jdeEntryFlags, blockdesc, q⟩
      by_cases hfree : m.pool.free = []
      · have hzero : m.abs.freeJournalItems = 0 := List.length_eq_zero_iff.mpr hfree
        rw [hnone hfree, if_pos hzero]
        exact ⟨rfl, fun m' hm' => by cases hm'⟩
      · have hpos : m.abs.freeJournalItems ≠ 0 := fun h => hfree (List.length_eq_zero_iff.mp h)
        obtain ⟨p', hp', hconserved, hqueued, hlength⟩ := hsome hfree
        rw [hp', if_neg hpos]
        refine ⟨?_, fun m' hm' => ?_⟩
        · change some (m.st.setPools p'.queued p'.free.length) = _
          rw [hqueued, hlength]
          rfl
        · cases hm'
          exact h.setPool hconserved
    · rw [if_neg hclass, if_neg hclass]
      refine ⟨rfl, fun m' hm' => ?_⟩
      cases hm'
      exact h

theorem queueTags_none {buf : Buf} {offset size q : ℕ}
    (h : parseJournalDescriptorEntry buf offset size = none) :
    m.queueTags jn fs buf offset size q = (m, 0) := by
  rw [queueTags]
  split
  · rfl
  · next heq => exact absurd (h.symm.trans heq) (by simp)

theorem queueTags_some {buf : Buf} {offset size size' q : ℕ} {entry : JournalDescriptorEntry}
    (h : parseJournalDescriptorEntry buf offset size = some (entry, size')) :
    m.queueTags jn fs buf offset size q = match m.queueTag jn fs entry (jn.next q) with
      | none => (m, -1)
      | some m' =>
        if entry.jdeEntryFlags &&& journalDescLastEntry ≠ 0 then (m', 0)
        else m'.queueTags jn fs buf (nextOffset entry offset) size' (jn.next q) := by
  rw [queueTags]
  split
  · next heq => exact absurd (h.symm.trans heq) (by simp)
  · next heq =>
    obtain ⟨rfl, rfl⟩ := Prod.mk.inj (Option.some.inj (h.symm.trans heq))
    rfl

theorem queueTags_abs (h : m.Inv) (buf : Buf) (offset size q : ℕ) :
    (m.abs.queueTags jn fs buf offset size q) =
      ((m.queueTags jn fs buf offset size q).1.abs, (m.queueTags jn fs buf offset size q).2) ∧
      (m.queueTags jn fs buf offset size q).1.Inv := by
  induction size using Nat.strong_induction_on generalizing m offset q with
  | _ size ih =>
    cases hp : parseJournalDescriptorEntry buf offset size with
    | none =>
      rw [queueTags_none hp, JournalState.queueTags_none hp]
      exact ⟨rfl, h⟩
    | some p =>
      obtain ⟨entry, size'⟩ := p
      have hlt := parseJournalDescriptorEntry_lt hp
      rw [queueTags_some hp, JournalState.queueTags_some hp]
      obtain ⟨htag, hinv⟩ := @queueTag_abs _ m jn fs h entry (jn.next q)
      cases hm : m.queueTag jn fs entry (jn.next q) with
      | none =>
        rw [hm] at htag
        rw [← htag]
        exact ⟨rfl, h⟩
      | some m' =>
        rw [hm] at htag
        rw [← htag]
        dsimp only [Option.map_some]
        by_cases hlast : entry.jdeEntryFlags &&& journalDescLastEntry ≠ 0
        · rw [if_pos hlast, if_pos hlast]
          exact ⟨rfl, hinv m' hm⟩
        · rw [if_neg hlast, if_neg hlast]
          exact ih size' (by omega) (hinv m' hm) _ _

theorem introspectClass_abs (h : m.Inv) (i : ℕ) :
    (m.introspectClass fs i).abs = m.abs.introspectClass fs i ∧ (m.introspectClass fs i).Inv := by
  obtain ⟨lists, hlists⟩ := h.pool
  obtain ⟨hconserved, hqueued, hlength⟩ := abs_splice hlists i
  refine ⟨?_, (h.setState _).setPool hconserved⟩
  rw [JournalState.introspectClass_eq, abs, abs, JournalState.introspectAll_setPools]
  change JournalState.setPools _ (m.pool.splice i).queued (m.pool.splice i).free.length = _
  rw [hqueued, hlength]
  rfl

theorem introspectClasses_abs (h : m.Inv) (cs : List ℕ) :
    (cs.foldl (fun m i => m.introspectClass fs i) m).abs =
      cs.foldl (fun st i => st.introspectClass fs i) m.abs ∧
      (cs.foldl (fun m i => m.introspectClass fs i) m).Inv := by
  induction cs generalizing m with
  | nil => exact ⟨rfl, h⟩
  | cons c cs ih =>
    obtain ⟨habs, hinv⟩ := @introspectClass_abs _ m fs h c
    rw [List.foldl_cons, List.foldl_cons, ← habs]
    exact ih hinv

theorem commit_abs (h : m.Inv) (t : SjournalTransaction) :
    m.abs.commit jn fs t = ((m.commit jn fs t).1.abs, (m.commit jn fs t).2) ∧
      (m.commit jn fs t).1.Inv := by
  obtain ⟨htags, hinv⟩ := @queueTags_abs _ m jn fs h (m.st.sjbData t.sjtDesc) 12 (jn.jsBlockSize - 12)
    t.sjtDesc
  have hdata : m.abs.sjbData = m.st.sjbData := rfl
  unfold commit JournalState.commit
  rw [hdata, htags]
  generalize m.queueTags jn fs (m.st.sjbData t.sjtDesc) 12 (jn.jsBlockSize - 12) t.sjtDesc = r at hinv
  obtain ⟨m', ret⟩ := r
  obtain ⟨habs, hinv'⟩ := @introspectClasses_abs _ m' fs hinv (List.range 5)
  dsimp only
  split
  · next heq =>
    cases heq
    exact ⟨rfl, hinv⟩
  · next heq =>
    cases heq
    split
    · next hret _ _ heq =>
      cases heq
      exact absurd rfl hret
    · next heq =>
      cases heq
      rw [← habs]
      exact ⟨rfl, hinv'.setState _⟩

theorem beginTransaction_setPools (st : JournalState σ) (queues : ℕ → List JournalItem) (n q : ℕ)
    (sequence : UInt32) : (st.setPools queues n).beginTransaction q sequence =
      ((st.beginTransaction q sequence).1.setPools queues n, (st.beginTransaction q sequence).2) := by
  obtain ⟨ptd, sjTransaction, freeTrans, sjbData, freeJournalItems, queues', introspected⟩ := st
  cases sjTransaction with
  | some t => rfl
  | none =>
    unfold JournalState.beginTransaction JournalState.setPools
    dsimp only
    split
    · rfl
    · rfl

theorem write_abs (h : m.Inv) (op : Bool) (bdId : UInt32) (buf : Buf) :
    m.abs.journalRwIntrospection jn fs op bdId buf =
      ((m.journalRwIntrospection jn fs op bdId buf).1.abs,
        (m.journalRwIntrospection jn fs op bdId buf).2) ∧
      (m.journalRwIntrospection jn fs op bdId buf).1.Inv := by
  unfold journalRwIntrospection JournalState.journalRwIntrospection
  cases jn.lookup bdId with
  | none => exact ⟨rfl, h⟩
  | some q =>
    dsimp only
    split
    · exact ⟨rfl, h⟩
    split
    · exact ⟨rfl, h.setState _⟩
    cases parseJournalStandardHeader buf jn.extdesc.edBlockSize.toNat with
    | none => exact ⟨rfl, h⟩
    | some header =>
      dsimp only
      split
      · have hbegin := beginTransaction_setPools m.st m.pool.queued m.pool.free.length q
          header.jshSequence
        rw [abs, hbegin]
        generalize m.st.beginTransaction q header.jshSequence = r
        obtain ⟨st', ret⟩ := r
        dsimp only
        split
        · next heq =>
          cases heq
          exact ⟨rfl, h.setState _⟩
        · next hret heq =>
          cases heq
          split
          · next heq =>
            cases heq
            exact absurd rfl hret
          · next heq =>
            cases heq
            exact ⟨rfl, h.setState _⟩
      split
      · have htransaction : m.abs.sjTransaction = m.st.sjTransaction := rfl
        rw [htransaction]
        cases m.st.sjTransaction with
        | none => exact ⟨rfl, h⟩
        | some t =>
          dsimp only
          split
          · exact ⟨rfl, h⟩
          · exact commit_abs h t
      split
      · exact ⟨rfl, h.setState _⟩
      · exact ⟨rfl, h⟩

theorem run_abs (h : m.Inv) (history : List (UInt32 × Buf)) :
    (m.run jn fs history).abs = m.abs.run jn fs history ∧ (m.run jn fs history).Inv := by
  induction history generalizing m with
  | nil => exact ⟨rfl, h⟩
  | cons w history ih =>
    obtain ⟨habs, hinv⟩ := @write_abs _ m jn fs h true w.1 w.2
    obtain ⟨hrun, hinv'⟩ := ih hinv
    refine ⟨?_, hinv'⟩
    have hstep : (m.abs.journalRwIntrospection jn fs true w.1 w.2).1 =
        (m.journalRwIntrospection jn fs true w.1 w.2).1.abs := by rw [habs]
    change ((m.journalRwIntrospection jn fs true w.1 w.2).1.run jn fs history).abs =
      (m.abs.journalRwIntrospection jn fs true w.1 w.2).1.run jn fs history
    rw [hstep]
    exact hrun

theorem abs_initMachine (ptd : σ) (sjbData : ℕ → Buf) (calloc : JournalItem) :
    (initMachine ptd sjbData calloc).abs = initJournal ptd sjbData := by
  have hconserved := ItemPool.conserved_initItems calloc
  have hqueued : (initItems calloc).queued = fun _ => [] := by
    funext i
    exact hconserved.queued i
  have hfree : (initItems calloc).free.length = freeJournalItem := by
    rw [hconserved.free, ItemPool.initLists, List.length_range]
  rw [abs]
  change JournalState.setPools _ (initItems calloc).queued (initItems calloc).free.length = _
  rw [hqueued, hfree]
  rfl

end JournalMachine

def ItemPool.AllFree (p : ItemPool) : Prop :=
  (∃ l, Chain p.next p.freeJournalItems l ∧ l.Perm (List.range freeJournalItem)) ∧
    ∀ i, p.head i = none ∧ p.tail i = none

namespace JournalMachine

theorem allFree {lists : Option ℕ → List ℕ} {m : JournalMachine σ} (h : m.pool.Conserved lists)
    (hp : m.abs.Pooled) : m.pool.AllFree := by
  have hempty : ∀ i, lists (some i) = [] := by
    intro i
    have hqueued : m.pool.queued i = [] := hp.queues i
    rw [h.queued] at hqueued
    exact List.map_eq_nil_iff.mp hqueued
  refine ⟨⟨lists none, h.chains.chain none, ?_⟩, fun i => ⟨?_, ?_⟩⟩
  · rw [List.perm_ext_iff_of_nodup (h.chains.nodup none) List.nodup_range]
    intro n
    rw [List.mem_range, h.all]
    refine ⟨fun hn => ⟨none, hn⟩, ?_⟩
    rintro ⟨k, hk⟩
    cases k with
    | none => exact hk
    | some i =>
      rw [hempty] at hk
      cases hk
  · have hchain := h.chains.chain (some i)
    rw [hempty] at hchain
    exact hchain
  · rw [h.tail, hempty]
    rfl

/-- With blocks of at most 4096 bytes, after every history of writes all items are free, the items
suffice for the tags of the open transaction's descriptor, and no pool there was had an item on two
lists. -/
theorem journalItems_conserved (jn : Journal) (fs : FileSystem σ) (ptd : σ) (sjbData : ℕ → Buf)
    (calloc : JournalItem) (history : List (UInt32 × Buf)) (hs : jn.jsBlockSize ≤ 4096) :
    ((initMachine ptd sjbData calloc).run jn fs history).pool.AllFree ∧
      (∀ t, ((initMachine ptd sjbData calloc).run jn fs history).st.sjTransaction = some t →
        (((initMachine ptd sjbData calloc).run jn fs history).queueTags jn fs
          (((initMachine ptd sjbData calloc).run jn fs history).st.sjbData t.sjtDesc) 12
          (jn.jsBlockSize - 12) t.sjtDesc).2 ≠ -1) ∧
      ∀ p ∈ ((initMachine ptd sjbData calloc).run jn fs history).pools, ∃ lists, p.Conserved lists := by
  obtain ⟨habs, hinv⟩ := @run_abs _ _ jn fs (inv_initMachine ptd sjbData calloc) history
  rw [abs_initMachine] at habs
  have hp := (@JournalState.run_spec _ jn fs _ hs (JournalState.initJournal_pooled ptd sjbData) history).1
  rw [← habs] at hp
  generalize (initMachine ptd sjbData calloc).run jn fs history = m at hinv hp
  obtain ⟨lists, hlists⟩ := hinv.pool
  refine ⟨allFree hlists hp, fun t _ => ?_, hinv.pools⟩
  have hlength : (tagsFrom (m.st.sjbData t.sjtDesc) 12 (jn.jsBlockSize - 12)).length ≤
      m.abs.freeJournalItems := by
    have h := @tagsFrom_length (m.st.sjbData t.sjtDesc) 12 (jn.jsBlockSize - 12)
    rw [hp.items, freeJournalItem]
    omega
  have htags := (@queueTags_abs _ m jn fs hinv (m.st.sjbData t.sjtDesc) 12 (jn.jsBlockSize - 12)
    t.sjtDesc).1
  rw [JournalState.queueTags_eq t.sjtDesc hlength] at htags
  rw [← (Prod.mk.inj htags).2]
  decide

theorem journalItems_conserved_small : smallJournal.jsBlockSize ≤ 4096 ∧
    ((initMachine () (fun _ => bytes []) ⟨0, ⟨0, 0, .bootrecord, 0, 0⟩, 0⟩).run smallJournal emptyFiles
      [(101, oneTag 0xf4), (102, bytes [1]), (103, commitOf 7)]).pool.AllFree :=
  ⟨by decide, (journalItems_conserved smallJournal emptyFiles () (fun _ => bytes [])
    ⟨0, ⟨0, 0, .bootrecord, 0, 0⟩, 0⟩ [(101, oneTag 0xf4), (102, bytes [1]), (103, commitOf 7)]
    (by decide)).1⟩

end JournalMachine

end SBlktrace
