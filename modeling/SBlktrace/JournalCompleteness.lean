import SBlktrace.JournalTransactions
import SBlktrace.JournalHistory
import Mathlib

namespace SBlktrace

open Function JournalState

variable {σ : Type} {jn : Journal} {fs : FileSystem σ} {st : JournalState σ} {q : ℕ}
  {tx : LoggedTransaction}

section Calls

variable {blist : UInt32 → Sblock} {l before after : List (JournalDescriptorEntry × ℕ)}

theorem itemsOf_skip (hb : ∀ t ∈ before, accepted jn blist t = false)
    (ha : ∀ t ∈ after, accepted jn blist t = false) :
    itemsOf jn blist (before ++ l ++ after) = itemsOf jn blist l := by
  have hnone : ∀ m : List (JournalDescriptorEntry × ℕ), (∀ t ∈ m, accepted jn blist t = false) →
      ∀ c, m.filterMap (classItem jn blist c) = [] := by
    intro m hm c
    rw [List.filterMap_eq_nil_iff]
    intro t ht
    have h := hm t ht
    cases hc : classified jn blist t.1 with
    | none => simp [classItem, hc]
    | some p => simp [accepted, hc] at h
  unfold itemsOf
  congr 1
  funext c
  rw [List.filterMap_append, List.filterMap_append, hnone before hb, hnone after ha,
    List.nil_append, List.append_nil]

theorem mem_itemsOf {item : JournalItem} : item ∈ itemsOf jn blist l ↔
    ∃ t ∈ l, ∃ c, classItem jn blist c t = some item := by
  unfold itemsOf
  rw [List.mem_flatMap]
  constructor
  · rintro ⟨c, -, hc⟩
    obtain ⟨t, ht, h⟩ := List.mem_filterMap.mp hc
    exact ⟨t, ht, c, h⟩
  · rintro ⟨t, ht, c, h⟩
    obtain ⟨blockdesc, hclass, -⟩ := classItem_eq_some h
    exact ⟨c, List.mem_range.mpr (classified_lt hclass), List.mem_filterMap.mpr ⟨t, ht, h⟩⟩

theorem callsOf_eq_iff {mem mem' : ℕ → Buf} :
    callsOf mem (itemsOf jn blist l) = callsOf mem' (itemsOf jn blist (before ++ l ++ after)) ↔
      (∀ t ∈ before ++ after, accepted jn blist t = false) ∧
        ∀ t ∈ l, accepted jn blist t = true →
          restored t.1.jdeEntryFlags (mem t.2) = restored t.1.jdeEntryFlags (mem' t.2) := by
  constructor
  · intro h
    have hcount : l.countP (accepted jn blist) =
        (before ++ l ++ after).countP (accepted jn blist) := by
      have hlen := congrArg List.length h
      rwa [callsOf, callsOf, List.length_map, List.length_map, itemsOf_length,
        itemsOf_length] at hlen
    rw [List.countP_append, List.countP_append] at hcount
    have hb : ∀ t ∈ before, accepted jn blist t = false := by
      simpa using List.countP_eq_zero.mp (show before.countP (accepted jn blist) = 0 by omega)
    have ha : ∀ t ∈ after, accepted jn blist t = false := by
      simpa using List.countP_eq_zero.mp (show after.countP (accepted jn blist) = 0 by omega)
    refine ⟨fun t ht => (List.mem_append.mp ht).elim (hb t) (ha t), ?_⟩
    intro t ht hacc
    rw [itemsOf_skip hb ha, callsOf, callsOf, List.map_inj_left] at h
    obtain ⟨p, hclass⟩ := Option.isSome_iff_exists.mp hacc
    have hitem : classItem jn blist p.1 t = some ⟨t.1.jdeEntryFlags, p.2, t.2⟩ := by
      simp [classItem, hclass]
    have hcall := h _ (mem_itemsOf.mpr ⟨t, ht, p.1, hitem⟩)
    exact (Prod.mk.inj (Prod.mk.inj hcall).2).2
  · rintro ⟨hout, hsame⟩
    rw [itemsOf_skip (fun t ht => hout t (List.mem_append_left _ ht))
      (fun t ht => hout t (List.mem_append_right _ ht))]
    apply List.map_congr_left
    intro item hitem
    obtain ⟨t, ht, c, h⟩ := mem_itemsOf.mp hitem
    obtain ⟨blockdesc, hclass, rfl⟩ := classItem_eq_some h
    rw [hsame t ht (by simp [accepted, hclass])]

end Calls

namespace Journal

theorem placeAfter_snd {α β : Type} {l : List α} {l' : List β} (h : l.length = l'.length) :
    (jn.placeAfter q l).map Prod.snd = (jn.placeAfter q l').map Prod.snd := by
  induction l generalizing q l' with
  | nil =>
    obtain rfl := List.eq_nil_of_length_eq_zero h.symm
    rfl
  | cons a l ih =>
    cases l' with
    | nil => simp at h
    | cons b l' =>
      rw [placeAfter, placeAfter, List.map_cons, List.map_cons, ih (by simpa using h)]

theorem groupDatas_sublist (gs : List (ℕ × DescriptorGroup)) :
    (gs.flatMap jn.groupDatas).Sublist (gs.flatMap jn.groupWrites) := by
  induction gs with
  | nil => exact List.Sublist.refl _
  | cons p gs ih =>
    rw [List.flatMap_cons, List.flatMap_cons]
    exact (List.sublist_cons_self _ _).append ih

variable {before after : List (ℕ × DescriptorGroup)} {p : ℕ × DescriptorGroup}

theorem storedAt_sublist :
    (storedAt jn before p after).Sublist ((before ++ p :: after).flatMap jn.groupWrites) := by
  rw [List.flatMap_append, List.flatMap_cons]
  apply (List.filter_sublist.trans (groupDatas_sublist before)).append
  apply List.Sublist.append
  · exact List.filter_sublist.cons_cons _
  · exact List.filter_sublist.trans (groupDatas_sublist after)

theorem written_storedAt {mem : ℕ → Buf} {rest : List (Buf × ℕ)}
    (hd : (((before ++ p :: after).flatMap jn.groupWrites ++ rest).map Prod.snd).Nodup)
    (hh : jn.heard p.1 = true) {w : Buf × ℕ} (hw : w ∈ jn.groupDatas p) :
    jn.written mem (storedAt jn before p after) w.2 =
      if jn.heard w.2 then jn.written mem ((before ++ p :: after).flatMap jn.groupWrites ++ rest) w.2
      else mem w.2 := by
  have hsub : (storedAt jn before p after).Sublist
      ((before ++ p :: after).flatMap jn.groupWrites ++ rest) :=
    storedAt_sublist.trans (List.sublist_append_left _ _)
  by_cases hwh : jn.heard w.2 = true
  · have hin : w ∈ storedAt jn before p after := by
      apply List.mem_append_right
      apply List.mem_append_left
      exact List.mem_cons_of_mem _ (List.mem_filter.mpr ⟨hw, hwh⟩)
    rw [if_pos hwh, jn.written_mem mem (hd.sublist (hsub.map _)) hin,
      jn.written_mem mem hd (hsub.mem hin)]
  · rw [if_neg hwh]
    apply jn.written_other mem
    intro hin
    obtain ⟨w', hw', heq⟩ := List.mem_map.mp hin
    have hfound : jn.heard w'.2 = true := by
      rcases List.mem_append.mp hw' with h | h
      · exact (List.mem_filter.mp h).2
      · rcases List.mem_append.mp h with h | h
        · rcases List.mem_cons.mp h with rfl | h
          · exact hh
          · exact (List.mem_filter.mp h).2
        · exact (List.mem_filter.mp h).2
    exact hwh (heq ▸ hfound)

theorem tagsOf_memcpy (hv : jn.Valid) (dst desc : Buf) :
    jn.tagsOf (memcpy dst desc jn.jsBlockSize) = jn.tagsOf desc := by
  have hh := hv.header
  exact tagsFrom_congr (memcpy_agrees dst desc) (by omega)

end Journal

/-- The transaction after `q` is replayed completely: the first of its descriptors that the search
finds is the only one with tags to introspect, the commit is found, and so is the block of each of
these tags, unless what was there before looks the same. -/
def Introspectable (jn : Journal) (blist : UInt32 → Sblock) (sjbData : ℕ → Buf) (q : ℕ)
    (tx : LoggedTransaction) : Prop :=
  match (jn.placeGroups q tx.groups).find? (fun p => jn.heard p.1) with
  | none => ∀ p ∈ jn.placeGroups q tx.groups, ∀ t ∈ jn.placedTags p, accepted jn blist t = false
  | some g => jn.heard (jn.commitAt q tx) = true ∧
      (∀ p ∈ jn.placeGroups q tx.groups, p.1 ≠ g.1 →
        ∀ t ∈ jn.placedTags p, accepted jn blist t = false) ∧
      ∀ t ∈ jn.placedTags g, accepted jn blist t = true → jn.heard t.2 = true ∨
        restored t.1.jdeEntryFlags (sjbData t.2) = restored t.1.jdeEntryFlags
          (jn.written sjbData (jn.placeAfter q tx.blocks) t.2)

namespace Journal

theorem WellFormed.commitAt_lt (hw : jn.WellFormed q tx) : jn.commitAt q tx < jn.jsBlocks := by
  have hin : (tx.commit, jn.commitAt q tx) ∈ jn.placeAfter q tx.blocks := by
    rw [placeAfter_blocks]
    simp
  exact placeAfter_lt hw.start hw.two_le hin

theorem writes_blocks : jn.writes (jn.placeAfter q tx.blocks) =
    jn.writes ((jn.placeGroups q tx.groups).flatMap jn.groupWrites) ++
      [(jn.sjbBlockid (jn.commitAt q tx), tx.commit)] := by
  rw [placeAfter_blocks, writes, List.map_append]
  rfl

theorem WellFormed.descriptors_distinct (hw : jn.WellFormed q tx) :
    ((jn.placeGroups q tx.groups).map Prod.fst).Nodup := by
  have hd := hw.nodup
  rw [placeAfter_blocks, List.map_append] at hd
  have hsub : ∀ gs : List (ℕ × DescriptorGroup),
      (gs.map Prod.fst).Sublist ((gs.flatMap jn.groupWrites).map Prod.snd) := by
    intro gs
    induction gs with
    | nil => exact List.Sublist.refl _
    | cons p gs ih =>
      rw [List.flatMap_cons, groupWrites, List.cons_append, List.map_cons, List.map_cons,
        List.map_append]
      exact (ih.trans (List.sublist_append_right _ _)).cons_cons _
  exact hd.of_append_left.sublist (hsub _)

end Journal

namespace JournalState

theorem write_commit_idle (st : JournalState σ) (hv : jn.Valid) (hq : q < jn.jsBlocks) {b : Buf} {sequence : UInt32}
    (hb : jn.isHeader journalCommitBlock sequence b)
    (hidle : st.sjTransaction = none ∨ jn.heard q = false) :
    (st.journalRwIntrospection jn fs true (jn.sjbBlockid q) b).1 = st := by
  cases hh : jn.heard q with
  | false => exact write_missed hv hq hh
  | true =>
    have ht : st.sjTransaction = none := hidle.resolve_right (by simp [hh])
    have hl := jn.lookup_eq hv hq
    rw [hh, if_pos rfl] at hl
    have hparse : parseJournalStandardHeader b jn.extdesc.edBlockSize.toNat =
      some ⟨journalSignature, journalCommitBlock, sequence⟩ := hb
    rw [journalRwIntrospection, hl]
    simp [hb.not_fsBlock, hparse, ht, journalCommitBlock, journalDescriptorBlock]

theorem write_commit (st : JournalState σ) (hv : jn.Valid) (hq : q < jn.jsBlocks) {b : Buf}
    {t : SjournalTransaction} (hb : jn.isHeader journalCommitBlock t.sjtSeq b) (hh : jn.heard q = true)
    (ht : st.sjTransaction = some t) :
    (st.journalRwIntrospection jn fs true (jn.sjbBlockid q) b).1 = (st.commit jn fs t).1 := by
  have hl := jn.lookup_eq hv hq
  rw [hh, if_pos rfl] at hl
  have hparse : parseJournalStandardHeader b jn.extdesc.edBlockSize.toNat =
    some ⟨journalSignature, journalCommitBlock, t.sjtSeq⟩ := hb
  rw [journalRwIntrospection, hl]
  simp [hb.not_fsBlock, hparse, ht, journalCommitBlock, journalDescriptorBlock]

theorem run_transaction (st : JournalState σ) :
    st.run jn fs (jn.writes (jn.placeAfter q tx.blocks)) =
      ((st.run jn fs (jn.writes ((jn.placeGroups q tx.groups).flatMap
        jn.groupWrites))).journalRwIntrospection jn fs true (jn.sjbBlockid (jn.commitAt q tx))
          tx.commit).1 := by
  rw [Journal.writes_blocks, run_append]
  rfl

theorem itemsOf_nil_iff {blist : UInt32 → Sblock} {l : List (JournalDescriptorEntry × ℕ)} :
    itemsOf jn blist l = [] ↔ ∀ t ∈ l, accepted jn blist t = false := by
  rw [← List.length_eq_zero_iff, itemsOf_length, List.countP_eq_zero]
  simp

theorem run_taken (hv : jn.Valid) (hp : st.Pooled) (ht : st.sjTransaction = none)
    (hw : jn.WellFormed q tx) {before after : List (ℕ × DescriptorGroup)}
    {g : ℕ × DescriptorGroup} (hgs : jn.placeGroups q tx.groups = before ++ g :: after)
    (hmissed : ∀ p ∈ before, jn.heard p.1 = false) (hh : jn.heard g.1 = true) :
    if jn.heard (jn.commitAt q tx) then
      (st.run jn fs (jn.writes (jn.placeAfter q tx.blocks))).introspected =
          st.introspected ++ callsOf (jn.written st.sjbData (storedAt jn before g after))
            (itemsOf jn (fs.blist st.ptd) (jn.placedTags g)) ∧
        (st.run jn fs (jn.writes (jn.placeAfter q tx.blocks))).sjTransaction = none
    else (st.run jn fs (jn.writes (jn.placeAfter q tx.blocks))).sjTransaction ≠ none := by
  have hgroups : ∀ p ∈ before ++ g :: after, GroupPlaced jn tx.sequence p :=
    fun p hpp => hw.groupPlaced (hgs ▸ hpp)
  have hfree := hp.freeTrans_ne_zero ht
  rw [run_transaction, hgs, run_groups_taken hv hgroups hmissed hh ht hfree]
  have hd := hw.nodup
  rw [Journal.placeAfter_blocks, hgs] at hd
  split
  · next hc =>
    have hp' : Pooled { st with
        sjTransaction := some ⟨tx.sequence, g.1⟩
        freeTrans := st.freeTrans - 1
        sjbData := jn.written st.sjbData (storedAt jn before g after) } := by
      have htrans := hp.trans
      rw [ht] at htrans
      refine ⟨hp.queues, hp.items, ?_⟩
      simp only [Option.isSome_none, Option.isSome_some, Bool.false_eq_true, if_false,
        if_true] at htrans ⊢
      omega
    obtain ⟨st', hcommit, -, hnone, hcalls⟩ := @commit_spec σ jn fs _ hp' hv.fits _ rfl
    rw [write_commit _ hv hw.commitAt_lt hw.commit hc rfl, hcommit]
    refine ⟨?_, hnone⟩
    have hin : (g.2.desc, g.1) ∈ storedAt jn before g after := by simp [storedAt]
    have hdesc : jn.tagsOf (jn.written st.sjbData (storedAt jn before g after) g.1) =
        jn.tagsOf g.2.desc := by
      rw [jn.written_mem st.sjbData (hd.sublist ((Journal.storedAt_sublist.trans
        (List.sublist_append_left _ _)).map _)) hin, Journal.tagsOf_memcpy hv]
    rw [hdesc] at hcalls
    apply hcalls
    have hg : g ∈ jn.placeGroups q tx.groups := by simp [hgs]
    have hlen := (hw.datas g.2 (Journal.mem_placeGroups hg)).1
    have hsub : (jn.groupDatas g).Sublist ((before ++ g :: after).flatMap jn.groupWrites) := by
      rw [List.flatMap_append, List.flatMap_cons]
      apply List.Sublist.trans _ (List.sublist_append_right _ _)
      exact (List.sublist_cons_self _ _).trans (List.sublist_append_left _ _)
    rw [← Journal.placeAfter_snd hlen]
    exact hd.sublist ((hsub.trans (List.sublist_append_left _ _)).map _)
  · next hc =>
    rw [write_commit_idle _ hv hw.commitAt_lt hw.commit (Or.inr (by simpa using hc))]
    simp

theorem other_tags_iff (hw : jn.WellFormed q tx) {before after : List (ℕ × DescriptorGroup)}
    {g : ℕ × DescriptorGroup} (hgs : jn.placeGroups q tx.groups = before ++ g :: after)
    (blist : UInt32 → Sblock) :
    (∀ t ∈ before.flatMap jn.placedTags ++ after.flatMap jn.placedTags,
        accepted jn blist t = false) ↔
      ∀ p ∈ jn.placeGroups q tx.groups, p.1 ≠ g.1 →
        ∀ t ∈ jn.placedTags p, accepted jn blist t = false := by
  have hd := hw.descriptors_distinct
  rw [hgs, List.map_append, List.map_cons, List.nodup_append, List.nodup_cons] at hd
  constructor
  · intro hout p hp hne t htt
    rw [hgs] at hp
    apply hout
    rcases List.mem_append.mp hp with hp | hp
    · exact List.mem_append_left _ (List.mem_flatMap.mpr ⟨p, hp, htt⟩)
    · rcases List.mem_cons.mp hp with rfl | hp
      · exact absurd rfl hne
      · exact List.mem_append_right _ (List.mem_flatMap.mpr ⟨p, hp, htt⟩)
  · intro hout t htt
    rcases List.mem_append.mp htt with htt | htt
    · obtain ⟨p, hp, htp⟩ := List.mem_flatMap.mp htt
      have hne : p.1 ≠ g.1 := hd.2.2 _ (List.mem_map_of_mem hp) _ (by simp)
      exact hout p (by simp [hgs, hp]) hne t htp
    · obtain ⟨p, hp, htp⟩ := List.mem_flatMap.mp htt
      have hne : p.1 ≠ g.1 := fun h => hd.2.1.1 (h ▸ List.mem_map_of_mem hp)
      exact hout p (by simp [hgs, hp]) hne t htp

theorem same_block_iff (hw : jn.WellFormed q tx) {before after : List (ℕ × DescriptorGroup)}
    {g : ℕ × DescriptorGroup} (hgs : jn.placeGroups q tx.groups = before ++ g :: after)
    (hh : jn.heard g.1 = true) (sjbData : ℕ → Buf) {t : JournalDescriptorEntry × ℕ}
    (htt : t ∈ jn.placedTags g) :
    restored t.1.jdeEntryFlags (jn.written sjbData (storedAt jn before g after) t.2) =
        restored t.1.jdeEntryFlags (jn.written sjbData (jn.placeAfter q tx.blocks) t.2) ↔
      jn.heard t.2 = true ∨ restored t.1.jdeEntryFlags (sjbData t.2) =
        restored t.1.jdeEntryFlags (jn.written sjbData (jn.placeAfter q tx.blocks) t.2) := by
  have hg : g ∈ jn.placeGroups q tx.groups := by simp [hgs]
  have hlen := (hw.datas g.2 (Journal.mem_placeGroups hg)).1
  have hpos : t.2 ∈ (jn.groupDatas g).map Prod.snd := by
    rw [Journal.groupDatas, Journal.placeAfter_snd hlen]
    exact List.mem_map_of_mem htt
  obtain ⟨w, hwg, hwt⟩ := List.mem_map.mp hpos
  have hd := hw.nodup
  rw [Journal.placeAfter_blocks, hgs] at hd
  have hstored := @Journal.written_storedAt jn before after g sjbData _ hd hh w hwg
  rw [hwt, ← hgs, ← Journal.placeAfter_blocks] at hstored
  rw [hstored]
  by_cases hth : jn.heard t.2 = true
  · simp [hth]
  · simp [hth]

theorem replays_iff (hv : jn.Valid) (hp : st.Pooled) (ht : st.sjTransaction = none)
    (hw : jn.WellFormed q tx) :
    st.Replays jn fs q tx ↔ Introspectable jn (fs.blist st.ptd) st.sjbData q tx := by
  unfold Replays Introspectable
  cases hfind : (jn.placeGroups q tx.groups).find? (fun p => jn.heard p.1) with
  | none =>
    have hmissed : ∀ p ∈ jn.placeGroups q tx.groups, jn.heard p.1 = false := by
      simpa using List.find?_eq_none.mp hfind
    have hidle : ∀ mem, ((st.withData mem).journalRwIntrospection jn fs true
        (jn.sjbBlockid (jn.commitAt q tx)) tx.commit).1 = st.withData mem :=
      fun mem => write_commit_idle (st.withData mem) hv hw.commitAt_lt hw.commit (Or.inl ht)
    rw [run_transaction, run_groups_ignored st hv (fun p hpp => hw.groupPlaced hpp)
      (Or.inr hmissed), hidle]
    change st.introspected = _ ∧ st.sjTransaction = none ↔ _
    have hnone := @itemsOf_nil_iff jn (fs.blist st.ptd)
      ((jn.placeGroups q tx.groups).flatMap jn.placedTags)
    constructor
    · rintro ⟨hlog, -⟩
      have hcalls := (List.self_eq_append_right.mp hlog)
      rw [callsOf, List.map_eq_nil_iff, hnone] at hcalls
      exact fun p hpp t htt => hcalls t (List.mem_flatMap.mpr ⟨p, hpp, htt⟩)
    · intro hall
      have hitems : itemsOf jn (fs.blist st.ptd)
          ((jn.placeGroups q tx.groups).flatMap jn.placedTags) = [] := by
        rw [hnone]
        intro t htt
        obtain ⟨p, hpp, htp⟩ := List.mem_flatMap.mp htt
        exact hall p hpp t htp
      rw [hitems, callsOf, List.map_nil, List.append_nil]
      exact ⟨rfl, ht⟩
  | some g =>
    obtain ⟨hh, before, after, hgs, hbefore⟩ := List.find?_eq_some_iff_append.mp hfind
    have hmissed : ∀ p ∈ before, jn.heard p.1 = false := by simpa using hbefore
    have htaken := @run_taken σ jn fs st q tx hv hp ht hw before after g hgs hmissed hh
    dsimp only
    by_cases hc : jn.heard (jn.commitAt q tx) = true
    · rw [if_pos hc] at htaken
      have htags : (jn.placeGroups q tx.groups).flatMap jn.placedTags =
          before.flatMap jn.placedTags ++ jn.placedTags g ++ after.flatMap jn.placedTags := by
        rw [hgs, List.flatMap_append, List.flatMap_cons, List.append_assoc]
      rw [htaken.1, List.append_cancel_left_eq, htags, callsOf_eq_iff, other_tags_iff hw hgs]
      constructor
      · rintro ⟨⟨hout, hin⟩, -⟩
        exact ⟨hc, hout, fun t htt hacc =>
          (same_block_iff hw hgs hh st.sjbData htt).mp (hin t htt hacc)⟩
      · rintro ⟨-, hout, hin⟩
        exact ⟨⟨hout, fun t htt hacc =>
          (same_block_iff hw hgs hh st.sjbData htt).mpr (hin t htt hacc)⟩, htaken.2⟩
    · rw [if_neg hc] at htaken
      constructor
      · exact fun h => absurd h.2 htaken
      · exact fun h => absurd h.1 hc

end JournalState

theorem introspectable_of_ascending {blist : UInt32 → Sblock} {sjbData : ℕ → Buf}
    (hasc : ∀ i j, i < j → j < jn.jsBlocks → jn.sjbBlockid i < jn.sjbBlockid j)
    (hw : jn.WellFormed q tx) {g : DescriptorGroup} {gs : List DescriptorGroup}
    (hgs : tx.groups = g :: gs) :
    Introspectable jn blist sjbData q tx ↔
      ∀ p ∈ jn.placeGroups (jn.skip q g.blocks.length) gs, ∀ t ∈ jn.placedTags p,
        accepted jn blist t = false := by
  have hfirst : jn.placeGroups q tx.groups =
      [] ++ (jn.next q, g) :: jn.placeGroups (jn.skip q g.blocks.length) gs := by
    rw [hgs]
    rfl
  have hlt := (Journal.next_lt hw.start hw.two_le).2
  have hfind : (jn.placeGroups q tx.groups).find? (fun p => jn.heard p.1) =
      some (jn.next q, g) := by
    rw [hfirst, List.nil_append, List.find?_cons_of_pos]
    exact Journal.heard_of_ascending hasc hlt
  unfold Introspectable
  rw [hfind]
  dsimp only
  have hother := JournalState.other_tags_iff hw hfirst blist
  rw [List.flatMap_nil, List.nil_append] at hother
  rw [← hother]
  constructor
  · rintro ⟨-, hout, -⟩ p hp t ht
    exact hout t (List.mem_flatMap.mpr ⟨p, hp, ht⟩)
  · intro hout
    refine ⟨Journal.heard_of_ascending hasc hw.commitAt_lt, ?_, ?_⟩
    · intro t ht
      obtain ⟨p, hp, htp⟩ := List.mem_flatMap.mp ht
      exact hout p hp t htp
    · intro t ht _
      exact Or.inl (Journal.heard_of_ascending hasc (Journal.placeAfter_lt hlt hw.two_le ht))

/-- After any history that leaves no transaction open, a transaction is replayed completely exactly
if it is introspectable. -/
theorem transaction_replays_iff (jn : Journal) (fs : FileSystem σ) (ptd : σ) (sjbData : ℕ → Buf)
    (history : List (UInt32 × Buf)) (q : ℕ) (tx : LoggedTransaction) (hv : jn.Valid)
    (hw : jn.WellFormed q tx)
    (hidle : ((initJournal ptd sjbData).run jn fs history).sjTransaction = none) :
    ((initJournal ptd sjbData).run jn fs history).Replays jn fs q tx ↔
      Introspectable jn (fs.blist ((initJournal ptd sjbData).run jn fs history).ptd)
        ((initJournal ptd sjbData).run jn fs history).sjbData q tx :=
  replays_iff hv (run_spec hv.fits (initJournal_pooled ptd sjbData) history).1 hidle hw

def bytes (l : List UInt8) : Buf := fun i => l.getD i 0

def oneTag (low : UInt8) : Buf :=
  bytes [0xc0, 0x3b, 0x39, 0x98, 0, 0, 0, 1, 0, 0, 0, 7, 0, 0, 1, low, 0, 0, 0, 0x0a]

def commitOf (sequence : UInt8) : Buf :=
  bytes [0xc0, 0x3b, 0x39, 0x98, 0, 0, 0, 2, 0, 0, 0, sequence]

def smallJournal : Journal where
  jsBlockSize := 1024
  jsBlocks := 8
  sjbBlockid k := 100 + UInt32.ofNat k
  extdesc := initExtDesc ⟨8192, 1, 0, 8192, 64, 128, 8⟩ ⟨3⟩ .ext3

def emptyFiles : FileSystem Unit where
  blist _ _ := ⟨0, 0, 0, 0, 0⟩
  ext2Introspection _ _ _ := ((), 0)

def oneDescriptor : LoggedTransaction := ⟨7, [⟨oneTag 0xf4, [bytes [1]]⟩], commitOf 7⟩

def twoDescriptors : LoggedTransaction :=
  ⟨7, [⟨oneTag 0xf4, [bytes [1]]⟩, ⟨oneTag 0xf5, [bytes [2]]⟩], commitOf 7⟩

theorem smallJournal_ascending (i j : ℕ) (hij : i < j) (hj : j < smallJournal.jsBlocks) :
    smallJournal.sjbBlockid i < smallJournal.sjbBlockid j := by
  have hj' : j < 8 := hj
  have hmod : ∀ n < 8, (100 + UInt32.ofNat n).toNat = 100 + n := by
    intro n hn
    rw [UInt32.toNat_add, UInt32.toNat_ofNat']
    change (100 + n % 2 ^ 32) % 2 ^ 32 = 100 + n
    omega
  rw [UInt32.lt_iff_toNat_lt]
  change (100 + UInt32.ofNat i).toNat < (100 + UInt32.ofNat j).toNat
  rw [hmod i (by omega), hmod j hj']
  omega

theorem smallJournal_valid : smallJournal.Valid where
  distinct i j hi hj hij := by
    rcases lt_trichotomy i j with h | h | h
    · exact absurd hij (UInt32.ne_of_lt (smallJournal_ascending i j h hj))
    · exact h
    · exact absurd hij.symm (UInt32.ne_of_lt (smallJournal_ascending j i h hi))
  header := by decide
  fits := by decide

theorem tagsOf_oneTag :
    smallJournal.tagsOf (oneTag 0xf4) = [⟨500, 0x0a⟩] ∧
      smallJournal.tagsOf (oneTag 0xf5) = [⟨501, 0x0a⟩] := by
  have h₄ : parseJournalDescriptorEntry (oneTag 0xf4) 12 1012 = some (⟨500, 0x0a⟩, 1004) := by
    decide
  have h₅ : parseJournalDescriptorEntry (oneTag 0xf5) 12 1012 = some (⟨501, 0x0a⟩, 1004) := by
    decide
  have hlast : (0x0a : UInt32) &&& journalDescLastEntry ≠ 0 := by decide
  constructor
  · exact (tagsFrom_some h₄).trans (by rw [if_pos hlast])
  · exact (tagsFrom_some h₅).trans (by rw [if_pos hlast])

theorem oneDescriptor_wellFormed : smallJournal.WellFormed 0 oneDescriptor where
  start := by decide
  fits := by decide
  descriptors := by
    unfold Journal.isHeader
    decide
  datas := by
    rintro g hg
    obtain rfl : g = ⟨oneTag 0xf4, [bytes [1]]⟩ := by simpa [oneDescriptor] using hg
    rw [tagsOf_oneTag.1]
    exact ⟨rfl, by decide⟩
  commit := by
    unfold Journal.isHeader
    decide

theorem twoDescriptors_wellFormed : smallJournal.WellFormed 0 twoDescriptors where
  start := by decide
  fits := by decide
  descriptors := by
    unfold Journal.isHeader
    decide
  datas := by
    intro g hg
    have hcases : g = ⟨oneTag 0xf4, [bytes [1]]⟩ ∨ g = ⟨oneTag 0xf5, [bytes [2]]⟩ := by
      simpa [twoDescriptors] using hg
    rcases hcases with rfl | rfl
    · rw [tagsOf_oneTag.1]
      exact ⟨rfl, by decide⟩
    · rw [tagsOf_oneTag.2]
      exact ⟨rfl, by decide⟩
  commit := by
    unfold Journal.isHeader
    decide

theorem transaction_replays_oneDescriptor :
    smallJournal.Valid ∧ smallJournal.WellFormed 0 oneDescriptor ∧
      ((initJournal () fun _ => bytes []).run smallJournal emptyFiles []).sjTransaction = none ∧
      (((initJournal () fun _ => bytes []).run smallJournal emptyFiles []).Replays smallJournal
          emptyFiles 0 oneDescriptor ↔
        Introspectable smallJournal (emptyFiles.blist ()) (fun _ => bytes []) 0 oneDescriptor) :=
  ⟨smallJournal_valid, oneDescriptor_wellFormed, rfl,
    transaction_replays_iff smallJournal emptyFiles () (fun _ => bytes []) [] 0 oneDescriptor
      smallJournal_valid oneDescriptor_wellFormed rfl⟩

/-- The tag of the second descriptor is not replayed. -/
theorem second_descriptor_lost :
    ¬∀ (jn : Journal) (fs : FileSystem Unit) (sjbData : ℕ → Buf) (history : List (UInt32 × Buf))
      (q : ℕ) (tx : LoggedTransaction), jn.Valid → jn.WellFormed q tx →
      ((initJournal () sjbData).run jn fs history).sjTransaction = none →
      ((initJournal () sjbData).run jn fs history).Replays jn fs q tx := by
  intro hall
  have hreplays := hall smallJournal emptyFiles (fun _ => bytes []) [] 0 twoDescriptors
    smallJournal_valid twoDescriptors_wellFormed rfl
  have hnone := (introspectable_of_ascending smallJournal_ascending twoDescriptors_wellFormed
    rfl).mp ((replays_iff smallJournal_valid (initJournal_pooled _ _) rfl
      twoDescriptors_wellFormed).mp hreplays)
  have htag : ((⟨501, 0x0a⟩, 4) : JournalDescriptorEntry × ℕ) ∈
      smallJournal.placedTags (3, ⟨oneTag 0xf5, [bytes [2]]⟩) := by
    rw [Journal.placedTags, tagsOf_oneTag.2]
    exact List.mem_singleton.mpr rfl
  have hlost := hnone (3, ⟨oneTag 0xf5, [bytes [2]]⟩) (List.mem_singleton.mpr rfl) _ htag
  exact absurd hlost (by decide)

end SBlktrace
