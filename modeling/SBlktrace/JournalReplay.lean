import SBlktrace.JournalModel
import Mathlib

namespace SBlktrace

open Function

def tagsFrom (buf : Buf) (offset size : ℕ) : List JournalDescriptorEntry :=
  match _h : parseJournalDescriptorEntry buf offset size with
  | none => []
  | some (entry, size') =>
    entry :: if entry.jdeEntryFlags &&& journalDescLastEntry ≠ 0 then []
      else tagsFrom buf
        (if entry.jdeEntryFlags &&& journalDescSameUuid ≠ 0 then offset + 8 else offset + 24) size'
termination_by size
decreasing_by
  have := parseJournalDescriptorEntry_lt _h
  omega

namespace Journal

def tagsOf (jn : Journal) (desc : Buf) : List JournalDescriptorEntry :=
  tagsFrom desc 12 (jn.jsBlockSize - 12)

def placeAfter {α : Type} (jn : Journal) (q : ℕ) : List α → List (α × ℕ)
  | [] => []
  | a :: l => (a, jn.next q) :: placeAfter jn (jn.next q) l

end Journal

theorem Journal.placeAfter_length {α : Type} (jn : Journal) (q : ℕ) (l : List α) :
    (jn.placeAfter q l).length = l.length := by
  induction l generalizing q with
  | nil => rfl
  | cons a l ih => rw [placeAfter, List.length_cons, List.length_cons, ih]

section Tags

variable {buf buf' : Buf} {offset size size' : ℕ} {entry : JournalDescriptorEntry}

def nextOffset (entry : JournalDescriptorEntry) (offset : ℕ) : ℕ :=
  if entry.jdeEntryFlags &&& journalDescSameUuid ≠ 0 then offset + 8 else offset + 24

theorem parse_size (h : parseJournalDescriptorEntry buf offset size = some (entry, size')) :
    nextOffset entry offset + size' = offset + size := by
  unfold parseJournalDescriptorEntry at h
  unfold nextOffset
  split at h
  · exact absurd h (by simp)
  · dsimp only at h
    split at h
    · next hflag =>
      split at h
      · exact absurd h (by simp)
      · obtain ⟨rfl, rfl⟩ := Prod.mk.inj (Option.some.inj h)
        rw [if_neg (not_not.mpr hflag)]
        omega
    · next hflag =>
      obtain ⟨rfl, rfl⟩ := Prod.mk.inj (Option.some.inj h)
      rw [if_pos hflag]
      omega

theorem tagsFrom_none (h : parseJournalDescriptorEntry buf offset size = none) :
    tagsFrom buf offset size = [] := by
  rw [tagsFrom]
  split
  · rfl
  · next heq => exact absurd (h.symm.trans heq) (by simp)

theorem tagsFrom_some (h : parseJournalDescriptorEntry buf offset size = some (entry, size')) :
    tagsFrom buf offset size =
      entry :: if entry.jdeEntryFlags &&& journalDescLastEntry ≠ 0 then []
        else tagsFrom buf (nextOffset entry offset) size' := by
  rw [tagsFrom]
  split
  · next heq => exact absurd (h.symm.trans heq) (by simp)
  · next heq =>
    obtain ⟨rfl, rfl⟩ := Prod.mk.inj (Option.some.inj (h.symm.trans heq))
    rfl

theorem tagsFrom_congr {n : ℕ} (h : ∀ i < n, buf i = buf' i) (ho : offset + size ≤ n) :
    tagsFrom buf offset size = tagsFrom buf' offset size := by
  induction size using Nat.strong_induction_on generalizing offset with
  | _ size ih =>
    have hparse : parseJournalDescriptorEntry buf offset size =
        parseJournalDescriptorEntry buf' offset size := by
      unfold parseJournalDescriptorEntry
      by_cases hs : size < 8
      · rw [if_pos hs, if_pos hs]
      · rw [if_neg hs, if_neg hs, readui32be_congr h (by omega), readui32be_congr h (by omega)]
    cases hp : parseJournalDescriptorEntry buf offset size with
    | none => rw [tagsFrom_none hp, tagsFrom_none (hparse.symm.trans hp)]
    | some p =>
      obtain ⟨entry, size'⟩ := p
      have hlt := parseJournalDescriptorEntry_lt hp
      dsimp only at hlt
      have hsize := parse_size hp
      have hrest : tagsFrom buf (nextOffset entry offset) size' =
          tagsFrom buf' (nextOffset entry offset) size' := ih size' (by omega) (by omega)
      rw [tagsFrom_some hp, tagsFrom_some (hparse.symm.trans hp), hrest]

theorem tagsFrom_length : 8 * (tagsFrom buf offset size).length ≤ size := by
  induction size using Nat.strong_induction_on generalizing offset with
  | _ size ih =>
    cases hp : parseJournalDescriptorEntry buf offset size with
    | none =>
      rw [tagsFrom_none hp]
      exact Nat.zero_le _
    | some p =>
      obtain ⟨entry, size'⟩ := p
      have hlt := parseJournalDescriptorEntry_lt hp
      dsimp only at hlt
      rw [tagsFrom_some hp]
      split
      · simp only [List.length_cons, List.length_nil]
        omega
      · have hrest : 8 * (tagsFrom buf (nextOffset entry offset) size').length ≤ size' :=
          ih size' (by omega)
        simp only [List.length_cons]
        omega

end Tags

variable {σ : Type} {jn : Journal} {fs : FileSystem σ} {st st' : JournalState σ}

def classified (jn : Journal) (blist : UInt32 → Sblock) (entry : JournalDescriptorEntry) :
    Option (ℕ × BlockDesc) :=
  match initBlockdesc2 entry.jdeFsBlock jn.extdesc with
  | none => none
  | some blockdesc =>
    let i := getJournalType blist blockdesc.bdId blockdesc.bdType
    if i ≥ 0 ∧ i < 5 then some (i.toNat, blockdesc) else none

def classItem (jn : Journal) (blist : UInt32 → Sblock) (c : ℕ)
    (p : JournalDescriptorEntry × ℕ) : Option JournalItem :=
  match classified jn blist p.1 with
  | none => none
  | some (i, blockdesc) => if i = c then some ⟨p.1.jdeEntryFlags, blockdesc, p.2⟩ else none

def accepted (jn : Journal) (blist : UInt32 → Sblock) (p : JournalDescriptorEntry × ℕ) : Bool :=
  (classified jn blist p.1).isSome

namespace JournalState

def enqueue (st : JournalState σ) (jn : Journal) (blist : UInt32 → Sblock)
    (l : List (JournalDescriptorEntry × ℕ)) : JournalState σ where
  ptd := st.ptd
  sjTransaction := st.sjTransaction
  freeTrans := st.freeTrans
  sjbData := st.sjbData
  freeJournalItems := st.freeJournalItems - l.countP (accepted jn blist)
  queues c := st.queues c ++ l.filterMap (classItem jn blist c)
  introspected := st.introspected

theorem enqueue_nil (blist : UInt32 → Sblock) : st.enqueue jn blist [] = st := by
  simp [enqueue]

theorem enqueue_cons (blist : UInt32 → Sblock) (p : JournalDescriptorEntry × ℕ)
    (l : List (JournalDescriptorEntry × ℕ)) :
    (st.enqueue jn blist [p]).enqueue jn blist l = st.enqueue jn blist (p :: l) := by
  have hcount : List.countP (accepted jn blist) (p :: l) =
      List.countP (accepted jn blist) [p] + List.countP (accepted jn blist) l := by
    rw [← List.countP_append, List.singleton_append]
  have hitems : ∀ c, (p :: l).filterMap (classItem jn blist c) =
      [p].filterMap (classItem jn blist c) ++ l.filterMap (classItem jn blist c) := by
    intro c
    rw [← List.filterMap_append, List.singleton_append]
  simp only [enqueue, hcount, hitems, List.append_assoc, Nat.sub_sub]

theorem queueTag_eq (entry : JournalDescriptorEntry) (q : ℕ) (hfree : 0 < st.freeJournalItems) :
    st.queueTag jn fs entry q = some (st.enqueue jn (fs.blist st.ptd) [(entry, q)]) := by
  have hnz : st.freeJournalItems ≠ 0 := by omega
  unfold queueTag
  cases hi : initBlockdesc2 entry.jdeFsBlock jn.extdesc with
  | none => simp [enqueue, classItem, accepted, classified, hi]
  | some blockdesc =>
    dsimp only
    by_cases hc : getJournalType (fs.blist st.ptd) blockdesc.bdId blockdesc.bdType ≥ 0 ∧
        getJournalType (fs.blist st.ptd) blockdesc.bdId blockdesc.bdType < 5
    · have hclass : classified jn (fs.blist st.ptd) entry = some
          ((getJournalType (fs.blist st.ptd) blockdesc.bdId blockdesc.bdType).toNat, blockdesc) := by
        simp [classified, hi, hc]
      rw [if_pos hc, if_neg hnz]
      simp only [enqueue, classItem, accepted, hclass, List.filterMap_cons, List.filterMap_nil,
        List.countP_cons, List.countP_nil, Option.isSome_some, if_true, Nat.zero_add]
      congr 2
      funext c
      by_cases hcc : c = (getJournalType (fs.blist st.ptd) blockdesc.bdId blockdesc.bdType).toNat
      · subst hcc
        simp
      · simp [update_of_ne hcc, Ne.symm hcc]
    · have hclass : classified jn (fs.blist st.ptd) entry = none := by
        simp only [classified, hi]
        exact if_neg hc
      rw [if_neg hc]
      simp [enqueue, classItem, accepted, hclass]

theorem queueTags_none {buf : Buf} {offset size q : ℕ}
    (h : parseJournalDescriptorEntry buf offset size = none) :
    st.queueTags jn fs buf offset size q = (st, 0) := by
  rw [queueTags]
  split
  · rfl
  · next heq => exact absurd (h.symm.trans heq) (by simp)

theorem queueTags_some {buf : Buf} {offset size size' q : ℕ} {entry : JournalDescriptorEntry}
    (h : parseJournalDescriptorEntry buf offset size = some (entry, size')) :
    st.queueTags jn fs buf offset size q = match st.queueTag jn fs entry (jn.next q) with
      | none => (st, -1)
      | some st' =>
        if entry.jdeEntryFlags &&& journalDescLastEntry ≠ 0 then (st', 0)
        else st'.queueTags jn fs buf (nextOffset entry offset) size' (jn.next q) := by
  rw [queueTags]
  split
  · next heq => exact absurd (h.symm.trans heq) (by simp)
  · next heq =>
    obtain ⟨rfl, rfl⟩ := Prod.mk.inj (Option.some.inj (h.symm.trans heq))
    rfl

theorem queueTags_eq {buf : Buf} {offset size : ℕ} (q : ℕ)
    (hfree : (tagsFrom buf offset size).length ≤ st.freeJournalItems) :
    st.queueTags jn fs buf offset size q =
      (st.enqueue jn (fs.blist st.ptd) (jn.placeAfter q (tagsFrom buf offset size)), 0) := by
  induction size using Nat.strong_induction_on generalizing st offset q with
  | _ size ih =>
    cases hp : parseJournalDescriptorEntry buf offset size with
    | none => rw [queueTags_none hp, tagsFrom_none hp, Journal.placeAfter, enqueue_nil]
    | some p =>
      obtain ⟨entry, size'⟩ := p
      have hlt := parseJournalDescriptorEntry_lt hp
      dsimp only at hlt
      rw [tagsFrom_some hp, List.length_cons] at hfree
      rw [queueTags_some hp, queueTag_eq entry (jn.next q) (by omega), tagsFrom_some hp,
        Journal.placeAfter]
      dsimp only
      by_cases hlast : entry.jdeEntryFlags &&& journalDescLastEntry ≠ 0
      · rw [if_pos hlast, if_pos hlast, Journal.placeAfter]
      · rw [if_neg hlast] at hfree ⊢
        rw [if_neg hlast]
        have hone : (st.enqueue jn (fs.blist st.ptd) [(entry, jn.next q)]).freeJournalItems ≥
            st.freeJournalItems - 1 := by
          simp only [enqueue, List.countP_cons, List.countP_nil]
          split <;> omega
        rw [ih size' (by omega) (jn.next q) (by omega)]
        rw [show (st.enqueue jn (fs.blist st.ptd) [(entry, jn.next q)]).ptd = st.ptd from rfl,
          enqueue_cons]

def restored (flags : UInt32) (buf : Buf) : Buf :=
  if flags &&& journalDescEscape ≠ 0 then writeui32le buf 0x98c93bc0 else buf

def setPools (st : JournalState σ) (queues : ℕ → List JournalItem) (freeJournalItems : ℕ) :
    JournalState σ :=
  { st with queues := queues, freeJournalItems := freeJournalItems }

def callsOf (sjbData : ℕ → Buf) (items : List JournalItem) : List (BlockDesc × ℕ × Buf) :=
  items.map (fun item => (item.blockdesc, item.journalBlock,
    restored item.journalFlags (sjbData item.journalBlock)))

theorem introspectItem_setPools (item : JournalItem) (queues : ℕ → List JournalItem) (n : ℕ) :
    (st.setPools queues n).introspectItem fs item =
      (st.introspectItem fs item).setPools queues n := by
  unfold introspectItem
  by_cases he : item.journalFlags &&& journalDescEscape = 0
  · simp [he, setPools]
  · simp [he, setPools, setData]

theorem introspectItem_spec (st : JournalState σ) (fs : FileSystem σ) (item : JournalItem) :
    (st.introspectItem fs item).sjTransaction = st.sjTransaction ∧
      (st.introspectItem fs item).freeTrans = st.freeTrans ∧
      (st.introspectItem fs item).queues = st.queues ∧
      (st.introspectItem fs item).freeJournalItems = st.freeJournalItems ∧
      (∀ q, q ≠ item.journalBlock → (st.introspectItem fs item).sjbData q = st.sjbData q) ∧
      (st.introspectItem fs item).introspected =
        st.introspected ++ callsOf st.sjbData [item] := by
  unfold introspectItem
  by_cases he : item.journalFlags &&& journalDescEscape = 0
  · simp [he, callsOf, restored]
  · simp only [ne_eq, he, not_false_eq_true, decide_true, if_true, setData, update_self]
    refine ⟨trivial, trivial, trivial, trivial, ?_, ?_⟩
    · intro q hq
      rw [update_of_ne hq, update_of_ne hq]
    · simp [callsOf, restored, he]

def introspectAll (st : JournalState σ) (fs : FileSystem σ) (items : List JournalItem) :
    JournalState σ :=
  items.foldl (fun st item => st.introspectItem fs item) st

theorem introspectAll_setPools (items : List JournalItem) (queues : ℕ → List JournalItem) (n : ℕ) :
    (st.setPools queues n).introspectAll fs items =
      (st.introspectAll fs items).setPools queues n := by
  induction items generalizing st with
  | nil => rfl
  | cons item items ih =>
    rw [introspectAll, List.foldl_cons, introspectItem_setPools]
    exact ih

theorem introspectAll_spec (st : JournalState σ) (fs : FileSystem σ) (items : List JournalItem) :
    (st.introspectAll fs items).sjTransaction = st.sjTransaction ∧
      (st.introspectAll fs items).freeTrans = st.freeTrans ∧
      (st.introspectAll fs items).queues = st.queues ∧
      (st.introspectAll fs items).freeJournalItems = st.freeJournalItems := by
  induction items generalizing st with
  | nil => exact ⟨rfl, rfl, rfl, rfl⟩
  | cons item items ih =>
    obtain ⟨ht, hf, hq, hi, -, -⟩ := introspectItem_spec st fs item
    obtain ⟨ht', hf', hq', hi'⟩ := ih (st.introspectItem fs item)
    exact ⟨ht'.trans ht, hf'.trans hf, hq'.trans hq, hi'.trans hi⟩

theorem introspectAll_introspected (st : JournalState σ) (fs : FileSystem σ)
    (items : List JournalItem)
    (hd : (items.map JournalItem.journalBlock).Nodup) :
    (st.introspectAll fs items).introspected =
      st.introspected ++ callsOf st.sjbData items := by
  induction items generalizing st with
  | nil => simp [introspectAll, callsOf]
  | cons item items ih =>
    rw [List.map_cons, List.nodup_cons] at hd
    obtain ⟨-, -, -, -, hother, hlog⟩ := introspectItem_spec st fs item
    have hcalls : callsOf (st.introspectItem fs item).sjbData items = callsOf st.sjbData items := by
      apply List.map_congr_left
      intro item' hitem'
      have hne : item'.journalBlock ≠ item.journalBlock :=
        fun h => hd.1 (h ▸ List.mem_map_of_mem hitem')
      rw [hother _ hne]
    have hrest := ih (st.introspectItem fs item) hd.2
    rw [hlog, hcalls, List.append_assoc] at hrest
    exact hrest

theorem introspectClass_eq (c : ℕ) : st.introspectClass fs c =
    (st.introspectAll fs (st.queues c)).setPools (update st.queues c [])
      (st.freeJournalItems + (st.queues c).length) := by
  obtain ⟨-, -, hq, hi⟩ := introspectAll_spec st fs (st.queues c)
  unfold introspectClass
  rw [introspectAll] at hq hi
  simp only [hq, hi]
  rfl

theorem introspectClasses_eq (cs : List ℕ) (hd : cs.Nodup) :
    cs.foldl (fun st i => st.introspectClass fs i) st =
      (st.introspectAll fs (cs.flatMap st.queues)).setPools
        (fun c => if c ∈ cs then [] else st.queues c)
        (st.freeJournalItems + (cs.flatMap st.queues).length) := by
  induction cs generalizing st with
  | nil =>
    rw [List.foldl_nil]
    simp [introspectAll, setPools]
  | cons c cs ih =>
    obtain ⟨hc, hcs⟩ := List.nodup_cons.mp hd
    have hqueues : ∀ c' ∈ cs, update st.queues c [] c' = st.queues c' := by
      intro c' hc'
      have hne : c' ≠ c := fun h => hc (h ▸ hc')
      rw [update_of_ne hne]
    have hitems : cs.flatMap (update st.queues c []) = cs.flatMap st.queues := by
      rw [List.flatMap_def, List.flatMap_def, List.map_congr_left hqueues]
    have hpools : (fun c' => if c' ∈ cs then [] else update st.queues c [] c') =
        fun c' => if c' ∈ c :: cs then [] else st.queues c' := by
      funext c'
      by_cases hcc : c' = c
      · simp [hcc]
      · simp [hcc]
    rw [List.foldl_cons, ih hcs, introspectClass_eq]
    change JournalState.setPools (introspectAll (setPools _ _ _) fs
      (cs.flatMap (update st.queues c []))) (fun c' => if c' ∈ cs then [] else
        update st.queues c [] c') (st.freeJournalItems + (st.queues c).length +
          (cs.flatMap (update st.queues c [])).length) = _
    rw [hitems, hpools, introspectAll_setPools, List.flatMap_cons, List.length_append,
      ← Nat.add_assoc]
    simp only [introspectAll, List.foldl_append]
    rfl

end JournalState

section Classes

variable {blist : UInt32 → Sblock} {l : List (JournalDescriptorEntry × ℕ)}

theorem classified_lt {entry : JournalDescriptorEntry} {i : ℕ} {blockdesc : BlockDesc}
    (h : classified jn blist entry = some (i, blockdesc)) : i < 5 := by
  unfold classified at h
  cases hi : initBlockdesc2 entry.jdeFsBlock jn.extdesc with
  | none => simp [hi] at h
  | some bd =>
    rw [hi] at h
    dsimp only at h
    split at h
    · obtain ⟨rfl, -⟩ := Prod.mk.inj (Option.some.inj h)
      omega
    · exact absurd h (by simp)

theorem classItem_eq_some {c : ℕ} {p : JournalDescriptorEntry × ℕ} {item : JournalItem}
    (h : classItem jn blist c p = some item) : ∃ blockdesc,
      classified jn blist p.1 = some (c, blockdesc) ∧
        item = ⟨p.1.jdeEntryFlags, blockdesc, p.2⟩ := by
  unfold classItem at h
  cases hc : classified jn blist p.1 with
  | none => simp [hc] at h
  | some q =>
    obtain ⟨i, blockdesc⟩ := q
    rw [hc] at h
    dsimp only at h
    split at h
    · next hic =>
      subst hic
      exact ⟨blockdesc, rfl, (Option.some.inj h).symm⟩
    · exact absurd h (by simp)

theorem classItems_of_le {c : ℕ} (hc : 5 ≤ c) : l.filterMap (classItem jn blist c) = [] := by
  rw [List.filterMap_eq_nil_iff]
  intro p _
  rw [Option.eq_none_iff_forall_ne_some]
  intro item h
  obtain ⟨blockdesc, hclass, -⟩ := classItem_eq_some h
  have := classified_lt hclass
  omega

def itemsOf (jn : Journal) (blist : UInt32 → Sblock) (l : List (JournalDescriptorEntry × ℕ)) :
    List JournalItem :=
  (List.range 5).flatMap (fun c => l.filterMap (classItem jn blist c))

theorem classItem_count (p : JournalDescriptorEntry × ℕ) :
    ((List.range 5).map (fun c => if (classItem jn blist c p).isSome then 1 else 0)).sum =
      if accepted jn blist p then 1 else 0 := by
  cases hc : classified jn blist p.1 with
  | none => simp [classItem, accepted, hc]
  | some q =>
    obtain ⟨i, blockdesc⟩ := q
    have hlt := classified_lt hc
    have hitem : ∀ c, (classItem jn blist c p).isSome = decide (i = c) := by
      intro c
      simp only [classItem, hc]
      split <;> simp_all
    simp only [hitem, accepted, hc, Option.isSome_some, if_true, decide_eq_true_eq]
    interval_cases i <;> rfl

theorem itemsOf_length : (itemsOf jn blist l).length = l.countP (accepted jn blist) := by
  rw [itemsOf, List.length_flatMap]
  simp only [List.length_filterMap_eq_countP]
  induction l with
  | nil => simp
  | cons p l ih =>
    rw [List.countP_cons, ← ih, ← classItem_count p]
    simp only [List.countP_cons, List.range_succ, List.range_zero, List.nil_append, List.map_append,
      List.map_cons, List.map_nil, List.sum_append, List.sum_cons, List.sum_nil]
    omega

theorem classItems_blocks (c : ℕ) :
    ((l.filterMap (classItem jn blist c)).map JournalItem.journalBlock).Sublist
      (l.map Prod.snd) := by
  induction l with
  | nil => simp
  | cons p l ih =>
    rw [List.filterMap_cons]
    split
    · exact ih.cons _
    · next item h =>
      obtain ⟨blockdesc, -, rfl⟩ := classItem_eq_some h
      exact ih.cons_cons _

theorem itemsOf_blocks (hd : (l.map Prod.snd).Nodup) :
    ((itemsOf jn blist l).map JournalItem.journalBlock).Nodup := by
  rw [itemsOf, List.map_flatMap, List.nodup_flatMap]
  refine ⟨fun c _ => hd.sublist (classItems_blocks c), ?_⟩
  apply List.nodup_range.imp
  intro c c' hne
  rw [Function.onFun, List.disjoint_left]
  intro q hq hq'
  obtain ⟨item, hitem, rfl⟩ := List.mem_map.mp hq
  obtain ⟨item', hitem', hblock⟩ := List.mem_map.mp hq'
  obtain ⟨p, hp, h⟩ := List.mem_filterMap.mp hitem
  obtain ⟨p', hp', h'⟩ := List.mem_filterMap.mp hitem'
  obtain ⟨blockdesc, hclass, rfl⟩ := classItem_eq_some h
  obtain ⟨blockdesc', hclass', rfl⟩ := classItem_eq_some h'
  obtain rfl := List.inj_on_of_nodup_map hd hp' hp hblock
  exact hne (Prod.mk.inj (Option.some.inj (hclass.symm.trans hclass'))).1

end Classes

namespace JournalState

structure Pooled (st : JournalState σ) : Prop where
  queues : ∀ c, st.queues c = []
  items : st.freeJournalItems = freeJournalItem
  trans : st.freeTrans + (if st.sjTransaction.isSome then 1 else 0) = journalFreeTransaction

theorem commit_eq (hp : st.Pooled) (hs : jn.jsBlockSize ≤ 4096) (t : SjournalTransaction)
    {l : List (JournalDescriptorEntry × ℕ)}
    (hl : jn.placeAfter t.sjtDesc (jn.tagsOf (st.sjbData t.sjtDesc)) = l) :
    st.commit jn fs t = endTransaction
      (((st.enqueue jn (fs.blist st.ptd) l).introspectAll fs (itemsOf jn (fs.blist st.ptd) l)).setPools
        (fun c => if c ∈ List.range 5 then [] else (st.enqueue jn (fs.blist st.ptd) l).queues c)
        ((st.enqueue jn (fs.blist st.ptd) l).freeJournalItems +
          (itemsOf jn (fs.blist st.ptd) l).length)) := by
  have hlen : (tagsFrom (st.sjbData t.sjtDesc) 12 (jn.jsBlockSize - 12)).length ≤
      st.freeJournalItems := by
    have h := @tagsFrom_length (st.sjbData t.sjtDesc) 12 (jn.jsBlockSize - 12)
    rw [hp.items, freeJournalItem]
    omega
  have hrun := @queueTags_eq σ jn fs st (st.sjbData t.sjtDesc) 12 (jn.jsBlockSize - 12)
    t.sjtDesc hlen
  rw [← Journal.tagsOf, hl] at hrun
  have hitems : (List.range 5).flatMap (st.enqueue jn (fs.blist st.ptd) l).queues =
      itemsOf jn (fs.blist st.ptd) l := by
    rw [itemsOf]
    congr 1
    funext c
    simp [enqueue, hp.queues]
  rw [← hitems, ← introspectClasses_eq _ List.nodup_range, commit, hrun]
  rfl

theorem commit_spec (hp : st.Pooled) (hs : jn.jsBlockSize ≤ 4096) {t : SjournalTransaction}
    (ht : st.sjTransaction = some t) :
    ∃ st', st.commit jn fs t = (st', 0) ∧ st'.Pooled ∧ st'.sjTransaction = none ∧
      (((jn.placeAfter t.sjtDesc (jn.tagsOf (st.sjbData t.sjtDesc))).map Prod.snd).Nodup →
        st'.introspected = st.introspected ++ callsOf st.sjbData (itemsOf jn (fs.blist st.ptd)
          (jn.placeAfter t.sjtDesc (jn.tagsOf (st.sjbData t.sjtDesc))))) := by
  have hlen : (tagsFrom (st.sjbData t.sjtDesc) 12 (jn.jsBlockSize - 12)).length ≤
      st.freeJournalItems := by
    have h := @tagsFrom_length (st.sjbData t.sjtDesc) 12 (jn.jsBlockSize - 12)
    rw [hp.items, freeJournalItem]
    omega
  have hcommit := @commit_eq σ jn fs st hp hs t _ rfl
  rw [← Journal.tagsOf] at hlen
  generalize hl : jn.placeAfter t.sjtDesc (jn.tagsOf (st.sjbData t.sjtDesc)) = l at hcommit ⊢
  obtain ⟨-, hfree, -, -⟩ := introspectAll_spec (st.enqueue jn (fs.blist st.ptd) l) fs
    (itemsOf jn (fs.blist st.ptd) l)
  refine ⟨_, by rw [hcommit]; rfl, ⟨?_, ?_, ?_⟩, rfl, ?_⟩
  · intro c
    by_cases hc : c < 5
    · simp [setPools, hc]
    · simp [setPools, hc, enqueue, hp.queues, classItems_of_le (not_lt.mp hc)]
  · have hcount : l.countP (accepted jn (fs.blist st.ptd)) ≤ st.freeJournalItems := by
      apply List.countP_le_length.trans
      rw [← hl, Journal.placeAfter_length]
      exact hlen
    change st.freeJournalItems - l.countP (accepted jn (fs.blist st.ptd)) +
      (itemsOf jn (fs.blist st.ptd) l).length = _
    rw [itemsOf_length, Nat.sub_add_cancel hcount, hp.items]
  · have htrans := hp.trans
    rw [ht] at htrans
    change (introspectAll _ fs _).freeTrans + 1 + 0 = _
    rw [hfree]
    exact htrans
  · intro hd
    exact introspectAll_introspected _ fs _ (itemsOf_blocks hd)

end JournalState

end SBlktrace
