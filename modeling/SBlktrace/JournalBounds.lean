import SBlktrace.JournalBlocklist
import SBlktrace.JournalCompleteness
import Mathlib

namespace SBlktrace

open Function Forest

variable {σ : Type} {jn : Journal} {fs : FileSystem σ} {st : JournalState σ}

namespace JournalState

def copies (st : JournalState σ) (jn : Journal) (journalBlock : ℕ) (buf : Buf) : Bool :=
  isJournalFsBlock buf ||
    match parseJournalStandardHeader buf jn.extdesc.edBlockSize.toNat with
    | none => false
    | some header =>
      (header.jshBlockType = journalDescriptorBlock &&
        (st.beginTransaction journalBlock header.jshSequence).2 = 0) ||
        header.jshBlockType = journalRevokeBlock

def copyOf (st : JournalState σ) (jn : Journal) (w : UInt32 × Buf) : Option (ℕ × ℕ) :=
  match jn.lookup w.1 with
  | none => none
  | some journalBlock =>
    if st.copies jn journalBlock w.2 then some (journalBlock, jn.jsBlockSize) else none

theorem copyOf_eq_some {w : UInt32 × Buf} {q n : ℕ} (h : st.copyOf jn w = some (q, n)) :
    jn.lookup w.1 = some q ∧ n = jn.jsBlockSize := by
  unfold copyOf at h
  split at h
  · cases h
  · next q' hl =>
    split at h
    · cases h
      exact ⟨hl, rfl⟩
    · cases h

def SameTails (mem mem' : ℕ → Buf) : Prop := ∀ q i, 4 ≤ i → mem' q i = mem q i

theorem queueTag_sjbData {entry : JournalDescriptorEntry} {q : ℕ} {st' : JournalState σ}
    (h : st.queueTag jn fs entry q = some st') : st'.sjbData = st.sjbData := by
  unfold queueTag at h
  split at h
  · cases h
    rfl
  · dsimp only at h
    split at h
    · split at h
      · cases h
      · cases h
        rfl
    · cases h
      rfl

theorem queueTags_sjbData (buf : Buf) (offset size q : ℕ) :
    (st.queueTags jn fs buf offset size q).1.sjbData = st.sjbData := by
  induction size using Nat.strong_induction_on generalizing st offset q with
  | _ size ih =>
    cases hp : parseJournalDescriptorEntry buf offset size with
    | none => rw [queueTags_none hp]
    | some p =>
      obtain ⟨entry, size'⟩ := p
      have hlt := parseJournalDescriptorEntry_lt hp
      rw [queueTags_some hp]
      split
      · rfl
      · next st' htag =>
        have hsame := queueTag_sjbData htag
        split
        · exact hsame
        · exact (ih size' (by omega) _ _).trans hsame

theorem introspectItem_tails (item : JournalItem) :
    SameTails st.sjbData (st.introspectItem fs item).sjbData := by
  intro q i hi
  have hword : ∀ (buf : Buf) (v : UInt32), writeui32le buf v i = buf i :=
    fun buf v => if_neg (by omega)
  unfold introspectItem
  by_cases he : item.journalFlags &&& journalDescEscape = 0
  · simp [he]
  · simp only [ne_eq, he, not_false_eq_true, decide_true, if_true, setData]
    by_cases hq : q = item.journalBlock
    · rw [hq, update_self, update_self, hword, hword]
    · rw [update_of_ne hq, update_of_ne hq]

theorem introspectAll_tails (items : List JournalItem) :
    SameTails st.sjbData (st.introspectAll fs items).sjbData := by
  induction items generalizing st with
  | nil => exact fun _ _ _ => rfl
  | cons item items ih =>
    intro q i hi
    have hrest := @ih (st.introspectItem fs item) q i hi
    exact hrest.trans (introspectItem_tails item q i hi)

theorem introspectClasses_tails (cs : List ℕ) :
    SameTails st.sjbData (cs.foldl (fun st c => st.introspectClass fs c) st).sjbData := by
  induction cs generalizing st with
  | nil => exact fun _ _ _ => rfl
  | cons c cs ih =>
    intro q i hi
    have hrest := @ih (st.introspectClass fs c) q i hi
    rw [List.foldl_cons, hrest, introspectClass_eq]
    exact introspectAll_tails _ q i hi

theorem commit_tails (t : SjournalTransaction) :
    SameTails st.sjbData (st.commit jn fs t).1.sjbData := by
  intro q i hi
  have hsame := @queueTags_sjbData _ jn fs st (st.sjbData t.sjtDesc) 12 (jn.jsBlockSize - 12) t.sjtDesc
  unfold commit
  generalize st.queueTags jn fs (st.sjbData t.sjtDesc) 12 (jn.jsBlockSize - 12) t.sjtDesc = r at hsame
  obtain ⟨st', ret⟩ := r
  have htails := @introspectClasses_tails _ fs st' (List.range 5) q i hi
  rw [hsame] at htails
  split
  · next heq =>
    cases heq
    exact congrFun (congrFun hsame q) i
  · next heq =>
    cases heq
    exact htails

theorem beginTransaction_sjbData (q : ℕ) (sequence : UInt32) :
    (st.beginTransaction q sequence).1.sjbData = st.sjbData ∧
      ((st.beginTransaction q sequence).2 = 0 ∨ (st.beginTransaction q sequence).2 = -1) := by
  unfold beginTransaction
  split
  · exact ⟨rfl, Or.inr rfl⟩
  · split
    · exact ⟨rfl, Or.inr rfl⟩
    · exact ⟨rfl, Or.inl rfl⟩

theorem write_copyOf (w : UInt32 × Buf) :
    (∀ q n, st.copyOf jn w = some (q, n) →
      (st.journalRwIntrospection jn fs true w.1 w.2).1.sjbData =
        update st.sjbData q (memcpy (st.sjbData q) w.2 n)) ∧
      (st.copyOf jn w = none →
        SameTails st.sjbData (st.journalRwIntrospection jn fs true w.1 w.2).1.sjbData) := by
  have hsame : SameTails st.sjbData st.sjbData := fun _ _ _ => rfl
  unfold copyOf journalRwIntrospection copies
  cases hl : jn.lookup w.1 with
  | none => exact ⟨fun q n h => (by cases h), fun _ => hsame⟩
  | some q =>
    simp only [not_true_eq_false, if_false]
    cases hdata : isJournalFsBlock w.2 with
    | true =>
      rw [if_pos rfl]
      refine ⟨fun q' n h => ?_, fun h => by simp at h⟩
      simp only [Bool.true_or, if_true, Option.some.injEq, Prod.mk.injEq] at h
      obtain ⟨rfl, rfl⟩ := h
      rfl
    | false =>
      rw [if_neg Bool.false_ne_true, Bool.false_or]
      cases hh : parseJournalStandardHeader w.2 jn.extdesc.edBlockSize.toNat with
      | none => exact ⟨fun q n h => (by cases h), fun _ => hsame⟩
      | some header =>
        dsimp only
        by_cases hdesc : header.jshBlockType = journalDescriptorBlock
        · obtain ⟨hbegin, hret⟩ := @beginTransaction_sjbData _ st q header.jshSequence
          have hrevoke : ¬journalDescriptorBlock = journalRevokeBlock := by decide
          simp only [hdesc, hrevoke, if_true, decide_true, Bool.true_and, decide_false, Bool.or_false]
          generalize st.beginTransaction q header.jshSequence = r at hbegin hret
          obtain ⟨st', ret⟩ := r
          obtain rfl | rfl := hret
          · refine ⟨fun q' n h => ?_, fun h => by simp at h⟩
            simp only [decide_true, if_true, Option.some.injEq, Prod.mk.injEq] at h
            obtain ⟨rfl, rfl⟩ := h
            dsimp only at hbegin
            change update st'.sjbData q (memcpy (st'.sjbData q) w.2 jn.jsBlockSize) = _
            rw [hbegin]
          · refine ⟨fun q' n h => by simp at h, fun _ => ?_⟩
            dsimp only at hbegin
            change SameTails st.sjbData st'.sjbData
            rw [hbegin]
            exact hsame
        · simp only [hdesc, if_false, decide_false, Bool.false_and, Bool.false_or]
          by_cases hrevoke : header.jshBlockType = journalRevokeBlock
          · have hcommit : ¬header.jshBlockType = journalCommitBlock := by
              rw [hrevoke]
              decide
            simp only [hrevoke, decide_true, if_true]
            refine ⟨fun q' n h => ?_, fun h => by cases h⟩
            cases h
            rw [if_neg (hrevoke ▸ hcommit)]
            rfl
          · simp only [hrevoke, decide_false, if_false, Bool.false_eq_true]
            refine ⟨fun q' n h => (by cases h), fun _ => ?_⟩
            split
            · cases st.sjTransaction with
              | none => exact hsame
              | some t =>
                dsimp only
                split
                · exact hsame
                · exact commit_tails t
            · exact hsame

/-- In every history, a copy stays within the bytes of a journal block and of the written block. -/
def CopiesInBounds (st : JournalState σ) (jn : Journal) (fs : FileSystem σ) : Prop :=
  ∀ history w q n, (st.run jn fs history).copyOf jn w = some (q, n) →
    n ≤ 4096 ∧ n ≤ jn.extdesc.edBlockSize.toNat

theorem copiesInBounds_iff : st.CopiesInBounds jn fs ↔ (∀ blockid, jn.lookup blockid = none) ∨
    jn.jsBlockSize ≤ 4096 ∧ jn.jsBlockSize ≤ jn.extdesc.edBlockSize.toNat := by
  constructor
  · intro h
    by_cases hnone : ∀ blockid, jn.lookup blockid = none
    · exact Or.inl hnone
    · right
      obtain ⟨blockid, hfound⟩ := not_forall.mp hnone
      obtain ⟨q, hq⟩ := Option.ne_none_iff_exists'.mp hfound
      have hdata : isJournalFsBlock (fun _ => 0) = true := by decide
      apply h [] (blockid, fun _ => 0) q
      simp [copyOf, copies, hq, hdata]
  · rintro (hnone | hsize) history w q n hcopy
    · have hfound := (copyOf_eq_some hcopy).1
      rw [hnone] at hfound
      cases hfound
    · rw [(copyOf_eq_some hcopy).2]
      exact hsize

end JournalState

section Bounds

variable {fuel : ℕ} {extdesc : ExtDesc} {fd : UInt32 → Option Buf} {p : PartitionData}
  {F : Forest UInt32} {jsb : ExtJournalSuperblock}

def BlocklistInBounds (p : PartitionData) (extdesc : ExtDesc) (jsb : ExtJournalSuperblock) : Prop :=
  ∃ fuel journalBlock writes,
    initJournalBlocklist p.blist fuel 0 (p.ilist extdesc.edJournalInum).siBh =
      some (journalBlock, writes) ∧ ∀ w ∈ writes, w.2 < jsb.jsBlocks.toNat

theorem blocklistInBounds_iff (htree : JournalTree p extdesc F) :
    BlocklistInBounds p extdesc jsb ↔ (dataBlocks p.blist F).length ≤ jsb.jsBlocks.toNat := by
  constructor
  · rintro ⟨fuel, q, w, hw, hlt⟩
    obtain ⟨-, rfl⟩ := initJournalBlocklist_sound htree hw
    generalize dataBlocks p.blist F = ids at hlt
    by_contra hlong
    have hlast : (ids[jsb.jsBlocks.toNat], jsb.jsBlocks.toNat) ∈ ids.zipIdx 0 := by
      rw [List.mem_zipIdx_iff_getElem?]
      simp
    exact Nat.lt_irrefl _ (hlt _ hlast)
  · intro hle
    obtain ⟨fuel, hends⟩ := initJournalBlocklist_ends htree
    obtain ⟨⟨q, w⟩, hw⟩ := hends fuel le_rfl 0
    refine ⟨fuel, q, w, hw, ?_⟩
    obtain ⟨-, rfl⟩ := initJournalBlocklist_sound htree hw
    intro e he
    have := List.snd_lt_of_mem_zipIdx he
    omega

/-- Whatever the superblock and the tree of the journal are, the journal's buffers stay in bounds
exactly if the tree has at most `js_blocks` data blocks and, where it has that many and any of them
can be found, `js_block_size` is at most that of an entry and that of the file system. -/
theorem journalBuffers_inBounds_iff (extdesc : ExtDesc) (fd : UInt32 → Option Buf)
    (p : PartitionData) (F : Forest UInt32) (jsb : ExtJournalSuperblock) (fs : FileSystem σ)
    (ptd : σ) (sjbData : ℕ → Buf) (htree : JournalTree p extdesc F)
    (hread : (fd (p.ilist extdesc.edJournalInum).siBh).bind parseJournalSuperblock = some jsb) :
    (BlocklistInBounds p extdesc jsb ∧
      ∀ fuel journalBlocklist, getJournal fuel extdesc fd p = some (some (jsb, journalBlocklist)) →
        (initJournal ptd sjbData).CopiesInBounds (journalOf extdesc jsb journalBlocklist) fs) ↔
      (dataBlocks p.blist F).length ≤ jsb.jsBlocks.toNat ∧
        ((dataBlocks p.blist F).length = jsb.jsBlocks.toNat →
          (∀ blockid, (journalOf extdesc jsb (sjBlocklist ((dataBlocks p.blist F).zipIdx 0))).lookup
              blockid = none) ∨
            jsb.jsBlockSize.toNat ≤ 4096 ∧ jsb.jsBlockSize ≤ extdesc.edBlockSize) := by
  rw [blocklistInBounds_iff htree]
  apply and_congr_right
  intro _
  constructor
  · intro h hsize
    obtain ⟨fuel, hends⟩ := initJournalBlocklist_ends htree
    obtain ⟨⟨q, w⟩, hw⟩ := hends fuel le_rfl 0
    obtain ⟨rfl, rfl⟩ := initJournalBlocklist_sound htree hw
    have hget : getJournal fuel extdesc fd p =
        some (some (jsb, sjBlocklist ((dataBlocks p.blist F).zipIdx 0))) := by
      unfold getJournal
      rw [hread]
      dsimp only
      rw [hw]
      simp [hsize]
    exact JournalState.copiesInBounds_iff.mp (h _ _ hget)
  · intro h fuel journalBlocklist hget
    obtain ⟨hsize, rfl⟩ := getJournal_some htree hget
    exact JournalState.copiesInBounds_iff.mpr (h hsize.symm)

end Bounds

theorem journalBuffers_inBounds_three : ∃ jsb : ExtJournalSuperblock,
    JournalTree (threeBlocks 11 12) smallDisk (threeForest 11 12) ∧
    (some (journalSuperblock 3)).bind parseJournalSuperblock = some jsb ∧
    BlocklistInBounds (threeBlocks 11 12) smallDisk jsb ∧
    ∀ fuel journalBlocklist, getJournal fuel smallDisk (fun _ => some (journalSuperblock 3))
        (threeBlocks 11 12) = some (some (jsb, journalBlocklist)) →
      (initJournal () fun _ => bytes []).CopiesInBounds (journalOf smallDisk jsb journalBlocklist)
        emptyFiles := by
  have htree : JournalTree (threeBlocks 11 12) smallDisk (threeForest 11 12) :=
    threeBlocks_tree (by decide) (by decide)
  have hids : dataBlocks (threeBlocks 11 12).blist (threeForest 11 12) = [10, 11, 12] := rfl
  refine ⟨⟨⟨journalSignature, 4, 0⟩, 1024, 3, 0, 0, 0, 0⟩, htree, rfl, ?_⟩
  apply (journalBuffers_inBounds_iff smallDisk (fun _ => some (journalSuperblock 3))
    (threeBlocks 11 12) _ _ emptyFiles () (fun _ => bytes []) htree rfl).mpr
  rw [hids]
  exact ⟨by decide, fun _ => Or.inr (by decide)⟩

/-- A journal of two blocks by its superblock, with three in its tree. -/
theorem journal_list_overrun :
    ¬∀ (extdesc : ExtDesc) (fd : UInt32 → Option Buf) (p : PartitionData) (F : Forest UInt32)
      (jsb : ExtJournalSuperblock) (fs : FileSystem Unit) (sjbData : ℕ → Buf),
      JournalTree p extdesc F →
      (fd (p.ilist extdesc.edJournalInum).siBh).bind parseJournalSuperblock = some jsb →
      BlocklistInBounds p extdesc jsb ∧
        ∀ fuel journalBlocklist, getJournal fuel extdesc fd p = some (some (jsb, journalBlocklist)) →
          (initJournal () sjbData).CopiesInBounds (journalOf extdesc jsb journalBlocklist) fs := by
  intro hall
  have htree : JournalTree (threeBlocks 11 12) smallDisk (threeForest 11 12) :=
    threeBlocks_tree (by decide) (by decide)
  have hbounds := (hall smallDisk (fun _ => some (journalSuperblock 2)) _ _
    ⟨⟨journalSignature, 4, 0⟩, 1024, 2, 0, 0, 0, 0⟩ emptyFiles (fun _ => bytes []) htree rfl).1
  rw [blocklistInBounds_iff htree] at hbounds
  exact absurd hbounds (by decide)

end SBlktrace
