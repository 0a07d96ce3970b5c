import SBlktrace.BaseIntro
import SBlktrace.ExtStruct
import SBlktrace.JournalModel
import SBlktrace.JournalReplay
import SBlktrace.JournalCompleteness
import Mathlib

namespace SBlktrace

def vecCountFrom (buf : Buf) (offset size : ℕ) (vecCount : UInt16) : UInt16 :=
  match _h : parseJournalDescriptorEntry buf offset size with
  | none => vecCount
  | some (entry, size') =>
    if entry.jdeEntryFlags &&& journalDescLastEntry ≠ 0 then vecCount + 1
    else vecCountFrom buf
      (if entry.jdeEntryFlags &&& journalDescSameUuid ≠ 0 then offset + 8 else offset + 24) size'
      (vecCount + 1)
termination_by size
decreasing_by
  have := parseJournalDescriptorEntry_lt _h
  omega

structure Annotation where
  vecCount : UInt16
  seq : UInt32
deriving DecidableEq

/-- What `__blk_add_trace_my` records of a journal block: `size` is still all of `t->bytes` when
the walk over the tags starts behind the header. -/
def blkAddTraceMy (buffer : Option Buf) (bytes : ℕ) : Annotation :=
  match buffer with
  | none => ⟨0, 0⟩
  | some buf =>
    match parseJournalStandardHeader buf bytes with
    | none => ⟨0, 0⟩
    | some header =>
      if header.jshBlockType = journalDescriptorBlock then
        ⟨vecCountFrom buf 12 bytes 0, header.jshSequence⟩
      else if header.jshBlockType > journalDescriptorBlock ∧
          header.jshBlockType ≤ journalRevokeBlock then
        ⟨0, header.jshBlockType * 1000000 + header.jshSequence⟩
      else ⟨0, 0⟩

/-- The extents that a walk over the tags reads, ends excluded: those of the tags, and the first
8 bytes of a tag that turns out not to fit. -/
def readsFrom (buf : Buf) (offset size : ℕ) : List (ℕ × ℕ) :=
  match _h : parseJournalDescriptorEntry buf offset size with
  | none => if size < 8 then [] else [(offset, offset + 8)]
  | some (entry, size') =>
    (offset, nextOffset entry offset) ::
      if entry.jdeEntryFlags &&& journalDescLastEntry ≠ 0 then []
      else readsFrom buf (nextOffset entry offset) size'
termination_by size
decreasing_by
  have := parseJournalDescriptorEntry_lt _h
  omega

namespace JournalState

variable {σ : Type}

def enumerated (st : JournalState σ) (jn : Journal) (fs : FileSystem σ) (buf : Buf)
    (offset size journalBlock : ℕ) : List JournalDescriptorEntry :=
  match _h : parseJournalDescriptorEntry buf offset size with
  | none => []
  | some (entry, size') =>
    entry :: match st.queueTag jn fs entry (jn.next journalBlock) with
      | none => []
      | some st' =>
        if entry.jdeEntryFlags &&& journalDescLastEntry ≠ 0 then []
        else enumerated st' jn fs buf (nextOffset entry offset) size' (jn.next journalBlock)
termination_by size
decreasing_by
  have := parseJournalDescriptorEntry_lt _h
  omega

end JournalState

section Walks

variable {buf : Buf} {offset size size' : ℕ} {entry : JournalDescriptorEntry}

theorem vecCountFrom_none (h : parseJournalDescriptorEntry buf offset size = none)
    (vecCount : UInt16) : vecCountFrom buf offset size vecCount = vecCount := by
  rw [vecCountFrom]
  split
  · rfl
  · next heq => exact absurd (h.symm.trans heq) (by simp)

theorem vecCountFrom_some (h : parseJournalDescriptorEntry buf offset size = some (entry, size'))
    (vecCount : UInt16) :
    vecCountFrom buf offset size vecCount =
      if entry.jdeEntryFlags &&& journalDescLastEntry ≠ 0 then vecCount + 1
      else vecCountFrom buf (nextOffset entry offset) size' (vecCount + 1) := by
  rw [vecCountFrom]
  split
  · next heq => exact absurd (h.symm.trans heq) (by simp)
  · next heq =>
    obtain ⟨rfl, rfl⟩ := Prod.mk.inj (Option.some.inj (h.symm.trans heq))
    rfl

theorem readsFrom_none (h : parseJournalDescriptorEntry buf offset size = none) :
    readsFrom buf offset size = if size < 8 then [] else [(offset, offset + 8)] := by
  rw [readsFrom]
  split
  · rfl
  · next heq => exact absurd (h.symm.trans heq) (by simp)

theorem readsFrom_some (h : parseJournalDescriptorEntry buf offset size = some (entry, size')) :
    readsFrom buf offset size = (offset, nextOffset entry offset) ::
      if entry.jdeEntryFlags &&& journalDescLastEntry ≠ 0 then []
      else readsFrom buf (nextOffset entry offset) size' := by
  rw [readsFrom]
  split
  · next heq => exact absurd (h.symm.trans heq) (by simp)
  · next heq =>
    obtain ⟨rfl, rfl⟩ := Prod.mk.inj (Option.some.inj (h.symm.trans heq))
    rfl

theorem vecCountFrom_eq (buf : Buf) (offset size : ℕ) (vecCount : UInt16) :
    vecCountFrom buf offset size vecCount =
      vecCount + UInt16.ofNat (tagsFrom buf offset size).length := by
  induction size using Nat.strong_induction_on generalizing offset vecCount with
  | _ size ih =>
    cases hp : parseJournalDescriptorEntry buf offset size with
    | none =>
      rw [vecCountFrom_none hp, tagsFrom_none hp, List.length_nil]
      exact (UInt16.add_zero vecCount).symm
    | some p =>
      obtain ⟨entry, size'⟩ := p
      have hlt := parseJournalDescriptorEntry_lt hp
      dsimp only at hlt
      rw [vecCountFrom_some hp, tagsFrom_some hp]
      split
      · rfl
      · rw [ih size' (by omega), List.length_cons, Nat.add_comm, UInt16.ofNat_add, UInt16.add_assoc]
        rfl

theorem readsFrom_le : ∀ p ∈ readsFrom buf offset size, p.2 ≤ offset + size := by
  induction size using Nat.strong_induction_on generalizing offset with
  | _ size ih =>
    intro p hmem
    cases hp : parseJournalDescriptorEntry buf offset size with
    | none =>
      rw [readsFrom_none hp] at hmem
      split at hmem
      · exact absurd hmem (List.not_mem_nil)
      · obtain rfl := List.mem_singleton.mp hmem
        dsimp only
        omega
    | some q =>
      obtain ⟨entry, size'⟩ := q
      have hlt := parseJournalDescriptorEntry_lt hp
      have hsize := parse_size hp
      dsimp only at hlt
      rw [readsFrom_some hp, List.mem_cons] at hmem
      rcases hmem with rfl | hmem
      · dsimp only
        omega
      · split at hmem
        · exact absurd hmem (List.not_mem_nil)
        · rw [← hsize]
          exact ih size' (by omega) p hmem

theorem parse_add (n : ℕ) (h : parseJournalDescriptorEntry buf offset size = some (entry, size')) :
    parseJournalDescriptorEntry buf offset (size + n) = some (entry, size' + n) := by
  unfold parseJournalDescriptorEntry at h ⊢
  split at h
  · exact absurd h (by simp)
  · next h8 =>
    rw [if_neg (by omega)]
    dsimp only at h ⊢
    split at h
    · next hflag =>
      rw [if_pos hflag]
      split at h
      · exact absurd h (by simp)
      · obtain ⟨rfl, rfl⟩ := Prod.mk.inj (Option.some.inj h)
        rw [if_neg (by omega), show size - 24 + n = size + n - 24 by omega]
    · next hflag =>
      obtain ⟨rfl, rfl⟩ := Prod.mk.inj (Option.some.inj h)
      rw [if_neg hflag, show size - 8 + n = size + n - 8 by omega]

/-- The tags run up to one with the LAST_ENTRY flag, or leave room for 8 to 11 bytes of a tag that
takes 24. -/
inductive Terminated (buf : Buf) : ℕ → ℕ → Prop
  | last {offset size size' : ℕ} {entry : JournalDescriptorEntry}
      (h : parseJournalDescriptorEntry buf offset size = some (entry, size'))
      (hlast : entry.jdeEntryFlags &&& journalDescLastEntry ≠ 0) : Terminated buf offset size
  | room {offset size : ℕ} (h : parseJournalDescriptorEntry buf offset size = none)
      (hlow : 8 ≤ size) (hhigh : size < 12) : Terminated buf offset size
  | next {offset size size' : ℕ} {entry : JournalDescriptorEntry}
      (h : parseJournalDescriptorEntry buf offset size = some (entry, size'))
      (hlast : ¬entry.jdeEntryFlags &&& journalDescLastEntry ≠ 0)
      (hrest : Terminated buf (nextOffset entry offset) size') : Terminated buf offset size

theorem terminated_none (h : parseJournalDescriptorEntry buf offset size = none) :
    Terminated buf offset size ↔ 8 ≤ size ∧ size < 12 := by
  constructor
  · intro ht
    cases ht with
    | last hp hlast => exact absurd (h.symm.trans hp) (by simp)
    | room hp hlow hhigh => exact ⟨hlow, hhigh⟩
    | next hp hlast hrest => exact absurd (h.symm.trans hp) (by simp)
  · rintro ⟨hlow, hhigh⟩
    exact Terminated.room h hlow hhigh

theorem terminated_some (h : parseJournalDescriptorEntry buf offset size = some (entry, size')) :
    Terminated buf offset size ↔ entry.jdeEntryFlags &&& journalDescLastEntry ≠ 0 ∨
      Terminated buf (nextOffset entry offset) size' := by
  constructor
  · intro ht
    cases ht with
    | last hp hlast =>
      obtain ⟨rfl, rfl⟩ := Prod.mk.inj (Option.some.inj (h.symm.trans hp))
      exact Or.inl hlast
    | room hp hlow hhigh => exact absurd (h.symm.trans hp) (by simp)
    | next hp hlast hrest =>
      obtain ⟨rfl, rfl⟩ := Prod.mk.inj (Option.some.inj (h.symm.trans hp))
      exact Or.inr hrest
  · rintro (hlast | hrest)
    · exact Terminated.last h hlast
    · by_cases hlast : entry.jdeEntryFlags &&& journalDescLastEntry ≠ 0
      · exact Terminated.last h hlast
      · exact Terminated.next h hlast hrest

theorem parse_none_add (h : parseJournalDescriptorEntry buf offset size = none) (hlow : 8 ≤ size) :
    size < 12 ∧ parseJournalDescriptorEntry buf offset (size + 12) = none ∨
      12 ≤ size ∧ ∃ p, parseJournalDescriptorEntry buf offset (size + 12) = some p := by
  unfold parseJournalDescriptorEntry at h ⊢
  rw [if_neg (by omega)] at h
  rw [if_neg (by omega)]
  dsimp only at h ⊢
  split at h
  · next hflag =>
    rw [if_pos hflag]
    by_cases hroom : size < 12
    · exact Or.inl ⟨hroom, if_pos (by omega)⟩
    · exact Or.inr ⟨by omega, _, if_neg (by omega)⟩
  · exact absurd h (by simp)

theorem readsFrom_first (h8 : 8 ≤ size) : ∃ p ∈ readsFrom buf offset size, offset + 8 ≤ p.2 := by
  cases hp : parseJournalDescriptorEntry buf offset size with
  | none =>
    rw [readsFrom_none hp, if_neg (by omega)]
    exact ⟨_, List.mem_singleton_self _, le_refl _⟩
  | some q =>
    obtain ⟨entry, size'⟩ := q
    rw [readsFrom_some hp]
    refine ⟨_, List.mem_cons_self, ?_⟩
    dsimp only [nextOffset]
    split <;> omega

/-- The walk that is told 12 bytes too many: it sees the same tags and stays inside the block
exactly when it does not get to the end. -/
theorem walk_add_iff : Terminated buf offset size ↔
    tagsFrom buf offset (size + 12) = tagsFrom buf offset size ∧
      ∀ p ∈ readsFrom buf offset (size + 12), p.2 ≤ offset + size := by
  induction size using Nat.strong_induction_on generalizing offset with
  | _ size ih =>
    cases hp : parseJournalDescriptorEntry buf offset size with
    | some q =>
      obtain ⟨entry, size'⟩ := q
      have hlt := parseJournalDescriptorEntry_lt hp
      have hsize := parse_size hp
      dsimp only at hlt
      have hadd := parse_add 12 hp
      rw [terminated_some hp, tagsFrom_some hp, tagsFrom_some hadd, readsFrom_some hadd]
      by_cases hlast : entry.jdeEntryFlags &&& journalDescLastEntry ≠ 0
      · rw [if_pos hlast, if_pos hlast, if_pos hlast]
        refine iff_of_true (Or.inl hlast) ⟨rfl, ?_⟩
        intro p hmem
        obtain rfl := List.mem_singleton.mp hmem
        dsimp only
        omega
      · rw [if_neg hlast, if_neg hlast, if_neg hlast, or_iff_right hlast, ih size' (by omega), hsize,
          List.cons_inj_right, List.forall_mem_cons]
        refine and_congr_right (fun _ => ?_)
        exact (and_iff_right (by dsimp only; omega)).symm
    | none =>
      rw [terminated_none hp, tagsFrom_none hp]
      by_cases hlow : 8 ≤ size
      · rcases parse_none_add hp hlow with ⟨hroom, hadd⟩ | ⟨hroom, ⟨entry, size'⟩, hadd⟩
        · refine iff_of_true ⟨hlow, hroom⟩ ⟨tagsFrom_none hadd, ?_⟩
          intro p hmem
          rw [readsFrom_none hadd, if_neg (by omega)] at hmem
          obtain rfl := List.mem_singleton.mp hmem
          dsimp only
          omega
        · refine iff_of_false (by omega) ?_
          rintro ⟨htags, -⟩
          rw [tagsFrom_some hadd] at htags
          exact absurd htags (List.cons_ne_nil _ _)
      · refine iff_of_false (by omega) ?_
        rintro ⟨-, hmem⟩
        -- the 8 bytes at `offset` do not all lie in the block
        have h8 : 8 ≤ size + 12 := by omega
        obtain ⟨p, hp, hle⟩ : ∃ p ∈ readsFrom buf offset (size + 12), offset + 8 ≤ p.2 :=
          readsFrom_first h8
        have := hmem p hp
        omega

theorem tagsFrom_prefix (n : ℕ) : tagsFrom buf offset size <+: tagsFrom buf offset (size + n) := by
  induction size using Nat.strong_induction_on generalizing offset with
  | _ size ih =>
    cases hp : parseJournalDescriptorEntry buf offset size with
    | none =>
      rw [tagsFrom_none hp]
      exact List.nil_prefix
    | some q =>
      obtain ⟨entry, size'⟩ := q
      have hlt := parseJournalDescriptorEntry_lt hp
      dsimp only at hlt
      rw [tagsFrom_some hp, tagsFrom_some (parse_add n hp), List.prefix_cons_inj]
      split
      · exact List.prefix_refl _
      · exact ih size' (by omega)

end Walks

namespace JournalState

variable {σ : Type} {st : JournalState σ} {jn : Journal} {fs : FileSystem σ} {buf : Buf}
  {offset size size' q : ℕ} {entry : JournalDescriptorEntry}

theorem enumerated_none (h : parseJournalDescriptorEntry buf offset size = none) :
    st.enumerated jn fs buf offset size q = [] := by
  rw [enumerated]
  split
  · rfl
  · next heq => exact absurd (h.symm.trans heq) (by simp)

theorem enumerated_some (h : parseJournalDescriptorEntry buf offset size = some (entry, size')) :
    st.enumerated jn fs buf offset size q =
      entry :: match st.queueTag jn fs entry (jn.next q) with
        | none => []
        | some st' =>
          if entry.jdeEntryFlags &&& journalDescLastEntry ≠ 0 then []
          else st'.enumerated jn fs buf (nextOffset entry offset) size' (jn.next q) := by
  rw [enumerated]
  split
  · next heq => exact absurd (h.symm.trans heq) (by simp)
  · next heq =>
    obtain ⟨rfl, rfl⟩ := Prod.mk.inj (Option.some.inj (h.symm.trans heq))
    rfl

def takesItem (st : JournalState σ) (jn : Journal) (fs : FileSystem σ)
    (entry : JournalDescriptorEntry) : Bool :=
  (classified jn (fs.blist st.ptd) entry).isSome

theorem queueTag_cases (st : JournalState σ) (jn : Journal) (fs : FileSystem σ)
    (entry : JournalDescriptorEntry) (q : ℕ) :
    (st.takesItem jn fs entry ∧ st.freeJournalItems = 0 ∧ st.queueTag jn fs entry q = none) ∨
    (st.takesItem jn fs entry ∧ ∃ st', st.queueTag jn fs entry q = some st' ∧ st'.ptd = st.ptd ∧
      st'.freeJournalItems + 1 = st.freeJournalItems) ∨
    (¬st.takesItem jn fs entry ∧ st.queueTag jn fs entry q = some st) := by
  unfold takesItem classified queueTag
  cases initBlockdesc2 entry.jdeFsBlock jn.extdesc with
  | none => exact Or.inr (Or.inr ⟨by simp, rfl⟩)
  | some blockdesc =>
    dsimp only
    split
    · by_cases hfree : st.freeJournalItems = 0
      · exact Or.inl ⟨rfl, hfree, if_pos hfree⟩
      · exact Or.inr (Or.inl ⟨rfl, _, if_neg hfree, rfl, by dsimp only; omega⟩)
    · exact Or.inr (Or.inr ⟨by simp, rfl⟩)

theorem enumerated_prefix :
    st.enumerated jn fs buf offset size q <+: tagsFrom buf offset size := by
  induction size using Nat.strong_induction_on generalizing st offset q with
  | _ size ih =>
    cases hp : parseJournalDescriptorEntry buf offset size with
    | none =>
      rw [enumerated_none hp]
      exact List.nil_prefix
    | some p =>
      obtain ⟨entry, size'⟩ := p
      have hlt := parseJournalDescriptorEntry_lt hp
      dsimp only at hlt
      rw [enumerated_some hp, tagsFrom_some hp, List.prefix_cons_inj]
      split
      · exact List.nil_prefix
      · split
        · exact List.prefix_refl _
        · exact ih size' (by omega)

theorem enumerated_eq_iff : st.enumerated jn fs buf offset size q = tagsFrom buf offset size ↔
    (tagsFrom buf offset size).dropLast.countP (st.takesItem jn fs) ≤ st.freeJournalItems := by
  induction size using Nat.strong_induction_on generalizing st offset q with
  | _ size ih =>
    cases hp : parseJournalDescriptorEntry buf offset size with
    | none =>
      rw [enumerated_none hp, tagsFrom_none hp]
      exact iff_of_true rfl (Nat.zero_le _)
    | some p =>
      obtain ⟨entry, size'⟩ := p
      have hlt := parseJournalDescriptorEntry_lt hp
      dsimp only at hlt
      rw [enumerated_some hp, tagsFrom_some hp, List.cons_inj_right]
      by_cases hlast : entry.jdeEntryFlags &&& journalDescLastEntry ≠ 0
      · rw [if_pos hlast]
        refine iff_of_true ?_ (Nat.zero_le _)
        cases st.queueTag jn fs entry (jn.next q) with
        | none => rfl
        | some st' => exact if_pos hlast
      rw [if_neg hlast]
      by_cases hnil : tagsFrom buf (nextOffset entry offset) size' = []
      · rw [hnil]
        refine iff_of_true ?_ (Nat.zero_le _)
        cases st.queueTag jn fs entry (jn.next q) with
        | none => rfl
        | some st' =>
          have hprefix : st'.enumerated jn fs buf (nextOffset entry offset) size' (jn.next q) <+:
              tagsFrom buf (nextOffset entry offset) size' := enumerated_prefix
          rw [hnil, List.prefix_nil] at hprefix
          exact (if_neg hlast).trans hprefix
      rw [List.dropLast_cons_of_ne_nil hnil, List.countP_cons]
      rcases queueTag_cases st jn fs entry (jn.next q) with
        ⟨htakes, hfree, hq⟩ | ⟨htakes, st', hq, hptd, hfree⟩ | ⟨htakes, hq⟩
      · rw [hq, if_pos htakes, hfree]
        exact iff_of_false (fun hcon => hnil hcon.symm) (by omega)
      · have hsame : st'.takesItem jn fs = st.takesItem jn fs := by
          funext e
          rw [takesItem, takesItem, hptd]
        rw [hq, if_pos htakes]
        dsimp only
        rw [if_neg hlast, ih size' (by omega), hsame]
        omega
      · rw [hq, if_neg htakes]
        dsimp only
        rw [if_neg hlast, ih size' (by omega), Nat.add_zero]

end JournalState

/-- Both walks over the descriptor `buf` see the same tags, the kernel records their number, and
neither reads outside the block. -/
structure WalksAgree {σ : Type} (st : JournalState σ) (jn : Journal) (fs : FileSystem σ) (buf : Buf)
    (journalBlock : ℕ) : Prop where
  count : (blkAddTraceMy (some buf) jn.jsBlockSize).vecCount.toNat =
    (st.enumerated jn fs buf 12 (jn.jsBlockSize - 12) journalBlock).length
  order : tagsFrom buf 12 jn.jsBlockSize =
    st.enumerated jn fs buf 12 (jn.jsBlockSize - 12) journalBlock
  kernelInside : ∀ p ∈ readsFrom buf 12 jn.jsBlockSize, p.2 ≤ jn.jsBlockSize
  userInside : ∀ p ∈ readsFrom buf 12 (jn.jsBlockSize - 12), p.2 ≤ jn.jsBlockSize

theorem parseHeader_size {buf : Buf} {size : ℕ} {header : JournalStandardHeader}
    (h : parseJournalStandardHeader buf size = some header) : 12 ≤ size := by
  unfold parseJournalStandardHeader at h
  split at h
  · exact absurd h (by simp)
  · omega

theorem blkAddTraceMy_descriptor {buf : Buf} {bytes : ℕ} {header : JournalStandardHeader}
    (h : parseJournalStandardHeader buf bytes = some header)
    (htype : header.jshBlockType = journalDescriptorBlock) :
    blkAddTraceMy (some buf) bytes =
      ⟨UInt16.ofNat (tagsFrom buf 12 bytes).length, header.jshSequence⟩ := by
  unfold blkAddTraceMy
  dsimp only
  rw [h]
  dsimp only
  rw [if_pos htype, vecCountFrom_eq, UInt16.zero_add]

section Agreement

variable {σ : Type} {st : JournalState σ} {jn : Journal} {fs : FileSystem σ} {buf : Buf}
  {journalBlock : ℕ}

theorem WalksAgree.walks (h12 : 12 ≤ jn.jsBlockSize) (h : WalksAgree st jn fs buf journalBlock) :
    Terminated buf 12 (jn.jsBlockSize - 12) ∧
      st.enumerated jn fs buf 12 (jn.jsBlockSize - 12) journalBlock = jn.tagsOf buf := by
  obtain ⟨size, hsize⟩ : ∃ size, jn.jsBlockSize = size + 12 := ⟨jn.jsBlockSize - 12, by omega⟩
  have hsub : jn.jsBlockSize - 12 = size := by omega
  obtain ⟨-, horder, hkernel, -⟩ := h
  rw [hsub, hsize] at horder
  rw [hsize] at hkernel
  rw [Journal.tagsOf, hsub]
  have hlong : tagsFrom buf 12 size <+: tagsFrom buf 12 (size + 12) := tagsFrom_prefix 12
  have hshort : st.enumerated jn fs buf 12 size journalBlock <+: tagsFrom buf 12 size :=
    JournalState.enumerated_prefix
  have hall : st.enumerated jn fs buf 12 size journalBlock = tagsFrom buf 12 size := by
    apply hshort.eq_of_length_le
    rw [← horder]
    exact hlong.length_le
  refine ⟨walk_add_iff.mpr ⟨horder.trans hall, ?_⟩, hall⟩
  rwa [Nat.add_comm 12 size]

theorem Terminated.walks (h12 : 12 ≤ jn.jsBlockSize)
    (h : Terminated buf 12 (jn.jsBlockSize - 12)) :
    tagsFrom buf 12 jn.jsBlockSize = jn.tagsOf buf ∧
      ∀ p ∈ readsFrom buf 12 jn.jsBlockSize, p.2 ≤ jn.jsBlockSize := by
  have h' := walk_add_iff.mp h
  rwa [show jn.jsBlockSize - 12 + 12 = jn.jsBlockSize by omega,
    show 12 + (jn.jsBlockSize - 12) = jn.jsBlockSize by omega] at h'

end Agreement

theorem walksAgree_iff {σ : Type} (st : JournalState σ) (jn : Journal) (fs : FileSystem σ)
    (buf : Buf) (journalBlock : ℕ) (header : JournalStandardHeader)
    (h : parseJournalStandardHeader buf jn.jsBlockSize = some header)
    (htype : header.jshBlockType = journalDescriptorBlock) :
    WalksAgree st jn fs buf journalBlock ↔
      Terminated buf 12 (jn.jsBlockSize - 12) ∧ (jn.tagsOf buf).length < 65536 ∧
        (jn.tagsOf buf).dropLast.countP (st.takesItem jn fs) ≤ st.freeJournalItems := by
  have h12 := parseHeader_size h
  constructor
  · intro hagree
    obtain ⟨hterm, hall⟩ := hagree.walks h12
    have hcount := hagree.count
    rw [blkAddTraceMy_descriptor h htype, (hterm.walks h12).1, UInt16.toNat_ofNat', hall] at hcount
    refine ⟨hterm, ?_, JournalState.enumerated_eq_iff.mp hall⟩
    have := Nat.mod_lt (jn.tagsOf buf).length (by decide : 0 < 2 ^ 16)
    omega
  · rintro ⟨hterm, hcount, hitems⟩
    obtain ⟨htags, hkernel⟩ := hterm.walks h12
    have hall : st.enumerated jn fs buf 12 (jn.jsBlockSize - 12) journalBlock = jn.tagsOf buf :=
      JournalState.enumerated_eq_iff.mpr hitems
    refine ⟨?_, htags.trans hall.symm, hkernel, ?_⟩
    · rw [blkAddTraceMy_descriptor h htype, htags, UInt16.toNat_ofNat', hall]
      exact Nat.mod_eq_of_lt hcount
    · rw [show jn.jsBlockSize = 12 + (jn.jsBlockSize - 12) by omega]
      intro p hp
      rw [Nat.add_sub_cancel_left] at hp
      exact readsFrom_le p hp

theorem walksAgree_iff_oneTag :
    parseJournalStandardHeader (oneTag 0xf4) smallJournal.jsBlockSize = some ⟨0xc03b3998, 1, 7⟩ ∧
      (WalksAgree (initJournal () fun _ => bytes []) smallJournal emptyFiles (oneTag 0xf4) 1 ↔
        Terminated (oneTag 0xf4) 12 (smallJournal.jsBlockSize - 12) ∧
          (smallJournal.tagsOf (oneTag 0xf4)).length < 65536 ∧
          (smallJournal.tagsOf (oneTag 0xf4)).dropLast.countP
              ((initJournal () fun _ => bytes []).takesItem smallJournal emptyFiles) ≤
            (initJournal () fun _ => bytes []).freeJournalItems) :=
  ⟨by decide, walksAgree_iff (initJournal () fun _ => bytes []) smallJournal emptyFiles
    (oneTag 0xf4) 1 ⟨0xc03b3998, 1, 7⟩ (by decide) (by decide)⟩

theorem readui32be_zero {buf : Buf} {offset : ℕ} (hzero : ∀ i, offset ≤ i → buf i = 0) :
    readui32be buf offset = 0 := by
  rw [readui32be, hzero offset (by omega), hzero (offset + 1) (by omega),
    hzero (offset + 2) (by omega), hzero (offset + 3) (by omega)]
  rfl

theorem terminated_zeroes {buf : Buf} {offset size : ℕ} (h : Terminated buf offset size)
    (hzero : ∀ i, offset ≤ i → buf i = 0) : 8 ≤ size % 24 ∧ size % 24 < 12 := by
  have hparse : ∀ {offset size size' : ℕ} {entry : JournalDescriptorEntry},
      (∀ i, offset ≤ i → buf i = 0) →
      parseJournalDescriptorEntry buf offset size = some (entry, size') →
      entry = ⟨0, 0⟩ ∧ size = size' + 24 := by
    intro offset size size' entry hz hp
    have hsize := parse_size hp
    unfold parseJournalDescriptorEntry at hp
    rw [readui32be_zero hz, readui32be_zero (fun i hi => hz i (by omega))] at hp
    split at hp
    · exact absurd hp (by simp)
    · dsimp only at hp
      rw [if_pos (by decide)] at hp
      split at hp
      · exact absurd hp (by simp)
      · obtain ⟨rfl, rfl⟩ := Prod.mk.inj (Option.some.inj hp)
        exact ⟨rfl, by omega⟩
  induction h with
  | last hp hlast =>
    obtain ⟨rfl, -⟩ := hparse hzero hp
    exact absurd hlast (by decide)
  | room hp hlow hhigh => omega
  | @next offset size size' entry hp hlast hrest ih =>
    obtain ⟨rfl, rfl⟩ := hparse hzero hp
    rw [Nat.add_mod_right]
    apply ih
    intro i hi
    apply hzero
    rw [nextOffset, if_neg (by decide)] at hi
    omega

/-- A descriptor whose tags fill it without a LAST_ENTRY flag. -/
theorem unterminated_descriptor : ¬∀ (st : JournalState Unit) (jn : Journal) (fs : FileSystem Unit)
    (buf : Buf) (journalBlock : ℕ) (header : JournalStandardHeader),
    parseJournalStandardHeader buf jn.jsBlockSize = some header →
    header.jshBlockType = journalDescriptorBlock → WalksAgree st jn fs buf journalBlock := by
  intro hall
  let full : Buf := bytes [0xc0, 0x3b, 0x39, 0x98, 0, 0, 0, 1, 0, 0, 0, 7]
  have hagree := hall (initJournal () fun _ => bytes []) smallJournal emptyFiles full 1
    ⟨0xc03b3998, 1, 7⟩ (by decide) (by decide)
  have hzero : ∀ i, 12 ≤ i → full i = 0 := by
    intro i hi
    exact List.getD_eq_default _ _ hi
  have hroom := terminated_zeroes (hagree.walks (by decide)).1 hzero
  exact absurd hroom (by decide)

end SBlktrace
