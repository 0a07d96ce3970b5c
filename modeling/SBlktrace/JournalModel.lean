import SBlktrace.BaseIntro
import SBlktrace.ExtStruct
import Mathlib

namespace SBlktrace

open Function

structure Sblock where
  sbLevel : UInt8
  sbOffset : UInt32
  sbSib : UInt32
  sbBh : UInt32
  sbInode : UInt32
deriving DecidableEq

structure JournalStandardHeader where
  jshSignature : UInt32
  jshBlockType : UInt32
  jshSequence : UInt32
deriving DecidableEq

structure JournalDescriptorEntry where
  jdeFsBlock : UInt32
  jdeEntryFlags : UInt32
deriving DecidableEq

structure SjournalTransaction where
  sjtSeq : UInt32
  sjtDesc : ℕ

structure JournalItem where
  journalFlags : UInt32
  blockdesc : BlockDesc
  journalBlock : ℕ

def journalSignature : UInt32 := 0xc03b3998

def journalDescriptorBlock : UInt32 := 1

def journalCommitBlock : UInt32 := 2

def journalRevokeBlock : UInt32 := 5

def journalDescEscape : UInt32 := 0x01

def journalDescSameUuid : UInt32 := 0x02

def journalDescLastEntry : UInt32 := 0x08

def journalFreeTransaction : ℕ := 16

def freeJournalItem : ℕ := 1024

def isJournalFsBlock (buf : Buf) : Bool := readui32be buf 0 ≠ journalSignature

def parseJournalStandardHeader (buf : Buf) (size : ℕ) : Option JournalStandardHeader :=
  if size < 12 then none
  else
    let header : JournalStandardHeader := ⟨readui32be buf 0, readui32be buf 4, readui32be buf 8⟩
    if header.jshSignature ≠ journalSignature then none
    else if header.jshBlockType = 0 ∨ header.jshBlockType > journalRevokeBlock then none
    else some header

/-- The entry at `offset` and what is left of `size`, `none` where the source returns `-1`. -/
def parseJournalDescriptorEntry (buf : Buf) (offset size : ℕ) :
    Option (JournalDescriptorEntry × ℕ) :=
  if size < 8 then none
  else
    let entry : JournalDescriptorEntry := ⟨readui32be buf offset, readui32be buf (offset + 4)⟩
    if entry.jdeEntryFlags &&& journalDescSameUuid = 0 then
      if size < 24 then none else some (entry, size - 24)
    else some (entry, size - 8)

theorem parseJournalDescriptorEntry_lt {buf : Buf} {offset size : ℕ}
    {p : JournalDescriptorEntry × ℕ} (h : parseJournalDescriptorEntry buf offset size = some p) :
    p.2 + 8 ≤ size := by
  unfold parseJournalDescriptorEntry at h
  split at h
  · exact absurd h (by simp)
  · dsimp only at h
    split at h
    · split at h
      · exact absurd h (by simp)
      · obtain rfl := Option.some.inj h
        dsimp only
        omega
    · obtain rfl := Option.some.inj h
      dsimp only
      omega

def searchFrom (blockid : UInt32) (journalBlocklist : ℕ → UInt32) (ll ul : ℤ) : Option ℕ :=
  if ll ≤ ul then
    let mid := ll + (ul - ll) / 2
    if blockid < journalBlocklist mid.toNat then
      searchFrom blockid journalBlocklist ll (mid - 1)
    else if blockid > journalBlocklist mid.toNat then
      searchFrom blockid journalBlocklist (mid + 1) ul
    else some mid.toNat
  else none
termination_by (ul + 1 - ll).toNat
decreasing_by all_goals omega

def getJournalblockFromDatablock (blockid : UInt32) (journalBlocklist : ℕ → UInt32) (size : ℕ) :
    Option ℕ :=
  if blockid < journalBlocklist 0 ∨ blockid > journalBlocklist (size - 1) then none
  else searchFrom blockid journalBlocklist 0 (size - 1)

/-- What the journal's superblock and block list say, which no write changes. -/
structure Journal where
  jsBlockSize : ℕ
  jsBlocks : ℕ
  sjbBlockid : ℕ → UInt32
  extdesc : ExtDesc

/-- The file system that is introspected: its blocks, and `ext2_introspection` of a write. -/
structure FileSystem (σ : Type) where
  blist : σ → UInt32 → Sblock
  ext2Introspection : σ → BlockDesc → Buf → σ × ℤ

/-- The free transactions and the free items are counted, `queues i` are the items from `head[i]`
to `tail[i]`. `introspected` logs what `ext2_introspection` was called with, and the journal block
it was taken from. -/
structure JournalState (σ : Type) where
  ptd : σ
  sjTransaction : Option SjournalTransaction
  freeTrans : ℕ
  sjbData : ℕ → Buf
  freeJournalItems : ℕ
  queues : ℕ → List JournalItem
  introspected : List (BlockDesc × ℕ × Buf)

namespace Journal

def lookup (jn : Journal) (blockid : UInt32) : Option ℕ :=
  getJournalblockFromDatablock blockid jn.sjbBlockid jn.jsBlocks

def next (jn : Journal) (journalBlock : ℕ) : ℕ :=
  if journalBlock = jn.jsBlocks - 1 then 1 else journalBlock + 1

end Journal

variable {σ : Type}

def getJournalType (blist : UInt32 → Sblock) (blockid : UInt32) (blocktype : BlockType) : ℤ :=
  match blocktype with
  | .inodebitmap => 0
  | .blockbitmap => 0
  | .datablock =>
    if (blist blockid).sbInode ≠ 0 then
      if (blist blockid).sbLevel ≠ 0 then 2 else 4
    else 1
  | .inodetable => 3
  | _ => -1

namespace JournalState

def beginTransaction (st : JournalState σ) (journalBlock : ℕ) (sequence : UInt32) :
    JournalState σ × ℤ :=
  match st.sjTransaction with
  | some _ => (st, -1)
  | none =>
    if st.freeTrans = 0 then (st, -1)
    else ({ st with
      sjTransaction := some ⟨sequence, journalBlock⟩
      freeTrans := st.freeTrans - 1 }, 0)

def endTransaction (st : JournalState σ) : JournalState σ × ℤ :=
  ({ st with sjTransaction := none, freeTrans := st.freeTrans + 1 }, 0)

def queueTag (st : JournalState σ) (jn : Journal) (fs : FileSystem σ)
    (entry : JournalDescriptorEntry) (journalBlock : ℕ) : Option (JournalState σ) :=
  match initBlockdesc2 entry.jdeFsBlock jn.extdesc with
  | none => some st
  | some blockdesc =>
    let i := getJournalType (fs.blist st.ptd) blockdesc.bdId blockdesc.bdType
    if i ≥ 0 ∧ i < 5 then
      if st.freeJournalItems = 0 then none
      else some { st with
        queues := update st.queues i.toNat
          (st.queues i.toNat ++ [⟨entry.jdeEntryFlags, blockdesc, journalBlock⟩])
        freeJournalItems := st.freeJournalItems - 1 }
    else some st

def queueTags (st : JournalState σ) (jn : Journal) (fs : FileSystem σ) (buf : Buf)
    (offset size journalBlock : ℕ) : JournalState σ × ℤ :=
  match _h : parseJournalDescriptorEntry buf offset size with
  | none => (st, 0)
  | some (entry, size') =>
    match st.queueTag jn fs entry (jn.next journalBlock) with
    | none => (st, -1)
    | some st' =>
      if entry.jdeEntryFlags &&& journalDescLastEntry ≠ 0 then (st', 0)
      else queueTags st' jn fs buf
        (if entry.jdeEntryFlags &&& journalDescSameUuid ≠ 0 then offset + 8 else offset + 24) size'
        (jn.next journalBlock)
termination_by size
decreasing_by
  have := parseJournalDescriptorEntry_lt _h
  omega

def setData (st : JournalState σ) (journalBlock : ℕ) (buf : Buf) : JournalState σ :=
  { st with sjbData := update st.sjbData journalBlock buf }

def introspectItem (st : JournalState σ) (fs : FileSystem σ) (item : JournalItem) :
    JournalState σ :=
  let escaped : Bool := item.journalFlags &&& journalDescEscape ≠ 0
  let st := if escaped then st.setData item.journalBlock
      (writeui32le (st.sjbData item.journalBlock) 0x98c93bc0) else st
  let buf := st.sjbData item.journalBlock
  let st := { st with
    ptd := (fs.ext2Introspection st.ptd item.blockdesc buf).1
    introspected := st.introspected ++ [(item.blockdesc, item.journalBlock, buf)] }
  if escaped then st.setData item.journalBlock
    (writeui32le (st.sjbData item.journalBlock) 0) else st

def introspectClass (st : JournalState σ) (fs : FileSystem σ) (i : ℕ) : JournalState σ :=
  let st' := (st.queues i).foldl (fun st item => st.introspectItem fs item) st
  { st' with
    queues := update st'.queues i []
    freeJournalItems := st'.freeJournalItems + (st'.queues i).length }

def commit (st : JournalState σ) (jn : Journal) (fs : FileSystem σ)
    (transaction : SjournalTransaction) : JournalState σ × ℤ :=
  match st.queueTags jn fs (st.sjbData transaction.sjtDesc) 12 (jn.jsBlockSize - 12)
      transaction.sjtDesc with
  | (st, -1) => (st, -1)
  | (st, _) => ((List.range 5).foldl (fun st i => st.introspectClass fs i) st).endTransaction

def journalRwIntrospection (st : JournalState σ) (jn : Journal) (fs : FileSystem σ) (op : Bool)
    (bdId : UInt32) (buf : Buf) : JournalState σ × ℤ :=
  match jn.lookup bdId with
  | none => (st, 0)
  | some journalBlock =>
    if ¬op then (st, 0)
    else if isJournalFsBlock buf then
      (st.setData journalBlock (memcpy (st.sjbData journalBlock) buf jn.jsBlockSize), 0)
    else
      match parseJournalStandardHeader buf jn.extdesc.edBlockSize.toNat with
      | none => (st, -1)
      | some header =>
        if header.jshBlockType = journalDescriptorBlock then
          match st.beginTransaction journalBlock header.jshSequence with
          | (st, 0) =>
            (st.setData journalBlock (memcpy (st.sjbData journalBlock) buf jn.jsBlockSize), 0)
          | (st, _) => (st, -1)
        else if header.jshBlockType = journalCommitBlock then
          match st.sjTransaction with
          | none => (st, 0)
          | some transaction =>
            if transaction.sjtSeq ≠ header.jshSequence then (st, -1)
            else st.commit jn fs transaction
        else if header.jshBlockType = journalRevokeBlock then
          (st.setData journalBlock (memcpy (st.sjbData journalBlock) buf jn.jsBlockSize), 0)
        else (st, 0)

def run (st : JournalState σ) (jn : Journal) (fs : FileSystem σ) (writes : List (UInt32 × Buf)) :
    JournalState σ :=
  writes.foldl (fun st w => (st.journalRwIntrospection jn fs true w.1 w.2).1) st

end JournalState

def initJournal (ptd : σ) (sjbData : ℕ → Buf) : JournalState σ where
  ptd := ptd
  sjTransaction := none
  freeTrans := journalFreeTransaction
  sjbData := sjbData
  freeJournalItems := freeJournalItem
  queues _ := []
  introspected := []

end SBlktrace
