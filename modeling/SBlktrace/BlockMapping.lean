import SBlktrace.FileCopy
import Mathlib

namespace SBlktrace

open PartitionData

section Unmap

mutual

/-- The loops are `none` when they do not end. -/
def unmapBlock : ℕ → UInt32 → UInt32 → PartitionData → Option PartitionData
  | 0, _, _, _ => none
  | fuel + 1, blockid, inodeid, p =>
    let sblock := p.blist blockid
    if inodeid ≠ sblock.sbInode then some p
    else
      let p := p.setBlock blockid { sblock with sbInode := 0, sbOffset := 0 }
      let p := p.decache blockid
      if sblock.sbLevel = 0 ∧ sblock.sbBh ≠ 0 then some p
      else do
        let p ← unmapSiblings fuel (fun _ => inodeid) sblock.sbBh p
        some (p.setBlock blockid { p.blist blockid with sbBh := 0, sbSib := 0, sbLevel := 0 })

def unmapSiblings : ℕ → (PartitionData → UInt32) → UInt32 → PartitionData → Option PartitionData
  | 0, _, _, _ => none
  | fuel + 1, inodeid, blockid, p =>
    if blockid = 0 then some p
    else do
      let tblockid := (p.blist blockid).sbSib
      let p' ← unmapBlock fuel blockid (inodeid p) p
      unmapSiblings fuel inodeid tblockid p'

end

end Unmap

/-- The loops that find how far the links are those of before. `none` where a link is not a block; else
the links that are left, from which index on, the last block that stays and the first that goes. -/
def keepLinks (blist : UInt32 → SBlock) (expired : UInt32 → Bool) :
    List UInt32 → ℕ → UInt32 → Option UInt32 →
      Option (ℕ × List UInt32 × Option UInt32 × Option UInt32)
  | [], i, _, current => some (i, [], current, none)
  | link :: rest, i, blockid, current =>
    if expired link then none
    else if link ≠ 0 then
      if blockid ≠ link then
        some (i, link :: rest, current, if blockid ≠ 0 then some blockid else none)
      else keepLinks blist expired rest (i + 1) (blist blockid).sbSib (some blockid)
    else keepLinks blist expired rest (i + 1) blockid current

def oldBlock (blist : UInt32 → SBlock) : Option UInt32 → Option UInt32 → UInt32
  | _, some ocurrent => ocurrent
  | some current, none => (blist current).sbSib
  | none, none => 0

def linkOffset (extdesc : ExtDesc) (level : UInt8) (offset : UInt32) (i : ℕ) : UInt32 :=
  if level = 0 then offset + UInt32.ofNat i
  else if level = 1 then offset + 1 + UInt32.ofNat i * (1 + extdesc.edEntriesPerBlock)
  else
    offset + 1 +
      UInt32.ofNat i * (1 + extdesc.edEntriesPerBlock * (1 + extdesc.edEntriesPerBlock))

def mapLinked (remap : UInt32 → Buf → PartitionData → Option PartitionData) (link offset : UInt32)
    (p : PartitionData) : Option PartitionData :=
  let p := p.setBlock link { p.blist link with sbOffset := offset }
  if (p.blist link).sbLevel = 0 then some (p.setBh link 0)
  else
    match p.dataCache link with
    | some buf => remap link buf p
    | none => some p

def remapLinks (extdesc : ExtDesc) (unmap : UInt32 → UInt32 → PartitionData → Option PartitionData)
    (remap : UInt32 → Buf → PartitionData → Option PartitionData) (inodeid sblock : UInt32) :
    List UInt32 → ℕ → Option UInt32 → PartitionData → Option PartitionData
  | [], _, current, p => some (p.endChain current)
  | link :: rest, i, current, p =>
    if extdesc.sb.sBlocksCount ≤ link then some p
    else if link ≠ 0 then do
      let p ← if (p.blist link).sbInode ≠ 0 then unmap link (p.blist sblock).sbInode p else some p
      let p := p.linkNext inodeid (some sblock) current link
      let p := p.setBlock link
        { p.blist link with sbLevel := (p.blist sblock).sbLevel - 1, sbInode := inodeid }
      let offset := linkOffset extdesc (p.blist link).sbLevel (p.blist sblock).sbOffset i
      let p ← mapLinked remap link offset p
      remapLinks extdesc unmap remap inodeid sblock rest (i + 1) (some link) p
    else remapLinks extdesc unmap remap inodeid sblock rest (i + 1) current p

def remapBlock (extdesc : ExtDesc) (inodeid : UInt32) :
    ℕ → UInt32 → Buf → PartitionData → Option PartitionData
  | 0, _, _, _ => none
  | fuel + 1, sblock, buf, p =>
    match keepLinks p.blist (fun link => extdesc.sb.sBlocksCount ≤ link) (links extdesc buf) 0
        (p.blist sblock).sbBh none with
    | none => some p
    | some (i, rest, current, ocurrent) => do
      let p ← unmapSiblings fuel (fun p => (p.blist sblock).sbInode)
        (oldBlock p.blist current ocurrent) p
      remapLinks extdesc (unmapBlock fuel) (remapBlock extdesc inodeid fuel) inodeid sblock rest i
        current p

def removeSinode (fuel : ℕ) (inodeid : UInt32) (p : PartitionData) : Option PartitionData := do
  let p := p.setInode inodeid { p.ilist inodeid with siMode := 0, siSize := 0 }
  let p ← unmapSiblings fuel (fun _ => inodeid) (p.ilist inodeid).siBh p
  some (p.setSiBh inodeid 0)

def diffOffset (extdesc : ExtDesc) (i : ℕ) : UInt32 :=
  if i < 12 then UInt32.ofNat i
  else if i = 12 then 12
  else if i = 13 then UInt32.ofNat i + extdesc.edEntriesPerBlock
  else UInt32.ofNat i + (extdesc.edEntriesPerBlock + 1) * extdesc.edEntriesPerBlock

/-- The loops of `diff_inode` that link the blocks; `false` where the inode is removed. -/
def diffLinks (extdesc : ExtDesc) (fuel : ℕ) (inodeid : UInt32) :
    List UInt32 → ℕ → Option UInt32 → PartitionData → Option (PartitionData × Bool)
  | [], _, current, p => some (p.endChain current, true)
  | link :: rest, i, current, p =>
    if link ≠ 0 then
      if extdesc.sb.sBlocksCount ≤ link then
        (removeSinode fuel inodeid (p.endChain current)).map fun p => (p, false)
      else do
        let owner := (p.blist link).sbInode
        let p ← if owner ≠ 0 then unmapBlock fuel link owner p else some p
        let p := p.linkNext inodeid none current link
        let p := p.setBlock link
          { p.blist link with
            sbLevel := if i < 12 then 0 else UInt8.ofNat (i - 11)
            sbInode := inodeid }
        let p ← mapLinked (remapBlock extdesc inodeid fuel) link (diffOffset extdesc i) p
        diffLinks extdesc fuel inodeid rest (i + 1) (some link) p
    else diffLinks extdesc fuel inodeid rest (i + 1) current p

def equalInodeTime (ia ib : ExtInode) : Bool :=
  ia.iCtime = ib.iCtime && ia.iMtime = ib.iMtime && ia.iDtime = ib.iDtime

def equalInodeBlocks (ia ib : ExtInode) : Bool := List.ofFn ia.iBlock = List.ofFn ib.iBlock

def equalSinodeInodeTime (sia : SInode) (ib : ExtInode) : Bool :=
  sia.siCtime = ib.iCtime && sia.siMtime = ib.iMtime

def equalSinodeInodeBlocks (_sia : SInode) (_ib : ExtInode) : Bool := false

def sinodeOf (inode : ExtInode) (siBh : UInt32) : SInode where
  siMode := inode.iMode
  siSize := inode.iSize
  siCtime := inode.iCtime
  siMtime := inode.iMtime
  siDtime := inode.iDtime
  siBh := siBh

def copyRegular (extdesc : ExtDesc) (fuel : ℕ) (inodeid : UInt32) :
    PartitionData × Bool → Option PartitionData
  | (p, true) =>
    if inodeIsregular (p.ilist inodeid).siMode then copyInode extdesc fuel inodeid p else some p
  | (p, false) => some p

def diffInode (extdesc : ExtDesc) (fuel : ℕ) (inodeid : UInt32) (inode : ExtInode)
    (oinode : Option ExtInode) (p : PartitionData) : Option PartitionData :=
  let inode :=
    if !inodeIsdir inode.iMode && !inodeIsregular inode.iMode then { inode with iMode := 0 } else inode
  let sinode := p.ilist inodeid
  if sinode.siMode ≠ 0 then
    if inode.iCtime ≤ inode.iDtime ∨ inode.iMode = 0 then do
      let p ← removeSinode fuel inodeid p
      some (p.setInode inodeid { p.ilist inodeid with siDtime := inode.iDtime })
    else if (oinode.any fun oinode => equalInodeTime oinode inode && equalInodeBlocks oinode inode) ||
        equalSinodeInodeTime sinode inode then
      some p
    else
      let p := p.setInode inodeid (sinodeOf inode sinode.siBh)
      if (oinode.any fun oinode => equalInodeBlocks oinode inode) ||
          equalSinodeInodeBlocks sinode inode then
        copyRegular extdesc fuel inodeid (p, true)
      else
        match keepLinks p.blist (fun link => link ≠ 0 ∧ extdesc.sb.sBlocksCount ≤ link)
            (List.ofFn inode.iBlock) 0 sinode.siBh none with
        | none => removeSinode fuel inodeid p
        | some (i, rest, current, ocurrent) => do
          let p ← unmapSiblings fuel (fun _ => inodeid) (oldBlock p.blist current ocurrent) p
          let mapped ← diffLinks extdesc fuel inodeid rest i current p
          copyRegular extdesc fuel inodeid mapped
  else if inode.iDtime < inode.iCtime ∧ inode.iMode ≠ 0 then do
    let p := p.setInode inodeid (sinodeOf inode 0)
    let mapped ← diffLinks extdesc fuel inodeid (List.ofFn inode.iBlock) 0 none p
    copyRegular extdesc fuel inodeid mapped
  else some p

end SBlktrace
