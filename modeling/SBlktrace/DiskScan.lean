import SBlktrace.BlockTree
import Mathlib

namespace SBlktrace

open PartitionData

/-- The loop of `parse_indirect_block`; `false` where `parse` returns NULL. -/
def parseLinks (parse : Option UInt32 → UInt32 → UInt32 → PartitionData → PartitionData × Bool)
    (stride : UInt32) : List UInt32 → UInt32 → Option UInt32 → PartitionData → PartitionData × Bool
  | [], _, current, p => (p.endChain current, true)
  | link :: rest, offset, current, p =>
    if link ≠ 0 then
      match parse current link offset p with
      | (p, false) => (p, false)
      | (p, true) => parseLinks parse stride rest (offset + stride) (some link) p
    else parseLinks parse stride rest (offset + stride) current p

def stride (extdesc : ExtDesc) (indirectLevel : ℕ) : UInt32 :=
  if indirectLevel = 1 then 1
  else if indirectLevel = 2 then extdesc.edEntriesPerBlock + 1
  else extdesc.edEntriesPerBlock * (extdesc.edEntriesPerBlock + 1) + 1

def parseIndirectBlock (extdesc : ExtDesc) (fd : UInt32 → Option Buf) (inodeid : UInt32) :
    ℕ → Option UInt32 → Option UInt32 → UInt32 → UInt32 → PartitionData → PartitionData × Bool
  | indirectLevel, parent, current, blockid, offset, p =>
    if extdesc.sb.sBlocksCount ≤ blockid then (p, false)
    else
      let p := p.linkNext inodeid parent current blockid
      let p := p.setBlock blockid
        { p.blist blockid with
          sbLevel := UInt8.ofNat indirectLevel
          sbInode := inodeid
          sbBh := 0
          sbOffset := offset }
      match indirectLevel with
      | 0 => (p, true)
      | level + 1 =>
        match fd blockid with
        | none => (p, false)
        | some buf =>
          parseLinks (parseIndirectBlock extdesc fd inodeid level (some blockid))
            (stride extdesc (level + 1)) (links extdesc buf) (offset + 1) none p

/-- The loop is `none` when it does not end. -/
def clearSblock : ℕ → UInt32 → PartitionData → Option PartitionData
  | 0, _, _ => none
  | fuel + 1, blockid, p =>
    if blockid = 0 then some p
    else do
      let p := p.setBlock blockid { p.blist blockid with sbInode := 0 }
      let p ← if (p.blist blockid).sbBh ≠ 0 then clearSblock fuel (p.blist blockid).sbBh p else some p
      let p := p.setBh blockid 0
      let next := (p.blist blockid).sbSib
      clearSblock fuel next (p.setSib next 0)

def clearSinode (fuel : ℕ) (inodeid : UInt32) (p : PartitionData) : Option PartitionData := do
  let p := p.setInode inodeid { p.ilist inodeid with siMode := 0 }
  let p ← clearSblock fuel (p.ilist inodeid).siBh p
  some (p.setSiBh inodeid 0)

def iBlockLevel (i : ℕ) : ℕ := if i < 12 then 0 else i - 11

def iBlockOffset (extdesc : ExtDesc) (i : ℕ) : UInt32 :=
  if i < 12 then UInt32.ofNat i
  else if i = 12 then 12
  else if i = 13 then 13 + extdesc.edEntriesPerBlock
  else 14 + extdesc.edEntriesPerBlock * (extdesc.edEntriesPerBlock + 2)

def parseIBlocks (extdesc : ExtDesc) (fd : UInt32 → Option Buf) (inodeid : UInt32) :
    List UInt32 → ℕ → Option UInt32 → PartitionData → PartitionData × Bool
  | [], _, current, p => (p.endChain current, true)
  | link :: rest, i, current, p =>
    if link ≠ 0 then
      match parseIndirectBlock extdesc fd inodeid (iBlockLevel i) none current link
          (iBlockOffset extdesc i) p with
      | (p, false) => (p.endChain current, false)
      | (p, true) => parseIBlocks extdesc fd inodeid rest (i + 1) (some link) p
    else parseIBlocks extdesc fd inodeid rest (i + 1) current p

def initSinodeSblock (fuel : ℕ) (extdesc : ExtDesc) (fd : UInt32 → Option Buf) (inodeid : UInt32)
    (inode : ExtInode) (p : PartitionData) : Option (PartitionData × Bool) :=
  let p := p.setInode inodeid
    { siMode := inode.iMode
      siSize := inode.iSize
      siCtime := inode.iCtime
      siMtime := inode.iMtime
      siDtime := inode.iDtime
      siBh := 0 }
  match parseIBlocks extdesc fd inodeid (List.ofFn inode.iBlock) 0 none p with
  | (p, true) => some (p, true)
  | (p, false) => (clearSinode fuel inodeid p).map fun p => (p, false)

def getDiskstat (fuel : ℕ) (extdesc : ExtDesc) (fd : UInt32 → Option Buf) :
    List (UInt32 × ExtInode) → PartitionData → Option (PartitionData × Bool)
  | [], p => some (p, true)
  | (inodeid, inode) :: inodes, p =>
    if inodeIsregular inode.iMode || inodeIsdir inode.iMode then do
      let (p, ok) ← initSinodeSblock fuel extdesc fd inodeid inode p
      if ok then getDiskstat fuel extdesc fd inodes p else some (p, false)
    else getDiskstat fuel extdesc fd inodes p

end SBlktrace
