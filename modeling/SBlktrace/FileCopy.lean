import SBlktrace.BlockTree
import Mathlib

namespace SBlktrace

open Function

/-- `open`, `lseek`, `write` and `close`; `false` where the position that `lseek` returns is not the
one that was meant. -/
def writeToTmpfs (extdesc : ExtDesc) (inodeid : UInt32) (version : UInt16) (offset size : UInt32)
    (buf : Buf) (count : UInt32) (p : PartitionData) : PartitionData × UInt32 × Bool :=
  let file := (p.tmpfs (version, inodeid)).getD []
  let position := (offset <<< extdesc.edBlockShift).toNat
  if position ≠ offset.toNat * 2 ^ extdesc.edBlockShift.toNat then
    ({ p with tmpfs := update p.tmpfs (version, inodeid) (some file) }, count, false)
  else
    let written := (List.range size.toNat).map buf
    ({ p with tmpfs := update p.tmpfs (version, inodeid) (some (file ++ [(position, written)])) },
      count + 1, true)

/-- `none` when the loop does not end; `ok` is `ret == 0`. -/
def recurCopyBlock (extdesc : ExtDesc) (inodeid : UInt32) (version : UInt16) :
    ℕ → UInt32 → UInt32 → Bool → PartitionData → Option (PartitionData × UInt32 × Bool)
  | 0, _, _, _, _ => none
  | fuel + 1, blockid, count, ok, p =>
    if blockid = 0 then some (p, count, ok)
    else do
      let sblock := p.blist blockid
      let (p, count, ok) ←
        if sblock.sbLevel ≠ 0 then do
          let (p, count, copied) ← recurCopyBlock extdesc inodeid version fuel sblock.sbBh count true p
          some (p, count, ok && copied)
        else
          match p.dataCache blockid with
          | some data =>
            let size := (p.ilist inodeid).siSize - sblock.sbOffset * extdesc.edBlockSize
            let size := if extdesc.edBlockSize < size then extdesc.edBlockSize else size
            let (p, count, copied) :=
              writeToTmpfs extdesc inodeid version sblock.sbOffset size data count p
            some (p, count, ok && copied)
          -- A block that is not in the cache makes good for the failures before it.
          | none => some (p, count, true)
      recurCopyBlock extdesc inodeid version fuel (p.blist blockid).sbSib count ok p

def copyInode (extdesc : ExtDesc) (fuel : ℕ) (inodeid : UInt32) (p : PartitionData) :
    Option PartitionData :=
  if (p.ilist inodeid).siBh ≠ 0 then do
    let version := p.globalVersion
    let p := { p with globalVersion := version + 1 }
    let (p, count, ok) ←
      recurCopyBlock extdesc inodeid version fuel (p.ilist inodeid).siBh 0 true p
    if ok then
      if count = 0 then some p else some { p with queue := p.queue ++ [(inodeid, version)] }
    else some { p with tmpfs := update p.tmpfs (version, inodeid) none }
  else some p

end SBlktrace
