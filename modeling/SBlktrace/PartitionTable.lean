import SBlktrace.BaseIntro
import Mathlib

namespace SBlktrace

def partitionTableOffset : ℕ := 0x1be

def bootSignature : ℕ := 0x1fe

def maxPartitionNum : ℕ := 100

structure PartitionEntry where
  startAddr : UInt64
  endAddr : UInt64
  partType : UInt64
deriving DecidableEq

def entryType (buf : Buf) (i : ℕ) : UInt8 := buf (partitionTableOffset + 4 + 16 * i)

def entryStart (buf : Buf) (i : ℕ) : UInt32 := readui32le buf (partitionTableOffset + 8 + 16 * i)

def entryLength (buf : Buf) (i : ℕ) : UInt32 :=
  readui32le buf (partitionTableOffset + 0xc + 16 * i)

def storedType (c : UInt8) : UInt64 := c.toInt8.toInt64.toUInt64

def checkMbr (buf : Buf) : Bool := buf bootSignature = 0x55 && buf (bootSignature + 1) = 0xaa

/-- How an iteration of `parse_extended_boot_record` ends. The rows of the table are those below
`partition_count`. -/
inductive EbrStep where
  | ret (buf : Buf) (table : List PartitionEntry) (code : ℤ)
  | next (buf : Buf) (table : List PartitionEntry) (offsetSector : UInt32)

def addLogical (buf : Buf) (offsetSector : UInt32) (table : List PartitionEntry) :
    List PartitionEntry :=
  if entryType buf 0 ≠ 0 then
    table ++ [⟨(entryStart buf 0 + offsetSector).toUInt64,
      (entryStart buf 0 + entryLength buf 0 + offsetSector).toUInt64, storedType (entryType buf 0)⟩]
  else table

/-- `fd` is `none` for a sector that cannot be read. -/
def ebrStep (fd : UInt32 → Option Buf) (buf : Buf) (table : List PartitionEntry)
    (offsetSector : UInt32) : EbrStep :=
  match fd offsetSector with
  | none => .ret buf table (-1)
  | some buf =>
    if ¬checkMbr buf then .ret buf table (-1)
    else if entryType buf 0 ≠ 0 ∧ (addLogical buf offsetSector table).length = maxPartitionNum then
      .ret buf (addLogical buf offsetSector table) 0
    else if entryType buf 1 ≠ 0 then
      if entryStart buf 1 = 0 then .ret buf (addLogical buf offsetSector table) 0
      else .next buf (addLogical buf offsetSector table) (offsetSector + entryStart buf 1)
    else .ret buf (addLogical buf offsetSector table) 0

/-- The loop is `none` when it does not end. -/
def parseExtendedBootRecord (fd : UInt32 → Option Buf) :
    ℕ → Buf → List PartitionEntry → UInt32 → Option (Buf × List PartitionEntry × ℤ)
  | 0, _, _, _ => none
  | fuel + 1, buf, table, offsetSector =>
    match ebrStep fd buf table offsetSector with
    | .ret buf table code => some (buf, table, code)
    | .next buf table offsetSector => parseExtendedBootRecord fd fuel buf table offsetSector

def mbrEntry (buf : Buf) (s : UInt32 × List PartitionEntry) (i : ℕ) :
    UInt32 × List PartitionEntry :=
  if entryType buf i = 0x5 then (entryStart buf i, s.2)
  else if entryType buf i ≠ 0 then
    (s.1, s.2 ++ [⟨(entryStart buf i).toUInt64,
      (entryStart buf i).toUInt64 + (entryLength buf i).toUInt64, storedType (entryType buf i)⟩])
  else s

/-- `ext_partition_sec` is an `int`: it is `-1` at first, and negative from `2 ^ 31` on. -/
def parsePartitionTable (fuel : ℕ) (fd : UInt32 → Option Buf) (buf : Buf)
    (table : List PartitionEntry) : Option (Buf × List PartitionEntry) :=
  let s := (List.range 4).foldl (mbrEntry buf) (0xffffffff, table)
  if 0 < s.1.toNat ∧ s.1.toNat < 2 ^ 31 then
    (parseExtendedBootRecord fd fuel buf s.2 s.1).map fun r => (r.1, r.2.1)
  else some (buf, s.2)

/-- What `get_mbr` leaves in `partition_table` and in `ptd->partition_offset`, and what it
returns. -/
structure MbrResult where
  table : List PartitionEntry
  partitionOffset : UInt64
  code : ℤ

def getFirstPartitionOffset (buf : Buf) : UInt64 := (entryStart buf 0 * 512).toUInt64

def getMbr (fuel : ℕ) (fd : UInt32 → Option Buf) : Option MbrResult :=
  match fd 0 with
  | none => some ⟨[], 0, -1⟩
  | some buf =>
    if checkMbr buf then
      (parsePartitionTable fuel fd buf []).map fun r =>
        ⟨r.2, getFirstPartitionOffset r.1 * 512, 0⟩
    else some ⟨[], 0, 0⟩

end SBlktrace
