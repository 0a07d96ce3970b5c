import SBlktrace.BlkTrace
import SBlktrace.TraceDecode
import Mathlib

namespace SBlktrace

inductive Arg where
  | num (n : ℤ)
  | str (s : String)
deriving DecidableEq

structure Printed where
  format : String
  args : List Arg
deriving DecidableEq

structure BlkIoTraceRemap where
  deviceFrom : UInt32
  deviceTo : UInt32
  sectorFrom : UInt64

/-- What a record is printed with: the CPU of its stream, the name of its process, and its payload
as hex dump, as text, as remap structure and as number. -/
structure FmtContext where
  cpu : UInt32
  name : String
  dumpPdu : Option String
  pduBuf : String
  remap : BlkIoTraceRemap
  pduInt : UInt32

def maxVec : ℕ := 200

def minorbits : UInt32 := 20

def major (dev : UInt32) : UInt32 := dev >>> minorbits

def minor (dev : UInt32) : UInt32 := dev &&& ((1 : UInt32) <<< minorbits - 1)

def blkTcFlush : UInt32 := (1 : UInt32) <<< (2 : UInt32)

def blkTcSync : UInt32 := (1 : UInt32) <<< (3 : UInt32)

def blkTcAhead : UInt32 := (1 : UInt32) <<< (11 : UInt32)

def blkTcMeta : UInt32 := (1 : UInt32) <<< (12 : UInt32)

def blkTcDiscard : UInt32 := (1 : UInt32) <<< (13 : UInt32)

def blkTcFua : UInt32 := (1 : UInt32) <<< (15 : UInt32)

namespace BlkIoTraceRecord

def has (t : BlkIoTraceRecord) (act : UInt32) : Bool := t.action &&& blkTcAct act ≠ 0

def tSec (t : BlkIoTraceRecord) : UInt32 := t.bytes >>> 9

def fillRwbs (t : BlkIoTraceRecord) : String :=
  String.ofList ((if t.has blkTcFlush then ['F'] else []) ++
    (if t.has blkTcDiscard then ['D'] else if t.has blkTcWrite then ['W']
      else if t.bytes ≠ 0 then ['R'] else ['N']) ++
    (if t.has blkTcFua then ['F'] else []) ++ (if t.has blkTcAhead then ['A'] else []) ++
    (if t.has blkTcSync then ['S'] else []) ++ (if t.has blkTcMeta then ['M'] else []))

end BlkIoTraceRecord

def noElapsed : UInt64 := 0xffffffffffffffff

open BlkIoTraceRecord

variable (ctx : FmtContext) (t : BlkIoTraceRecord) (elapsed : UInt64)

def printComplete : List Printed :=
  let sector : Arg := .num t.sector.toNat
  let sec : Arg := .num t.tSec.toNat
  let time : Arg := .num elapsed.toNat
  let error : Arg := .num t.error.toNat
  let count : Arg := .num t.vecCount.toNat
  let blockType : Arg := .num (t.vecCount.toNat / maxVec - 2 : ℤ)
  let seq : Arg := .num t.seq.toNat
  if t.has blkTcPc then
    (match ctx.dumpPdu with
      | some p => [⟨"(%s) ", [.str p]⟩]
      | none => []) ++ [⟨"[%d]\n", [error]⟩]
  else if elapsed ≠ noElapsed then
    if t.tSec ≠ 0 then
      if t.vecCount = 0 then
        if t.vecCount.toNat = maxVec + 1 then
          [⟨"%llu + %u (%8llu) [%d] seq:%u error:descriptor_item_number_is_zero\n",
            [sector, sec, time, error, seq]⟩]
        else if t.vecCount.toNat ≥ 2 * maxVec then
          [⟨"%llu + %u (%8llu) [%d] journal_block_type:%u seq:%u \n",
            [sector, sec, time, error, blockType, seq]⟩]
        else
          [⟨"%llu + %u (%8llu) [%d] count:%u seq:%u \n", [sector, sec, time, error, count, seq]⟩]
      else
        [⟨"%llu + %u (%8llu) [%d] 1count:%u seq:%u ", [sector, sec, time, error, count, seq]⟩,
          ⟨"\n", []⟩]
    else [⟨"%llu (%8llu) [%d] \n", [sector, time, error]⟩]
  else if t.tSec ≠ 0 then
    if t.vecCount = 0 then
      if t.vecCount.toNat = maxVec + 1 then
        [⟨"%llu + %u [%d] seq:%u error:descriptor_item_number_is_zero\n",
          [sector, sec, error, seq]⟩]
      else if t.vecCount.toNat ≥ 2 * maxVec then
        [⟨"%llu + %u  [%d] journal_block_type:%u seq:%u \n", [sector, sec, error, blockType, seq]⟩]
      else [⟨"%llu + %u  [%d] count:%u seq:%u \n", [sector, sec, error, count, seq]⟩]
    else
      [⟨"%llu + %u [%d] 2count:%u seq:%u ", [sector, sec, error, count, seq]⟩, ⟨"\n", []⟩]
  else
    (if t.vecCount = 0 then
      if t.vecCount.toNat = maxVec + 1 then
        [⟨"%llu [%d] seq:%u error:descriptor_item_number_is_zero\n", [sector, error, seq]⟩]
      else if t.vecCount.toNat ≥ 2 * maxVec then
        [⟨"%llu [%d] journal_block_type:%u seq:%u \n", [sector, error, blockType, seq]⟩]
      else [⟨"%llu [%d] count:%u seq:%u \n", [sector, error, count, seq]⟩]
    else [⟨"%llu  3count:%u seq:%u ", [sector, count, seq]⟩, ⟨"\n", []⟩]) ++
      [⟨"%llu [%d]\n", [sector, error]⟩]

def printIssue : List Printed :=
  let sector : Arg := .num t.sector.toNat
  let sec : Arg := .num t.tSec.toNat
  let time : Arg := .num elapsed.toNat
  let name : Arg := .str ctx.name
  let count : Arg := .num t.vecCount.toNat
  let seq : Arg := .num t.seq.toNat
  if t.has blkTcPc then
    [⟨"%u ", [.num t.bytes.toNat]⟩] ++
      (match ctx.dumpPdu with
        | some p => [⟨"(%s) ", [.str p]⟩]
        | none => []) ++ [⟨"[%s]\n", [name]⟩]
  else if elapsed ≠ noElapsed then
    if t.tSec ≠ 0 then
      [⟨"%llu + %u (%8llu) [%s] count:%u seq:%u\n", [sector, sec, time, name, count, seq]⟩]
    else [⟨"(%8llu) [%s] count:%u seq:%u\n", [time, name, count, seq]⟩]
  else if t.tSec ≠ 0 then
    [⟨"%llu + %u [%s] count:%u seq:%u\n", [sector, sec, name, count, seq]⟩]
  else [⟨"[%s]\n", [name]⟩]

def printBody (act : Char) : List Printed :=
  let sector : Arg := .num t.sector.toNat
  let sec : Arg := .num t.tSec.toNat
  let name : Arg := .str ctx.name
  let remapFrom := ctx.remap.deviceFrom
  if act = 'R' ∨ act = 'C' then printComplete ctx t elapsed
  else if act = 'D' ∨ act = 'I' ∨ act = 'Q' ∨ act = 'B' then printIssue ctx t elapsed
  else if act = 'M' ∨ act = 'F' ∨ act = 'G' ∨ act = 'S' then
    if t.tSec ≠ 0 then [⟨"%llu + %u [%s]\n", [sector, sec, name]⟩] else [⟨"[%s]\n", [name]⟩]
  else if act = 'P' then [⟨"[%s]\n", [name]⟩]
  else if act = 'U' ∨ act = 'T' then [⟨"[%s] %u\n", [name, .num ctx.pduInt.toNat]⟩]
  else if act = 'A' then
    [⟨"%llu + %u <- (%d,%d) %llu count:%u seq:%u\n",
      [sector, sec, .num (major remapFrom).toNat, .num (minor remapFrom).toNat,
        .num ctx.remap.sectorFrom.toNat, .num t.vecCount.toNat, .num t.seq.toNat]⟩]
  else if act = 'X' then [⟨"%llu / %u [%s]\n", [sector, .num ctx.pduInt.toNat, name]⟩]
  else if act = 'm' then [⟨"%*s\n", [.num t.pduLen.toNat, .str ctx.pduBuf]⟩]
  else []

def processDefault (act : Char) : List Printed :=
  let device := if act = 'A' then ctx.remap.deviceTo else t.device
  let time := t.time.toNat
  ⟨"%3d,%-3d %2d %8d %5d.%09lu %5u %2s %3s",
    [.num (major device).toNat, .num (minor device).toNat, .num ctx.cpu.toNat,
      .num t.sequence.toNat, .num (time / 1000000000 : ℕ), .num (time % 1000000000 : ℕ),
      .num t.pid.toNat, .str act.toString, .str t.fillRwbs]⟩ ::
    printBody ctx t elapsed act

def journalBlockTypeFormats : List (String × ℕ) :=
  [("%llu + %u (%8llu) [%d] journal_block_type:%u seq:%u \n", 4),
    ("%llu + %u  [%d] journal_block_type:%u seq:%u \n", 3),
    ("%llu [%d] journal_block_type:%u seq:%u \n", 2)]

def Printed.PrintsType (p : Printed) (blockType : UInt32) : Prop :=
  ∃ f ∈ journalBlockTypeFormats, p.format = f.1 ∧ p.args[f.2]? = some (.num blockType.toNat)

variable {ctx t elapsed}

def Untyped (l : List Printed) : Prop := ∀ p ∈ l, p.format ∉ journalBlockTypeFormats.map Prod.fst

theorem untyped_append {l l' : List Printed} : Untyped (l ++ l') ↔ Untyped l ∧ Untyped l' :=
  List.forall_mem_append

theorem untyped_cons {p : Printed} {l : List Printed} :
    Untyped (p :: l) ↔ p.format ∉ journalBlockTypeFormats.map Prod.fst ∧ Untyped l :=
  List.forall_mem_cons

theorem untyped_nil : Untyped [] := fun _ hp => absurd hp (List.not_mem_nil)

theorem untyped_dumpPdu (o : Option String) :
    Untyped (match o with | some p => [⟨"(%s) ", [.str p]⟩] | none => []) := by
  cases o <;> simp [untyped_cons, untyped_nil, journalBlockTypeFormats]

theorem printComplete_untyped : Untyped (printComplete ctx t elapsed) := by
  have hzero : ¬2 * maxVec ≤ UInt16.toNat 0 := by decide
  unfold printComplete
  dsimp only
  split
  · rw [untyped_append]
    exact ⟨untyped_dumpPdu _, by simp [untyped_cons, untyped_nil, journalBlockTypeFormats]⟩
  by_cases hv : t.vecCount = 0
  · simp only [hv, if_true, ge_iff_le, if_neg hzero]
    split_ifs <;> simp [untyped_cons, untyped_nil, journalBlockTypeFormats]
  · simp only [hv, if_false]
    split_ifs <;> simp [untyped_cons, untyped_nil, journalBlockTypeFormats]

theorem printIssue_untyped : Untyped (printIssue ctx t elapsed) := by
  unfold printIssue
  dsimp only
  split
  · rw [untyped_append, untyped_append]
    refine ⟨⟨?_, untyped_dumpPdu _⟩, ?_⟩ <;>
      simp [untyped_cons, untyped_nil, journalBlockTypeFormats]
  · split_ifs <;> simp [untyped_cons, untyped_nil, journalBlockTypeFormats]

theorem processDefault_untyped (act : Char) : Untyped (processDefault ctx t elapsed act) := by
  rw [processDefault, untyped_cons]
  refine ⟨by simp [journalBlockTypeFormats], ?_⟩
  unfold printBody
  dsimp only
  split
  · exact printComplete_untyped
  split
  · exact printIssue_untyped
  · split_ifs <;> simp [untyped_cons, untyped_nil, journalBlockTypeFormats]

end SBlktrace
