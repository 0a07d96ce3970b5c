import SBlktrace.SiblingForest
import SBlktrace.BlockMapping
import SBlktrace.DiskScan
import Mathlib

namespace SBlktrace

open Function

structure BlockNode where
  block : UInt32
  level : UInt8
  offset : UInt32
deriving DecidableEq

def linkForest (kids : ℕ → UInt32 → UInt32 → Forest BlockNode) (level : ℕ → ℕ)
    (offset : ℕ → UInt32) : List UInt32 → ℕ → Forest BlockNode
  | [], _ => .nil
  | link :: rest, i =>
    if link ≠ 0 then
      .node ⟨link, UInt8.ofNat (level i), offset i⟩ (kids (level i) link (offset i))
        (linkForest kids level offset rest (i + 1))
    else linkForest kids level offset rest (i + 1)

/-- The blocks below a block, where `read` gives the links of the indirect ones and `offset` the
offset of a link of a block, from the block's level and offset. -/
def blockKids (read : UInt32 → List UInt32) (offset : ℕ → UInt32 → ℕ → UInt32) :
    ℕ → UInt32 → UInt32 → Forest BlockNode
  | 0, _, _ => .nil
  | level + 1, blockid, o =>
    linkForest (fun _ => blockKids read offset level) (fun _ => level) (offset (level + 1) o)
      (read blockid) 0

def inodeForest (read : UInt32 → List UInt32) (offset : ℕ → UInt32 → ℕ → UInt32)
    (top : ℕ → UInt32) (iBlock : List UInt32) : Forest BlockNode :=
  linkForest (blockKids read offset) iBlockLevel top iBlock 0

end SBlktrace

namespace Forest

open SBlktrace Function

abbrev blocks (F : Forest BlockNode) : List UInt32 := F.keys BlockNode.block

abbrev first (F : Forest BlockNode) : UInt32 := F.head BlockNode.block

def store (inodeid : UInt32) : Forest BlockNode → (UInt32 → SBlock) → UInt32 → SBlock
  | .nil, blist => blist
  | .node a kids rest, blist =>
    rest.store inodeid (kids.store inodeid
      (update blist a.block ⟨a.level, a.offset, rest.first, kids.first, inodeid⟩))

variable {F : Forest BlockNode} {inodeid b : UInt32} {blist : UInt32 → SBlock} {sblock : SBlock}

theorem store_of_notMem (hb : b ∉ F.blocks) : F.store inodeid blist b = blist b := by
  induction F generalizing blist with
  | nil => rfl
  | node a kids rest ihk ihr =>
    simp only [blocks, keys_node, List.mem_cons, List.mem_append, not_or] at hb
    rw [store, ihr hb.2.2, ihk hb.2.1, update_of_ne hb.1]

theorem store_update (hb : b ∉ F.blocks) :
    F.store inodeid (update blist b sblock) = update (F.store inodeid blist) b sblock := by
  induction F generalizing blist with
  | nil => rfl
  | node a kids rest ihk ihr =>
    simp only [blocks, keys_node, List.mem_cons, List.mem_append, not_or] at hb
    rw [store, update_comm hb.1, ihk hb.2.1, ihr hb.2.2, store]

theorem store_node (hnodup : F.blocks.Nodup) :
    ∀ a ∈ F.nodes, (F.store inodeid blist a.block).sbLevel = a.level ∧
      (F.store inodeid blist a.block).sbOffset = a.offset ∧
      (F.store inodeid blist a.block).sbInode = inodeid := by
  induction F generalizing blist with
  | nil => simp [nodes]
  | node a kids rest ihk ihr =>
    rw [blocks, keys_node] at hnodup
    obtain ⟨hnot, hnodup⟩ := List.nodup_cons.mp hnodup
    obtain ⟨hkids, hrest, hdisjoint⟩ := List.nodup_append.mp hnodup
    simp only [List.mem_append, not_or] at hnot
    rintro a' ha'
    rw [store]
    rw [nodes] at ha'
    obtain rfl | ha' := List.mem_cons.mp ha'
    · rw [store_of_notMem hnot.2, store_of_notMem hnot.1, update_self]
      exact ⟨rfl, rfl, rfl⟩
    obtain ha' | ha' := List.mem_append.mp ha'
    · have hmem : a'.block ∈ kids.blocks := List.mem_map_of_mem ha'
      have hnot' : a'.block ∉ rest.blocks := fun hin => hdisjoint _ hmem _ hin rfl
      rw [store_of_notMem hnot']
      exact ihk hkids a' ha'
    · exact ihr hrest a' ha'

theorem rep_store (hnodup : F.blocks.Nodup) (hzero : (0 : UInt32) ∉ F.blocks) :
    Rep (fun b => (F.store inodeid blist b).sbBh) (fun b => (F.store inodeid blist b).sbSib)
      BlockNode.block F.first F := by
  induction F generalizing blist with
  | nil => rfl
  | node a kids rest ihk ihr =>
    rw [blocks, keys_node] at hnodup hzero
    obtain ⟨hnot, hnodup⟩ := List.nodup_cons.mp hnodup
    obtain ⟨hkids, hrest, hdisjoint⟩ := List.nodup_append.mp hnodup
    simp only [List.mem_append, List.mem_cons, not_or] at hnot hzero
    have hstore : (node a kids rest).store inodeid blist a.block =
        ⟨a.level, a.offset, rest.first, kids.first, inodeid⟩ := by
      rw [store, store_of_notMem hnot.2, store_of_notMem hnot.1, update_self]
    refine ⟨rfl, Ne.symm hzero.1, ?_, ?_⟩
    · dsimp only
      rw [hstore]
      have hrep := @ihk (update blist a.block ⟨a.level, a.offset, rest.first, kids.first, inodeid⟩)
        hkids hzero.2.1
      apply hrep.congr
      rintro b hb
      have hnot' : b ∉ rest.blocks := fun hin => hdisjoint _ hb _ hin rfl
      rw [store, store_of_notMem hnot']
      exact ⟨rfl, rfl⟩
    · dsimp only
      rw [hstore]
      exact ihr hrest hzero.2.2

end Forest

namespace SBlktrace

namespace PartitionData

variable {p : PartitionData} {F K : Forest BlockNode} {inodeid b link : UInt32}
  {parent current : Option UInt32}

def storeForest (inodeid : UInt32) (F : Forest BlockNode) (p : PartitionData) : PartitionData :=
  { p with blist := F.store inodeid p.blist }

def nextLink (p : PartitionData) (inodeid : UInt32) (parent current : Option UInt32) : UInt32 :=
  match current with
  | some current => (p.blist current).sbSib
  | none =>
    match parent with
    | some parent => (p.blist parent).sbBh
    | none => (p.ilist inodeid).siBh

theorem blist_storeForest (hb : b ∉ F.blocks) : (p.storeForest inodeid F).blist b = p.blist b :=
  Forest.store_of_notMem hb

theorem setBlock_storeForest (hb : b ∉ F.blocks) (sblock : SBlock) :
    (p.storeForest inodeid F).setBlock b sblock = (p.setBlock b sblock).storeForest inodeid F := by
  rw [setBlock, setBlock, storeForest, storeForest, Forest.store_update hb]

theorem setSib_storeForest (hb : b ∉ F.blocks) :
    (p.storeForest inodeid F).setSib b link = (p.setSib b link).storeForest inodeid F := by
  rw [setSib, setSib, blist_storeForest hb, setBlock_storeForest hb]

theorem setBlock_self (p : PartitionData) (b : UInt32) : p.setBlock b (p.blist b) = p := by
  rw [setBlock, Function.update_eq_self]

theorem setInode_self (p : PartitionData) (n : UInt32) : p.setInode n (p.ilist n) = p := by
  rw [setInode, Function.update_eq_self]

theorem linkNext_self (p : PartitionData) (inodeid : UInt32) (parent current : Option UInt32) :
    p.linkNext inodeid parent current (p.nextLink inodeid parent current) = p := by
  cases current with
  | some current => exact p.setBlock_self current
  | none =>
    cases parent with
    | some parent => exact p.setBlock_self parent
    | none => exact p.setInode_self inodeid

theorem linkNext_blist (h : ∀ c, current = some c → c ≠ b)
    (h' : ∀ s, current = none → parent = some s → s ≠ b) :
    (p.linkNext inodeid parent current link).blist b = p.blist b := by
  cases current with
  | some current => exact Function.update_of_ne (Ne.symm (h current rfl)) _ _
  | none =>
    cases parent with
    | some parent => exact Function.update_of_ne (Ne.symm (h' parent rfl rfl)) _ _
    | none => rfl

theorem storeForest_node (p : PartitionData) (a : BlockNode) {kids rest : Forest BlockNode}
    (hnot : a.block ∉ kids.blocks) (sib : UInt32) :
    ((((p.setBlock a.block ⟨a.level, a.offset, sib, kids.first, inodeid⟩).storeForest inodeid
      kids).setSib a.block rest.first).storeForest inodeid rest) =
      p.storeForest inodeid (.node a kids rest) := by
  rw [setSib_storeForest hnot, setSib, setBlock, setBlock]
  dsimp only
  rw [Function.update_self, Function.update_idem]
  rfl

end PartitionData

end SBlktrace
