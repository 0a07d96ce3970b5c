import SBlktrace.ScanAgreement
import Mathlib

namespace SBlktrace

def logicalLinks (sub : ℕ → UInt32 → ℕ → List (ℕ × UInt32)) (level : ℕ → ℕ) (entries : ℕ) :
    List UInt32 → ℕ → ℕ → List (ℕ × UInt32)
  | [], _, _ => []
  | link :: rest, i, n =>
    (if link ≠ 0 then sub (level i) link n else []) ++
      logicalLinks sub level entries rest (i + 1) (n + entries ^ level i)

def logicalBlocks (read : UInt32 → List UInt32) (entries : ℕ) : ℕ → UInt32 → ℕ → List (ℕ × UInt32)
  | 0, blockid, n => [(n, blockid)]
  | level + 1, blockid, n =>
    logicalLinks (fun _ => logicalBlocks read entries level) (fun _ => level) entries (read blockid) 0 n

/-- The data blocks of a file with their logical numbers, as the format places them: twelve that the
inode links, and those of a single, a double and a triple indirect block. -/
def fileBlocks (extdesc : ExtDesc) (fd : UInt32 → Option Buf) (inode : ExtInode) :
    List (ℕ × UInt32) :=
  logicalLinks (logicalBlocks (readLinks extdesc fd) extdesc.edEntriesPerBlock.toNat) iBlockLevel
    extdesc.edEntriesPerBlock.toNat (List.ofFn inode.iBlock) 0 0

structure BlockSizes (extdesc : ExtDesc) : Prop where
  shift : extdesc.edBlockShift.toNat ≤ 12
  size : extdesc.edBlockSize.toNat = 2 ^ extdesc.edBlockShift.toNat
  entries : extdesc.edEntriesPerBlock.toNat * 4 = extdesc.edBlockSize.toNat

def blockSpan (entries : ℕ) : ℕ → ℕ
  | 0 => 1
  | level + 1 => 1 + entries * blockSpan entries level

theorem initExtDesc_sizes (sb : ExtSuperblock) (bgdesc : ExtBlockgroupdesc) (fs : FsType)
    (h : sb.sLogBlockSize.toNat ≤ 2) : BlockSizes (initExtDesc sb bgdesc fs) := by
  have hlog : sb.sLogBlockSize = 0 ∨ sb.sLogBlockSize = 1 ∨ sb.sLogBlockSize = 2 := by
    rw [← UInt32.toNat_inj, ← UInt32.toNat_inj, ← UInt32.toNat_inj]
    change _ = 0 ∨ _ = 1 ∨ _ = 2
    omega
  constructor
  · change (10 + sb.sLogBlockSize).toNat ≤ 12
    obtain hlog | hlog | hlog := hlog <;> rw [hlog] <;> decide
  · change (1024 <<< sb.sLogBlockSize).toNat = 2 ^ (10 + sb.sLogBlockSize).toNat
    obtain hlog | hlog | hlog := hlog <;> rw [hlog] <;> decide
  · change ((1024 <<< sb.sLogBlockSize) >>> 2).toNat * 4 = (1024 <<< sb.sLogBlockSize).toNat
    obtain hlog | hlog | hlog := hlog <;> rw [hlog] <;> decide

section Sizes

variable {extdesc : ExtDesc} {fd : UInt32 → Option Buf}

theorem BlockSizes.entries_le (h : BlockSizes extdesc) : extdesc.edEntriesPerBlock.toNat ≤ 1024 := by
  have hentries := h.entries
  have hpow := Nat.pow_le_pow_right (show 0 < 2 by decide) h.shift
  rw [h.size] at hentries
  omega

theorem BlockSizes.size_pos (h : BlockSizes extdesc) : 0 < extdesc.edBlockSize.toNat := by
  rw [h.size]
  exact Nat.two_pow_pos _

theorem BlockSizes.links_length (h : BlockSizes extdesc) (buf : Buf) :
    (links extdesc buf).length = extdesc.edEntriesPerBlock.toNat := by
  have hentries := h.entries
  rw [links, List.length_map, List.length_range, UInt32.toNat_shiftRight]
  change extdesc.edBlockSize.toNat >>> 2 = _
  rw [Nat.shiftRight_eq_div_pow]
  omega

theorem BlockSizes.readLinks_length (h : BlockSizes extdesc) (blockid : UInt32) :
    (readLinks extdesc fd blockid).length ≤ extdesc.edEntriesPerBlock.toNat := by
  rw [readLinks]
  cases fd blockid with
  | none => exact Nat.zero_le _
  | some buf => exact (h.links_length buf).le

theorem pow_le_blockSpan (entries level : ℕ) : entries ^ level ≤ blockSpan entries level := by
  induction level with
  | zero => exact le_rfl
  | succ level ih =>
    rw [blockSpan, pow_succ']
    exact (Nat.mul_le_mul_left entries ih).trans (Nat.le_add_left _ 1)

theorem blockSpan_le {entries : ℕ} (h : entries ≤ 1024) :
    blockSpan entries 1 ≤ 1025 ∧ blockSpan entries 2 ≤ 1049601 ∧ blockSpan entries 3 ≤ 1074791425 := by
  have hone : blockSpan entries 1 ≤ 1025 := by
    rw [blockSpan, blockSpan]
    omega
  have htwo : blockSpan entries 2 ≤ 1049601 := by
    have hmul := Nat.mul_le_mul h hone
    rw [blockSpan]
    omega
  refine ⟨hone, htwo, ?_⟩
  have hmul := Nat.mul_le_mul h htwo
  rw [blockSpan]
  omega

theorem stride_toNat (h : BlockSizes extdesc) {level : ℕ} (hlevel : level ≤ 2) :
    (stride extdesc (level + 1)).toNat = blockSpan extdesc.edEntriesPerBlock.toNat level := by
  have hle := h.entries_le
  have hmul := Nat.mul_le_mul hle (Nat.add_le_add_right hle 1)
  have hone : (extdesc.edEntriesPerBlock + 1).toNat = extdesc.edEntriesPerBlock.toNat + 1 := by
    rw [UInt32.toNat_add, UInt32.toNat_one, Nat.mod_eq_of_lt (by omega)]
  interval_cases level
  · rfl
  · have hstride : stride extdesc 2 = extdesc.edEntriesPerBlock + 1 := rfl
    rw [hstride, hone, blockSpan, blockSpan]
    omega
  · have hstride : stride extdesc 3 =
        extdesc.edEntriesPerBlock * (extdesc.edEntriesPerBlock + 1) + 1 := rfl
    rw [hstride, UInt32.toNat_add, UInt32.toNat_mul, hone, UInt32.toNat_one, blockSpan, blockSpan,
      blockSpan]
    generalize hprod : extdesc.edEntriesPerBlock.toNat * (extdesc.edEntriesPerBlock.toNat + 1) = prod
      at hmul
    have hspan : extdesc.edEntriesPerBlock.toNat * (1 + extdesc.edEntriesPerBlock.toNat * 1) = prod := by
      rw [mul_one, add_comm 1, hprod]
    omega

theorem scanOffset_toNat (h : BlockSizes extdesc) {level : ℕ} (hlevel : level ≤ 2) {offset : UInt32}
    {i : ℕ} (hfit : offset.toNat + 1 + i * blockSpan extdesc.edEntriesPerBlock.toNat level < 2 ^ 32)
    (hi : i < 2 ^ 32) :
    (scanOffset extdesc (level + 1) offset i).toNat =
      offset.toNat + 1 + i * blockSpan extdesc.edEntriesPerBlock.toNat level := by
  have hmod : i % 2 ^ 32 = i := Nat.mod_eq_of_lt hi
  rw [scanOffset, UInt32.toNat_add, UInt32.toNat_add, UInt32.toNat_mul, UInt32.toNat_ofNat',
    stride_toNat h hlevel, UInt32.toNat_one, hmod]
  generalize i * blockSpan extdesc.edEntriesPerBlock.toNat level = x at hfit ⊢
  omega

end Sizes

end SBlktrace

namespace Forest

open SBlktrace

def dataNodes : Forest BlockNode → List BlockNode
  | .nil => []
  | .node a kids rest => (if a.level ≠ 0 then dataNodes kids else [a]) ++ dataNodes rest

theorem dataNodes_node (a : BlockNode) (kids rest : Forest BlockNode) :
    (node a kids rest).dataNodes = (node a kids nil).dataNodes ++ rest.dataNodes := by
  rw [dataNodes, dataNodes, dataNodes, List.append_nil]

theorem mem_nodes_of_dataNodes {F : Forest BlockNode} {a : BlockNode} (ha : a ∈ F.dataNodes) :
    a ∈ F.nodes := by
  induction F with
  | nil => exact ha
  | node b kids rest ihk ihr =>
    rw [dataNodes] at ha
    rw [nodes]
    obtain ha | ha := List.mem_append.mp ha
    · split at ha
      · exact List.mem_cons_of_mem _ (List.mem_append_left _ (ihk ha))
      · exact List.mem_cons.mpr (.inl (List.mem_singleton.mp ha))
    · exact List.mem_cons_of_mem _ (List.mem_append_right _ (ihr ha))

end Forest

namespace SBlktrace

open Function Forest PartitionData

/-- A data block of the tree that is one of the file: one that the inode links has its logical number
as its offset, any other has a number below it. -/
structure Placed (a : BlockNode) (x : ℕ × UInt32) : Prop where
  block : a.block = x.2
  number : (x.1 < 12 ∧ a.offset.toNat = x.1) ∨ (12 ≤ x.1 ∧ x.1 < a.offset.toNat)

section Numbers

variable {extdesc : ExtDesc} {fd : UInt32 → Option Buf}

theorem linkForest_placed {kids : ℕ → UInt32 → UInt32 → Forest BlockNode}
    {sub : ℕ → UInt32 → ℕ → List (ℕ × UInt32)} {level : ℕ → ℕ} {offset : ℕ → UInt32} {entries : ℕ}
    (number : ℕ → ℕ → Prop) (top : ℕ)
    (hstep : ∀ i n, i < top → number i n → number (i + 1) (n + entries ^ level i))
    (hkids : ∀ i n link, i < top → number i n →
      List.Forall₂ Placed (Forest.node ⟨link, UInt8.ofNat (level i), offset i⟩
        (kids (level i) link (offset i)) .nil).dataNodes (sub (level i) link n))
    (ls : List UInt32) (i n : ℕ) (htop : i + ls.length ≤ top) (hn : number i n) :
    List.Forall₂ Placed (linkForest kids level offset ls i).dataNodes
      (logicalLinks sub level entries ls i n) := by
  induction ls generalizing i n with
  | nil => exact .nil
  | cons link ls ih =>
    rw [List.length_cons] at htop
    have hrest := ih (i + 1) (n + entries ^ level i) (by omega) (hstep i n (by omega) hn)
    rw [logicalLinks]
    by_cases hlink : link = 0
    · subst hlink
      rw [linkForest_zero, if_neg (not_not_intro rfl)]
      exact hrest
    · rw [linkForest_cons hlink, if_pos hlink, dataNodes_node]
      exact List.rel_append (hkids i n link (by omega) hn) hrest

theorem blockSpan_pos (entries level : ℕ) : 0 < blockSpan entries level := by
  cases level with
  | zero => exact Nat.one_pos
  | succ level =>
    rw [blockSpan]
    omega

theorem logicalBlocks_placed (h : BlockSizes extdesc) {level : ℕ} (hlevel : level ≤ 3)
    (blockid offset : UInt32) {n : ℕ} (hfile : 12 ≤ n) (hle : n ≤ offset.toNat)
    (hlt : level = 0 → n < offset.toNat)
    (hfit : offset.toNat + blockSpan extdesc.edEntriesPerBlock.toNat level ≤ 2 ^ 32) :
    List.Forall₂ Placed
      (Forest.node ⟨blockid, UInt8.ofNat level, offset⟩
        (blockKids (readLinks extdesc fd) (scanOffset extdesc) level blockid offset) .nil).dataNodes
      (logicalBlocks (readLinks extdesc fd) extdesc.edEntriesPerBlock.toNat level blockid n) := by
  induction level generalizing blockid offset n with
  | zero => exact .cons ⟨rfl, .inr ⟨hfile, hlt rfl⟩⟩ .nil
  | succ level ih =>
    have hne := ofNat_level_ne_zero (Nat.succ_pos level) hlevel
    have hpow := pow_le_blockSpan extdesc.edEntriesPerBlock.toNat level
    have hpos := blockSpan_pos extdesc.edEntriesPerBlock.toNat level
    have hentries := h.entries_le
    rw [blockSpan] at hfit
    rw [dataNodes, if_pos hne, dataNodes, List.append_nil, blockKids, logicalBlocks]
    apply linkForest_placed (fun i m => m = n + i * extdesc.edEntriesPerBlock.toNat ^ level)
      extdesc.edEntriesPerBlock.toNat
    · rintro i m - rfl
      rw [Nat.succ_mul, Nat.add_assoc]
    · rintro i m link hi rfl
      have hspan := Nat.mul_le_mul_right (blockSpan extdesc.edEntriesPerBlock.toNat level)
        (Nat.succ_le_of_lt hi)
      rw [Nat.succ_mul] at hspan
      have hnumber := Nat.mul_le_mul_left i hpow
      have hoffset : (scanOffset extdesc (level + 1) offset i).toNat =
          offset.toNat + 1 + i * blockSpan extdesc.edEntriesPerBlock.toNat level :=
        scanOffset_toNat h (by omega) (by omega) (by omega)
      apply ih (by omega) link _ (by omega) <;> rw [hoffset] <;> omega
    · rw [zero_add]
      exact h.readLinks_length blockid
    · rw [zero_mul, add_zero]

def slotNumber (entries i : ℕ) : ℕ :=
  if i < 13 then i else if i = 13 then 12 + entries else 12 + entries + entries ^ 2

theorem slotNumber_succ (entries : ℕ) {i : ℕ} (hi : i + 1 < 15) :
    slotNumber entries i + entries ^ iBlockLevel i = slotNumber entries (i + 1) := by
  by_cases hdirect : i < 12
  · rw [slotNumber, slotNumber, iBlockLevel, if_pos hdirect, if_pos (by omega), if_pos (by omega), pow_zero]
  · obtain rfl | rfl : i = 12 ∨ i = 13 := by omega
    · exact congrArg (12 + ·) (pow_one entries)
    · rfl

theorem iBlockOffset_toNat (h : BlockSizes extdesc) :
    (iBlockOffset extdesc 13).toNat = 13 + extdesc.edEntriesPerBlock.toNat ∧
      (iBlockOffset extdesc 14).toNat =
        14 + extdesc.edEntriesPerBlock.toNat * (extdesc.edEntriesPerBlock.toNat + 2) := by
  have hle := h.entries_le
  have hmul := Nat.mul_le_mul hle (Nat.add_le_add_right hle 2)
  constructor
  · change (13 + extdesc.edEntriesPerBlock).toNat = _
    rw [UInt32.toNat_add]
    change (13 + _) % 2 ^ 32 = _
    omega
  · change (14 + extdesc.edEntriesPerBlock * (extdesc.edEntriesPerBlock + 2)).toNat = _
    have htwo : (extdesc.edEntriesPerBlock + 2).toNat = extdesc.edEntriesPerBlock.toNat + 2 := by
      rw [UInt32.toNat_add]
      change (_ + 2) % 2 ^ 32 = _
      omega
    rw [UInt32.toNat_add, UInt32.toNat_mul, htwo]
    change (14 + _) % 2 ^ 32 = _
    omega

theorem fileBlocks_placed (h : BlockSizes extdesc) (inode : ExtInode) :
    List.Forall₂ Placed (scanForest extdesc fd (List.ofFn inode.iBlock)).dataNodes
      (fileBlocks extdesc fd inode) := by
  have hentries := h.entries_le
  obtain ⟨hdouble, htriple⟩ := iBlockOffset_toNat h
  obtain ⟨hone, htwo, hthree⟩ := blockSpan_le hentries
  have hmul := Nat.mul_le_mul hentries (Nat.add_le_add_right hentries 2)
  apply linkForest_placed
    (fun i m => i < 15 → m = slotNumber extdesc.edEntriesPerBlock.toNat i) 15
  · intro i m hi hm hnext
    rw [hm hi]
    exact slotNumber_succ _ hnext
  · intro i m link hi hm
    obtain rfl := hm hi
    by_cases hdirect : i < 12
    · have hlevel : iBlockLevel i = 0 := if_pos hdirect
      have hnumber : slotNumber extdesc.edEntriesPerBlock.toNat i = i := if_pos (by omega)
      have hoffset : (iBlockOffset extdesc i).toNat = i := by
        rw [iBlockOffset, if_pos hdirect, UInt32.toNat_ofNat']
        omega
      rw [hlevel, hnumber]
      exact .cons ⟨rfl, .inl ⟨hdirect, hoffset⟩⟩ .nil
    · have hlevel : iBlockLevel i = i - 12 + 1 := by
        rw [iBlockLevel, if_neg hdirect]
        omega
      rw [hlevel]
      obtain rfl | rfl | rfl : i = 12 ∨ i = 13 ∨ i = 14 := by omega
      · apply logicalBlocks_placed h (by omega) link _ le_rfl le_rfl (fun hzero => by omega)
        change 12 + blockSpan _ 1 ≤ _
        omega
      · apply logicalBlocks_placed h (by omega) link _
        · exact Nat.le_add_right 12 _
        · rw [hdouble]
          change 12 + _ ≤ _
          omega
        · omega
        · rw [hdouble]
          change _ + blockSpan _ 2 ≤ _
          omega
      · apply logicalBlocks_placed h (by omega) link _
        · exact (Nat.le_add_right 12 _).trans (Nat.le_add_right _ _)
        · rw [htriple]
          change 12 + _ + extdesc.edEntriesPerBlock.toNat ^ 2 ≤ _
          rw [Nat.mul_add, sq]
          omega
        · omega
        · rw [htriple]
          change _ + blockSpan _ 3 ≤ _
          omega
  · rw [List.length_ofFn]
  · exact fun _ => rfl

structure Within (n m : ℕ) (blocks : List (ℕ × UInt32)) : Prop where
  le : n ≤ m
  sorted : blocks.Pairwise fun x y => x.1 < y.1
  range : ∀ x ∈ blocks, n ≤ x.1 ∧ x.1 < m

theorem Within.append {n m k : ℕ} {xs ys : List (ℕ × UInt32)} (h : Within n m xs) (h' : Within m k ys) :
    Within n k (xs ++ ys) := by
  refine ⟨h.le.trans h'.le, List.pairwise_append.mpr ⟨h.sorted, h'.sorted, ?_⟩, ?_⟩
  · intro x hx y hy
    exact (h.range x hx).2.trans_le (h'.range y hy).1
  · intro x hx
    obtain hx | hx := List.mem_append.mp hx
    · exact ⟨(h.range x hx).1, (h.range x hx).2.trans_le h'.le⟩
    · exact ⟨h.le.trans (h'.range x hx).1, (h'.range x hx).2⟩

theorem logicalLinks_within {sub : ℕ → UInt32 → ℕ → List (ℕ × UInt32)} {level : ℕ → ℕ} {entries : ℕ}
    (start : ℕ → ℕ) (hstart : ∀ i, start (i + 1) = start i + entries ^ level i)
    (hsub : ∀ i link n, Within n (n + entries ^ level i) (sub (level i) link n))
    (ls : List UInt32) (i : ℕ) :
    Within (start i) (start (i + ls.length)) (logicalLinks sub level entries ls i (start i)) := by
  induction ls generalizing i with
  | nil => exact ⟨le_rfl, .nil, fun x hx => absurd hx List.not_mem_nil⟩
  | cons link ls ih =>
    have hrest := ih (i + 1)
    rw [Nat.add_assoc, Nat.add_comm 1] at hrest
    rw [List.length_cons, logicalLinks, ← hstart]
    refine Within.append ?_ hrest
    by_cases hlink : link = 0
    · rw [if_neg (not_not_intro hlink), hstart]
      exact ⟨Nat.le_add_right _ _, .nil, fun x hx => absurd hx List.not_mem_nil⟩
    · rw [if_pos hlink, hstart]
      exact hsub i link _

theorem logicalBlocks_within {read : UInt32 → List UInt32} {entries : ℕ}
    (hread : ∀ blockid, (read blockid).length ≤ entries) (level : ℕ) (blockid : UInt32) (n : ℕ) :
    Within n (n + entries ^ level) (logicalBlocks read entries level blockid n) := by
  induction level generalizing blockid n with
  | zero =>
    refine ⟨Nat.le_add_right n _, List.pairwise_singleton _ _, ?_⟩
    rintro x hx
    obtain rfl := List.mem_singleton.mp hx
    exact ⟨le_rfl, Nat.lt_succ_self n⟩
  | succ level ih =>
    have hstart (i : ℕ) : n + (i + 1) * entries ^ level = n + i * entries ^ level + entries ^ level := by
      rw [Nat.succ_mul, Nat.add_assoc]
    obtain ⟨-, hsorted, hrange⟩ := @logicalLinks_within (fun _ => logicalBlocks read entries level)
      (fun _ => level) entries (fun i => n + i * entries ^ level) hstart (fun _ link m => ih link m)
      (read blockid) 0
    rw [zero_mul, add_zero] at hsorted
    rw [zero_mul, add_zero, zero_add] at hrange
    refine ⟨Nat.le_add_right n _, hsorted, fun x hx => ⟨(hrange x hx).1, ?_⟩⟩
    have hlength := Nat.mul_le_mul_right (entries ^ level) (hread blockid)
    rw [pow_succ']
    exact (hrange x hx).2.trans_le (Nat.add_le_add_left hlength n)

theorem fileBlocks_sorted (h : BlockSizes extdesc) (inode : ExtInode) :
    (fileBlocks extdesc fd inode).Pairwise fun x y => x.1 < y.1 := by
  have hwithin := logicalLinks_within
    (fun i => ∑ j ∈ Finset.range i, extdesc.edEntriesPerBlock.toNat ^ iBlockLevel j)
    (fun i => Finset.sum_range_succ _ i)
    (fun i link n => logicalBlocks_within (@BlockSizes.readLinks_length extdesc fd h) (iBlockLevel i) link n)
    (List.ofFn inode.iBlock) 0
  exact hwithin.sorted

end Numbers

end SBlktrace
