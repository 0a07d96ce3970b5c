import SBlktrace.FileLayout
import Mathlib

namespace SBlktrace

open Function Forest PartitionData

def blockWrite (extdesc : ExtDesc) (size : UInt32) (data : UInt32 → Buf) (blockid : UInt32) (n : ℕ) :
    ℕ × List UInt8 :=
  (n * extdesc.edBlockSize.toNat,
    (List.range (min extdesc.edBlockSize.toNat (size.toNat - n * extdesc.edBlockSize.toNat))).map
      (data blockid))

def guestWrites (extdesc : ExtDesc) (size : UInt32) (data : UInt32 → Buf) (blocks : List (ℕ × UInt32)) :
    TmpFile :=
  (blocks.filter fun x => x.1 * extdesc.edBlockSize.toNat < size.toNat).map fun x =>
    blockWrite extdesc size data x.2 x.1

def TmpFile.written (file : TmpFile) : TmpFile := file.filter fun write => write.2 ≠ []

def byteAfter (i : ℕ) (byte : UInt8) (write : ℕ × List UInt8) : UInt8 :=
  if write.1 ≤ i ∧ i < write.1 + write.2.length then write.2.getD (i - write.1) 0 else byte

def TmpFile.byte (file : TmpFile) (i : ℕ) : UInt8 := file.foldl (byteAfter i) 0

def guestByte (extdesc : ExtDesc) (data : UInt32 → Buf) (blocks : List (ℕ × UInt32)) (i : ℕ) : UInt8 :=
  (blocks.find? fun x => x.1 = i / extdesc.edBlockSize.toNat).elim 0 fun x =>
    data x.2 (i % extdesc.edBlockSize.toNat)

/-- `copy_inode` has written the file as it is: each block where it is in the file and no more of it
than the file has, so that the bytes of a file that is new are the guest's, and nothing wraps. -/
structure Reconstructs (extdesc : ExtDesc) (inodeid : UInt32) (data : UInt32 → Buf)
    (blocks : List (ℕ × UInt32)) (p p' : PartitionData) : Prop where
  writes : TmpFile.written ((p'.tmpfs (p.globalVersion, inodeid)).getD []) =
    TmpFile.written ((p.tmpfs (p.globalVersion, inodeid)).getD []) ++
      guestWrites extdesc (p.ilist inodeid).siSize data blocks
  content : p.tmpfs (p.globalVersion, inodeid) = none → ∀ i < (p.ilist inodeid).siSize.toNat,
    TmpFile.byte ((p'.tmpfs (p.globalVersion, inodeid)).getD []) i = guestByte extdesc data blocks i
  subtraction : ∀ x ∈ blocks,
    (p.blist x.2).sbOffset * extdesc.edBlockSize ≤ (p.ilist inodeid).siSize
  shift : ∀ x ∈ blocks, ((p.blist x.2).sbOffset <<< extdesc.edBlockShift).toNat =
    (p.blist x.2).sbOffset.toNat * 2 ^ extdesc.edBlockShift.toNat

section Content

variable {extdesc : ExtDesc} {size : UInt32} {data : UInt32 → Buf} {blocks : List (ℕ × UInt32)} {i : ℕ}

theorem written_byte (file : TmpFile) (i : ℕ) : (TmpFile.written file).byte i = file.byte i := by
  rw [TmpFile.byte, TmpFile.byte, TmpFile.written, List.foldl_filter]
  congr 1
  funext byte write
  by_cases hempty : write.2 = []
  · have hout : ¬ (write.1 ≤ i ∧ i < write.1 + write.2.length) := by
      rw [hempty, List.length_nil]
      omega
    rw [byteAfter, if_neg hout, if_neg (by simpa using hempty)]
  · rw [if_pos (by simpa using hempty)]

theorem blockWrite_covers (h : BlockSizes extdesc) (hi : i < size.toNat) (x : ℕ × UInt32) (byte : UInt8) :
    byteAfter i byte (blockWrite extdesc size data x.2 x.1) =
      if x.1 = i / extdesc.edBlockSize.toNat then data x.2 (i % extdesc.edBlockSize.toNat) else byte := by
  have hpos := h.size_pos
  have hdiv := Nat.div_add_mod' i extdesc.edBlockSize.toNat
  have hmod := Nat.mod_lt i hpos
  have hlength : (blockWrite extdesc size data x.2 x.1).2.length =
      min extdesc.edBlockSize.toNat (size.toNat - x.1 * extdesc.edBlockSize.toNat) := by
    rw [blockWrite, List.length_map, List.length_range]
  have hcovers : ((blockWrite extdesc size data x.2 x.1).1 ≤ i ∧
      i < (blockWrite extdesc size data x.2 x.1).1 + (blockWrite extdesc size data x.2 x.1).2.length) ↔
      x.1 = i / extdesc.edBlockSize.toNat := by
    rw [hlength]
    change (x.1 * extdesc.edBlockSize.toNat ≤ i ∧ i < x.1 * extdesc.edBlockSize.toNat + _) ↔ _
    rw [eq_comm, Nat.div_eq_iff hpos, Nat.mul_comm]
    omega
  rw [byteAfter]
  by_cases hx : x.1 = i / extdesc.edBlockSize.toNat
  · rw [if_pos (hcovers.mpr hx), if_pos hx]
    have hin := hcovers.mpr hx
    have hoff : i - (blockWrite extdesc size data x.2 x.1).1 = i % extdesc.edBlockSize.toNat := by
      change i - x.1 * extdesc.edBlockSize.toNat = _
      rw [hx]
      omega
    rw [hoff]
    have hlt : i % extdesc.edBlockSize.toNat < (blockWrite extdesc size data x.2 x.1).2.length := by
      rw [← hoff]
      omega
    rw [List.getD_eq_getElem _ _ hlt]
    simp [blockWrite]
  · rw [if_neg (fun hin => hx (hcovers.mp hin)), if_neg hx]

theorem guestWrites_byte (h : BlockSizes extdesc) (hsorted : blocks.Pairwise fun x y => x.1 < y.1)
    (hi : i < size.toNat) :
    (guestWrites extdesc size data blocks).byte i = guestByte extdesc data blocks i := by
  rw [TmpFile.byte, guestByte]
  generalize (0 : UInt8) = byte
  induction blocks generalizing byte with
  | nil => rfl
  | cons x blocks ih =>
    have hpos := h.size_pos
    obtain ⟨hfirst, hsorted⟩ := List.pairwise_cons.mp hsorted
    by_cases hx : x.1 = i / extdesc.edBlockSize.toNat
    · have hin : x.1 * extdesc.edBlockSize.toNat < size.toNat := by
        rw [hx]
        exact (Nat.div_mul_le_self i _).trans_lt hi
      have hnone : (blocks.find? fun y => y.1 = i / extdesc.edBlockSize.toNat) = none := by
        rw [List.find?_eq_none]
        intro y hy heq
        exact absurd (hx.trans (of_decide_eq_true heq).symm) (hfirst y hy).ne
      rw [guestWrites, List.filter_cons_of_pos (by simpa using hin), List.map_cons, List.foldl_cons,
        blockWrite_covers h hi, if_pos hx, List.find?_cons_of_pos (by simpa using hx)]
      rw [← guestWrites, ih hsorted, hnone]
      rfl
    · rw [List.find?_cons_of_neg (by simpa using hx), ← ih hsorted]
      by_cases hin : x.1 * extdesc.edBlockSize.toNat < size.toNat
      · rw [guestWrites, List.filter_cons_of_pos (by simpa using hin), List.map_cons, List.foldl_cons,
          blockWrite_covers h hi, if_neg hx]
        rfl
      · rw [guestWrites, List.filter_cons_of_neg (by simpa using hin)]
        rfl

theorem byte_of_writes (h : BlockSizes extdesc) (hsorted : blocks.Pairwise fun x y => x.1 < y.1)
    {file : TmpFile} (hfile : TmpFile.written file = guestWrites extdesc size data blocks)
    (hi : i < size.toNat) : file.byte i = guestByte extdesc data blocks i := by
  rw [← written_byte, hfile]
  exact guestWrites_byte h hsorted hi

end Content

section Copy

variable {extdesc : ExtDesc} {inodeid : UInt32} {version : UInt16} {data : UInt32 → Buf}
  {p : PartitionData} {F : Forest BlockNode} {a : BlockNode}

structure Copyable (extdesc : ExtDesc) (inodeid : UInt32) (data : UInt32 → Buf) (p : PartitionData)
    (a : BlockNode) : Prop where
  cached : p.dataCache a.block = some (data a.block)
  within : a.offset.toNat * extdesc.edBlockSize.toNat ≤ (p.ilist inodeid).siSize.toNat

theorem Copyable.of_keeps {p' : PartitionData} (h : Copyable extdesc inodeid data p a)
    (hkeeps : CopyKeeps p p') : Copyable extdesc inodeid data p' a := by
  constructor
  · rw [hkeeps.dataCache]
    exact h.cached
  · rw [hkeeps.ilist]
    exact h.within

def fileAfter (extdesc : ExtDesc) (inodeid : UInt32) (version : UInt16) (data : UInt32 → Buf)
    (p : PartitionData) (blocks : List BlockNode) : TmpFile :=
  (p.tmpfs (version, inodeid)).getD [] ++
    blocks.map fun a => blockWrite extdesc (p.ilist inodeid).siSize data a.block a.offset.toNat

theorem shift_toNat (h : BlockSizes extdesc) {offset : UInt32} {size : ℕ} (hsize : size < 2 ^ 32)
    (hfit : offset.toNat * extdesc.edBlockSize.toNat ≤ size) :
    (offset <<< extdesc.edBlockShift).toNat = offset.toNat * 2 ^ extdesc.edBlockShift.toNat := by
  have hshift := h.shift
  rw [h.size] at hfit
  rw [UInt32.toNat_shiftLeft, Nat.mod_eq_of_lt (show extdesc.edBlockShift.toNat < 32 by omega),
    Nat.shiftLeft_eq, Nat.mod_eq_of_lt (by omega)]

theorem copyBlock_writes (h : BlockSizes extdesc) (hcopy : Copyable extdesc inodeid data p a)
    (count : UInt32) :
    (((copyBlock extdesc inodeid version a count true p).1.tmpfs (version, inodeid)).getD [] =
        fileAfter extdesc inodeid version data p [a]) ∧
      (copyBlock extdesc inodeid version a count true p).2.2 = true := by
  obtain ⟨hcached, hwithin⟩ := hcopy
  have hsize : (p.ilist inodeid).siSize.toNat < 2 ^ 32 := UInt32.toNat_lt _
  have hshift := shift_toNat h hsize hwithin
  have hmul : (a.offset * extdesc.edBlockSize).toNat = a.offset.toNat * extdesc.edBlockSize.toNat := by
    rw [UInt32.toNat_mul, Nat.mod_eq_of_lt (by omega)]
  have hleft : ((p.ilist inodeid).siSize - a.offset * extdesc.edBlockSize).toNat =
      (p.ilist inodeid).siSize.toNat - a.offset.toNat * extdesc.edBlockSize.toNat := by
    rw [UInt32.toNat_sub_of_le _ _ (by rw [UInt32.le_iff_toNat_le, hmul]; exact hwithin), hmul]
  have hlength : (if extdesc.edBlockSize < (p.ilist inodeid).siSize - a.offset * extdesc.edBlockSize then
      extdesc.edBlockSize else (p.ilist inodeid).siSize - a.offset * extdesc.edBlockSize).toNat =
      min extdesc.edBlockSize.toNat
        ((p.ilist inodeid).siSize.toNat - a.offset.toNat * extdesc.edBlockSize.toNat) := by
    split
    · rename_i hlt
      rw [UInt32.lt_iff_toNat_lt, hleft] at hlt
      omega
    · rename_i hlt
      rw [UInt32.lt_iff_toNat_lt, hleft] at hlt
      omega
  rw [copyBlock, hcached]
  dsimp only
  rw [writeToTmpfs]
  dsimp only
  rw [if_neg (not_not_intro hshift), fileAfter, List.map_singleton, blockWrite]
  dsimp only
  rw [hlength, hshift, ← h.size, update_self]
  exact ⟨rfl, rfl⟩

theorem fileAfter_append {p' : PartitionData} {xs ys : List BlockNode} (hkeeps : CopyKeeps p p')
    (hfile : (p'.tmpfs (version, inodeid)).getD [] = fileAfter extdesc inodeid version data p xs) :
    fileAfter extdesc inodeid version data p' ys =
      fileAfter extdesc inodeid version data p (xs ++ ys) := by
  rw [fileAfter, hfile, hkeeps.ilist, fileAfter, fileAfter, List.map_append, List.append_assoc]

theorem copyForest_writes (h : BlockSizes extdesc)
    (hcopy : ∀ a ∈ F.dataNodes, Copyable extdesc inodeid data p a) (count : UInt32) :
    (((copyForest extdesc inodeid version F count true p).1.tmpfs (version, inodeid)).getD [] =
        fileAfter extdesc inodeid version data p F.dataNodes) ∧
      (copyForest extdesc inodeid version F count true p).2.2 = true := by
  induction F generalizing count p with
  | nil =>
    rw [dataNodes, fileAfter, List.map_nil, List.append_nil]
    exact ⟨rfl, rfl⟩
  | node a kids rest ihk ihr =>
    rw [dataNodes] at hcopy ⊢
    rw [copyForest]
    dsimp only
    by_cases hlevel : a.level = 0
    · rw [if_neg (not_not_intro hlevel)] at hcopy ⊢
      rw [if_neg (not_not_intro hlevel)]
      have hkeeps := @copyBlock_keeps extdesc inodeid version a count true p
      obtain ⟨hfile, hok⟩ := @copyBlock_writes extdesc inodeid version data p a h
        (hcopy a (List.mem_append_left _ List.mem_cons_self)) count
      rw [hok, ← fileAfter_append hkeeps hfile]
      exact ihr (fun b hb => (hcopy b (List.mem_append_right _ hb)).of_keeps hkeeps) _
    · rw [if_pos hlevel] at hcopy ⊢
      rw [if_pos hlevel]
      have hkeeps := @copyForest_keeps extdesc inodeid version kids count true p
      obtain ⟨hfile, hok⟩ := ihk (fun b hb => hcopy b (List.mem_append_left _ hb)) count
      rw [hok, ← fileAfter_append hkeeps hfile]
      exact ihr (fun b hb => (hcopy b (List.mem_append_right _ hb)).of_keeps hkeeps) _

theorem dataNodes_first (hshows : Shows p F) (hfirst : F.first = 0) : F.dataNodes = [] := by
  cases F with
  | nil => rfl
  | node a kids rest => exact absurd hfirst hshows.node.1

theorem copyInode_writes (h : BlockSizes extdesc) (hshows : Shows p F)
    (hfirst : (p.ilist inodeid).siBh = F.first)
    (hcopy : ∀ a ∈ F.dataNodes, Copyable extdesc inodeid data p a) {fuel : ℕ}
    (hfuel : F.nodes.length < fuel) :
    ∃ p', copyInode extdesc fuel inodeid p = some p' ∧
      (p'.tmpfs (p.globalVersion, inodeid)).getD [] =
        fileAfter extdesc inodeid p.globalVersion data p F.dataNodes := by
  rw [copyInode]
  by_cases hzero : (p.ilist inodeid).siBh = 0
  · rw [if_neg (not_not_intro hzero), dataNodes_first hshows (hfirst.symm.trans hzero), fileAfter,
      List.map_nil, List.append_nil]
    exact ⟨p, rfl, rfl⟩
  · have hshows' : Shows { p with globalVersion := p.globalVersion + 1 } F := hshows.of_blist rfl
    have hcopy' : ∀ a ∈ F.dataNodes,
        Copyable extdesc inodeid data { p with globalVersion := p.globalVersion + 1 } a :=
      fun a ha => ⟨(hcopy a ha).cached, (hcopy a ha).within⟩
    obtain ⟨hfile, hok⟩ := @copyForest_writes extdesc inodeid p.globalVersion data
      { p with globalVersion := p.globalVersion + 1 } F h hcopy' 0
    rw [if_pos hzero]
    dsimp only
    rw [hfirst, recurCopyBlock_eq hshows' hfuel]
    dsimp only [Option.bind_some, bind]
    rw [if_pos hok]
    split
    · exact ⟨_, rfl, hfile⟩
    · exact ⟨_, rfl, hfile⟩

end Copy

section Exact

variable {extdesc : ExtDesc} {fd : UInt32 → Option Buf} {inodeid : UInt32} {inode : ExtInode}
  {data : UInt32 → Buf} {p q : PartitionData}

theorem exists_right_of_forall₂ {α β : Type} {R : α → β → Prop} {xs : List α} {ys : List β}
    (h : List.Forall₂ R xs ys) {x : α} (hx : x ∈ xs) : ∃ y ∈ ys, R x y := by
  induction h with
  | nil => cases hx
  | cons hxy _ ih =>
    obtain rfl | hx := List.mem_cons.mp hx
    · exact ⟨_, List.mem_cons_self, hxy⟩
    · obtain ⟨y, hy, hxy⟩ := ih hx
      exact ⟨y, List.mem_cons_of_mem _ hy, hxy⟩

theorem exists_left_of_forall₂ {α β : Type} {R : α → β → Prop} {xs : List α} {ys : List β}
    (h : List.Forall₂ R xs ys) {y : β} (hy : y ∈ ys) : ∃ x ∈ xs, R x y :=
  exists_right_of_forall₂ (List.Forall₂.flip h) hy

theorem Placed.offset_eq {a : BlockNode} {x : ℕ × UInt32} (h : Placed a x) (hx : x.1 < 12) :
    a.offset.toNat = x.1 := by
  obtain ⟨-, ⟨-, heq⟩ | ⟨hge, -⟩⟩ := h
  · exact heq
  · omega

theorem Placed.le {a : BlockNode} {x : ℕ × UInt32} (h : Placed a x) : x.1 ≤ a.offset.toNat := by
  obtain ⟨-, ⟨-, heq⟩ | ⟨-, hlt⟩⟩ := h
  · exact heq.ge
  · exact hlt.le

theorem written_placed {size : UInt32} {nodes : List BlockNode} {blocks : List (ℕ × UInt32)}
    (hpos : 0 < extdesc.edBlockSize.toNat) (hplaced : List.Forall₂ Placed nodes blocks)
    (hdirect : ∀ x ∈ blocks, x.1 < 12) :
    TmpFile.written (nodes.map fun a => blockWrite extdesc size data a.block a.offset.toNat) =
      guestWrites extdesc size data blocks := by
  induction hplaced with
  | nil => rfl
  | @cons a x nodes blocks hax _ ih =>
    have hrest := ih fun y hy => hdirect y (List.mem_cons_of_mem _ hy)
    rw [List.map_cons, hax.offset_eq (hdirect x List.mem_cons_self), hax.block, TmpFile.written]
    have hempty : (blockWrite extdesc size data x.2 x.1).2 = [] ↔
        ¬ x.1 * extdesc.edBlockSize.toNat < size.toNat := by
      rw [blockWrite, List.map_eq_nil_iff, List.range_eq_nil]
      omega
    by_cases hin : x.1 * extdesc.edBlockSize.toNat < size.toNat
    · rw [List.filter_cons_of_pos (by simpa using mt hempty.mp (not_not_intro hin)), guestWrites,
        List.filter_cons_of_pos (by simpa using hin), List.map_cons]
      exact congrArg _ hrest
    · rw [List.filter_cons_of_neg (by simpa using hempty.mpr hin), guestWrites,
        List.filter_cons_of_neg (by simpa using hin)]
      exact hrest

theorem direct_of_written {size : UInt32} {nodes : List BlockNode} {blocks : List (ℕ × UInt32)}
    (hpos : 0 < extdesc.edBlockSize.toNat) (hplaced : List.Forall₂ Placed nodes blocks)
    (hwithin : ∀ a ∈ nodes, a.offset.toNat * extdesc.edBlockSize.toNat ≤ size.toNat)
    (hwritten : TmpFile.written (nodes.map fun a =>
      blockWrite extdesc size data a.block a.offset.toNat) = guestWrites extdesc size data blocks) :
    ∀ n, ∀ x ∈ blocks, x.1 = n → n < 12 := by
  intro n
  induction n using Nat.strong_induction_on with
  | _ n ih =>
    rintro x hx rfl
    obtain ⟨a, ha, -, ⟨hlt, -⟩ | ⟨hge, hbeyond⟩⟩ := exists_left_of_forall₂ hplaced hx
    · exact hlt
    have hin : x.1 * extdesc.edBlockSize.toNat < size.toNat :=
      (Nat.mul_lt_mul_of_pos_right hbeyond hpos).trans_le (hwithin a ha)
    have hmem : blockWrite extdesc size data x.2 x.1 ∈ guestWrites extdesc size data blocks :=
      List.mem_map_of_mem (List.mem_filter.mpr ⟨hx, decide_eq_true hin⟩)
    rw [← hwritten] at hmem
    obtain ⟨b, hb, hwrite⟩ := List.mem_map.mp (List.mem_of_mem_filter hmem)
    have hoffset : b.offset.toNat = x.1 :=
      Nat.eq_of_mul_eq_mul_right hpos (congrArg Prod.fst hwrite)
    obtain ⟨y, hy, -, ⟨hsmall, heq⟩ | ⟨hlarge, hbelow⟩⟩ := exists_right_of_forall₂ hplaced hb
    · omega
    · have hsmall := ih y.1 (by omega) y hy rfl
      omega

structure Scanned (extdesc : ExtDesc) (fd : UInt32 → Option Buf) (inodeid : UInt32) (inode : ExtInode)
    (q : PartitionData) : Prop where
  shows : Shows q (scanForest extdesc fd (List.ofFn inode.iBlock))
  siBh : (q.ilist inodeid).siBh = (scanForest extdesc fd (List.ofFn inode.iBlock)).first
  siSize : (q.ilist inodeid).siSize = inode.iSize

theorem FileOnDisk.scanned (h : FileOnDisk extdesc fd inode p) {fuel : ℕ} {scan : PartitionData}
    (hscan : initSinodeSblock fuel extdesc fd inodeid inode p = some (scan, true))
    (hblist : ∀ b ∈ (scanForest extdesc fd (List.ofFn inode.iBlock)).blocks, q.blist b = scan.blist b)
    (hilist : q.ilist inodeid = scan.ilist inodeid) : Scanned extdesc fd inodeid inode q := by
  rw [h.scan fuel inodeid] at hscan
  obtain rfl : _ = scan := congrArg Prod.fst (Option.some.inj hscan)
  constructor
  · exact (shows_attached h.distinct (zero_notMem_inodeForest _)).congr hblist
  · rw [hilist]
    exact attached_siBh _
  · have hsame : (attached (p.setInode inodeid (sinodeOf inode 0)) inodeid none none
        (scanForest extdesc fd (List.ofFn inode.iBlock))).ilist inodeid =
        { sinodeOf inode 0 with siBh := (scanForest extdesc fd (List.ofFn inode.iBlock)).first } := by
      change update (update p.ilist inodeid (sinodeOf inode 0)) inodeid
        { update p.ilist inodeid (sinodeOf inode 0) inodeid with siBh := _ } inodeid = _
      rw [update_self, update_self]
    rw [hilist, hsame]
    rfl

theorem Scanned.sbOffset (h : Scanned extdesc fd inodeid inode q) {a : BlockNode} {x : ℕ × UInt32}
    (ha : a ∈ (scanForest extdesc fd (List.ofFn inode.iBlock)).dataNodes) (hax : Placed a x) :
    (q.blist x.2).sbOffset = a.offset := by
  rw [← hax.block]
  exact h.shows.offset a (mem_nodes_of_dataNodes ha)

theorem within_of_noWrap (sizes : BlockSizes extdesc) {offset size : UInt32}
    (hsub : offset * extdesc.edBlockSize ≤ size)
    (hshift : (offset <<< extdesc.edBlockShift).toNat = offset.toNat * 2 ^ extdesc.edBlockShift.toNat) :
    offset.toNat * extdesc.edBlockSize.toNat ≤ size.toNat := by
  have hfit : offset.toNat * extdesc.edBlockSize.toNat < 2 ^ 32 := by
    rw [sizes.size, ← hshift]
    exact UInt32.toNat_lt _
  rw [UInt32.le_iff_toNat_le, UInt32.toNat_mul, Nat.mod_eq_of_lt hfit] at hsub
  exact hsub

theorem subtraction_of_within {offset size : UInt32}
    (h : offset.toNat * extdesc.edBlockSize.toNat ≤ size.toNat) : offset * extdesc.edBlockSize ≤ size := by
  have hsize : size.toNat < 2 ^ 32 := UInt32.toNat_lt _
  rw [UInt32.le_iff_toNat_le, UInt32.toNat_mul, Nat.mod_eq_of_lt (by omega)]
  exact h

def DirectWithin (extdesc : ExtDesc) (fd : UInt32 → Option Buf) (inode : ExtInode) : Prop :=
  ∀ x ∈ fileBlocks extdesc fd inode,
    x.1 < 12 ∧ x.1 * extdesc.edBlockSize.toNat ≤ inode.iSize.toNat

theorem DirectWithin.copyable (h : DirectWithin extdesc fd inode) (sizes : BlockSizes extdesc)
    (hscanned : Scanned extdesc fd inodeid inode q)
    (hdata : ∀ x ∈ fileBlocks extdesc fd inode, q.dataCache x.2 = some (data x.2)) :
    ∀ a ∈ (scanForest extdesc fd (List.ofFn inode.iBlock)).dataNodes,
      Copyable extdesc inodeid data q a := by
  intro a ha
  obtain ⟨x, hx, hax⟩ := exists_right_of_forall₂ (fileBlocks_placed sizes inode) ha
  obtain ⟨hdirect, hwithin⟩ := h x hx
  constructor
  · rw [hax.block]
    exact hdata x hx
  · rw [hax.offset_eq hdirect, hscanned.siSize]
    exact hwithin

theorem Reconstructs.copyable {q' : PartitionData}
    (h : Reconstructs extdesc inodeid data (fileBlocks extdesc fd inode) q q')
    (sizes : BlockSizes extdesc) (hscanned : Scanned extdesc fd inodeid inode q)
    (hdata : ∀ x ∈ fileBlocks extdesc fd inode, q.dataCache x.2 = some (data x.2)) :
    ∀ a ∈ (scanForest extdesc fd (List.ofFn inode.iBlock)).dataNodes,
      Copyable extdesc inodeid data q a := by
  intro a ha
  obtain ⟨x, hx, hax⟩ := exists_right_of_forall₂ (fileBlocks_placed sizes inode) ha
  have hsub := h.subtraction x hx
  have hshift := h.shift x hx
  rw [hscanned.sbOffset ha hax] at hsub hshift
  constructor
  · rw [hax.block]
    exact hdata x hx
  · exact within_of_noWrap sizes hsub hshift

end Exact

theorem logicalLinks_replicate {sub : ℕ → UInt32 → ℕ → List (ℕ × UInt32)} {level : ℕ → ℕ} {entries : ℕ}
    (k i n : ℕ) : logicalLinks sub level entries (List.replicate k 0) i n = [] := by
  induction k generalizing i n with
  | zero => rfl
  | succ k ih =>
    rw [List.replicate_succ, logicalLinks, if_neg (not_not_intro rfl), ih]
    rfl

theorem indirectFile_blocks : fileBlocks hundredBlocks indirectDisk indirectFile = [(12, 14)] := by
  have hbelow : logicalBlocks (readLinks hundredBlocks indirectDisk)
      hundredBlocks.edEntriesPerBlock.toNat 1 13 12 = [(12, 14)] := by
    rw [logicalBlocks, readLinks_indirect, logicalLinks, logicalLinks_replicate]
    rfl
  rw [← List.append_nil [(12, 14)], ← hbelow]
  rfl

end SBlktrace
