import SBlktrace.CreationForest
import SBlktrace.CopyForest
import SBlktrace.ScanFailure
import Mathlib

namespace SBlktrace

open Function Forest PartitionData

section Shape

variable {read : UInt32 → List UInt32} {off off' : ℕ → UInt32 → ℕ → UInt32}
  {sub sub' : ℕ → UInt32 → UInt32 → Forest BlockNode} {level : ℕ → ℕ} {top top' : ℕ → UInt32}

def BlockNode.place (a : BlockNode) : UInt32 × UInt8 := (a.block, a.level)

theorem linkForest_place
    (hsub : ∀ i link, (sub (level i) link (top i)).map BlockNode.place =
      (sub' (level i) link (top' i)).map BlockNode.place) (ls : List UInt32) (i : ℕ) :
    (linkForest sub level top ls i).map BlockNode.place =
      (linkForest sub' level top' ls i).map BlockNode.place := by
  induction ls generalizing i with
  | nil => rfl
  | cons link ls ih =>
    by_cases hlink : link = 0
    · subst hlink
      rw [linkForest_zero, linkForest_zero, ih]
    · rw [linkForest_cons hlink, linkForest_cons hlink, Forest.map, Forest.map, hsub, ih]
      rfl

theorem blockKids_place (level : ℕ) (blockid offset offset' : UInt32) :
    (blockKids read off level blockid offset).map BlockNode.place =
      (blockKids read off' level blockid offset').map BlockNode.place := by
  induction level generalizing blockid offset offset' with
  | zero => rfl
  | succ level ih =>
    exact @linkForest_place (fun _ => blockKids read off level) (fun _ => blockKids read off' level)
      (fun _ => level) _ _ (fun _ link => ih link _ _) _ _

theorem inodeForest_place (iBlock : List UInt32) :
    (inodeForest read off top iBlock).map BlockNode.place =
      (inodeForest read off' top' iBlock).map BlockNode.place :=
  linkForest_place (fun i link => blockKids_place (iBlockLevel i) link _ _) iBlock 0

theorem blocks_of_place {F G : Forest BlockNode} (h : F.map BlockNode.place = G.map BlockNode.place) :
    F.blocks = G.blocks := by
  have hnodes := congrArg Forest.nodes h
  rw [nodes_map, nodes_map] at hnodes
  have hfst := congrArg (List.map Prod.fst) hnodes
  rw [List.map_map, List.map_map] at hfst
  exact hfst

theorem exists_of_place {F G : Forest BlockNode} (h : F.map BlockNode.place = G.map BlockNode.place)
    {a : BlockNode} (ha : a ∈ F.nodes) : ∃ a' ∈ G.nodes, a'.block = a.block ∧ a'.level = a.level := by
  have hmem : a.place ∈ (G.map BlockNode.place).nodes := by
    rw [← h, nodes_map]
    exact List.mem_map_of_mem ha
  rw [nodes_map] at hmem
  obtain ⟨a', ha', hplace⟩ := List.mem_map.mp hmem
  exact ⟨a', ha', congrArg Prod.fst hplace, congrArg Prod.snd hplace⟩

theorem store_eq_iff {F G : Forest BlockNode} (h : F.map BlockNode.place = G.map BlockNode.place)
    (hnodup : F.blocks.Nodup) (n : UInt32) (blist : UInt32 → SBlock) :
    F.store n blist = G.store n blist ↔ F = G := by
  refine ⟨fun hstore => eq_of_map_eq h fun a ha b hb hplace => ?_, fun heq => heq ▸ rfl⟩
  obtain ⟨-, hoffset, -⟩ := @store_node F n blist hnodup a ha
  obtain ⟨-, hoffset', -⟩ := @store_node G n blist (blocks_of_place h ▸ hnodup) b hb
  have hblock : a.block = b.block := congrArg Prod.fst hplace
  have hlevel : a.level = b.level := congrArg Prod.snd hplace
  rw [hstore, hblock, hoffset'] at hoffset
  obtain ⟨block, level, offset⟩ := a
  obtain ⟨block', level', offset'⟩ := b
  dsimp only at hblock hlevel hoffset
  rw [hblock, hlevel, hoffset]

end Shape

section Offsets

variable {extdesc : ExtDesc} {read : UInt32 → List UInt32}

def Dataless (read : UInt32 → List UInt32) : ℕ → UInt32 → Prop
  | 0, _ => False
  | 1, blockid => ∀ link ∈ read blockid, link = 0
  | level + 2, blockid => ∀ link ∈ read blockid, link ≠ 0 → Dataless read (level + 1) link

theorem linkForest_eq_iff {sub sub' : ℕ → UInt32 → UInt32 → Forest BlockNode} {level : ℕ → ℕ}
    {top top' : ℕ → UInt32} (ls : List UInt32) (i : ℕ) :
    linkForest sub level top ls i = linkForest sub' level top' ls i ↔
      ∀ j link, ls[j]? = some link → link ≠ 0 → top (i + j) = top' (i + j) ∧
        sub (level (i + j)) link (top (i + j)) = sub' (level (i + j)) link (top' (i + j)) := by
  induction ls generalizing i with
  | nil => simp [linkForest]
  | cons first ls ih =>
    have hsplit (P : ℕ → UInt32 → Prop) : (∀ j link, (first :: ls)[j]? = some link → P j link) ↔
        P 0 first ∧ ∀ j link, ls[j]? = some link → P (j + 1) link := by
      constructor
      · intro h
        exact ⟨h 0 first rfl, fun j link hlink => h (j + 1) link hlink⟩
      · rintro ⟨hfirst, hrest⟩ (_ | j) link hlink
        · obtain rfl := Option.some.inj hlink
          exact hfirst
        · exact hrest j link hlink
    rw [hsplit]
    by_cases hzero : first = 0
    · subst hzero
      rw [linkForest_zero, linkForest_zero, ih]
      simp [Nat.add_assoc, Nat.add_comm 1]
    · rw [linkForest_cons hzero, linkForest_cons hzero, Forest.node.injEq, ih]
      simp [hzero, Nat.add_assoc, Nat.add_comm 1, and_assoc]

theorem remapOffset_one (offset : UInt32) (i : ℕ) :
    scanOffset extdesc 1 offset i = remapOffset extdesc 1 offset i + 1 := by
  have hremap : remapOffset extdesc 1 offset i = offset + UInt32.ofNat i := rfl
  rw [hremap, scanOffset, stride, if_pos rfl, mul_one, add_right_comm]

theorem remapOffset_add_two {level : ℕ} (hlevel : level ≤ 1) (offset : UInt32) (i : ℕ) :
    scanOffset extdesc (level + 2) offset i = remapOffset extdesc (level + 2) offset i := by
  interval_cases level
  · have hremap : remapOffset extdesc 2 offset i =
        offset + 1 + UInt32.ofNat i * (1 + extdesc.edEntriesPerBlock) := rfl
    have hstride : stride extdesc 2 = extdesc.edEntriesPerBlock + 1 := rfl
    rw [scanOffset, hremap, hstride, add_comm 1 extdesc.edEntriesPerBlock]
  · have hremap : remapOffset extdesc 3 offset i = offset + 1 +
        UInt32.ofNat i * (1 + extdesc.edEntriesPerBlock * (1 + extdesc.edEntriesPerBlock)) := rfl
    have hstride : stride extdesc 3 =
        extdesc.edEntriesPerBlock * (extdesc.edEntriesPerBlock + 1) + 1 := rfl
    rw [scanOffset, hremap, hstride, add_comm 1 extdesc.edEntriesPerBlock, add_comm 1]

theorem blockKids_eq_iff {level : ℕ} (hlevel : level ≤ 2) (blockid offset : UInt32) :
    blockKids read (scanOffset extdesc) (level + 1) blockid offset =
        blockKids read (remapOffset extdesc) (level + 1) blockid offset ↔
      Dataless read (level + 1) blockid := by
  induction level generalizing blockid offset with
  | zero =>
    rw [blockKids, blockKids, linkForest_eq_iff, Dataless]
    constructor
    · intro h link hmem
      obtain ⟨j, hj⟩ := List.mem_iff_getElem?.mp hmem
      by_contra hne
      have hoffset := (h j link hj hne).1
      rw [remapOffset_one] at hoffset
      have hone : (1 : UInt32) = 0 := add_eq_left.mp hoffset
      exact absurd hone (by decide)
    · intro h j link hj hne
      exact absurd (h link (List.mem_of_getElem? hj)) hne
  | succ level ih =>
    rw [blockKids, blockKids, linkForest_eq_iff, Dataless]
    have hiff (j : ℕ) (link : UInt32) :
        (scanOffset extdesc (level + 2) offset (0 + j) = remapOffset extdesc (level + 2) offset (0 + j) ∧
          blockKids read (scanOffset extdesc) (level + 1) link (scanOffset extdesc (level + 2) offset (0 + j)) =
            blockKids read (remapOffset extdesc) (level + 1) link
              (remapOffset extdesc (level + 2) offset (0 + j))) ↔ Dataless read (level + 1) link := by
      rw [remapOffset_add_two (by omega), ih (by omega)]
      exact and_iff_right rfl
    constructor
    · intro h link hmem hne
      obtain ⟨j, hj⟩ := List.mem_iff_getElem?.mp hmem
      exact (hiff j link).mp (h j link hj hne)
    · intro h j link hj hne
      exact (hiff j link).mpr (h link (List.mem_of_getElem? hj) hne)

theorem inodeForest_eq_iff (iBlock : Fin 15 → UInt32) :
    inodeForest read (scanOffset extdesc) (iBlockOffset extdesc) (List.ofFn iBlock) =
        inodeForest read (remapOffset extdesc) (diffOffset extdesc) (List.ofFn iBlock) ↔
      (∀ i : Fin 15, 12 ≤ i.val → iBlock i ≠ 0 → Dataless read (iBlockLevel i) (iBlock i)) ∧
        (iBlock 14 ≠ 0 → extdesc.edEntriesPerBlock = 0) := by
  rw [inodeForest, inodeForest, linkForest_eq_iff]
  have hslot (P : ℕ → UInt32 → Prop) : (∀ j link, (List.ofFn iBlock)[j]? = some link → P j link) ↔
      ∀ i : Fin 15, P i (iBlock i) := by
    constructor
    · intro h i
      apply h i
      rw [List.getElem?_ofFn, dif_pos i.isLt]
    · intro h j link hlink
      rw [List.getElem?_ofFn] at hlink
      split at hlink
      · rename_i hj
        obtain rfl := Option.some.inj hlink
        exact h ⟨j, hj⟩
      · cases hlink
  have hlast : iBlockOffset extdesc 14 = diffOffset extdesc 14 ↔ extdesc.edEntriesPerBlock = 0 := by
    have hscan : iBlockOffset extdesc 14 =
        diffOffset extdesc 14 + extdesc.edEntriesPerBlock := by
      change 14 + extdesc.edEntriesPerBlock * (extdesc.edEntriesPerBlock + 2) =
        14 + (extdesc.edEntriesPerBlock + 1) * extdesc.edEntriesPerBlock + extdesc.edEntriesPerBlock
      have htwo : extdesc.edEntriesPerBlock + 2 = extdesc.edEntriesPerBlock + 1 + 1 := by
        rw [add_assoc]
        rfl
      rw [htwo, mul_add, mul_one, mul_comm, add_assoc]
    rw [hscan, add_eq_left]
  have hkids (i : Fin 15) (hi : 12 ≤ i.val) (offset : UInt32) :
      blockKids read (scanOffset extdesc) (iBlockLevel i) (iBlock i) offset =
          blockKids read (remapOffset extdesc) (iBlockLevel i) (iBlock i) offset ↔
        Dataless read (iBlockLevel i) (iBlock i) := by
    have hlevel : iBlockLevel i = i.val - 12 + 1 := by
      rw [iBlockLevel, if_neg (by omega)]
      omega
    rw [hlevel]
    exact blockKids_eq_iff (by omega) _ _
  rw [hslot]
  constructor
  · intro h
    refine ⟨fun i hi hne => ?_, fun hne => ?_⟩
    · obtain ⟨htop, hsub⟩ := h i hne
      rw [zero_add] at htop hsub
      rw [htop] at hsub
      exact (hkids i hi _).mp hsub
    · exact hlast.mp (h 14 hne).1
  · rintro ⟨hdata, htriple⟩ i hne
    rw [zero_add]
    have htop : iBlockOffset extdesc i = diffOffset extdesc i := by
      by_cases hi : i.val < 12
      · rw [iBlockOffset, diffOffset, if_pos hi, if_pos hi]
      obtain hi | hi | hi : i = 12 ∨ i = 13 ∨ i = 14 := by omega
      · subst hi
        rfl
      · subst hi
        rfl
      · subst hi
        exact hlast.mpr (htriple hne)
    refine ⟨htop, ?_⟩
    rw [htop]
    by_cases hi : i.val < 12
    · have hlevel : iBlockLevel i = 0 := by
        rw [iBlockLevel, if_pos hi]
      rw [hlevel]
      rfl
    · exact (hkids i (by omega) _).mpr (hdata i (by omega) hne)

end Offsets

section Agreement

variable {extdesc : ExtDesc} {fd : UInt32 → Option Buf} {inodeid : UInt32} {inode : ExtInode}
  {p : PartitionData}

structure FileOnDisk (extdesc : ExtDesc) (fd : UInt32 → Option Buf) (inode : ExtInode)
    (p : PartitionData) : Prop where
  disk : OnDisk extdesc fd (scanForest extdesc fd (List.ofFn inode.iBlock))
  distinct : (scanForest extdesc fd (List.ofFn inode.iBlock)).blocks.Nodup
  blank : ∀ b ∈ (scanForest extdesc fd (List.ofFn inode.iBlock)).blocks, p.blist b = .blank

structure Creation (extdesc : ExtDesc) (fd : UInt32 → Option Buf) (inodeid : UInt32)
    (inode : ExtInode) (p : PartitionData) : Prop extends FileOnDisk extdesc fd inode p where
  kept : inodeIsdir inode.iMode = true ∨ inodeIsregular inode.iMode = true
  alive : inode.iDtime < inode.iCtime
  untracked : (p.ilist inodeid).siMode = 0
  cached : Cached fd p (scanForest extdesc fd (List.ofFn inode.iBlock))

theorem scanForest_place (iBlock : List UInt32) :
    (scanForest extdesc fd iBlock).map BlockNode.place =
      (remapForest extdesc fd iBlock).map BlockNode.place :=
  inodeForest_place iBlock

theorem first_of_place {F G : Forest BlockNode} (h : F.map BlockNode.place = G.map BlockNode.place) :
    F.first = G.first := by
  cases F with
  | nil =>
    cases G with
    | nil => rfl
    | node a kids rest => cases h
  | node a kids rest =>
    cases G with
    | nil => cases h
    | node b kids' rest' =>
      rw [Forest.map, Forest.map, Forest.node.injEq] at h
      exact congrArg Prod.fst h.1

theorem FileOnDisk.attachable (h : FileOnDisk extdesc fd inode p) (inodeid : UInt32)
    {F : Forest BlockNode}
    (hblocks : F.blocks = (scanForest extdesc fd (List.ofFn inode.iBlock)).blocks) :
    Attachable (p.setInode inodeid (sinodeOf inode 0)) inodeid none none F := by
  constructor
  · rw [hblocks]
    exact h.distinct
  · intro b hb
    rw [hblocks] at hb
    exact h.blank b hb
  · rintro c hc
    cases hc
  · rintro s hs
    cases hs
  · change (update p.ilist inodeid (sinodeOf inode 0) inodeid).siBh = 0
    rw [update_self]
    rfl

theorem FileOnDisk.scan (h : FileOnDisk extdesc fd inode p) (fuel : ℕ) (inodeid : UInt32) :
    initSinodeSblock fuel extdesc fd inodeid inode p =
      some (attached (p.setInode inodeid (sinodeOf inode 0)) inodeid none none
        (scanForest extdesc fd (List.ofFn inode.iBlock)), true) := by
  have htrees := attachIBlocks_eq (List.ofFn inode.iBlock) List.length_ofFn h.disk
  have hattach := h.attachable inodeid (F := (scanForest extdesc fd (List.ofFn inode.iBlock)).append .nil)
    (by rw [append_nil])
  have hparse := parseIBlocks_eq _ 0 none _ htrees hattach
  have hfirst : keptFirst none (scanForest extdesc fd (List.ofFn inode.iBlock)) .nil =
      (scanForest extdesc fd (List.ofFn inode.iBlock)).first := by
    cases scanForest extdesc fd (List.ofFn inode.iBlock) <;> rfl
  rw [hfirst] at hparse
  rw [initSinodeSblock, ← sinodeOf, hparse]
  rfl

theorem Creation.remapDisk (h : Creation extdesc fd inodeid inode p) :
    OnDisk extdesc fd (remapForest extdesc fd (List.ofFn inode.iBlock)) := by
  have hplace := @scanForest_place extdesc fd (List.ofFn inode.iBlock)
  constructor
  · intro b hb
    rw [← blocks_of_place hplace] at hb
    exact h.disk.range b hb
  · intro a ha hlevel
    obtain ⟨a', ha', hblock, hlevel'⟩ := exists_of_place hplace.symm ha
    rw [← hblock]
    exact h.disk.read a' ha' (hlevel'.symm ▸ hlevel)

theorem Creation.remapCached (h : Creation extdesc fd inodeid inode p) :
    Cached fd (p.setInode inodeid (sinodeOf inode 0))
      (remapForest extdesc fd (List.ofFn inode.iBlock)) := by
  intro a ha hlevel
  obtain ⟨a', ha', hblock, hlevel'⟩ :=
    exists_of_place (@scanForest_place extdesc fd (List.ofFn inode.iBlock)).symm ha
  rw [← hblock]
  exact h.cached a' ha' (hlevel'.symm ▸ hlevel)

theorem shows_attached {F : Forest BlockNode} {q : PartitionData} {n : UInt32}
    (hnodup : F.blocks.Nodup) (hzero : (0 : UInt32) ∉ F.blocks) :
    Shows (attached q n none none F) F := by
  refine ⟨rep_store hnodup hzero, fun a ha => ?_, fun a ha => ?_⟩
  · exact (store_node hnodup a ha).1
  · exact (store_node hnodup a ha).2.1

theorem zero_notMem_inodeForest {read : UInt32 → List UInt32} {off : ℕ → UInt32 → ℕ → UInt32}
    {top : ℕ → UInt32} (iBlock : List UInt32) :
    (0 : UInt32) ∉ (inodeForest read off top iBlock).blocks :=
  zero_notMem_linkForest (fun i link => zero_notMem_blockKids (iBlockLevel i) link _) iBlock 0

theorem Creation.create (h : Creation extdesc fd inodeid inode p) (oinode : Option ExtInode)
    {fuel : ℕ} (hfuel : (remapForest extdesc fd (List.ofFn inode.iBlock)).nodes.length + 3 < fuel) :
    ∃ p', diffInode extdesc fuel inodeid inode oinode p = some p' ∧
      CopyKeeps (attached (p.setInode inodeid (sinodeOf inode 0)) inodeid none none
        (remapForest extdesc fd (List.ofFn inode.iBlock))) p' := by
  have hblocks := blocks_of_place (@scanForest_place extdesc fd (List.ofFn inode.iBlock))
  have hattach := h.toFileOnDisk.attachable inodeid hblocks.symm
  have hlinks : diffLinks extdesc fuel inodeid (List.ofFn inode.iBlock) 0 none
      (p.setInode inodeid (sinodeOf inode 0)) =
      some (attached (p.setInode inodeid (sinodeOf inode 0)) inodeid none none
        (remapForest extdesc fd (List.ofFn inode.iBlock)), true) :=
    diffLinks_eq (by omega) _ 0 (by rw [List.length_ofFn]) hattach h.remapDisk h.remapCached
  have hkind : ¬ (!inodeIsdir inode.iMode && !inodeIsregular inode.iMode) = true := by
    obtain hkept | hkept := h.kept <;> simp [hkept]
  have hmode : inode.iMode ≠ 0 := by
    intro hzero
    obtain hkept | hkept := h.kept <;>
    · rw [hzero] at hkept
      exact absurd hkept (by decide)
  have hcond : inode.iDtime < inode.iCtime ∧ inode.iMode ≠ 0 := ⟨h.alive, hmode⟩
  rw [diffInode, if_neg hkind]
  dsimp only
  rw [if_neg (not_not_intro h.untracked), if_pos hcond, hlinks]
  dsimp only [Option.bind_some, bind]
  rw [copyRegular]
  split
  · obtain ⟨p', hkeeps, hcopied⟩ := copyInode_some extdesc
      (shows_attached (hblocks ▸ h.distinct) (zero_notMem_inodeForest _)) (attached_siBh _)
    exact ⟨p', hcopied _ (lt_of_le_of_lt (Nat.le_add_right _ 3) hfuel), hkeeps⟩
  · exact ⟨_, rfl, .refl _⟩

/-- The offsets that the scan and the creation of an inode count differently are not there. -/
def OffsetsAgree (extdesc : ExtDesc) (fd : UInt32 → Option Buf) (inode : ExtInode) : Prop :=
  (∀ i : Fin 15, 12 ≤ i.val → inode.iBlock i ≠ 0 →
    Dataless (readLinks extdesc fd) (iBlockLevel i) (inode.iBlock i)) ∧
  (inode.iBlock 14 ≠ 0 → extdesc.edEntriesPerBlock = 0)

/-- The scan of the disk and the creation of the inode from the cache build the same tree just if no
data block is linked from an indirect block and there is no triple-indirect block. -/
theorem scan_creation_agree_iff (extdesc : ExtDesc) (fd : UInt32 → Option Buf) (inodeid : UInt32)
    (inode : ExtInode) (oinode : Option ExtInode) (p : PartitionData)
    (h : Creation extdesc fd inodeid inode p) :
    ∃ bound, ∀ fuel, bound ≤ fuel → ∃ p₁ p₂,
      initSinodeSblock fuel extdesc fd inodeid inode p = some (p₁, true) ∧
      diffInode extdesc fuel inodeid inode oinode p = some p₂ ∧
      ((p₁.blist = p₂.blist ∧ p₁.ilist = p₂.ilist) ↔ OffsetsAgree extdesc fd inode) := by
  refine ⟨(remapForest extdesc fd (List.ofFn inode.iBlock)).nodes.length + 4, fun fuel hfuel => ?_⟩
  have hplace := @scanForest_place extdesc fd (List.ofFn inode.iBlock)
  obtain ⟨p₂, hdiff, hkeeps⟩ := h.create oinode hfuel
  refine ⟨_, p₂, h.scan fuel inodeid, hdiff, ?_⟩
  have hilist : (attached (p.setInode inodeid (sinodeOf inode 0)) inodeid none none
      (scanForest extdesc fd (List.ofFn inode.iBlock))).ilist = p₂.ilist := by
    rw [hkeeps.ilist, attached, attached, first_of_place hplace]
    rfl
  have hblist : (attached (p.setInode inodeid (sinodeOf inode 0)) inodeid none none
      (scanForest extdesc fd (List.ofFn inode.iBlock))).blist = p₂.blist ↔
      scanForest extdesc fd (List.ofFn inode.iBlock) =
        remapForest extdesc fd (List.ofFn inode.iBlock) := by
    rw [hkeeps.blist]
    exact store_eq_iff hplace h.distinct inodeid p.blist
  rw [and_iff_left hilist, hblist]
  exact inodeForest_eq_iff inode.iBlock

end Agreement

def indirectDisk (blockid : UInt32) : Option Buf :=
  some fun i => if blockid = 13 ∧ i = 0 then 14 else 0

def indirectFile : ExtInode := ⟨0x8000, 20480, 1, 1, 0, fun i => if i = 12 then 13 else 0⟩

def cachedPartition : PartitionData := { blankPartition with dataCache := indirectDisk }

theorem linkForest_replicate {sub : ℕ → UInt32 → UInt32 → Forest BlockNode} {level : ℕ → ℕ}
    {top : ℕ → UInt32} (k i : ℕ) : linkForest sub level top (List.replicate k 0) i = .nil := by
  induction k generalizing i with
  | zero => rfl
  | succ k ih => rw [List.replicate_succ, linkForest_zero, ih]

theorem readLinks_indirect : readLinks hundredBlocks indirectDisk 13 = 14 :: List.replicate 255 0 := by
  have hlinks : readLinks hundredBlocks indirectDisk 13 = (List.range (255 + 1)).map fun i =>
      readui32le (fun i => if (13 : UInt32) = 13 ∧ i = 0 then 14 else 0) (4 * i) := rfl
  have hrest : (fun i => readui32le (fun i => if (13 : UInt32) = 13 ∧ i = 0 then 14 else 0) (4 * i)) ∘
      Nat.succ = fun _ => 0 := by
    funext i
    simp [readui32le]
  rw [hlinks, List.range_succ_eq_map, List.map_cons, List.map_map, hrest, List.map_const',
    List.length_range]
  rfl

theorem indirectFile_scan : scanForest hundredBlocks indirectDisk (List.ofFn indirectFile.iBlock) =
    .node ⟨13, 1, 12⟩ (.node ⟨14, 0, 13⟩ .nil .nil) .nil := by
  have hkids : blockKids (readLinks hundredBlocks indirectDisk) (scanOffset hundredBlocks) 1 13 12 =
      .node ⟨14, 0, 13⟩ .nil .nil := by
    rw [blockKids, readLinks_indirect, linkForest_cons (by decide), linkForest_replicate]
    rfl
  rw [← hkids]
  rfl

theorem indirectFile_remap :
    remapForest hundredBlocks indirectDisk (List.ofFn indirectFile.iBlock) =
      .node ⟨13, 1, 12⟩ (.node ⟨14, 0, 12⟩ .nil .nil) .nil := by
  have hkids : blockKids (readLinks hundredBlocks indirectDisk) (remapOffset hundredBlocks) 1 13 12 =
      .node ⟨14, 0, 12⟩ .nil .nil := by
    rw [blockKids, readLinks_indirect, linkForest_cons (by decide), linkForest_replicate]
    rfl
  rw [← hkids]
  rfl

theorem indirectFile_creation :
    Creation hundredBlocks indirectDisk 2 indirectFile cachedPartition where
  kept := .inr rfl
  alive := by decide
  untracked := rfl
  disk := by
    rw [indirectFile_scan]
    refine ⟨?_, fun a _ _ => ⟨_, rfl⟩⟩
    have hrange : ∀ b ∈ [13, 14], b < (100 : UInt32) := by simp
    exact hrange
  distinct := by
    rw [indirectFile_scan]
    decide
  blank _ _ := rfl
  cached _ _ _ := rfl

/-- The scan gives the first data block that an indirect block links the offset 13, the creation of
the inode 12. -/
theorem first_indirect_offset :
    Creation hundredBlocks indirectDisk 2 indirectFile cachedPartition ∧
      ∀ fuel ≥ 10, ∃ p₁ p₂,
        initSinodeSblock fuel hundredBlocks indirectDisk 2 indirectFile cachedPartition =
          some (p₁, true) ∧
        diffInode hundredBlocks fuel 2 indirectFile none cachedPartition = some p₂ ∧
        (p₁.blist 14).sbOffset = 13 ∧ (p₂.blist 14).sbOffset = 12 := by
  refine ⟨indirectFile_creation, fun fuel hfuel => ?_⟩
  have hscan := indirectFile_creation.scan fuel 2
  have hcreate := @Creation.create _ _ _ _ _ indirectFile_creation none fuel
  rw [indirectFile_scan] at hscan
  rw [indirectFile_remap] at hcreate
  obtain ⟨p₂, hdiff, hkeeps⟩ := hcreate (lt_of_lt_of_le (by decide) hfuel)
  refine ⟨_, p₂, hscan, hdiff, rfl, ?_⟩
  rw [hkeeps.blist]
  rfl

theorem directFile_scan : scanForest hundredBlocks (fun _ => none) (List.ofFn (directFile [5, 6]).iBlock) =
    .node ⟨5, 0, 0⟩ .nil (.node ⟨6, 0, 1⟩ .nil .nil) := rfl

theorem directFile_disk : FileOnDisk hundredBlocks (fun _ => none) (directFile [5, 6]) blankPartition where
  disk := by
    rw [directFile_scan]
    have hrange : ∀ b ∈ [5, 6], b < (100 : UInt32) := by simp
    have hlevel : ∀ a ∈ [⟨5, 0, 0⟩, (⟨6, 0, 1⟩ : BlockNode)], a.level = 0 := by decide
    exact ⟨hrange, fun a ha hne => absurd (hlevel a ha) hne⟩
  distinct := by
    rw [directFile_scan]
    decide
  blank _ _ := rfl

theorem direct_file_agrees :
    ∃ bound, ∀ fuel, bound ≤ fuel → ∃ p₁ p₂,
      initSinodeSblock fuel hundredBlocks (fun _ => none) 2 (directFile [5, 6]) blankPartition =
        some (p₁, true) ∧
      diffInode hundredBlocks fuel 2 (directFile [5, 6]) none blankPartition = some p₂ ∧
      ((p₁.blist = p₂.blist ∧ p₁.ilist = p₂.ilist) ↔
        OffsetsAgree hundredBlocks (fun _ => none) (directFile [5, 6])) := by
  have hcreation : Creation hundredBlocks (fun _ => none) 2 (directFile [5, 6]) blankPartition :=
    ⟨directFile_disk, .inr rfl, by decide, rfl, fun _ _ _ => rfl⟩
  exact scan_creation_agree_iff _ _ _ _ _ _ hcreation

end SBlktrace
