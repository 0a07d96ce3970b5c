import SBlktrace.InodeIntrospection
import SBlktrace.ScanFailure
import Mathlib

namespace SBlktrace

open Function Forest PartitionData

def scannedBlocks (extdesc : ExtDesc) (fd : UInt32 → Option Buf) (inode : ExtInode) : List UInt32 :=
  let trees := attachIBlocks extdesc fd (List.ofFn inode.iBlock) 0
  (trees.1.append trees.2.1).blocks

def isScanned (inode : ExtInode) : Bool := inodeIsregular inode.iMode || inodeIsdir inode.iMode

structure ConsistentDisk (extdesc : ExtDesc) (fd : UInt32 → Option Buf)
    (inodes : List (UInt32 × ExtInode)) : Prop where
  inodeid : ∀ x ∈ inodes, x.1 ≠ 0
  distinct : (inodes.map Prod.fst).Nodup
  blocks : ((inodes.filter fun x => isScanned x.2).flatMap fun x => scannedBlocks extdesc fd x.2).Nodup

section Scan

variable {extdesc : ExtDesc} {fd : UInt32 → Option Buf} {n : UInt32} {F G : Forest BlockNode}
  {p p' : PartitionData}

theorem attachLinks_leveled {α : Type} {attach : α → UInt32 → Forest BlockNode × Bool} {step : α → α}
    {top : ℕ} (place : ℕ → α) (hstep : ∀ i, step (place i) = place (i + 1))
    (hattach : ∀ i < top, ∀ link, (attach (place i) link).1.Leveled) (ls : List UInt32) (i : ℕ)
    (htop : i + ls.length ≤ top) :
    ((attachLinks attach step ls (place i)).1.append
      (attachLinks attach step ls (place i)).2.1).Leveled := by
  induction ls generalizing i with
  | nil => trivial
  | cons link rest ih =>
    rw [List.length_cons] at htop
    rw [attachLinks, hstep]
    split
    · have hlink := hattach i (by omega) link
      cases hcase : attach (place i) link with
      | mk T ok =>
        rw [hcase] at hlink
        cases ok with
        | false => exact hlink
        | true =>
          dsimp only
          rw [append_assoc]
          exact hlink.append (ih (i + 1) (by omega))
    · exact ih (i + 1) (by omega)

theorem attachBlock_leveled {level : ℕ} (hlevel : level ≤ 3) (offset blockid : UInt32) :
    (attachBlock extdesc fd level offset blockid).1.Leveled := by
  induction level generalizing offset blockid with
  | zero =>
    rw [attachBlock]
    split
    · trivial
    · exact ⟨UInt8.zero_le, fun _ => rfl, trivial, trivial⟩
  | succ level ih =>
    have hnode : (UInt8.ofNat (level + 1) = 0) → False :=
      ofNat_level_ne_zero (Nat.succ_pos level) hlevel
    rw [attachBlock]
    split
    · trivial
    cases fd blockid with
    | none => exact ⟨ofNat_level_le hlevel, fun _ => rfl, trivial, trivial⟩
    | some buf =>
      refine ⟨ofNat_level_le hlevel, fun hzero => (hnode hzero).elim, ?_, trivial⟩
      have hkids := @attachLinks_leveled _ (attachBlock extdesc fd level) (· + stride extdesc (level + 1))
        _ (fun i => (· + stride extdesc (level + 1))^[i] (offset + 1))
        (fun i => (iterate_succ_apply' (· + stride extdesc (level + 1)) i _).symm) (fun _ _ link => ih (by omega) _ link)
        (links extdesc buf) 0 (Nat.zero_add _).le
      exact hkids

theorem attachIBlocks_leveled (iBlock : Fin 15 → UInt32) :
    ((attachIBlocks extdesc fd (List.ofFn iBlock) 0).1.append
      (attachIBlocks extdesc fd (List.ofFn iBlock) 0).2.1).Leveled := by
  apply attachLinks_leveled (fun i => i) (fun _ => rfl) (fun i hi link => attachBlock_leveled ?_ _ link)
    (List.ofFn iBlock) 0 (by rw [List.length_ofFn])
  rw [iBlockLevel]
  split <;> omega

theorem isScanned_mode {inode : ExtInode} (h : isScanned inode = true) : inode.iMode ≠ 0 := by
  intro hzero
  rw [isScanned, hzero] at h
  exact absurd h (by decide)

theorem initSinodeSblock_tracked (h : p.Tracked) (hn : n ≠ 0) (hmode : (p.ilist n).siMode = 0)
    {inode : ExtInode} (hscanned : isScanned inode = true)
    (hnodup : (scannedBlocks extdesc fd inode).Nodup)
    (hfree : ∀ b ∈ scannedBlocks extdesc fd inode, p.owner b = 0) {fuel : ℕ}
    (hinit : initSinodeSblock fuel extdesc fd n inode p = some (p', true)) :
    p'.Tracked ∧ (∀ b, b ∉ scannedBlocks extdesc fd inode → p'.owner b = p.owner b) ∧
      ∀ m ≠ n, p'.ilist m = p.ilist m := by
  have hzero : (p.ilist n).siBh = 0 := h.unused n hmode
  have hset : (p.setInode n (sinodeOf inode 0)).Tracked :=
    h.setInode hzero.symm fun hzero => absurd hzero (isScanned_mode hscanned)
  have hself : (p.setInode n (sinodeOf inode 0)).ilist n = sinodeOf inode 0 := update_self _ _ _
  have hleveled := @attachIBlocks_leveled extdesc fd inode.iBlock
  have hnot := @zero_notMem_attachLinks _
    (fun i => attachBlock extdesc fd (iBlockLevel i) (iBlockOffset extdesc i)) (· + 1)
    (fun i link hlink => zero_notMem_attachBlock (iBlockLevel i) _ hlink) (List.ofFn inode.iBlock) 0
  change (0 : UInt32) ∉ ((attachIBlocks extdesc fd (List.ofFn inode.iBlock) 0).1.append
    (attachIBlocks extdesc fd (List.ofFn inode.iBlock) 0).2.1).blocks at hnot
  have hnil : (attachIBlocks extdesc fd (List.ofFn inode.iBlock) 0).2.2 = true →
      (attachIBlocks extdesc fd (List.ofFn inode.iBlock) 0).2.1 = .nil := attachLinks_true
  rw [scannedBlocks] at hnodup hfree ⊢
  obtain ⟨F, G, ok, htrees⟩ : ∃ F G ok,
      attachIBlocks extdesc fd (List.ofFn inode.iBlock) 0 = (F, G, ok) := ⟨_, _, _, rfl⟩
  simp only [htrees] at hnodup hfree hleveled hnot hnil ⊢
  have hattach : Attachable (p.setInode n (sinodeOf inode 0)) n none none (F.append G) := by
    refine ⟨hnodup, fun b hb => h.blank b (hfree b hb), ?_, ?_, congrArg SInode.siBh hself⟩
    · rintro c ⟨⟩
    · rintro s ⟨⟩
  have hparse := parseIBlocks_eq _ 0 none _ htrees hattach
  rw [initSinodeSblock, ← sinodeOf, hparse] at hinit
  cases ok with
  | false =>
    dsimp only at hinit
    obtain ⟨q, -, hq⟩ := Option.map_eq_some_iff.mp hinit
    cases hq
  | true =>
    obtain rfl := hnil rfl
    rw [append_nil] at hnodup hfree hleveled hnot ⊢
    have hfirst : keptFirst none F .nil = F.first := by
      cases F <;> rfl
    dsimp only at hinit
    rw [hfirst] at hinit
    have hp' : attached (p.setInode n (sinodeOf inode 0)) n none none F = p' :=
      congrArg Prod.fst (Option.some.inj hinit)
    obtain ⟨F₀, hF₀⟩ := hset.forest n hn
    obtain rfl : F₀ = .nil := by
      have hlinked := hF₀.linked
      rw [hself] at hlinked
      exact Rep.unique hlinked rfl
    have hunmapped := unmapped_nil (p.setInode n (sinodeOf inode 0))
    have hfree' : ((p.setInode n (sinodeOf inode 0)).unmapped []).Free F := by
      rw [hunmapped]
      exact ⟨hnodup, hfree⟩
    obtain ⟨-, htracked⟩ := @Tracked.graftInode _ n .nil .nil F hset hn
      (by rw [hself]; exact isScanned_mode hscanned) hF₀ hfree' hleveled hnot
    rw [keys_nil, hunmapped, last, hp'] at htracked
    refine ⟨htracked, fun b hb => ?_, fun m hm => ?_⟩
    · rw [← hp', owner_attached hnodup, if_neg hb]
      rfl
    · rw [← hp', ilist_attached hm]
      exact update_of_ne hm _ _

theorem getDiskstat_tracked (h : p.Tracked) {inodes : List (UInt32 × ExtInode)}
    (hdisk : ConsistentDisk extdesc fd inodes) (hmode : ∀ x ∈ inodes, (p.ilist x.1).siMode = 0)
    (hfree : ∀ b ∈ (inodes.filter fun x => isScanned x.2).flatMap fun x =>
      scannedBlocks extdesc fd x.2, p.owner b = 0) {fuel : ℕ}
    (hscan : getDiskstat fuel extdesc fd inodes p = some (p', true)) : p'.Tracked := by
  induction inodes generalizing p with
  | nil =>
    cases hscan
    exact h
  | cons x inodes ih =>
    obtain ⟨hinode, hdistinct, hblocks⟩ := hdisk
    rw [List.map_cons, List.nodup_cons] at hdistinct
    have hinode' : ∀ x ∈ inodes, x.1 ≠ 0 := fun x hx => hinode x (List.mem_cons_of_mem _ hx)
    have hmode' : ∀ x ∈ inodes, (p.ilist x.1).siMode = 0 := fun x hx => hmode x (List.mem_cons_of_mem _ hx)
    rw [getDiskstat] at hscan
    rw [List.filter_cons] at hblocks hfree
    by_cases hscanned : isScanned x.2 = true
    · have hkept : (inodeIsregular x.2.iMode || inodeIsdir x.2.iMode) = true := hscanned
      rw [if_pos hscanned, List.flatMap_cons] at hblocks hfree
      obtain ⟨hfirst, hrest, hapart⟩ := List.nodup_append.mp hblocks
      rw [if_pos hkept] at hscan
      obtain ⟨⟨q, ok⟩, hinit, hscan⟩ := Option.bind_eq_some_iff.mp hscan
      cases ok with
      | false => cases hscan
      | true =>
        obtain ⟨htracked, howner, hilist⟩ := initSinodeSblock_tracked h (hinode x List.mem_cons_self)
          (hmode x List.mem_cons_self) hscanned hfirst
          (fun b hb => hfree b (List.mem_append_left _ hb)) hinit
        apply ih htracked ⟨hinode', hdistinct.2, hrest⟩ _ _ hscan
        · intro y hy
          have hne : y.1 ≠ x.1 := by
            intro heq
            apply hdistinct.1
            rw [← heq]
            exact List.mem_map_of_mem hy
          rw [hilist y.1 hne]
          exact hmode' y hy
        · intro b hb
          rw [howner b fun hin => hapart b hin b hb rfl]
          exact hfree b (List.mem_append_right _ hb)
    · have hskipped : ¬ (inodeIsregular x.2.iMode || inodeIsdir x.2.iMode) = true := hscanned
      rw [if_neg hscanned] at hblocks hfree
      rw [if_neg hskipped] at hscan
      exact ih h ⟨hinode', hdistinct.2, hblocks⟩ hmode' hfree hscan

theorem blankPartition_tracked : blankPartition.Tracked := by
  refine ⟨⟨fun n hn => ⟨.nil, rfl, List.nodup_nil, fun b => ?_⟩, fun b _ _ => rfl⟩, fun _ _ => rfl,
    fun b => UInt8.zero_le, fun n _ => rfl⟩
  exact ⟨fun hb => absurd hb List.not_mem_nil, fun hb => absurd hb.symm hn⟩

end Scan

/-- What is written to the disk while the blocks are tracked: an inode of an inode table, with its old
copy where one is cached, and a block. The caches change with what is read and written. -/
inductive Introspection where
  | inode (inodeid : UInt32) (inode : ExtInode) (oinode : Option ExtInode)
  | block (blockid : UInt32) (buf : Buf)
  | caches (dataCache : UInt32 → Option Buf)

def introspect (extdesc : ExtDesc) (fuel : ℕ) : Introspection → PartitionData → Option PartitionData
  | .inode inodeid inode oinode, p => diffInode extdesc fuel inodeid inode oinode p
  | .block blockid buf, p => datablockWriteIntrospection extdesc fuel blockid buf p
  | .caches dataCache, p => some { p with dataCache := dataCache }

def LinksFree (extdesc : ExtDesc) : Introspection → PartitionData → Prop
  | .inode inodeid inode oinode, p => inodeid ≠ 0 ∧ InodeFree extdesc inodeid inode oinode p
  | .block blockid buf, p => BlockFree extdesc blockid buf p
  | .caches _, _ => True

inductive FreeRun (extdesc : ExtDesc) : PartitionData → List Introspection → PartitionData → Prop
  | nil (p : PartitionData) : FreeRun extdesc p [] p
  | cons {p p' q : PartitionData} {write : Introspection} {writes : List Introspection}
    (hfree : LinksFree extdesc write p) (hwrite : Ends (fun fuel => introspect extdesc fuel write p) p')
    (hrun : FreeRun extdesc p' writes q) : FreeRun extdesc p (write :: writes) q

/-- The blocks of each inode in use form a forest from its `si_bh`, with each of its blocks along one
path, and the forests of different inodes are disjoint. -/
structure BlocksOwned (p : PartitionData) : Prop where
  forest : ∀ n ≠ 0, (p.ilist n).siMode ≠ 0 → ∃ F : Forest UInt32,
    p.Linked (p.ilist n).siBh F ∧ (F.keys id).Nodup ∧
      (∀ b ∈ F.keys id, p.owner b = n ∧ ((p.blist b).sbLevel = 0 → p.bh b = 0)) ∧
      ∀ b, p.owner b = n → ∃! path, follow p.bh p.sib (p.ilist n).siBh path = b
  disjoint : ∀ n ≠ 0, ∀ m ≠ 0, n ≠ m → (p.ilist n).siMode ≠ 0 → (p.ilist m).siMode ≠ 0 →
    ∀ F H : Forest UInt32, p.Linked (p.ilist n).siBh F → p.Linked (p.ilist m).siBh H →
      ∀ b ∈ F.keys id, b ∉ H.keys id

section Runs

variable {extdesc : ExtDesc} {fd : UInt32 → Option Buf} {p p' : PartitionData}

theorem PartitionData.Tracked.blocksOwned (h : p.Tracked) : BlocksOwned p := by
  constructor
  · intro n hn _
    obtain ⟨F, hF⟩ := h.forest n hn
    refine ⟨F, hF.linked, hF.nodup, fun b hb => ?_, fun b hb => ?_⟩
    · have howner := (hF.mem_iff b).mp hb
      refine ⟨howner, h.leaf b ?_⟩
      rw [howner]
      exact hn
    · exact hF.linked.existsUnique_path hF.nodup ((hF.mem_iff b).mpr hb)
  · intro n hn m hm hne _ _ F H hF hH b hbF hbH
    obtain ⟨F', hF'⟩ := h.forest n hn
    obtain ⟨H', hH'⟩ := h.forest m hm
    obtain rfl := Rep.unique hF hF'.linked
    obtain rfl := Rep.unique hH hH'.linked
    exact hne (((hF'.mem_iff b).mp hbF).symm.trans ((hH'.mem_iff b).mp hbH))

theorem introspect_tracked (h : p.Tracked) {write : Introspection} (hfree : LinksFree extdesc write p) :
    ∃ p', p'.Tracked ∧ Ends (fun fuel => introspect extdesc fuel write p) p' := by
  cases write with
  | inode inodeid inode oinode => exact diffInode_tracked h hfree.1 hfree.2
  | block blockid buf => exact datablockWrite_tracked h hfree
  | caches dataCache => exact ⟨{ p with dataCache := dataCache }, h.congr rfl rfl, 0, fun _ _ => rfl⟩

theorem FreeRun.tracked {writes : List Introspection} (hrun : FreeRun extdesc p writes p')
    (h : p.Tracked) : p'.Tracked := by
  induction hrun with
  | nil => exact h
  | cons hfree hwrite _ ih =>
    obtain ⟨q, hq, hends⟩ := introspect_tracked h hfree
    obtain rfl := hwrite.unique hends
    exact ih hq

/-- From the scan of a consistent disk on, while each block that is linked belongs to no inode then,
the blocks of the inodes are trees of their own. -/
theorem blocks_owned_while_free {fuel : ℕ} {inodes : List (UInt32 × ExtInode)} {scan : PartitionData}
    (hdisk : ConsistentDisk extdesc fd inodes)
    (hscan : getDiskstat fuel extdesc fd inodes blankPartition = some (scan, true))
    {writes : List Introspection} (hrun : FreeRun extdesc scan writes p) :
    BlocksOwned p ∧ ∀ write, LinksFree extdesc write p →
      ∃ p', Ends (fun fuel => introspect extdesc fuel write p) p' := by
  have hscanned : scan.Tracked :=
    getDiskstat_tracked blankPartition_tracked hdisk (fun _ _ => rfl) (fun _ _ => rfl) hscan
  have htracked := hrun.tracked hscanned
  refine ⟨htracked.blocksOwned, fun write hfree => ?_⟩
  obtain ⟨p', -, hends⟩ := introspect_tracked htracked hfree
  exact ⟨p', hends⟩

end Runs

def scannedInodes : List (UInt32 × ExtInode) := [(2, directFile [5, 6]), (3, directFile [8])]

def scannedPartition : PartitionData :=
  ((getDiskstat 0 hundredBlocks (fun _ => none) scannedInodes blankPartition).getD (blankPartition, false)).1

theorem scannedInodes_scan :
    getDiskstat 0 hundredBlocks (fun _ => none) scannedInodes blankPartition = some (scannedPartition, true) := rfl

theorem scannedInodes_consistent : ConsistentDisk hundredBlocks (fun _ => none) scannedInodes where
  inodeid := by decide
  distinct := by decide
  blocks := by decide

theorem third_file_owned :
    ∃ p, FreeRun hundredBlocks scannedPartition [.inode 4 (directFile [7]) none] p ∧ BlocksOwned p := by
  have hfree : LinksFree hundredBlocks (.inode 4 (directFile [7]) none) scannedPartition := by
    have hblocks : (mappedIBlocks hundredBlocks scannedPartition.dataCache
        (List.ofFn (directFile [7]).iBlock) 0).blocks = [7] := rfl
    refine ⟨by decide, fun _ _ => ⟨?_, fun b hb => ?_⟩⟩
    · exact List.nodup_singleton 7
    · have hb' : b ∈ (mappedIBlocks hundredBlocks scannedPartition.dataCache
          (List.ofFn (directFile [7]).iBlock) 0).blocks := hb
      rw [hblocks, List.mem_singleton] at hb'
      rw [hb']
      rfl
  obtain ⟨-, hnext⟩ := blocks_owned_while_free scannedInodes_consistent scannedInodes_scan (.nil scannedPartition)
  obtain ⟨p, hends⟩ := hnext _ hfree
  have hrun : FreeRun hundredBlocks scannedPartition [.inode 4 (directFile [7]) none] p :=
    .cons hfree hends (.nil p)
  exact ⟨p, hrun, (blocks_owned_while_free scannedInodes_consistent scannedInodes_scan hrun).1⟩

def stolenBlock : PartitionData :=
  (introspect hundredBlocks 8 (.inode 3 { directFile [5] with iCtime := 2 } none) scannedPartition).getD
    scannedPartition

theorem stolen_block_not_owned :
    ConsistentDisk hundredBlocks (fun _ => none) scannedInodes ∧
      getDiskstat 0 hundredBlocks (fun _ => none) scannedInodes blankPartition = some (scannedPartition, true) ∧
      Ends (fun fuel => introspect hundredBlocks fuel (.inode 3 { directFile [5] with iCtime := 2 } none)
        scannedPartition) stolenBlock ∧ ¬ BlocksOwned stolenBlock := by
  refine ⟨scannedInodes_consistent, scannedInodes_scan, ⟨7, fun fuel hfuel => ?_⟩, fun h => ?_⟩
  · obtain ⟨fuel, rfl⟩ := Nat.exists_eq_add_of_lt hfuel
    rw [show 7 + fuel + 1 = fuel + 8 by omega]
    rfl
  · obtain ⟨F, hF, -, howner, -⟩ := h.forest 2 (by decide) (by decide)
    have hmem : (5 : UInt32) ∈ F.keys id := by
      cases F with
      | nil =>
        have hzero : (stolenBlock.ilist 2).siBh = 0 := hF
        exact absurd hzero (by decide)
      | node a kids rest =>
        have ha : (5 : UInt32) = a := hF.1
        rw [ha]
        exact List.mem_cons_self
    have hinode : stolenBlock.owner 5 = 3 := rfl
    exact absurd (hinode.symm.trans (howner 5 hmem).1) (by decide)

end SBlktrace
