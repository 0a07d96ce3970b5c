import SBlktrace.CachedForest
import Mathlib

namespace SBlktrace

open Function Forest PartitionData

def scanOffset (extdesc : ExtDesc) (level : ℕ) (offset : UInt32) (i : ℕ) : UInt32 :=
  offset + 1 + UInt32.ofNat i * stride extdesc level

def scanForest (extdesc : ExtDesc) (fd : UInt32 → Option Buf) (iBlock : List UInt32) :
    Forest BlockNode :=
  inodeForest (readLinks extdesc fd) (scanOffset extdesc) (iBlockOffset extdesc) iBlock

def remapForest (extdesc : ExtDesc) (fd : UInt32 → Option Buf) (iBlock : List UInt32) :
    Forest BlockNode :=
  inodeForest (readLinks extdesc fd) (remapOffset extdesc) (diffOffset extdesc) iBlock

structure OnDisk (extdesc : ExtDesc) (fd : UInt32 → Option Buf) (F : Forest BlockNode) : Prop where
  range : ∀ b ∈ F.blocks, b < extdesc.sb.sBlocksCount
  read : ∀ a ∈ F.nodes, a.level ≠ 0 → ∃ buf, fd a.block = some buf

section LinkForest

variable {extdesc : ExtDesc} {fd : UInt32 → Option Buf} {a : BlockNode} {kids rest : Forest BlockNode}
  {sub : ℕ → UInt32 → UInt32 → Forest BlockNode} {level : ℕ → ℕ} {offset : ℕ → UInt32}
  {link : UInt32} {ls : List UInt32}

theorem mem_linkForest (hlink : link ≠ 0) (hmem : link ∈ ls) (i : ℕ) :
    link ∈ (linkForest sub level offset ls i).blocks := by
  induction ls generalizing i with
  | nil => cases hmem
  | cons first ls ih =>
    by_cases hfirst : first = 0
    · subst hfirst
      rw [linkForest_zero]
      exact ih (List.mem_of_ne_of_mem hlink hmem) (i + 1)
    · rw [linkForest_cons hfirst, blocks, keys_node]
      obtain rfl | hmem := List.mem_cons.mp hmem
      · exact List.mem_cons_self
      · exact List.mem_cons_of_mem _ (List.mem_append_right _ (ih hmem (i + 1)))

theorem OnDisk.ofHead (h : OnDisk extdesc fd (.node a kids rest)) :
    OnDisk extdesc fd (.node a kids .nil) := by
  constructor
  · intro b hb
    apply h.range
    rw [blocks, keys_node] at hb ⊢
    rw [keys_nil, List.append_nil] at hb
    exact List.mem_cons.mpr ((List.mem_cons.mp hb).imp_right (List.mem_append_left _))
  · intro a' ha'
    apply h.read
    rw [nodes] at ha' ⊢
    rw [nodes, List.append_nil] at ha'
    exact List.mem_cons.mpr ((List.mem_cons.mp ha').imp_right (List.mem_append_left _))

theorem OnDisk.ofKids (h : OnDisk extdesc fd (.node a kids rest)) : OnDisk extdesc fd kids := by
  constructor
  · intro b hb
    apply h.range
    rw [blocks, keys_node]
    exact List.mem_cons_of_mem _ (List.mem_append_left _ hb)
  · intro a' ha'
    apply h.read
    rw [nodes]
    exact List.mem_cons_of_mem _ (List.mem_append_left _ ha')

theorem OnDisk.ofRest (h : OnDisk extdesc fd (.node a kids rest)) : OnDisk extdesc fd rest := by
  constructor
  · intro b hb
    apply h.range
    rw [blocks, keys_node]
    exact List.mem_cons_of_mem _ (List.mem_append_right _ hb)
  · intro a' ha'
    apply h.read
    rw [nodes]
    exact List.mem_cons_of_mem _ (List.mem_append_right _ ha')

theorem OnDisk.block (h : OnDisk extdesc fd (.node a kids rest)) : a.block < extdesc.sb.sBlocksCount := by
  apply h.range
  rw [blocks, keys_node]
  exact List.mem_cons_self

theorem OnDisk.buf (h : OnDisk extdesc fd (.node a kids rest)) (hlevel : a.level ≠ 0) :
    ∃ buf, fd a.block = some buf := by
  apply h.read a _ hlevel
  rw [nodes]
  exact List.mem_cons_self

end LinkForest

section Scan

variable {extdesc : ExtDesc} {fd : UInt32 → Option Buf}

theorem attachLinks_eq {α : Type} {attach : α → UInt32 → Forest BlockNode × Bool} {step : α → α}
    {sub : ℕ → UInt32 → UInt32 → Forest BlockNode} {level : ℕ → ℕ} {offset : ℕ → UInt32} {top : ℕ}
    (place : ℕ → α) (hstep : ∀ i, step (place i) = place (i + 1))
    (hattach : ∀ i link, i < top →
      OnDisk extdesc fd (.node ⟨link, UInt8.ofNat (level i), offset i⟩
        (sub (level i) link (offset i)) .nil) →
      attach (place i) link =
        (.node ⟨link, UInt8.ofNat (level i), offset i⟩ (sub (level i) link (offset i)) .nil, true))
    (ls : List UInt32) (i : ℕ) (htop : i + ls.length ≤ top)
    (h : OnDisk extdesc fd (linkForest sub level offset ls i)) :
    attachLinks attach step ls (place i) = (linkForest sub level offset ls i, .nil, true) := by
  induction ls generalizing i with
  | nil => rfl
  | cons link ls ih =>
    rw [List.length_cons] at htop
    rw [attachLinks, hstep]
    by_cases hlink : link = 0
    · subst hlink
      rw [linkForest_zero] at h ⊢
      rw [if_neg (not_not_intro rfl)]
      exact ih (i + 1) (by omega) h
    · rw [linkForest_cons hlink] at h ⊢
      rw [if_pos hlink, hattach i link (by omega) h.ofHead]
      dsimp only
      rw [ih (i + 1) (by omega) h.ofRest]
      rfl

theorem attachBlock_eq (level : ℕ) (hlevel : level ≤ 3) (offset blockid : UInt32)
    (h : OnDisk extdesc fd (.node ⟨blockid, UInt8.ofNat level, offset⟩
      (blockKids (readLinks extdesc fd) (scanOffset extdesc) level blockid offset) .nil)) :
    attachBlock extdesc fd level offset blockid =
      (.node ⟨blockid, UInt8.ofNat level, offset⟩
        (blockKids (readLinks extdesc fd) (scanOffset extdesc) level blockid offset) .nil, true) := by
  have hrange : ¬ extdesc.sb.sBlocksCount ≤ blockid := UInt32.not_le.mpr h.block
  induction level generalizing offset blockid with
  | zero =>
    rw [attachBlock, if_neg hrange]
    rfl
  | succ level ih =>
    obtain ⟨buf, hbuf⟩ := h.buf (ofNat_level_ne_zero (Nat.succ_pos level) hlevel)
    have hkids : readLinks extdesc fd blockid = links extdesc buf := by
      rw [readLinks, hbuf]
      rfl
    have hlinks := h.ofKids
    rw [blockKids, hkids] at hlinks ⊢
    have hattach := @attachLinks_eq _ _ _ _ (· + stride extdesc (level + 1))
      (fun _ => blockKids (readLinks extdesc fd) (scanOffset extdesc) level) _ _ _
      (fun i => offset + 1 + UInt32.ofNat i * stride extdesc (level + 1))
      (fun i => by rw [UInt32.ofNat_add, add_mul, ← add_assoc]; simp)
      (fun i link _ hdisk => ih (by omega) _ link hdisk (UInt32.not_le.mpr hdisk.block))
      (links extdesc buf) 0 le_rfl hlinks
    have hplace : offset + 1 + UInt32.ofNat 0 * stride extdesc (level + 1) = offset + 1 := by
      simp
    rw [hplace] at hattach
    rw [attachBlock, if_neg hrange, hbuf]
    dsimp only
    rw [hattach, append_nil]
    rfl

theorem attachIBlocks_eq (iBlock : List UInt32) (hlen : iBlock.length = 15)
    (h : OnDisk extdesc fd (scanForest extdesc fd iBlock)) :
    attachIBlocks extdesc fd iBlock 0 = (scanForest extdesc fd iBlock, .nil, true) := by
  apply attachLinks_eq id (fun _ => rfl)
    (fun i link hi hdisk => attachBlock_eq (iBlockLevel i) (iBlockLevel_le hi) _ link hdisk)
  · rw [hlen, zero_add]
  · exact h

end Scan

section Remap

variable {extdesc : ExtDesc} {fd : UInt32 → Option Buf} {n : UInt32} {current : Option UInt32}
  {p : PartitionData} {kids : Forest BlockNode}

def Cached (fd : UInt32 → Option Buf) (p : PartitionData) (F : Forest BlockNode) : Prop :=
  ∀ a ∈ F.nodes, a.level ≠ 0 → p.dataCache a.block = fd a.block

theorem Cached.ofHead {a : BlockNode} {rest : Forest BlockNode}
    (h : Cached fd p (.node a kids rest)) : Cached fd p (.node a kids .nil) := by
  intro a' ha'
  apply h a'
  rw [nodes] at ha' ⊢
  rw [nodes, List.append_nil] at ha'
  exact List.mem_cons.mpr ((List.mem_cons.mp ha').imp_right (List.mem_append_left _))

theorem Cached.ofKids {a : BlockNode} {rest : Forest BlockNode}
    (h : Cached fd p (.node a kids rest)) : Cached fd p kids := by
  intro a' ha'
  apply h a'
  rw [nodes]
  exact List.mem_cons_of_mem _ (List.mem_append_left _ ha')

theorem Cached.ofRest {a : BlockNode} {rest : Forest BlockNode}
    (h : Cached fd p (.node a kids rest)) : Cached fd p rest := by
  intro a' ha'
  apply h a'
  rw [nodes]
  exact List.mem_cons_of_mem _ (List.mem_append_right _ ha')

abbrev remapKids (extdesc : ExtDesc) (fd : UInt32 → Option Buf) :
    ℕ → UInt32 → UInt32 → Forest BlockNode :=
  blockKids (readLinks extdesc fd) (remapOffset extdesc)

theorem linkForest_cached {sub sub' : ℕ → UInt32 → UInt32 → Forest BlockNode} {level : ℕ → ℕ}
    {offset : ℕ → UInt32} {top : ℕ}
    (hsub : ∀ i link, i < top →
      OnDisk extdesc fd (.node ⟨link, UInt8.ofNat (level i), offset i⟩
        (sub' (level i) link (offset i)) .nil) →
      Cached fd p (.node ⟨link, UInt8.ofNat (level i), offset i⟩
        (sub' (level i) link (offset i)) .nil) →
      sub (level i) link (offset i) = sub' (level i) link (offset i))
    (ls : List UInt32) (i : ℕ) (htop : i + ls.length ≤ top)
    (hdisk : OnDisk extdesc fd (linkForest sub' level offset ls i))
    (hcached : Cached fd p (linkForest sub' level offset ls i)) :
    linkForest sub level offset ls i = linkForest sub' level offset ls i := by
  induction ls generalizing i with
  | nil => rfl
  | cons link ls ih =>
    rw [List.length_cons] at htop
    by_cases hlink : link = 0
    · subst hlink
      rw [linkForest_zero] at hdisk hcached ⊢
      rw [linkForest_zero]
      exact ih (i + 1) (by omega) hdisk hcached
    · rw [linkForest_cons hlink] at hdisk hcached ⊢
      rw [linkForest_cons hlink, hsub i link (by omega) hdisk.ofHead hcached.ofHead,
        ih (i + 1) (by omega) hdisk.ofRest hcached.ofRest]

theorem takeWhile_eq_of_disk {expired : UInt32 → Bool} (hzero : expired 0 = false)
    (hrange : ∀ link, link < extdesc.sb.sBlocksCount → expired link = false)
    {sub : ℕ → UInt32 → UInt32 → Forest BlockNode} {level : ℕ → ℕ} {offset : ℕ → UInt32}
    {ls : List UInt32} {i : ℕ} (hdisk : OnDisk extdesc fd (linkForest sub level offset ls i)) :
    ls.takeWhile (fun link => !expired link) = ls := by
  rw [List.takeWhile_eq_self_iff]
  intro link hmem
  rw [Bool.not_eq_true']
  by_cases hlink : link = 0
  · rw [hlink, hzero]
  · exact hrange link (hdisk.range link (mem_linkForest hlink hmem i))

theorem cachedKids_eq {level : ℕ} (hlevel : level ≤ 3) (blockid o : UInt32)
    (hdisk : OnDisk extdesc fd (.node ⟨blockid, UInt8.ofNat level, o⟩
      (remapKids extdesc fd level blockid o) .nil))
    (hcached : Cached fd p (.node ⟨blockid, UInt8.ofNat level, o⟩
      (remapKids extdesc fd level blockid o) .nil)) :
    cachedKids extdesc p.dataCache level blockid o = remapKids extdesc fd level blockid o := by
  induction level generalizing blockid o with
  | zero => rfl
  | succ level ih =>
    have hread : readLinks extdesc p.dataCache blockid = readLinks extdesc fd blockid := by
      have hcache := hcached ⟨blockid, UInt8.ofNat (level + 1), o⟩
        (by rw [nodes]; exact List.mem_cons_self) (ofNat_level_ne_zero (Nat.succ_pos level) hlevel)
      rw [readLinks, hcache, readLinks]
    have hcount : (0 : UInt32) < extdesc.sb.sBlocksCount :=
      UInt32.lt_of_le_of_lt UInt32.zero_le hdisk.block
    have hkids := hdisk.ofKids
    have hkids' := hcached.ofKids
    rw [remapKids, blockKids] at hkids hkids' ⊢
    have hinside : ∀ link, link < extdesc.sb.sBlocksCount → expiredLink extdesc link = false :=
      fun link hlink => decide_eq_false (UInt32.not_le.mpr hlink)
    rw [cachedKids, blockKids, cachedLinks, hread, takeWhile_eq_of_disk (hinside 0 hcount) hinside hkids]
    apply linkForest_cached (fun i link _ hdisk hcached => ?_) _ 0 le_rfl hkids hkids'
    exact ih (by omega) link _ hdisk hcached

theorem mappedIBlocks_eq {ls : List UInt32} {i : ℕ} (hlen : i + ls.length ≤ 15)
    (hdisk : OnDisk extdesc fd
      (linkForest (remapKids extdesc fd) iBlockLevel (diffOffset extdesc) ls i))
    (hcached : Cached fd p
      (linkForest (remapKids extdesc fd) iBlockLevel (diffOffset extdesc) ls i)) :
    mappedIBlocks extdesc p.dataCache ls i =
      linkForest (remapKids extdesc fd) iBlockLevel (diffOffset extdesc) ls i := by
  have hinside : ∀ link, link < extdesc.sb.sBlocksCount → expiredIBlock extdesc link = false := by
    intro link hlink
    exact decide_eq_false fun h => UInt32.not_le.mpr hlink h.2
  have hzero : expiredIBlock extdesc 0 = false := decide_eq_false fun h => h.1 rfl
  rw [mappedIBlocks, takeWhile_eq_of_disk hzero hinside hdisk]
  exact linkForest_cached (fun i link hi => cachedKids_eq (iBlockLevel_le hi) link _) ls i hlen hdisk
    hcached

theorem diffLinks_eq {fuel : ℕ} (hfuel : 3 < fuel) (ls : List UInt32) (i : ℕ) (hlen : i + ls.length ≤ 15)
    (h : Attachable p n none current
      (linkForest (remapKids extdesc fd) iBlockLevel (diffOffset extdesc) ls i))
    (hdisk : OnDisk extdesc fd
      (linkForest (remapKids extdesc fd) iBlockLevel (diffOffset extdesc) ls i))
    (hcached : Cached fd p
      (linkForest (remapKids extdesc fd) iBlockLevel (diffOffset extdesc) ls i)) :
    diffLinks extdesc fuel n ls i current p =
      some (attached p n none current
        (linkForest (remapKids extdesc fd) iBlockLevel (diffOffset extdesc) ls i), true) := by
  have hinside : ∀ link ∈ ls, ¬ expiredIBlock extdesc link = true := by
    intro link hmem hexpired
    obtain ⟨hlink, hrange⟩ := of_decide_eq_true hexpired
    exact UInt32.not_le.mpr (hdisk.range link (mem_linkForest hlink hmem i)) hrange
  have hnone : ls.any (expiredIBlock extdesc) = false := by
    rw [List.any_eq_false]
    exact hinside
  have hforest := mappedIBlocks_eq hlen hdisk hcached
  rw [diffLinks_cached hfuel ls i hlen rfl (hforest ▸ h), hnone, hforest]
  rfl

end Remap

end SBlktrace
