import SBlktrace.IndirectForest
import SBlktrace.BlockOwnership
import Mathlib

namespace SBlktrace

open Function Forest PartitionData

/-- The trees that a list of links attaches, in turn: those that are read to the end, the one at
which an error stops the scan, and whether there was none. -/
def attachLinks {α : Type} (attach : α → UInt32 → Forest BlockNode × Bool) (step : α → α) :
    List UInt32 → α → Forest BlockNode × Forest BlockNode × Bool
  | [], _ => (.nil, .nil, true)
  | link :: rest, place =>
    if link ≠ 0 then
      match attach place link with
      | (F, false) => (.nil, F, false)
      | (F, true) =>
        ((F.append (attachLinks attach step rest (step place)).1),
          (attachLinks attach step rest (step place)).2)
    else attachLinks attach step rest (step place)

def attachBlock (extdesc : ExtDesc) (fd : UInt32 → Option Buf) :
    ℕ → UInt32 → UInt32 → Forest BlockNode × Bool
  | 0, offset, blockid =>
    if extdesc.sb.sBlocksCount ≤ blockid then (.nil, false)
    else (.node ⟨blockid, 0, offset⟩ .nil .nil, true)
  | level + 1, offset, blockid =>
    if extdesc.sb.sBlocksCount ≤ blockid then (.nil, false)
    else
      match fd blockid with
      | none => (.node ⟨blockid, UInt8.ofNat (level + 1), offset⟩ .nil .nil, false)
      | some buf =>
        let kids := attachLinks (attachBlock extdesc fd level) (· + stride extdesc (level + 1))
          (links extdesc buf) (offset + 1)
        (.node ⟨blockid, UInt8.ofNat (level + 1), offset⟩ (kids.1.append kids.2.1) .nil, kids.2.2)

def attachIBlocks (extdesc : ExtDesc) (fd : UInt32 → Option Buf) (iBlock : List UInt32) (i : ℕ) :
    Forest BlockNode × Forest BlockNode × Bool :=
  attachLinks (fun i => attachBlock extdesc fd (iBlockLevel i) (iBlockOffset extdesc i)) (· + 1)
    iBlock i

section Attach

variable {extdesc : ExtDesc} {fd : UInt32 → Option Buf} {F : Forest BlockNode}

theorem attachBlock_true {level : ℕ} {offset blockid : UInt32}
    (h : attachBlock extdesc fd level offset blockid = (F, true)) :
    ∃ a kids, F = .node a kids .nil ∧ a.block = blockid := by
  cases level with
  | zero =>
    rw [attachBlock] at h
    split at h
    · cases h
    · cases h
      exact ⟨_, _, rfl, rfl⟩
  | succ level =>
    rw [attachBlock] at h
    split at h
    · cases h
    cases hfd : fd blockid with
    | none =>
      rw [hfd] at h
      cases h
    | some buf =>
      rw [hfd] at h
      exact ⟨_, _, (congrArg Prod.fst h).symm, rfl⟩

theorem attachLinks_true {α : Type} {attach : α → UInt32 → Forest BlockNode × Bool} {step : α → α}
    {ls : List UInt32} {place : α} (h : (attachLinks attach step ls place).2.2 = true) :
    (attachLinks attach step ls place).2.1 = .nil := by
  induction ls generalizing place with
  | nil => rfl
  | cons link rest ih =>
    rw [attachLinks] at h ⊢
    split at h
    · rename_i hlink
      rw [if_pos hlink]
      cases hattach : attach place link with
      | mk F ok =>
        rw [hattach] at h
        cases ok with
        | false => cases h
        | true => exact ih h
    · rename_i hlink
      rw [if_neg hlink]
      exact ih h

theorem zero_notMem_attachLinks {α : Type} {attach : α → UInt32 → Forest BlockNode × Bool}
    {step : α → α} (hattach : ∀ place link, link ≠ 0 → (0 : UInt32) ∉ (attach place link).1.blocks)
    (ls : List UInt32) (place : α) :
    (0 : UInt32) ∉ ((attachLinks attach step ls place).1.append
      (attachLinks attach step ls place).2.1).blocks := by
  induction ls generalizing place with
  | nil => exact List.not_mem_nil
  | cons link rest ih =>
    rw [attachLinks]
    split
    · rename_i hlink
      have hzero := hattach place link hlink
      cases hcase : attach place link with
      | mk F ok =>
        rw [hcase] at hzero
        cases ok with
        | false => exact hzero
        | true =>
          dsimp only
          rw [append_assoc, blocks, keys_append, List.mem_append, not_or]
          exact ⟨hzero, ih (step place)⟩
    · exact ih (step place)

theorem zero_notMem_attachBlock (level : ℕ) (offset : UInt32) {blockid : UInt32}
    (hblockid : blockid ≠ 0) : (0 : UInt32) ∉ (attachBlock extdesc fd level offset blockid).1.blocks := by
  induction level generalizing offset blockid with
  | zero =>
    rw [attachBlock]
    split
    · exact List.not_mem_nil
    · simpa [blocks] using hblockid.symm
  | succ level ih =>
    rw [attachBlock]
    split
    · exact List.not_mem_nil
    cases fd blockid with
    | none => simpa [blocks] using hblockid.symm
    | some buf =>
      dsimp only
      have hkids := @zero_notMem_attachLinks _ (attachBlock extdesc fd level)
        (· + stride extdesc (level + 1)) (fun offset _ hlink => ih offset hlink) (links extdesc buf)
        (offset + 1)
      rw [blocks, keys_node, keys_nil, List.append_nil, List.mem_cons, not_or]
      exact ⟨hblockid.symm, hkids⟩

end Attach

section Scan

variable {extdesc : ExtDesc} {fd : UInt32 → Option Buf} {n : UInt32} {F G : Forest BlockNode}
  {p : PartitionData} {parent current : Option UInt32}

structure Attachable (p : PartitionData) (n : UInt32) (parent current : Option UInt32)
    (F : Forest BlockNode) : Prop where
  nodup : F.blocks.Nodup
  blank : ∀ b ∈ F.blocks, p.blist b = .blank
  notCurrent : ∀ c, current = some c → c ∉ F.blocks
  notParent : ∀ s, parent = some s → s ∉ F.blocks
  nextLink : p.nextLink n parent current = 0

def attached (p : PartitionData) (n : UInt32) (parent current : Option UInt32)
    (F : Forest BlockNode) : PartitionData :=
  (p.linkNext n parent current F.first).storeForest n F

theorem attached_nil (h : p.nextLink n parent current = 0) : attached p n parent current .nil = p := by
  have hself := p.linkNext_self n parent current
  rw [h] at hself
  exact hself

theorem Attachable.linkNext_blist (h : Attachable p n parent current F) {b : UInt32}
    (hb : b ∈ F.blocks) (link : UInt32) :
    (p.linkNext n parent current link).blist b = p.blist b := by
  apply PartitionData.linkNext_blist
  · rintro c rfl rfl
    exact h.notCurrent c rfl hb
  · rintro s - rfl rfl
    exact h.notParent s rfl hb

theorem attached_node (h : Attachable p n parent current F) {a : BlockNode} (ha : a.block ∈ F.blocks) :
    ((p.linkNext n parent current a.block).setBlock a.block
      { (p.linkNext n parent current a.block).blist a.block with
        sbLevel := a.level, sbInode := n, sbBh := 0, sbOffset := a.offset }) =
      attached p n parent current (.node a .nil .nil) := by
  rw [h.linkNext_blist ha, h.blank _ ha]
  rfl

theorem attached_append {a : BlockNode} {kids : Forest BlockNode} (hnot : a.block ∉ kids.blocks) :
    attached (attached p n parent current (.node a kids .nil)) n parent (some a.block) G =
      attached p n parent current (.node a kids G) :=
  storeForest_node (p.linkNext n parent current a.block) a hnot 0

theorem Attachable.append_left (h : Attachable p n parent current (F.append G)) :
    Attachable p n parent current F := by
  have hnodup := h.nodup
  rw [blocks, keys_append] at hnodup
  refine ⟨(List.nodup_append.mp hnodup).1, fun b hb => h.blank b ?_, fun c hc hin => ?_,
    fun s hs hin => ?_, h.nextLink⟩
  · rw [blocks, keys_append]
    exact List.mem_append_left _ hb
  · apply h.notCurrent c hc
    rw [blocks, keys_append]
    exact List.mem_append_left _ hin
  · apply h.notParent s hs
    rw [blocks, keys_append]
    exact List.mem_append_left _ hin

theorem Attachable.append_right {a : BlockNode} {kids : Forest BlockNode}
    (h : Attachable p n parent current (.node a kids G)) :
    Attachable (attached p n parent current (.node a kids .nil)) n parent (some a.block) G := by
  have hnodup := h.nodup
  rw [blocks, keys_node] at hnodup
  obtain ⟨hnot, hnodup⟩ := List.nodup_cons.mp hnodup
  obtain ⟨hkids, hrest, hdisjoint⟩ := List.nodup_append.mp hnodup
  simp only [List.mem_append, not_or] at hnot
  have hmem : ∀ b ∈ G.blocks, b ∈ (Forest.node a kids G).blocks := by
    intro b hb
    rw [blocks, keys_node]
    exact List.mem_cons_of_mem _ (List.mem_append_right _ hb)
  refine ⟨hrest, fun b hb => ?_, ?_, fun s hs hin => h.notParent s hs (hmem s hin), ?_⟩
  · have hout : b ∉ (Forest.node a kids .nil).blocks := by
      rw [blocks, keys_node, keys_nil, List.append_nil, List.mem_cons, not_or]
      refine ⟨?_, fun hin => hdisjoint b hin b hb rfl⟩
      rintro rfl
      exact hnot.2 hb
    rw [attached, blist_storeForest hout, h.linkNext_blist (hmem b hb), h.blank b (hmem b hb)]
  · rintro c hc
    cases hc
    exact hnot.2
  · change ((kids.store n _) a.block).sbSib = 0
    rw [store_of_notMem hnot.1, update_self]
    rfl

theorem Attachable.kids {a : BlockNode} {kids : Forest BlockNode}
    (h : Attachable p n parent current (.node a kids .nil)) :
    Attachable (attached p n parent current (.node a .nil .nil)) n (some a.block) none kids := by
  have hnodup := h.nodup
  rw [blocks, keys_node, keys_nil, List.append_nil] at hnodup
  obtain ⟨hnot, hkids⟩ := List.nodup_cons.mp hnodup
  have hmem : ∀ b ∈ kids.blocks, b ∈ (Forest.node a kids .nil).blocks := by
    intro b hb
    rw [blocks, keys_node, keys_nil, List.append_nil]
    exact List.mem_cons_of_mem _ hb
  refine ⟨hkids, fun b hb => ?_, ?_, ?_, ?_⟩
  · have hout : b ∉ (Forest.node a .nil .nil).blocks := by
      rw [blocks, keys_node, keys_nil, List.append_nil, List.mem_cons, not_or]
      refine ⟨?_, List.not_mem_nil⟩
      rintro rfl
      exact hnot hb
    rw [attached, blist_storeForest hout, h.linkNext_blist (hmem b hb), h.blank b (hmem b hb)]
  · rintro c hc
    cases hc
  · rintro s hs
    cases hs
    exact hnot
  · change (update (p.linkNext n parent current a.block).blist a.block
      ⟨a.level, a.offset, 0, 0, n⟩ a.block).sbBh = 0
    rw [update_self]

theorem setBh_setBlock (p : PartitionData) (b link : UInt32) (sblock : SBlock) :
    (p.setBlock b sblock).setBh b link = p.setBlock b { sblock with sbBh := link } := by
  rw [setBh, setBlock, setBlock]
  dsimp only
  rw [update_self, update_idem]
  rfl

theorem attached_kids (a : BlockNode) (kids : Forest BlockNode) :
    attached (attached p n parent current (.node a .nil .nil)) n (some a.block) none kids =
      attached p n parent current (.node a kids .nil) := by
  change (((p.linkNext n parent current a.block).setBlock a.block
    ⟨a.level, a.offset, 0, 0, n⟩).setBh a.block kids.first).storeForest n kids = _
  rw [setBh_setBlock]
  rfl

theorem parseLinks_eq {level : ℕ} {blockid : UInt32}
    (hparse : ∀ (current : Option UInt32) (link offset : UInt32) (p : PartitionData),
      Attachable p n (some blockid) current (attachBlock extdesc fd level offset link).1 →
      parseIndirectBlock extdesc fd n level (some blockid) current link offset p =
        (attached p n (some blockid) current (attachBlock extdesc fd level offset link).1,
          (attachBlock extdesc fd level offset link).2))
    (gap : UInt32) (ls : List UInt32) (offset : UInt32) (current : Option UInt32) (p : PartitionData)
    {F G : Forest BlockNode} {ok : Bool}
    (hkids : attachLinks (attachBlock extdesc fd level) (· + gap) ls offset = (F, G, ok))
    (h : Attachable p n (some blockid) current (F.append G)) :
    parseLinks (parseIndirectBlock extdesc fd n level (some blockid)) gap ls offset current p =
      (attached p n (some blockid) current (F.append G), ok) := by
  induction ls generalizing offset current p F G ok with
  | nil =>
    cases hkids
    rw [parseLinks]
    cases current with
    | some current => rfl
    | none =>
      rw [append, attached_nil h.nextLink]
      rfl
  | cons link rest ih =>
    rw [parseLinks]
    rw [attachLinks] at hkids
    split at hkids
    case isFalse hlink =>
      rw [if_neg hlink]
      exact ih _ current p hkids h
    case isTrue hlink =>
      rw [if_pos hlink]
      cases hattach : attachBlock extdesc fd level offset link with
      | mk T ok' =>
        rw [hattach] at hkids
        have hparse' := hparse current link offset p
        rw [hattach] at hparse'
        cases ok' with
        | false =>
          cases hkids
          rw [hparse' h]
          rfl
        | true =>
          obtain ⟨a, kids, rfl, rfl⟩ := attachBlock_true hattach
          cases hrest : attachLinks (attachBlock extdesc fd level) (· + gap) rest (offset + gap) with
          | mk F' r =>
            obtain ⟨G', ok'⟩ := r
            dsimp only at hkids
            rw [hrest] at hkids
            cases hkids
            rw [append, append, append] at h ⊢
            have hnot : a.block ∉ kids.blocks := by
              have hnodup := h.nodup
              rw [blocks, keys_node] at hnodup
              exact fun hin => (List.nodup_cons.mp hnodup).1 (List.mem_append_left _ hin)
            have hfirst : Attachable p n (some blockid) current (.node a kids .nil) :=
              @Attachable.append_left _ (.node a kids .nil) _ _ _ _ h
            rw [hparse' hfirst]
            dsimp only
            rw [ih _ _ _ hrest h.append_right, attached_append hnot]

theorem parseIndirectBlock_eq (level : ℕ) (parent current : Option UInt32) (blockid offset : UInt32)
    (p : PartitionData) (h : Attachable p n parent current (attachBlock extdesc fd level offset blockid).1) :
    parseIndirectBlock extdesc fd n level parent current blockid offset p =
      (attached p n parent current (attachBlock extdesc fd level offset blockid).1,
        (attachBlock extdesc fd level offset blockid).2) := by
  induction level generalizing parent current blockid offset p with
  | zero =>
    rw [attachBlock] at h ⊢
    rw [parseIndirectBlock.eq_def]
    dsimp only
    by_cases hrange : extdesc.sb.sBlocksCount ≤ blockid
    · rw [if_pos hrange] at h
      rw [if_pos hrange, if_pos hrange, attached_nil h.nextLink]
    · rw [if_neg hrange] at h
      rw [if_neg hrange, if_neg hrange]
      exact congrArg (·, true) (attached_node h List.mem_cons_self)
  | succ level ih =>
    rw [attachBlock] at h ⊢
    rw [parseIndirectBlock.eq_def]
    dsimp only
    by_cases hrange : extdesc.sb.sBlocksCount ≤ blockid
    · rw [if_pos hrange] at h
      rw [if_pos hrange, if_pos hrange, attached_nil h.nextLink]
    · rw [if_neg hrange] at h
      rw [if_neg hrange, if_neg hrange]
      cases hfd : fd blockid with
      | none =>
        rw [hfd] at h
        exact congrArg (·, false) (attached_node h List.mem_cons_self)
      | some buf =>
        rw [hfd] at h
        dsimp only at h ⊢
        have hnode := @attached_node _ _ _ _ _ h ⟨blockid, UInt8.ofNat (level + 1), offset⟩
          List.mem_cons_self
        dsimp only at hnode
        rw [hnode, parseLinks_eq (fun current link offset p => ih _ current link offset p) _ _ _ _ _
          rfl h.kids, attached_kids]

/-- The first block that is still linked, once the chain has been ended at the last block that was
scanned to the end. -/
def keptFirst (current : Option UInt32) (F G : Forest BlockNode) : UInt32 :=
  match current, F with
  | none, .nil => G.first
  | _, F => F.first

theorem setSib_setSib (p : PartitionData) (b link link' : UInt32) :
    (p.setSib b link).setSib b link' = p.setSib b link' := by
  rw [setSib, setSib, setBlock, setBlock, setSib, setBlock]
  dsimp only
  rw [update_self, update_idem]

theorem parseIBlocks_eq (ls : List UInt32) (i : ℕ) (current : Option UInt32) (p : PartitionData)
    {F G : Forest BlockNode} {ok : Bool} (htrees : attachIBlocks extdesc fd ls i = (F, G, ok))
    (h : Attachable p n none current (F.append G)) :
    parseIBlocks extdesc fd n ls i current p =
      (((p.linkNext n none current (keptFirst current F G)).storeForest n F).storeForest n G, ok) := by
  induction ls generalizing i current p F G ok with
  | nil =>
    cases htrees
    rw [parseIBlocks]
    cases current with
    | some current => rfl
    | none => exact congrArg (·, true) (attached_nil h.nextLink).symm
  | cons link rest ih =>
    rw [parseIBlocks]
    rw [attachIBlocks, attachLinks] at htrees
    split at htrees
    case isFalse hlink =>
      rw [if_neg hlink]
      exact ih _ current p htrees h
    case isTrue hlink =>
      rw [if_pos hlink]
      cases hattach : attachBlock extdesc fd (iBlockLevel i) (iBlockOffset extdesc i) link with
      | mk T ok' =>
        rw [hattach] at htrees
        have hparse := @parseIndirectBlock_eq extdesc fd n (iBlockLevel i) none current link
          (iBlockOffset extdesc i) p
        rw [hattach] at hparse
        cases ok' with
        | false =>
          cases htrees
          rw [hparse h]
          cases current with
          | none => rfl
          | some c =>
            refine congrArg (·, false) ?_
            have hnot : c ∉ G.blocks := h.notCurrent c rfl
            change ((p.setSib c G.first).storeForest n G).setSib c 0 = (p.setSib c 0).storeForest n G
            rw [setSib_storeForest hnot, setSib_setSib]
        | true =>
          obtain ⟨a, kids, rfl, rfl⟩ := attachBlock_true hattach
          cases hrest : attachIBlocks extdesc fd rest (i + 1) with
          | mk F' r =>
            obtain ⟨G', ok'⟩ := r
            dsimp only at htrees
            rw [← attachIBlocks, hrest] at htrees
            cases htrees
            rw [append, append, append] at h
            have hnot : a.block ∉ kids.blocks := by
              have hnodup := h.nodup
              rw [blocks, keys_node] at hnodup
              exact fun hin => (List.nodup_cons.mp hnodup).1 (List.mem_append_left _ hin)
            have hfirst : Attachable p n none current (.node a kids .nil) :=
              @Attachable.append_left _ (.node a kids .nil) _ _ _ _ h
            rw [hparse hfirst]
            dsimp only
            rw [ih _ _ _ hrest h.append_right]
            refine congrArg (·, ok) ?_
            have happend := @attached_append n F' p none current a kids hnot
            rw [append, append]
            have hkept : keptFirst current (.node a kids F') G = a.block := by
              cases current <;> rfl
            rw [hkept]
            exact congrArg (storeForest n G) happend

end Scan

end SBlktrace
