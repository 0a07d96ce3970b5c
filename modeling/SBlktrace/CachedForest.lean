import SBlktrace.ScanForest
import Mathlib

namespace SBlktrace

open Function Forest PartitionData

def readLinks (extdesc : ExtDesc) (fd : UInt32 → Option Buf) (blockid : UInt32) : List UInt32 :=
  (fd blockid).elim [] (links extdesc)

def remapOffset (extdesc : ExtDesc) (level : ℕ) (offset : UInt32) (i : ℕ) : UInt32 :=
  linkOffset extdesc (UInt8.ofNat (level - 1)) offset i

def expiredLink (extdesc : ExtDesc) (link : UInt32) : Bool := extdesc.sb.sBlocksCount ≤ link

def cachedLinks (extdesc : ExtDesc) (cache : UInt32 → Option Buf) (blockid : UInt32) : List UInt32 :=
  (readLinks extdesc cache blockid).takeWhile fun link => !expiredLink extdesc link

abbrev cachedKids (extdesc : ExtDesc) (cache : UInt32 → Option Buf) :
    ℕ → UInt32 → UInt32 → Forest BlockNode :=
  blockKids (cachedLinks extdesc cache) (remapOffset extdesc)

section LinkForest

variable {sub : ℕ → UInt32 → UInt32 → Forest BlockNode} {level : ℕ → ℕ} {offset : ℕ → UInt32}
  {link : UInt32} {ls : List UInt32}

theorem linkForest_cons (hlink : link ≠ 0) (i : ℕ) :
    linkForest sub level offset (link :: ls) i =
      .node ⟨link, UInt8.ofNat (level i), offset i⟩ (sub (level i) link (offset i))
        (linkForest sub level offset ls (i + 1)) := by
  rw [linkForest, if_pos hlink]

theorem linkForest_zero (i : ℕ) :
    linkForest sub level offset (0 :: ls) i = linkForest sub level offset ls (i + 1) := by
  rw [linkForest, if_neg (not_not_intro rfl)]

theorem ofNat_level_ne_zero {level : ℕ} (hpos : 0 < level) (hle : level ≤ 3) :
    UInt8.ofNat level ≠ 0 := by
  interval_cases level <;> decide

theorem iBlockLevel_le {i : ℕ} (hi : i < 15) : iBlockLevel i ≤ 3 := by
  rw [iBlockLevel]
  split <;> omega

theorem zero_notMem_linkForest {sub : ℕ → UInt32 → UInt32 → Forest BlockNode} {level : ℕ → ℕ}
    {top : ℕ → UInt32} (hsub : ∀ i link, (0 : UInt32) ∉ (sub (level i) link (top i)).blocks)
    (ls : List UInt32) (i : ℕ) : (0 : UInt32) ∉ (linkForest sub level top ls i).blocks := by
  induction ls generalizing i with
  | nil => exact List.not_mem_nil
  | cons link ls ih =>
    by_cases hlink : link = 0
    · subst hlink
      rw [linkForest_zero]
      exact ih (i + 1)
    · rw [linkForest_cons hlink, blocks, keys_node, List.mem_cons, List.mem_append, not_or, not_or]
      exact ⟨Ne.symm hlink, hsub i link, ih (i + 1)⟩

theorem zero_notMem_blockKids {read : UInt32 → List UInt32} {off : ℕ → UInt32 → ℕ → UInt32}
    (level : ℕ) (blockid offset : UInt32) :
    (0 : UInt32) ∉ (blockKids read off level blockid offset).blocks := by
  induction level generalizing blockid offset with
  | zero => exact List.not_mem_nil
  | succ level ih =>
    exact @zero_notMem_linkForest (fun _ => blockKids read off level) (fun _ => level) _
      (fun _ link => ih link _) _ _

end LinkForest

section Remap

variable {extdesc : ExtDesc} {cache : UInt32 → Option Buf} {n link offset : UInt32}
  {parent current : Option UInt32} {p : PartitionData} {kids : Forest BlockNode}

theorem attached_dataCache (F : Forest BlockNode) :
    (attached p n parent current F).dataCache = p.dataCache := by
  rw [attached, storeForest]
  cases current with
  | some current => rfl
  | none => cases parent <;> rfl

theorem attached_siBh (F : Forest BlockNode) :
    ((attached p n none none F).ilist n).siBh = F.first := by
  have hself : (attached p n none none F).ilist n = { p.ilist n with siBh := F.first } :=
    update_self _ _ _
  rw [hself]

theorem keepLinks_blank {blist : UInt32 → SBlock} {expired : UInt32 → Bool}
    {sub : ℕ → UInt32 → UInt32 → Forest BlockNode} {level : ℕ → ℕ} {off : ℕ → UInt32}
    (ls : List UInt32) (i : ℕ) :
    (keepLinks blist expired ls i 0 none = none ∧
      linkForest sub level off (ls.takeWhile fun link => !expired link) i = .nil) ∨
    ∃ j rest, keepLinks blist expired ls i 0 none = some (j, rest, none, none) ∧
      linkForest sub level off (rest.takeWhile fun link => !expired link) j =
        linkForest sub level off (ls.takeWhile fun link => !expired link) i := by
  induction ls generalizing i with
  | nil => exact Or.inr ⟨i, [], rfl, rfl⟩
  | cons link ls ih =>
    rw [keepLinks]
    by_cases hexpired : expired link = true
    · left
      rw [if_pos hexpired, List.takeWhile_cons, hexpired]
      exact ⟨rfl, rfl⟩
    rw [if_neg hexpired]
    by_cases hzero : link = 0
    · subst hzero
      have htake : ((0 : UInt32) :: ls).takeWhile (fun link => !expired link) =
          0 :: ls.takeWhile fun link => !expired link := by
        rw [List.takeWhile_cons, Bool.eq_false_iff.mpr hexpired]
        rfl
      rw [if_neg (not_not_intro rfl), htake, linkForest_zero]
      exact ih (i + 1)
    · right
      rw [if_pos hzero, if_pos (Ne.symm hzero)]
      exact ⟨i, link :: ls, rfl, rfl⟩

theorem mapLinked_eq {level : ℕ} (hlevel : level ≤ 3)
    {remap : UInt32 → Buf → PartitionData → Option PartitionData}
    (h : Attachable p n parent current (.node ⟨link, UInt8.ofNat level, offset⟩ kids .nil))
    (hleaf : level = 0 ∨ p.dataCache link = none → kids = .nil)
    (hremap : level ≠ 0 → ∀ buf, p.dataCache link = some buf →
      remap link buf (attached p n parent current (.node ⟨link, UInt8.ofNat level, offset⟩ .nil .nil)) =
        some (attached p n parent current (.node ⟨link, UInt8.ofNat level, offset⟩ kids .nil))) :
    mapLinked remap link offset
        ((p.linkNext n parent current link).setBlock link
          { (p.linkNext n parent current link).blist link with
            sbLevel := UInt8.ofNat level, sbInode := n }) =
      some (attached p n parent current (.node ⟨link, UInt8.ofNat level, offset⟩ kids .nil)) := by
  have hmem : link ∈ (Forest.node ⟨link, UInt8.ofNat level, offset⟩ kids .nil).blocks := by
    rw [blocks, keys_node]
    exact List.mem_cons_self
  have hset : (((p.linkNext n parent current link).setBlock link
      { (p.linkNext n parent current link).blist link with
        sbLevel := UInt8.ofNat level, sbInode := n }).setBlock link
      { ((p.linkNext n parent current link).setBlock link
        { (p.linkNext n parent current link).blist link with
          sbLevel := UInt8.ofNat level, sbInode := n }).blist link with sbOffset := offset }) =
      attached p n parent current (.node ⟨link, UInt8.ofNat level, offset⟩ .nil .nil) := by
    rw [h.linkNext_blist hmem, h.blank link hmem, setBlock, setBlock]
    dsimp only
    rw [update_self, update_idem]
    rfl
  have hblock : (attached p n parent current
      (.node ⟨link, UInt8.ofNat level, offset⟩ .nil .nil)).blist link =
      ⟨UInt8.ofNat level, offset, 0, 0, n⟩ := update_self _ _ _
  rw [mapLinked]
  dsimp only
  rw [hset, hblock]
  dsimp only
  by_cases hzero : level = 0
  · subst hzero
    have hlevel₀ : UInt8.ofNat 0 = 0 := rfl
    rw [if_pos hlevel₀, hleaf (Or.inl rfl)]
    refine congrArg some ?_
    have hself := setBlock_self (attached p n parent current
      (.node ⟨link, UInt8.ofNat 0, offset⟩ .nil .nil)) link
    rw [hblock] at hself
    rw [setBh, hblock]
    exact hself
  · rw [if_neg (ofNat_level_ne_zero (Nat.pos_of_ne_zero hzero) hlevel), attached_dataCache]
    cases hbuf : p.dataCache link with
    | none => rw [hleaf (Or.inr hbuf)]
    | some buf => exact hremap hzero buf hbuf

theorem linkNext_kept (b : UInt32) :
    ((p.linkNext n parent current link).blist b).sbLevel = (p.blist b).sbLevel ∧
      ((p.linkNext n parent current link).blist b).sbOffset = (p.blist b).sbOffset := by
  have hupdate (c : UInt32) (sblock : SBlock) (hlevel : sblock.sbLevel = (p.blist c).sbLevel)
      (hoffset : sblock.sbOffset = (p.blist c).sbOffset) :
      (update p.blist c sblock b).sbLevel = (p.blist b).sbLevel ∧
        (update p.blist c sblock b).sbOffset = (p.blist b).sbOffset := by
    by_cases hb : b = c
    · subst hb
      rw [update_self]
      exact ⟨hlevel, hoffset⟩
    · rw [update_of_ne hb]
      exact ⟨rfl, rfl⟩
  cases current with
  | some current => exact hupdate current _ rfl rfl
  | none =>
    cases parent with
    | some parent => exact hupdate parent _ rfl rfl
    | none => exact ⟨rfl, rfl⟩

theorem attached_kept {F : Forest BlockNode} {b : UInt32} (hb : b ∉ F.blocks) :
    ((attached p n parent current F).blist b).sbLevel = (p.blist b).sbLevel ∧
      ((attached p n parent current F).blist b).sbOffset = (p.blist b).sbOffset := by
  rw [attached, blist_storeForest hb]
  exact linkNext_kept b

structure Mappable (extdesc : ExtDesc) (cache : UInt32 → Option Buf) (n : UInt32) (level : ℕ)
    (blockid offset : UInt32) (p : PartitionData) : Prop where
  sbLevel : (p.blist blockid).sbLevel = UInt8.ofNat level
  sbOffset : (p.blist blockid).sbOffset = offset
  dataCache : p.dataCache = cache
  attachable : Attachable p n (some blockid) none (cachedKids extdesc cache level blockid offset)

def Maps (extdesc : ExtDesc) (cache : UInt32 → Option Buf) (n : UInt32) (level : ℕ)
    (remap : UInt32 → Buf → PartitionData → Option PartitionData) : Prop :=
  ∀ blockid offset buf p, cache blockid = some buf →
    Mappable extdesc cache n level blockid offset p →
    remap blockid buf p =
      some (attached p n (some blockid) none (cachedKids extdesc cache level blockid offset))

theorem mapLinked_node {level : ℕ} (hlevel : level ≤ 3)
    {remap : UInt32 → Buf → PartitionData → Option PartitionData}
    (hremap : level ≠ 0 → Maps extdesc cache n level remap) (hcache : p.dataCache = cache)
    (h : Attachable p n parent current
      (.node ⟨link, UInt8.ofNat level, offset⟩ (cachedKids extdesc cache level link offset) .nil)) :
    mapLinked remap link offset
        ((p.linkNext n parent current link).setBlock link
          { (p.linkNext n parent current link).blist link with
            sbLevel := UInt8.ofNat level, sbInode := n }) =
      some (attached p n parent current
        (.node ⟨link, UInt8.ofNat level, offset⟩ (cachedKids extdesc cache level link offset) .nil)) := by
  apply mapLinked_eq hlevel h
  · rintro (rfl | hnone)
    · rfl
    · cases level with
      | zero => rfl
      | succ level =>
        rw [hcache] at hnone
        rw [cachedKids, blockKids, cachedLinks, readLinks, hnone]
        rfl
  · intro hzero buf hbuf
    rw [← attached_kids _ (cachedKids extdesc cache level link offset)]
    rw [hcache] at hbuf
    apply hremap hzero link offset buf _ hbuf
    have hblock : (attached p n parent current
        (.node ⟨link, UInt8.ofNat level, offset⟩ .nil .nil)).blist link =
        ⟨UInt8.ofNat level, offset, 0, 0, n⟩ := update_self _ _ _
    constructor
    · rw [hblock]
    · rw [hblock]
    · rw [attached_dataCache]
      exact hcache
    · exact h.kids

abbrev mappedKids (extdesc : ExtDesc) (cache : UInt32 → Option Buf) (level : ℕ) (o : UInt32)
    (ls : List UInt32) (i : ℕ) : Forest BlockNode :=
  linkForest (fun _ => cachedKids extdesc cache level) (fun _ => level)
    (remapOffset extdesc (level + 1) o) (ls.takeWhile fun link => !expiredLink extdesc link) i

theorem remapLinks_cons {level : ℕ} (hlevel : level ≤ 2) {x o : UInt32} {q q₁ q₂ : PartitionData}
    {unmap : UInt32 → UInt32 → PartitionData → Option PartitionData}
    {remap : UInt32 → Buf → PartitionData → Option PartitionData} {ls : List UInt32} {i : ℕ}
    (hrange : link < extdesc.sb.sBlocksCount) (hzero : link ≠ 0) (hne : x ≠ link)
    (hunmap : (if (q.blist link).sbInode ≠ 0 then unmap link (q.blist x).sbInode q else some q) = some q₁)
    (hblock : (q₁.blist x).sbLevel = UInt8.ofNat (level + 1) ∧ (q₁.blist x).sbOffset = o)
    (hmap : mapLinked remap link (remapOffset extdesc (level + 1) o i)
      ((q₁.linkNext n (some x) current link).setBlock link
        { (q₁.linkNext n (some x) current link).blist link with
          sbLevel := UInt8.ofNat level, sbInode := n }) = some q₂) :
    remapLinks extdesc unmap remap n x (link :: ls) i current q =
      remapLinks extdesc unmap remap n x ls (i + 1) (some link) q₂ := by
  have hdown : UInt8.ofNat (level + 1) - 1 = UInt8.ofNat level := by
    interval_cases level <;> rfl
  have hplaced : linkOffset extdesc
      (((q₁.linkNext n (some x) current link).setBlock link
        { (q₁.linkNext n (some x) current link).blist link with
          sbLevel := UInt8.ofNat level, sbInode := n }).blist link).sbLevel
      (((q₁.linkNext n (some x) current link).setBlock link
        { (q₁.linkNext n (some x) current link).blist link with
          sbLevel := UInt8.ofNat level, sbInode := n }).blist x).sbOffset i =
      remapOffset extdesc (level + 1) o i := by
    rw [setBlock]
    dsimp only
    rw [update_self, update_of_ne hne, (linkNext_kept x).2, hblock.2]
    rfl
  rw [remapLinks, if_neg (UInt32.not_le.mpr hrange), if_pos hzero]
  dsimp only [bind, pure]
  by_cases howner : (q.blist link).sbInode ≠ 0
  · rw [if_pos howner] at hunmap ⊢
    rw [hunmap, Option.bind_some, (linkNext_kept x).1, hblock.1, hdown, hplaced, hmap, Option.bind_some]
  · rw [if_neg howner] at hunmap ⊢
    obtain rfl := Option.some.inj hunmap
    rw [Option.bind_some, (linkNext_kept x).1, hblock.1, hdown, hplaced, hmap, Option.bind_some]

theorem diffLinks_cons {q : PartitionData} {fuel : ℕ} {ls : List UInt32} {i : ℕ}
    (hrange : link < extdesc.sb.sBlocksCount) (hzero : link ≠ 0) :
    diffLinks extdesc fuel n (link :: ls) i current q =
      (if (q.blist link).sbInode ≠ 0 then unmapBlock fuel link (q.blist link).sbInode q else some q).bind
        fun q₁ => (mapLinked (remapBlock extdesc n fuel) link (diffOffset extdesc i)
          ((q₁.linkNext n none current link).setBlock link
            { (q₁.linkNext n none current link).blist link with
              sbLevel := UInt8.ofNat (iBlockLevel i), sbInode := n })).bind
                (diffLinks extdesc fuel n ls (i + 1) (some link)) := by
  have hslot : (if i < 12 then 0 else UInt8.ofNat (i - 11)) = UInt8.ofNat (iBlockLevel i) := by
    rw [iBlockLevel]
    split <;> rfl
  rw [diffLinks, if_pos hzero, if_neg (UInt32.not_le.mpr hrange)]
  dsimp only [bind, pure]
  rw [hslot]
  by_cases howner : (q.blist link).sbInode ≠ 0
  · rw [if_pos howner, if_pos howner]
  · rw [if_neg howner, if_neg howner]

theorem remapLinks_eq {level : ℕ} (hlevel : level ≤ 2) {sblock o : UInt32}
    {unmap : UInt32 → UInt32 → PartitionData → Option PartitionData}
    {remap : UInt32 → Buf → PartitionData → Option PartitionData}
    (hremap : level ≠ 0 → Maps extdesc cache n level remap) (ls : List UInt32) (i : ℕ)
    (hblock : (p.blist sblock).sbLevel = UInt8.ofNat (level + 1) ∧ (p.blist sblock).sbOffset = o)
    (hcache : p.dataCache = cache)
    (h : Attachable p n (some sblock) current (mappedKids extdesc cache level o ls i)) :
    remapLinks extdesc unmap remap n sblock ls i current p =
      some (attached p n (some sblock) current (mappedKids extdesc cache level o ls i)) := by
  induction ls generalizing i current p with
  | nil =>
    rw [remapLinks]
    cases current with
    | some current => rfl
    | none => exact congrArg some (attached_nil h.nextLink).symm
  | cons link ls ih =>
    rw [mappedKids, List.takeWhile_cons] at h ⊢
    by_cases hexpired : extdesc.sb.sBlocksCount ≤ link
    · have hexpired' : (!expiredLink extdesc link) = false := by simp [expiredLink, hexpired]
      rw [remapLinks, if_pos hexpired, hexpired']
      exact congrArg some (attached_nil h.nextLink).symm
    have hexpired' : (!expiredLink extdesc link) = true := by simp [expiredLink, hexpired]
    rw [hexpired', if_pos rfl] at h ⊢
    by_cases hzero : link = 0
    · subst hzero
      rw [linkForest_zero] at h ⊢
      rw [remapLinks, if_neg hexpired, if_neg (not_not_intro rfl)]
      exact ih (i + 1) hblock hcache h
    rw [linkForest_cons hzero] at h ⊢
    have hmem : link ∈ (Forest.node ⟨link, UInt8.ofNat level, remapOffset extdesc (level + 1) o i⟩
        (cachedKids extdesc cache level link (remapOffset extdesc (level + 1) o i))
        (mappedKids extdesc cache level o ls (i + 1))).blocks := by
      rw [blocks, keys_node]
      exact List.mem_cons_self
    have hne : sblock ≠ link := by
      rintro rfl
      exact h.notParent _ rfl hmem
    have hfree : (if (p.blist link).sbInode ≠ 0 then unmap link (p.blist sblock).sbInode p else some p) =
        some p := by
      rw [h.blank link hmem]
      exact if_neg (not_not_intro rfl)
    have hlinked := mapLinked_node (hlevel.trans (by decide)) hremap hcache
      (@Attachable.append_left _ (.node _ _ .nil) _ _ _ _ h)
    rw [remapLinks_cons hlevel (UInt32.not_le.mp hexpired) hzero hne hfree hblock hlinked]
    have hnot : link ∉ (cachedKids extdesc cache level link (remapOffset extdesc (level + 1) o i)).blocks := by
      have hnodup := h.nodup
      rw [blocks, keys_node] at hnodup
      exact fun hin => (List.nodup_cons.mp hnodup).1 (List.mem_append_left _ hin)
    have hout : sblock ∉ (Forest.node ⟨link, UInt8.ofNat level, remapOffset extdesc (level + 1) o i⟩
        (cachedKids extdesc cache level link (remapOffset extdesc (level + 1) o i)) .nil).blocks :=
      (@Attachable.append_left _ (.node _ _ .nil) _ _ _ _ h).notParent sblock rfl
    obtain ⟨hlevel', hoffset'⟩ := @attached_kept n (some sblock) current p _ _ hout
    rw [ih (i + 1) ⟨hlevel'.trans hblock.1, hoffset'.trans hblock.2⟩
      ((attached_dataCache _).trans hcache) h.append_right, attached_append hnot]

theorem remapBlock_maps {level : ℕ} (hlevel : level ≤ 3) {fuel : ℕ} (hfuel : level < fuel)
    (hzero : level ≠ 0) : Maps extdesc cache n level (remapBlock extdesc n fuel) := by
  induction level generalizing fuel with
  | zero => exact absurd rfl hzero
  | succ level ih =>
    intro blockid offset buf p hbuf h
    obtain ⟨fuel, rfl⟩ := Nat.exists_eq_add_of_lt hfuel
    have hread : readLinks extdesc cache blockid = links extdesc buf := by
      rw [readLinks, hbuf]
      rfl
    obtain ⟨hlevel', hoffset, hcache, hattach⟩ := h
    rw [cachedKids, blockKids, cachedLinks, hread] at hattach ⊢
    have hbh : (p.blist blockid).sbBh = 0 := hattach.nextLink
    have hexpired : (fun link => decide (extdesc.sb.sBlocksCount ≤ link)) = expiredLink extdesc := rfl
    rw [remapBlock, hbh, hexpired]
    obtain ⟨hkeep, hnone⟩ | ⟨j, rest, hkeep, hforest⟩ := @keepLinks_blank p.blist (expiredLink extdesc)
      (fun _ => cachedKids extdesc cache level) (fun _ => level)
      (remapOffset extdesc (level + 1) offset) (links extdesc buf) 0
    · rw [hkeep, hnone, attached_nil hattach.nextLink]
    · rw [← hforest] at hattach ⊢
      rw [hkeep]
      dsimp only
      rw [oldBlock, show level + 1 + fuel = level + fuel + 1 by omega, unmapSiblings, if_pos rfl]
      dsimp only [Option.bind_some, bind]
      exact remapLinks_eq (by omega) (fun hne => ih (by omega) (by omega) hne) rest j
        ⟨hlevel', hoffset⟩ hcache hattach

def expiredIBlock (extdesc : ExtDesc) (link : UInt32) : Bool :=
  link ≠ 0 ∧ extdesc.sb.sBlocksCount ≤ link

abbrev mappedIBlocks (extdesc : ExtDesc) (cache : UInt32 → Option Buf) (ls : List UInt32) (i : ℕ) :
    Forest BlockNode :=
  linkForest (cachedKids extdesc cache) iBlockLevel (diffOffset extdesc)
    (ls.takeWhile fun link => !expiredIBlock extdesc link) i

theorem endChain_self (h : p.nextLink n none current = 0) : p.endChain current = p := by
  cases current with
  | none => rfl
  | some c => exact attached_nil h

theorem diffLinks_cached {fuel : ℕ} (hfuel : 3 < fuel) (ls : List UInt32) (i : ℕ)
    (hlen : i + ls.length ≤ 15) (hcache : p.dataCache = cache)
    (h : Attachable p n none current (mappedIBlocks extdesc cache ls i)) :
    diffLinks extdesc fuel n ls i current p =
      if ls.any (expiredIBlock extdesc) then
        (removeSinode fuel n (attached p n none current (mappedIBlocks extdesc cache ls i))).map
          fun p => (p, false)
      else some (attached p n none current (mappedIBlocks extdesc cache ls i), true) := by
  induction ls generalizing i current p with
  | nil =>
    rw [diffLinks, endChain_self h.nextLink]
    exact congrArg (fun p => some (p, true)) (attached_nil h.nextLink).symm
  | cons link ls ih =>
    rw [List.length_cons] at hlen
    rw [List.any_cons]
    rw [mappedIBlocks, List.takeWhile_cons] at h ⊢
    by_cases hzero : link = 0
    · subst hzero
      have hkept : expiredIBlock extdesc 0 = false := by simp [expiredIBlock]
      rw [hkept, Bool.not_false, if_pos rfl, linkForest_zero] at h ⊢
      rw [diffLinks, if_neg (not_not_intro rfl), Bool.false_or]
      exact ih (i + 1) (by omega) hcache h
    by_cases hexpired : extdesc.sb.sBlocksCount ≤ link
    · have hexpired' : expiredIBlock extdesc link = true := by simp [expiredIBlock, hexpired, hzero]
      rw [diffLinks, if_pos hzero, if_pos hexpired, hexpired', endChain_self h.nextLink, Bool.true_or, if_pos rfl]
      change _ = (removeSinode fuel n (attached p n none current .nil)).map _
      rw [attached_nil h.nextLink]
    have hkept : expiredIBlock extdesc link = false := by simp [expiredIBlock, hexpired]
    rw [hkept, Bool.not_false, if_pos rfl, linkForest_cons hzero] at h ⊢
    rw [Bool.false_or]
    have hmem : link ∈ (Forest.node ⟨link, UInt8.ofNat (iBlockLevel i), diffOffset extdesc i⟩
        (cachedKids extdesc cache (iBlockLevel i) link (diffOffset extdesc i))
        (mappedIBlocks extdesc cache ls (i + 1))).blocks := by
      rw [blocks, keys_node]
      exact List.mem_cons_self
    have hfree : (if (p.blist link).sbInode ≠ 0 then unmapBlock fuel link (p.blist link).sbInode p
        else some p) = some p := by
      rw [h.blank link hmem]
      exact if_neg (not_not_intro rfl)
    have hlevel : iBlockLevel i ≤ 3 := iBlockLevel_le (by omega)
    have hlinked := mapLinked_node hlevel
      (fun hne => remapBlock_maps hlevel (hlevel.trans_lt hfuel) hne) hcache
      (@Attachable.append_left _ (.node _ _ .nil) _ _ _ _ h)
    have hnot : link ∉ (cachedKids extdesc cache (iBlockLevel i) link (diffOffset extdesc i)).blocks := by
      have hnodup := h.nodup
      rw [blocks, keys_node] at hnodup
      exact fun hin => (List.nodup_cons.mp hnodup).1 (List.mem_append_left _ hin)
    rw [diffLinks_cons (UInt32.not_le.mp hexpired) hzero, hfree, Option.bind_some, hlinked, Option.bind_some,
      ih (i + 1) (by omega) ((attached_dataCache _).trans hcache) h.append_right, attached_append hnot]

end Remap

end SBlktrace
