import SBlktrace.ChainMirror
import SBlktrace.ScanAgreement
import Mathlib

namespace SBlktrace

open Function Forest PartitionData

abbrev kidLevel (p : PartitionData) (s : UInt32) : ℕ → ℕ := fun _ => (p.blist s).sbLevel.toNat - 1

abbrev kidOffset (extdesc : ExtDesc) (p : PartitionData) (s : UInt32) : ℕ → UInt32 :=
  remapOffset extdesc (p.blist s).sbLevel.toNat (p.blist s).sbOffset

/-- What `remap_block` leaves: the new children, or where a link is expired those or the old ones. -/
structure KidsMirror (extdesc : ExtDesc) (p p' : PartitionData) (s : UInt32) (old ls : List UInt32) :
    Prop where
  kids : ls.any (expiredLink extdesc) = false →
    ChainMirror p' (p.owner s) (p'.bh s) (kidLevel p s) (kidOffset extdesc p s) old ls
  expired : ls.any (expiredLink extdesc) = true →
    SibChain p'.sib (p'.bh s) old ∨ SibChain p'.sib (p'.bh s) (nonzero ls)

/-- The children that stay were where they should be, and an expired link comes before the first that
differs. -/
structure KidsMirrorable (extdesc : ExtDesc) (p : PartitionData) (s : UInt32)
    (old ls pre rest : List UInt32) : Prop where
  kids : ls.any (expiredLink extdesc) = false →
    ChainKept p (kidLevel p s) (kidOffset extdesc p s) old ls pre
  expired : ls.any (expiredLink extdesc) = true → (pre ++ rest.take 1).any (expiredLink extdesc) = true

abbrev newKids (extdesc : ExtDesc) (p : PartitionData) (s : UInt32) (pre rest : List UInt32)
    (B : Forest UInt32) : Forest BlockNode :=
  mappedKids extdesc ((p.unmapped (B.keys id)).othersCache (p.owner s)) ((p.blist s).sbLevel.toNat - 1)
    (p.blist s).sbOffset rest pre.length

/-- Linking the blocks changes neither the block nor its children, once the others are unmapped. -/
def KidsOrderly (extdesc : ExtDesc) (p : PartitionData) (s : UInt32) (ls pre rest : List UInt32)
    (B : Forest UInt32) : Prop :=
  Orderly (p.unmapped (B.keys id)) (Descends (p.unmapped (B.keys id)) (p.owner s))
    (s :: (nonzero pre ++ B.roots.filter (· ∉ ls))) (newKids extdesc p s pre rest B)

section Mirrors

variable {extdesc : ExtDesc} {p p' : PartitionData} {s : UInt32} {old ls pre rest : List UInt32}

theorem kidsMirror_iff (hnone : ls.any (expiredLink extdesc) = false)
    (hiff : ChainMirror p' (p.owner s) (p'.bh s) (kidLevel p s) (kidOffset extdesc p s) old ls ↔
      ChainKept p (kidLevel p s) (kidOffset extdesc p s) old ls pre) :
    KidsMirror extdesc p p' s old ls ↔ KidsMirrorable extdesc p s old ls pre rest := by
  have hany : ls.any (expiredLink extdesc) ≠ true := Bool.eq_false_iff.mp hnone
  constructor
  · exact fun h => ⟨fun _ => hiff.mp (h.kids hnone), fun h' => absurd h' hany⟩
  · exact fun h => ⟨fun _ => hiff.mpr (h.kids hnone), fun h' => absurd h' hany⟩

theorem kidsMirror_iff_of_expired (hany : ls.any (expiredLink extdesc) = true)
    (hiff : SibChain p'.sib (p'.bh s) old ∨ SibChain p'.sib (p'.bh s) (nonzero ls) ↔
      (pre ++ rest.take 1).any (expiredLink extdesc) = true) :
    KidsMirror extdesc p p' s old ls ↔ KidsMirrorable extdesc p s old ls pre rest := by
  have hnone : ls.any (expiredLink extdesc) ≠ false :=
    fun hfalse => Bool.false_ne_true (hfalse.symm.trans hany)
  constructor
  · exact fun h => ⟨fun h' => absurd h' hnone, fun _ => hiff.mp (h.expired hany)⟩
  · exact fun h => ⟨fun h' => absurd h' hnone, fun _ => hiff.mpr (h.expired hany)⟩

end Mirrors

section Relink

variable {extdesc : ExtDesc} {p p' : PartitionData} {s : UInt32} {ls pre rest : List UInt32}
  {A B : Forest UInt32} {buf : Buf}

theorem mem_roots_mappedKids {cache : UInt32 → Option Buf} {level : ℕ} {o link : UInt32}
    (hls : ls.any (expiredLink extdesc) = false) (hlink : link ≠ 0) {i : ℕ} (hi : ls[i]? = some link) (j : ℕ) :
    ⟨link, UInt8.ofNat level, remapOffset extdesc (level + 1) o (j + i)⟩ ∈
      (mappedKids extdesc cache level o ls j).roots := by
  have hall : ∀ link ∈ ls, (!expiredLink extdesc link) = true := by
    intro link hlink
    rw [List.any_eq_false] at hls
    simpa using hls link hlink
  rw [mappedKids, List.takeWhile_eq_self_iff.mpr hall]
  exact mem_roots_linkForest hlink hi j

theorem remapBlock_relinked (h : p.Tracked) (hs : p.owner s ≠ 0) (hlevel : (p.blist s).sbLevel ≠ 0)
    (hcut : ChainCut p (p.bh s) (links extdesc buf) pre rest A B)
    (horder : KidsOrderly extdesc p s (links extdesc buf) pre rest B)
    (hexpired : (pre ++ rest.take 1).any (expiredLink extdesc) = false)
    (hsome : rest = [] → nonzero pre ≠ []) {fuel : ℕ} (hfuel : 2 ^ 33 + 6 < fuel) :
    ∃ p', remapBlock extdesc (p.owner s) fuel s buf p = some p' ∧
      (rest.any (expiredLink extdesc) = false →
        Relinked p p' (p.owner s) (p'.bh s) (kidLevel p s) (kidOffset extdesc p s) (links extdesc buf) pre
          rest B) ∧
      (∀ link tl, rest = link :: tl →
        p'.nextLink (p.owner s) (some s) (nonzero pre).getLast? = link) ∧
      (p.PointersBelow extdesc.sb.sBlocksCount → p'.PointersBelow extdesc.sb.sBlocksCount) := by
  obtain ⟨hle, heq⟩ := level_eq (h.level s) hlevel
  obtain ⟨F, hF⟩ := h.forest _ hs
  obtain ⟨K, hchain, hsK, -⟩ := hF.kids ((hF.mem_iff s).mpr rfl)
  obtain rfl := Rep.unique hchain.linked hcut.linked
  have hroots := SibChain.roots hcut.linked
  have hsB : s ∉ B.keys id := by
    rw [keys_append] at hsK
    exact fun hin => hsK (List.mem_append_right _ hin)
  have hblock : (p.unmapped (B.keys id)).blist s = p.blist s := blist_unmapped_of_notMem hsB
  have hlen := nodes_le_of_nodup hchain.nodup
  have ht : (p.unmapped (B.keys id)).Treelike := h.treelike.left (Left.unmapped p _)
  obtain ⟨fuel, rfl⟩ := Nat.exists_eq_add_of_le' (show 1 ≤ fuel by omega)
  have hinode : ∀ l ⊆ B.keys id, ((p.unmapped l).blist s).sbInode = p.owner s := by
    intro l hl
    rw [blist_unmapped_of_notMem fun hin => hsB (hl hin)]
    rfl
  have hhead : (if rest = [] ∧ nonzero pre = [] then 0 else B.roots.headD 0) = B.head id := by
    rw [if_neg fun hnone => hsome hnone.1 hnone.2, head_eq_headD]
  have hpreT : ∀ b ∈ nonzero pre, b ∈ s :: (nonzero pre ++ B.roots.filter (· ∉ links extdesc buf)) :=
    fun b hb => List.mem_cons_of_mem _ (List.mem_append_left _ hb)
  obtain ⟨p', hp', hlinks, hthreaded, hsib⟩ := @remapLinks_links extdesc (p.unmapped (B.keys id))
    (p.unmapped (B.keys id)) (p.owner s) (nonzero pre).getLast? _ _ ((p.blist s).sbLevel.toNat - 1) hle s
    (p.blist s).sbOffset ht (unmapBlock fuel) (unmapBlock_unmaps ht (by omega))
    (remapBlock extdesc (p.owner s) fuel)
    (fun hne b o buf hbuf => remapBlock_remaps (by omega) ht (fun _ => id) hs (by omega) hne hbuf) (fun _ => id) hs
    rest pre.length
    List.mem_cons_self (fun c hc => hpreT c (List.mem_of_getLast? hc)) (fun b _ => Left.refl _ b) (by
      rw [hblock]
      exact ⟨heq, rfl, rfl⟩) horder
  refine ⟨p', ?_, fun hnone => ?_, fun link tl htl => ?_,
    fun hp => hlinks.pointers (pointersBelow_of_left (Left.unmapped p _) hp)⟩
  · rw [remapBlock_eq hroots hcut.differs, hexpired, if_neg Bool.false_ne_true, hhead]
    rw [hchain.unmap hs h.leaf hinode (by omega), Option.bind_some]
    exact hp'
  · have hlevel' : (p.blist s).sbLevel.toNat - 1 + 1 = (p.blist s).sbLevel.toNat := by
      apply Nat.sub_add_cancel
      exact Nat.pos_of_ne_zero fun hzero => hlevel (UInt8.toNat_inj.mp hzero)
    apply @Links.relinked extdesc p p' (p.owner s) _ _ _ _ _ A B (some s) _ _ _ hchain hcut _ hpreT _ hsome hlinks
    · intro i link hi hlink
      have hplaced := hthreaded.placed _ (mem_roots_mappedKids hnone hlink hi pre.length)
      rw [hlevel'] at hplaced
      exact hplaced
    · exact hsib (by simpa [List.any_eq_false] using hnone)
    · rintro s' ⟨⟩
      exact ⟨List.mem_cons_self, hsK⟩
    · intro b hb hnot
      apply List.mem_cons_of_mem
      apply List.mem_append_right
      simp [hb, hnot]
  · obtain ⟨hlink, -⟩ := hcut.differs.differs link tl htl
    subst htl
    have hkept : expiredLink extdesc link = false := by
      rw [List.any_append, Bool.or_eq_false_iff] at hexpired
      simpa using hexpired.2
    have hnode : (newKids extdesc p s pre (link :: tl) B).first = link ∧
        newKids extdesc p s pre (link :: tl) B ≠ .nil := by
      rw [newKids, mappedKids, List.takeWhile_cons, hkept, Bool.not_false, if_pos rfl, linkForest_cons hlink]
      exact ⟨rfl, by rintro ⟨⟩⟩
    rw [hthreaded.first hnode.2]
    exact hnode.1

theorem remapBlock_same (hcut : ChainCut p (p.bh s) (links extdesc buf) pre rest A B)
    (hsame : (pre ++ rest.take 1).any (expiredLink extdesc) = true ∨ rest = [] ∧ nonzero pre = [])
    {fuel : ℕ} (hfuel : 1 < fuel) : remapBlock extdesc (p.owner s) fuel s buf p = some p := by
  obtain ⟨fuel, rfl⟩ := Nat.exists_eq_add_of_le' (show 2 ≤ fuel by omega)
  have hroots := SibChain.roots hcut.linked
  rw [remapBlock_eq (SibChain.roots hcut.linked) hcut.differs]
  by_cases hany : (pre ++ rest.take 1).any (expiredLink extdesc) = true
  · rw [if_pos hany]
  obtain ⟨hrest, hnone⟩ := hsame.resolve_left hany
  rw [if_neg hany, if_pos ⟨hrest, hnone⟩, hnone, hrest, unmapSiblings, if_pos rfl]
  rfl

theorem mem_nonzero_of_expired {link : UInt32} (hcount : 0 < extdesc.sb.sBlocksCount)
    (hlink : link ∈ ls) (hexpired : expiredLink extdesc link = true) : link ∈ nonzero ls := by
  refine mem_nonzero.mpr ⟨hlink, ?_⟩
  rintro rfl
  rw [expiredLink, decide_eq_true_iff] at hexpired
  exact absurd hcount (UInt32.not_lt.mpr hexpired)

theorem mixed_of_expired (hcut : ChainCut p (p.bh s) ls pre rest A B)
    (hfirst : ∀ link tl, rest = link :: tl →
      p'.nextLink (p.owner s) (some s) (nonzero pre).getLast? = link)
    (hpointers : p'.PointersBelow extdesc.sb.sBlocksCount) (hany : ls.any (expiredLink extdesc) = true)
    (hexpired : (pre ++ rest.take 1).any (expiredLink extdesc) = false) :
    ¬SibChain p'.sib (p'.bh s) (A.append B).roots ∧ ¬SibChain p'.sib (p'.bh s) (nonzero ls) := by
  constructor
  · intro hold
    cases rest with
    | nil =>
      rw [List.take_nil, List.append_nil] at hexpired
      rw [hcut.differs.links, List.append_nil, hexpired] at hany
      cases hany
    | cons link tl =>
      obtain ⟨hlink, hdiffers⟩ := hcut.differs.differs link tl rfl
      rw [hcut.differs.chain] at hold
      obtain ⟨hlast, hnil⟩ := hold.append
      have hnext := hfirst link tl rfl
      have hhead : B.roots.headD 0 = link := by
        cases hpre : (nonzero pre).getLast? with
        | none =>
          rw [hpre] at hnext
          exact (hnil (List.getLast?_eq_none_iff.mp hpre)).symm.trans hnext
        | some c =>
          rw [hpre] at hnext
          exact (hlast c hpre).symm.trans hnext
      cases hroots : B.roots with
      | nil =>
        rw [hroots] at hhead
        exact hlink hhead.symm
      | cons b gone =>
        rw [hroots] at hhead hdiffers
        exact hdiffers (congrArg some hhead)
  · intro hnew
    obtain ⟨link, hlink, hexp⟩ := List.any_eq_true.mp hany
    have hcount : 0 < extdesc.sb.sBlocksCount := UInt32.lt_of_le_of_lt UInt32.zero_le (hpointers s).1
    have hlt := hnew.lt (hpointers s).1 (fun b => (hpointers b).2) link
      (mem_nonzero_of_expired hcount hlink hexp)
    rw [expiredLink, decide_eq_true_iff] at hexp
    exact UInt32.not_le.mpr hlt hexp

end Relink

def firstLink (link : UInt8) : Buf := fun i => if i = 0 then link else 0

theorem links_firstLink (link : UInt8) :
    links hundredBlocks (firstLink link) = link.toUInt32 :: List.replicate 255 0 := by
  have hcount : (hundredBlocks.edBlockSize >>> 2).toNat = 255 + 1 := rfl
  have hrest : (fun i => readui32le (firstLink link) (4 * i)) ∘ Nat.succ = fun _ => 0 := by
    funext i
    simp [readui32le, firstLink]
  have hfirst : readui32le (firstLink link) (4 * 0) = link.toUInt32 := by
    simp [readui32le, firstLink]
  rw [links, hcount, List.range_succ_eq_map, List.map_cons, List.map_map, hrest, List.map_const',
    List.length_range, hfirst]

theorem nonzero_replicate (k : ℕ) : nonzero (List.replicate k 0) = [] := by
  simp [nonzero]

theorem expired_replicate (k : ℕ) :
    (List.replicate k (0 : UInt32)).any (expiredLink hundredBlocks) = false := by
  have hzero : expiredLink hundredBlocks 0 = false := by decide
  rw [List.any_eq_false]
  intro link hlink
  rw [List.eq_of_mem_replicate hlink, hzero]
  exact Bool.false_ne_true

theorem twoInodes_tracked : twoInodes.Tracked := by
  refine ⟨twoInodes_owned, fun b hb => ?_, fun b => ?_, fun n hn => ?_⟩
  · rw [twoInodes_owner] at hb
    simp only [twoInodes]
    grind
  · simp only [twoInodes, SBlock.blank]
    split_ifs <;> decide
  · simp only [twoInodes] at hn ⊢
    grind

theorem twoInodes_linked : twoInodes.Linked (twoInodes.bh 6) (.node 7 .nil .nil) := by
  simp [Linked, Forest.Rep, PartitionData.bh, PartitionData.sib, twoInodes]

theorem twoInodes_pointers : twoInodes.PointersBelow hundredBlocks.sb.sBlocksCount := by
  intro b
  simp only [PartitionData.bh, PartitionData.sib, twoInodes, SBlock.blank]
  split_ifs <;> decide

theorem chainCut_replicate (k : ℕ) :
    ChainCut twoInodes (twoInodes.bh 6) (List.replicate k 0) (List.replicate k 0) [] .nil (.node 7 .nil .nil) := by
  refine ⟨twoInodes_linked, ⟨(List.append_nil _).symm, ?_, ?_⟩⟩
  · rw [nonzero_replicate]
    rfl
  · rintro _ _ ⟨⟩

theorem firstLink_newKids :
    newKids hundredBlocks twoInodes 6 [] (links hundredBlocks (firstLink 8)) (.node 7 .nil .nil) =
      .node ⟨8, 0, 12⟩ .nil .nil := by
  have hnone : ∀ link ∈ (8 : UInt32) :: List.replicate 255 0, (!expiredLink hundredBlocks link) = true := by
    intro link hlink
    rw [List.mem_cons, List.mem_replicate] at hlink
    obtain rfl | ⟨-, rfl⟩ := hlink <;> decide
  have hlevel : (twoInodes.blist 6).sbLevel.toNat - 1 = 0 := rfl
  have hlinks : links hundredBlocks (firstLink 8) = 8 :: List.replicate 255 0 := links_firstLink 8
  rw [newKids, hlevel, hlinks, mappedKids, List.takeWhile_eq_self_iff.mpr hnone,
    linkForest_cons (by decide), linkForest_replicate]
  rfl

theorem firstLink_mirrorable :
    KidsMirrorable hundredBlocks twoInodes 6 [7] (links hundredBlocks (firstLink 8)) []
      (links hundredBlocks (firstLink 8)) := by
  have hexpired : (8 :: List.replicate 255 0).any (expiredLink hundredBlocks) = false := by
    rw [List.any_cons, expired_replicate]
    decide
  have hlinks : links hundredBlocks (firstLink 8) = 8 :: List.replicate 255 0 := links_firstLink 8
  rw [hlinks]
  refine ⟨fun _ => ⟨?_, ?_⟩, fun h => absurd (hexpired.symm.trans h) Bool.false_ne_true⟩
  · rw [nonzero, List.filter_cons_of_pos (by decide)]
    rintro ⟨⟩
  · rintro i link ⟨⟩

end SBlktrace
