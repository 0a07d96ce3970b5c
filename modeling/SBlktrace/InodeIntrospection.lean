import SBlktrace.IntrospectionSteps
import Mathlib

namespace SBlktrace

open Function Forest PartitionData

section Steps

variable {p p' : PartitionData} {n m : UInt32} {F A B : Forest UInt32} {extdesc : ExtDesc}
  {rest : List UInt32} {j : ℕ}

theorem PartitionData.Owns.setInode (hF : p.Owns m F) {sinode : SInode}
    (hbh : sinode.siBh = (p.ilist n).siBh) : (p.setInode n sinode).Owns m F := by
  refine ⟨?_, hF.nodup, hF.mem_iff⟩
  change p.Linked (update p.ilist n sinode m).siBh F
  by_cases hm : m = n
  · subst hm
    rw [update_self, hbh]
    exact hF.linked
  · rw [update_of_ne hm]
    exact hF.linked

theorem PartitionData.Tracked.setInode (h : p.Tracked) {sinode : SInode}
    (hbh : sinode.siBh = (p.ilist n).siBh) (hmode : sinode.siMode = 0 → sinode.siBh = 0) :
    (p.setInode n sinode).Tracked := by
  refine ⟨⟨fun m hm => ?_, h.leaf⟩, h.blank, h.level, fun m hm => ?_⟩
  · obtain ⟨F, hF⟩ := h.forest m hm
    exact ⟨F, hF.setInode hbh⟩
  · change (update p.ilist n sinode m).siMode = 0 at hm
    change (update p.ilist n sinode m).siBh = 0
    by_cases hmn : m = n
    · subst hmn
      rw [update_self] at hm ⊢
      exact hmode hm
    · rw [update_of_ne hmn] at hm ⊢
      exact h.unused m hm

theorem PartitionData.Tracked.congr (h : p.Tracked) (hblist : p'.blist = p.blist)
    (hilist : p'.ilist = p.ilist) : p'.Tracked := by
  obtain ⟨blist, ilist, dataCache, globalVersion, tmpfs, queue⟩ := p'
  obtain rfl : blist = p.blist := hblist
  obtain rfl : ilist = p.ilist := hilist
  refine ⟨⟨fun n hn => ?_, h.leaf⟩, h.blank, h.level, h.unused⟩
  obtain ⟨F, hF⟩ := h.forest n hn
  exact ⟨F, hF.linked, hF.nodup, hF.mem_iff⟩

theorem removeSinode_tracked (h : p.Tracked) (hn : n ≠ 0) (hF : p.Owns n F) :
    ∃ p', p'.Tracked ∧ (p'.ilist n).siBh = 0 ∧
      ∀ fuel, 2 * F.nodes.length < fuel → removeSinode fuel n p = some p' := by
  refine ⟨_, ⟨h.removed hn hF { p.ilist n with siMode := 0, siSize := 0, siBh := 0 } rfl, ?_, ?_, ?_⟩, ?_,
    fun fuel hfuel => removeSinode_eq hF hn h.leaf hfuel⟩
  · exact fun b hb => blank_unmapped h.blank _ hb
  · intro b
    change ((p.unmapped (F.keys id)).blist b).sbLevel ≤ 3
    rw [blist_unmapped]
    split
    · exact UInt8.zero_le
    · exact h.level b
  · intro m hm
    change (update p.ilist n _ m).siMode = 0 at hm
    change (update p.ilist n _ m).siBh = 0
    by_cases hmn : m = n
    · rw [hmn, update_self]
    · rw [update_of_ne hmn] at hm ⊢
      exact h.unused m hm
  · change (update p.ilist n _ n).siBh = 0
    rw [update_self]

theorem copyRegular_some (hF : p.Linked (p.ilist n).siBh F) :
    ∃ p', CopyKeeps p p' ∧
      ∀ fuel, F.nodes.length < fuel → copyRegular extdesc fuel n (p, true) = some p' := by
  let place (b : UInt32) : BlockNode := ⟨b, (p.blist b).sbLevel, (p.blist b).sbOffset⟩
  have hfirst : (p.ilist n).siBh = (F.map place).first := by
    rw [hF.head_eq, Forest.first, head_map]
    rfl
  have hshows : Shows p (F.map place) := by
    have hrep := Rep.map place BlockNode.block hF
    rw [hfirst] at hrep
    refine ⟨hrep, fun a ha => ?_, fun a ha => ?_⟩
    · rw [nodes_map] at ha
      obtain ⟨b, -, rfl⟩ := List.mem_map.mp ha
      rfl
    · rw [nodes_map] at ha
      obtain ⟨b, -, rfl⟩ := List.mem_map.mp ha
      rfl
  by_cases hregular : inodeIsregular (p.ilist n).siMode = true
  · obtain ⟨p', hkeeps, hcopy⟩ := copyInode_some extdesc hshows hfirst
    refine ⟨p', hkeeps, fun fuel hfuel => ?_⟩
    rw [copyRegular, if_pos hregular]
    apply hcopy
    rw [nodes_map, List.length_map]
    exact hfuel
  · refine ⟨p, .refl p, fun fuel _ => ?_⟩
    rw [copyRegular, if_neg hregular]

theorem copyRegular_tracked (h : p.Tracked) (hF : p.Owns n F) :
    ∃ p', p'.Tracked ∧ ∀ fuel, F.nodes.length < fuel → copyRegular extdesc fuel n (p, true) = some p' := by
  obtain ⟨p', hkeeps, hcopy⟩ := copyRegular_some hF.linked
  exact ⟨p', h.congr hkeeps.blist hkeeps.ilist, hcopy⟩

theorem diffLinks_tracked (h : p.Tracked) (hn : n ≠ 0) (hused : (p.ilist n).siMode ≠ 0)
    (hF : p.Owns n (A.append B)) (hlen : j + rest.length ≤ 15)
    (hfree : (p.unmapped (B.keys id)).Free
      (mappedIBlocks extdesc (p.unmapped (B.keys id)).dataCache rest j)) :
    ∃ p', p'.Tracked ∧ Ends (fun fuel =>
      (diffLinks extdesc fuel n rest j A.last
        ((p.unmapped (B.keys id)).linkNext n none A.last 0)).bind (copyRegular extdesc fuel n)) p' := by
  have hchain : Chain p n (p.ilist n).siBh (A.append B) :=
    ⟨hF.linked, hF.nodup, fun b hb => (hF.mem_iff b).mp hb⟩
  have hattach := hfree.attachable n none A.last
    (fun b => blank_unmapped h.blank _) (hchain.last_owner hn) (by rintro s ⟨⟩)
  obtain ⟨howns, htracked⟩ := h.graftInode hn hused hF hfree (mappedIBlocks_leveled hlen)
    (zero_notMem_linkForest (fun _ _ => zero_notMem_blockKids _ _ _) _ _)
  have hlinks : ∀ fuel, 3 < fuel →
      diffLinks extdesc fuel n rest j A.last ((p.unmapped (B.keys id)).linkNext n none A.last 0) = _ :=
    fun fuel hfuel => diffLinks_cached hfuel rest j hlen (attached_dataCache .nil) hattach
  rw [attached_linkNext] at hlinks
  generalize grafted A (mappedIBlocks extdesc (p.unmapped (B.keys id)).dataCache rest j) = F' at howns
  by_cases hexpired : rest.any (expiredIBlock extdesc) = true
  · obtain ⟨p', hp', -, hremove⟩ := removeSinode_tracked htracked hn howns
    refine ⟨p', hp', 2 * F'.nodes.length + 3, fun fuel hfuel => ?_⟩
    dsimp only
    rw [hlinks fuel (by omega), if_pos hexpired, hremove fuel (by omega)]
    rfl
  · obtain ⟨p', hp', hcopy⟩ := @copyRegular_tracked _ _ _ extdesc htracked howns
    refine ⟨p', hp', F'.nodes.length + 3, fun fuel hfuel => ?_⟩
    dsimp only
    rw [hlinks fuel (by omega), if_neg hexpired, Option.bind_some]
    exact hcopy fuel (by omega)

end Steps

def InodeFree (extdesc : ExtDesc) (inodeid : UInt32) (inode : ExtInode) (oinode : Option ExtInode)
    (p : PartitionData) : Prop :=
  let inode :=
    if !inodeIsdir inode.iMode && !inodeIsregular inode.iMode then { inode with iMode := 0 } else inode
  let sinode := p.ilist inodeid
  inode.iDtime < inode.iCtime → inode.iMode ≠ 0 →
    if sinode.siMode ≠ 0 then
      ¬ ((oinode.any fun oinode => equalInodeTime oinode inode && equalInodeBlocks oinode inode) ||
          equalSinodeInodeTime sinode inode) = true →
        ¬ ((oinode.any fun oinode => equalInodeBlocks oinode inode) ||
            equalSinodeInodeBlocks sinode inode) = true →
          CutFree (expiredIBlock extdesc) (mappedIBlocks extdesc) (List.ofFn inode.iBlock) sinode.siBh p
    else p.Free (mappedIBlocks extdesc p.dataCache (List.ofFn inode.iBlock) 0)

section Diff

variable {p : PartitionData} {n : UInt32} {F : Forest UInt32} {extdesc : ExtDesc}

theorem PartitionData.Free.setInode {G : Forest BlockNode} (hfree : p.Free G) (sinode : SInode) :
    (p.setInode n sinode).Free G := ⟨hfree.nodup, hfree.owner⟩

theorem CutFree.setInode {expired : UInt32 → Bool}
    {forest : (UInt32 → Option Buf) → List UInt32 → ℕ → Forest BlockNode} {ls : List UInt32} {h : UInt32}
    (hfree : CutFree expired forest ls h p) (sinode : SInode) :
    CutFree expired forest ls h (p.setInode n sinode) := by
  intro j rest current ocurrent old hkeep hold
  obtain ⟨hnodup, howner⟩ := hfree j rest current ocurrent old hkeep hold
  exact ⟨hnodup, howner⟩

theorem diffBlocks_tracked (h : p.Tracked) (hn : n ≠ 0) (hused : (p.ilist n).siMode ≠ 0)
    (hF : p.Owns n F) {ls : List UInt32} (hlen : ls.length = 15)
    (hfree : CutFree (expiredIBlock extdesc) (mappedIBlocks extdesc) ls (p.ilist n).siBh p) :
    ∃ p', p'.Tracked ∧ Ends (fun fuel =>
      match keepLinks p.blist (expiredIBlock extdesc) ls 0 (p.ilist n).siBh none with
      | none => removeSinode fuel n p
      | some (i, rest, current, ocurrent) =>
        (unmapSiblings fuel (fun _ => n) (oldBlock p.blist current ocurrent) p).bind fun p =>
          (diffLinks extdesc fuel n rest i current p).bind (copyRegular extdesc fuel n)) p' := by
  cases hkeep : keepLinks p.blist (expiredIBlock extdesc) ls 0 (p.ilist n).siBh none with
  | none =>
    obtain ⟨p', hp', -, hremove⟩ := removeSinode_tracked h hn hF
    exact ⟨p', hp', 2 * F.nodes.length, hremove⟩
  | some cut =>
    obtain ⟨j, rest, current, ocurrent⟩ := cut
    obtain ⟨rfl, rfl, rfl⟩ | ⟨A, B, rfl, rfl, hold, hrest, hnil, hfirst, hforest⟩ :=
      hfree.cut hF.linked (fun _ _ tl j hlink hexpired => mem_mappedIBlocks hlink hexpired tl j) hkeep
    · obtain ⟨p', hp', hcopy⟩ := @copyRegular_tracked _ _ _ extdesc h hF
      refine ⟨p', hp', F.nodes.length, fun fuel hfuel => ?_⟩
      obtain ⟨fuel, rfl⟩ := Nat.exists_eq_add_of_lt hfuel
      dsimp only
      rw [oldBlock, unmapSiblings, if_pos rfl, Option.bind_some, diffLinks, endChain, Option.bind_some]
      exact hcopy _ hfuel
    · have hchain : Chain p n (p.ilist n).siBh (A.append B) :=
        ⟨hF.linked, hF.nodup, fun b hb => (hF.mem_iff b).mp hb⟩
      obtain ⟨p', hp', bound, hends⟩ := diffLinks_tracked h hn hused hF (by omega) hforest
      refine ⟨p', hp', bound + 2 * (A.append B).nodes.length, fun fuel hfuel => ?_⟩
      dsimp only
      rw [hold, hchain.unmap hn h.leaf (fun _ _ => rfl) (by omega), Option.bind_some,
        diffLinks_relink hnil hfirst]
      exact hends fuel (by omega)

theorem diffInode_tracked (h : p.Tracked) (hn : n ≠ 0) {inode : ExtInode} {oinode : Option ExtInode}
    (hfree : InodeFree extdesc n inode oinode p) :
    ∃ p', p'.Tracked ∧ Ends (fun fuel => diffInode extdesc fuel n inode oinode p) p' := by
  obtain ⟨F, hF⟩ := h.forest n hn
  rw [InodeFree] at hfree
  dsimp only [diffInode] at hfree ⊢
  generalize (if (!inodeIsdir inode.iMode && !inodeIsregular inode.iMode) = true then
    { inode with iMode := 0 } else inode) = inode at hfree ⊢
  by_cases hused : (p.ilist n).siMode ≠ 0
  · simp only [if_pos hused] at hfree ⊢
    by_cases hgone : inode.iCtime ≤ inode.iDtime ∨ inode.iMode = 0
    · simp only [if_pos hgone]
      obtain ⟨p', hp', hbh, hremove⟩ := removeSinode_tracked h hn hF
      refine ⟨p'.setInode n { p'.ilist n with siDtime := inode.iDtime }, hp'.setInode rfl fun _ => hbh,
        2 * F.nodes.length, fun fuel hfuel => ?_⟩
      dsimp only
      rw [hremove fuel hfuel]
      rfl
    simp only [if_neg hgone]
    rw [not_or, UInt32.not_le] at hgone
    by_cases hsame : ((oinode.any fun oinode => equalInodeTime oinode inode && equalInodeBlocks oinode inode) ||
        equalSinodeInodeTime (p.ilist n) inode) = true
    · simp only [if_pos hsame]
      exact ⟨p, h, 0, fun _ _ => rfl⟩
    simp only [if_neg hsame]
    have hset : (p.setInode n (sinodeOf inode (p.ilist n).siBh)).Tracked :=
      h.setInode rfl fun hzero => absurd hzero hgone.2
    have hself : (p.setInode n (sinodeOf inode (p.ilist n).siBh)).ilist n =
        sinodeOf inode (p.ilist n).siBh := update_self _ _ _
    have hF' : (p.setInode n (sinodeOf inode (p.ilist n).siBh)).Owns n F := hF.setInode rfl
    by_cases hblocks : ((oinode.any fun oinode => equalInodeBlocks oinode inode) ||
        equalSinodeInodeBlocks (p.ilist n) inode) = true
    · simp only [if_pos hblocks]
      obtain ⟨p', hp', hcopy⟩ := @copyRegular_tracked _ _ _ extdesc hset hF'
      exact ⟨p', hp', F.nodes.length, hcopy⟩
    · simp only [if_neg hblocks]
      have hcut := hfree hgone.1 hgone.2 hsame hblocks
      have hdiff := @diffBlocks_tracked _ n F extdesc hset hn (by rw [hself]; exact hgone.2) hF'
        (List.ofFn inode.iBlock) List.length_ofFn (by rw [hself]; exact hcut.setInode _)
      rw [hself] at hdiff
      exact hdiff
  · simp only [if_neg hused] at hfree ⊢
    by_cases hnew : inode.iDtime < inode.iCtime ∧ inode.iMode ≠ 0
    · simp only [if_pos hnew]
      rw [not_not] at hused
      have hzero : (p.ilist n).siBh = 0 := h.unused n hused
      have hF₀ : F = .nil := by
        have hlinked := hF.linked
        rw [hzero] at hlinked
        cases F with
        | nil => rfl
        | node a kids rest => exact absurd hlinked.1.symm hlinked.2.1
      subst hF₀
      have hset : (p.setInode n (sinodeOf inode 0)).Tracked :=
        h.setInode hzero.symm fun hzero => absurd hzero hnew.2
      have hself : (p.setInode n (sinodeOf inode 0)).ilist n = sinodeOf inode 0 := update_self _ _ _
      have hF' : (p.setInode n (sinodeOf inode 0)).Owns n (Forest.nil.append .nil) :=
        hF.setInode hzero.symm
      have hdiff := @diffLinks_tracked _ n .nil .nil extdesc (List.ofFn inode.iBlock) 0 hset hn
        (by rw [hself]; exact hnew.2) hF' (by rw [List.length_ofFn])
        (by rw [keys_nil, unmapped_nil]; exact (hfree hnew.1 hnew.2).setInode _)
      have hlink : (p.setInode n (sinodeOf inode 0)).linkNext n none none 0 =
          p.setInode n (sinodeOf inode 0) := by
        have hnext := linkNext_self (p.setInode n (sinodeOf inode 0)) n none none
        have hbh : (p.setInode n (sinodeOf inode 0)).nextLink n none none = 0 := congrArg SInode.siBh hself
        rw [hbh] at hnext
        exact hnext
      rw [keys_nil, unmapped_nil, last, hlink] at hdiff
      exact hdiff
    · simp only [if_neg hnew]
      exact ⟨p, h, 0, fun _ _ => rfl⟩

end Diff

end SBlktrace
