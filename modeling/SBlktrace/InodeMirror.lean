import SBlktrace.RootLinking
import Mathlib

namespace SBlktrace

open Function Forest PartitionData

section Copy

variable {extdesc : ExtDesc} {p p' : PartitionData} {n : UInt32} {version : UInt16} {fuel : ℕ}

theorem recurCopyBlock_keeps {b count : UInt32} {ok : Bool} {copied : PartitionData × UInt32 × Bool}
    (hcopy : recurCopyBlock extdesc n version fuel b count ok p = some copied) : CopyKeeps p copied.1 := by
  induction fuel generalizing b count ok p copied with
  | zero => cases hcopy
  | succ fuel ih =>
    rw [recurCopyBlock] at hcopy
    by_cases hzero : b = 0
    · rw [if_pos hzero] at hcopy
      cases hcopy
      exact .refl p
    rw [if_neg hzero] at hcopy
    dsimp only at hcopy
    by_cases hlevel : (p.blist b).sbLevel ≠ 0
    · rw [if_pos hlevel] at hcopy
      obtain ⟨kids, hkids, hnext⟩ := Option.bind_eq_some_iff.mp hcopy
      exact (ih hkids).trans (ih hnext)
    · rw [if_neg hlevel] at hcopy
      cases hdata : p.dataCache b with
      | none =>
        rw [hdata] at hcopy
        exact ih hcopy
      | some data =>
        rw [hdata] at hcopy
        exact (writeToTmpfs_keeps _ _ _ _ _).trans (ih hcopy)

theorem copyInode_keeps (hcopy : copyInode extdesc fuel n p = some p') : CopyKeeps p p' := by
  rw [copyInode] at hcopy
  by_cases hzero : (p.ilist n).siBh ≠ 0
  · rw [if_pos hzero] at hcopy
    obtain ⟨⟨p₁, count, ok⟩, hblocks, hrest⟩ := Option.bind_eq_some_iff.mp hcopy
    obtain ⟨hblist, hilist, hcache⟩ := recurCopyBlock_keeps hblocks
    dsimp only at hrest
    by_cases hok : ok = true
    · rw [if_pos hok] at hrest
      split at hrest <;> cases hrest <;> exact ⟨hblist, hilist, hcache⟩
    · rw [if_neg hok] at hrest
      cases hrest
      exact ⟨hblist, hilist, hcache⟩
  · rw [if_neg hzero] at hcopy
    cases hcopy
    exact .refl p

theorem copyRegular_keeps (hcopy : copyRegular extdesc fuel n (p, true) = some p') : CopyKeeps p p' := by
  rw [copyRegular] at hcopy
  by_cases hregular : inodeIsregular (p.ilist n).siMode = true
  · rw [if_pos hregular] at hcopy
    exact copyInode_keeps hcopy
  · rw [if_neg hregular] at hcopy
    cases hcopy
    exact .refl p

end Copy

structure InodeMirror (extdesc : ExtDesc) (p' : PartitionData) (n : UInt32) (inode : ExtInode)
    (old : List UInt32) : Prop where
  siMode : (p'.ilist n).siMode = inode.iMode
  siSize : (p'.ilist n).siSize = inode.iSize
  siCtime : (p'.ilist n).siCtime = inode.iCtime
  siMtime : (p'.ilist n).siMtime = inode.iMtime
  blocks : ChainMirror p' n (p'.ilist n).siBh iBlockLevel (diffOffset extdesc) old (List.ofFn inode.iBlock)

def inodeUnchanged (sinode : SInode) (inode : ExtInode) (oinode : Option ExtInode) : Bool :=
  (oinode.any fun oinode => equalInodeTime oinode inode && equalInodeBlocks oinode inode) ||
    equalSinodeInodeTime sinode inode

def iBlocksUnchanged (sinode : SInode) (inode : ExtInode) (oinode : Option ExtInode) : Bool :=
  (oinode.any fun oinode => equalInodeBlocks oinode inode) || equalSinodeInodeBlocks sinode inode

def MapsBlocks (p : PartitionData) (n : UInt32) (inode : ExtInode) (oinode : Option ExtInode) : Prop :=
  (p.ilist n).siMode ≠ 0 →
    inodeUnchanged (p.ilist n) inode oinode = false ∧ iBlocksUnchanged (p.ilist n) inode oinode = false

/-- When `diff_inode` does what it should: what it leaves as it is was as it should be. -/
structure InodeMirrorable (extdesc : ExtDesc) (p : PartitionData) (n : UInt32) (inode : ExtInode)
    (oinode : Option ExtInode) (old pre : List UInt32) : Prop where
  unchanged : (p.ilist n).siMode ≠ 0 → inodeUnchanged (p.ilist n) inode oinode = true →
    InodeMirror extdesc p n inode old
  blocksUnchanged : (p.ilist n).siMode ≠ 0 → inodeUnchanged (p.ilist n) inode oinode = false →
    iBlocksUnchanged (p.ilist n) inode oinode = true →
      ChainMirror p n (p.ilist n).siBh iBlockLevel (diffOffset extdesc) old (List.ofFn inode.iBlock)
  mapped : MapsBlocks p n inode oinode →
    ChainKept p iBlockLevel (diffOffset extdesc) old (List.ofFn inode.iBlock) pre

/-- Linking the blocks that differ changes none of the others, once those of before are unmapped. What is
unmapped from another inode is none of them. -/
def InodeOrderly (extdesc : ExtDesc) (p : PartitionData) (n : UInt32) (ls pre rest : List UInt32)
    (B : Forest UInt32) : Prop :=
  Orderly (p.unmapped (B.keys id))
    (fun a => (p.unmapped (B.keys id)).owner a.block = n ∨
      a ∉ (iBlockForest extdesc (p.unmapped (B.keys id)) n rest pre.length).roots ∧
        Descends (p.unmapped (B.keys id)) n a)
    (nonzero pre ++ B.roots.filter (· ∉ ls))
    (iBlockForest extdesc (p.unmapped (B.keys id)) n rest pre.length)

/-- No block that is taken from another inode is above one that cached contents named before. -/
def InodeEnds (extdesc : ExtDesc) (p : PartitionData) (n : UInt32) (pre rest : List UInt32)
    (B : Forest UInt32) : Prop :=
  RootsEnd (p.unmapped (B.keys id)) n [] (iBlockForest extdesc (p.unmapped (B.keys id)) n rest pre.length)

/-- The blocks that cached contents name are blank or the inode's, and no block that is linked lies below
one that stays. -/
structure NamesOwn (extdesc : ExtDesc) (p : PartitionData) (n : UInt32) (pre rest : List UInt32)
    (A B : Forest UInt32) : Prop where
  clean : Clean (p.unmapped (B.keys id)) n
    (iBlockForest extdesc (p.unmapped (B.keys id)) n rest pre.length).underRoots
  apart : ∀ b ∈ A.keys id, b ∉ (iBlockForest extdesc (p.unmapped (B.keys id)) n rest pre.length).blocks

def ChainEnds (p : PartitionData) (h : UInt32) : Prop :=
  ∃ K : Forest UInt32, p.Linked h K ∧ K.nodes.length ≤ 2 ^ 32

theorem PartitionData.Tracked.chainEnds {p : PartitionData} {n : UInt32} (h : p.Tracked) (hn : n ≠ 0) :
    ChainEnds p (p.ilist n).siBh := by
  obtain ⟨F, hF⟩ := h.forest n hn
  exact ⟨F, hF.linked, nodes_le_of_nodup hF.nodup⟩

section Mapped

variable {extdesc : ExtDesc} {p : PartitionData} {n : UInt32} {inode : ExtInode}
  {oinode : Option ExtInode} {ls pre rest : List UInt32} {A B : Forest UInt32} {fuel : ℕ}

theorem linkNext_sinode (q : PartitionData) {current : Option UInt32} {link : UInt32} :
    (q.linkNext n none current link).ilist n =
      { q.ilist n with siBh := ((q.linkNext n none current link).ilist n).siBh } := by
  cases current with
  | some c => rfl
  | none =>
    change update q.ilist n { q.ilist n with siBh := link } n =
      { q.ilist n with siBh := (update q.ilist n { q.ilist n with siBh := link } n).siBh }
    rw [update_self]

theorem diffLinks_zeros (hpre : nonzero pre = []) (rest : List UInt32) (i : ℕ) (current : Option UInt32) :
    diffLinks extdesc fuel n (pre ++ rest) i current p =
      diffLinks extdesc fuel n rest (i + pre.length) current p := by
  induction pre generalizing i with
  | nil => rfl
  | cons link pre ih =>
    have hindex : i + (pre.length + 1) = i + 1 + pre.length := by omega
    have hzero : link = 0 := by
      by_contra hlink
      simp [nonzero, hlink] at hpre
    subst hzero
    rw [List.cons_append, diffLinks, if_neg (not_not_intro rfl), List.length_cons, hindex]
    exact ih (by simpa [nonzero] using hpre) (i + 1)

theorem bh_linkNext (q : PartitionData) {current : Option UInt32} {link b : UInt32} :
    (q.linkNext n none current link).bh b = q.bh b := by
  cases current with
  | some c =>
    change (update q.blist c { q.blist c with sbSib := link } b).sbBh = (q.blist b).sbBh
    by_cases hb : b = c
    · rw [hb, update_self]
    · rw [update_of_ne hb]
  | none => rfl

theorem ChainCut.nextLink_unmapped (hchain : Chain p n (p.ilist n).siBh (A.append B))
    (hcut : ChainCut p (p.ilist n).siBh ls pre rest A B) :
    (p.unmapped (B.keys id)).nextLink n none (nonzero pre).getLast? = B.roots.headD 0 := by
  have hroots := SibChain.roots hcut.linked
  rw [hcut.differs.chain] at hroots
  obtain ⟨hlast, hnil⟩ := hroots.append
  cases hcurrent : (nonzero pre).getLast? with
  | none => exact hnil (List.getLast?_eq_none_iff.mp hcurrent)
  | some c =>
    rw [← hlast c hcurrent]
    apply congrArg SBlock.sbSib
    exact blist_unmapped_of_notMem (hchain.disjoint c (hcut.mem_keys c (List.mem_of_getLast? hcurrent)))

theorem ChainCut.headD_eq_zero {h : UInt32} (hcut : ChainCut p h ls pre rest A B)
    (heq : (nonzero rest).headD 0 = B.roots.headD 0) : (nonzero rest).headD 0 = 0 := by
  cases rest with
  | nil => rfl
  | cons link tl =>
    obtain ⟨hlink, hdiffers⟩ := hcut.differs.differs link tl rfl
    have hhead : (nonzero (link :: tl)).headD 0 = link := by simp [nonzero, hlink]
    rw [hhead] at heq
    cases hB : B.roots with
    | nil =>
      rw [hB] at heq
      exact absurd heq hlink
    | cons b gone =>
      rw [hB] at heq hdiffers
      exact absurd (congrArg some heq.symm) hdiffers

theorem Links.chainEnds {p' : PartitionData} {F : Forest BlockNode} {clean : Prop}
    (hchain : Chain p n (p.ilist n).siBh (A.append B))
    (hcut : ChainCut p (p.ilist n).siBh ls pre rest A B)
    (hlinks : Links extdesc (p.unmapped (B.keys id)) p' n none (nonzero pre).getLast?
      (nonzero pre ++ B.roots.filter (· ∉ ls)) F clean)
    (hsib : SibChain p'.sib (p'.nextLink n none (nonzero pre).getLast?) (nonzero rest))
    (hclean : clean) (hapart : ∀ b ∈ A.keys id, b ∉ F.blocks) (hF : F.blocks.Nodup) :
    ChainEnds p' (p'.ilist n).siBh := by
  have hpreA := hcut.mem_keys
  obtain ⟨G, hG, hsub⟩ := hlinks.finite hclean fun heq => by
    rw [← heq, hsib.head_eq]
    rw [hsib.head_eq, hcut.nextLink_unmapped hchain] at heq
    exact hcut.headD_eq_zero heq
  have hnodup := hchain.nodup
  rw [keys_append] at hnodup
  have hnodupA := (List.nodup_append.mp hnodup).1
  obtain ⟨K, hK, hsub'⟩ : ∃ K, p'.Linked (p'.ilist n).siBh K ∧
      (K.keys id).Sublist (A.keys id ++ G.keys id) := by
    apply exists_linked_relinked hcut.linked hnodupA
    · intro b hb
      rw [hcut.roots] at hb
      have hkept := hlinks.kept b (List.mem_append_left _ hb)
      have hbh := @bh_linkNext n (p.unmapped (B.keys id)) (nonzero pre).getLast?
        (p'.nextLink n none (nonzero pre).getLast?) b
      rw [bh, hkept, ← bh, hbh, bh, blist_unmapped_of_notMem (hchain.disjoint b (hpreA b hb)), ← bh]
    · intro b hb hnot
      apply (Left.unmapped p (B.keys id) b).trans
      apply hlinks.left b
      rw [List.mem_append, List.mem_append, not_or, not_or, ← hcut.roots]
      refine ⟨⟨hnot, fun hin => hchain.disjoint b hb ?_⟩, hapart b hb⟩
      rw [keys_id]
      exact (roots_sublist B).subset (List.mem_of_mem_filter hin)
    · intro b hb hne
      rw [hcut.roots] at hb hne
      have hstay := hlinks.stay (List.mem_append_left _ hb) hne (by rintro - ⟨⟩)
      rw [blist_unmapped_of_notMem (hchain.disjoint b (hpreA b hb))] at hstay
      exact congrArg SBlock.sbSib hstay
    · intro c hc
      rw [hcut.roots] at hc
      rw [hc] at hG
      exact hG
    · intro hne
      obtain ⟨c, hc⟩ := last_isSome hne
      rw [last_eq_getLast?, hcut.roots] at hc
      rw [hlinks.ilist, hc]
      rfl
    · rintro rfl
      have hnone : (nonzero pre).getLast? = none := by
        rw [← hcut.roots]
        rfl
      rw [hnone] at hG
      exact hG
  refine ⟨K, hK, nodes_le_of_nodup (hsub'.nodup ?_)⟩
  refine List.nodup_append.mpr ⟨hnodupA, hsub.nodup hF, ?_⟩
  rintro b hb c hc rfl
  exact hapart b hb (hsub.subset hc)

theorem PartitionData.Tracked.kin (h : p.Tracked) {l : List UInt32} (hl : ∀ b ∈ l, p.owner b = n) (a b : UInt32)
    (ha : ¬OwnOrFree (p.unmapped l) n a) (hb : (p.unmapped l).Below a b) :
    (p.unmapped l).owner b = (p.unmapped l).owner a := by
  rw [OwnOrFree, not_or] at ha
  have hal : a ∉ l := by
    intro hin
    rw [owner_unmapped, if_pos hin] at ha
    exact ha.2 rfl
  have hkept : (p.unmapped l).owner a = p.owner a := by
    rw [owner_unmapped, if_neg hal]
  rw [hkept] at ha ⊢
  obtain ⟨K, hK, hin⟩ := hb
  obtain ⟨F, hF⟩ := h.forest _ ha.2
  obtain ⟨K', hchain, -, -⟩ := hF.kids ((hF.mem_iff a).mpr rfl)
  obtain ⟨K'', hK'', hsub⟩ := exists_linked_of_left hchain.linked (fun b _ => Left.unmapped p l b) (.inl rfl)
  rw [bh, blist_unmapped_of_notMem hal] at hK
  obtain rfl := Rep.unique hK hK''
  have howner := hchain.owner b (hsub.subset hin)
  rw [owner_unmapped, if_neg]
  · exact howner
  · exact fun hbl => ha.1 (howner.symm.trans (hl b hbl))

theorem RootsEnd.of_clean (hfree : ∀ b, p.owner b = 0 → p.blist b = .blank)
    (hkin : ∀ a b, ¬OwnOrFree p n a → p.Below a b → p.owner b = p.owner a) {X : List UInt32}
    {F : Forest BlockNode} (hX : ∀ b ∈ X, OwnOrFree p n b) (hF : Clean p n F.underRoots) : RootsEnd p n X F := by
  induction F generalizing X with
  | nil => exact trivial
  | node a kids rest _ ih =>
    obtain ⟨⟨-, hkids⟩, hrest⟩ := hF.of_underRoots
    refine ⟨fun hother b hb hbelow => ?_, ih (List.forall_mem_append.mpr ⟨hX, ?_⟩) hrest⟩
    · by_cases hzero : p.owner a.block = 0
      · refine absurd hbelow (not_below_of_bh ?_)
        rw [bh, hfree a.block hzero]
        rfl
      · have hout : ¬OwnOrFree p n a.block := not_or.mpr ⟨hother, hzero⟩
        have hown := hX b hb
        rw [OwnOrFree, hkin _ b hout hbelow] at hown
        exact hout hown
    · exact hkids.ownOrFree (.refl n p)

theorem NamesOwn.ends (hnames : NamesOwn extdesc p n pre rest A B) (h : p.Tracked)
    (hB : ∀ b ∈ B.keys id, p.owner b = n) : InodeEnds extdesc p n pre rest B :=
  .of_clean (fun b => blank_unmapped h.blank _) (h.kin hB) (by rintro b ⟨⟩) hnames.clean

theorem ChainCut.rootState (hchain : Chain p n (p.ilist n).siBh (A.append B))
    (hcut : ChainCut p (p.ilist n).siBh ls pre rest A B) :
    RootState (p.unmapped (B.keys id)) (p.unmapped (B.keys id)) n (nonzero pre).getLast?
      (nonzero pre ++ B.roots.filter (· ∉ ls)) [] [] pre.length := by
  have hpre : ∀ b ∈ nonzero pre, (p.unmapped (B.keys id)).owner b = n :=
    fun b hb => hchain.kept b (hcut.mem_keys b hb)
  have hrun : RootRun (p.unmapped (B.keys id)) n (nonzero pre).getLast? [] :=
    ⟨by rintro c ⟨⟩, rfl, List.nodup_nil, fun hnil => absurd rfl hnil⟩
  refine ⟨fun b _ => Left.refl _ b, .refl _ _, hrun, List.nil_subset _, Nat.zero_le _, fun c hc => ?_,
    fun b hb => .inl ?_⟩
  · have hmem := List.mem_of_getLast? hc
    exact ⟨List.mem_append_left _ hmem, hpre c hmem⟩
  · obtain hb | hb := List.mem_append.mp hb
    · exact .inl (hpre b hb)
    · have hmem : b ∈ B.keys id := by
        rw [keys_id]
        exact (roots_sublist B).subset (List.mem_of_mem_filter hb)
      rw [OwnOrFree, owner_unmapped, if_pos hmem]
      exact .inr rfl

theorem diffLinks_relinked (h : p.Tracked) (hn : n ≠ 0) (hcut : ChainCut p (p.ilist n).siBh ls pre rest A B)
    (horder : InodeOrderly extdesc p n ls pre rest B) (hlen : ls.length = 15)
    (hrange : ∀ link ∈ ls, link < extdesc.sb.sBlocksCount) (hsome : rest = [] → nonzero pre ≠ [])
    (hfuel : 2 ^ 33 + 19 < fuel) :
    Yields (diffLinks extdesc fuel n rest pre.length (nonzero pre).getLast? (p.unmapped (B.keys id)))
      (InodeEnds extdesc p n pre rest B) fun r => r.2 = true ∧ ∃ siBh,
        r.1.ilist n = { p.ilist n with siBh := siBh } ∧
        Relinked p r.1 n siBh iBlockLevel (diffOffset extdesc) ls pre rest B ∧
        (NamesOwn extdesc p n pre rest A B → ChainEnds r.1 siBh) := by
  obtain ⟨F, hF⟩ := h.forest n hn
  obtain rfl := Rep.unique hF.linked hcut.linked
  have hchain : Chain p n (p.nextLink n none none) (A.append B) :=
    ⟨hF.linked, hF.nodup, fun b hb => (hF.mem_iff b).mp hb⟩
  have hB : ∀ b ∈ B.keys id, p.owner b = n := by
    intro b hb
    apply hchain.owner
    rw [keys_append]
    exact List.mem_append_right _ hb
  have ht : (p.unmapped (B.keys id)).Treelike := h.treelike.left (Left.unmapped p _)
  have hls := hcut.differs.links
  have hstate := hcut.rootState hchain
  have hrun := diffLinks_links ht (fun b => blank_unmapped h.blank _) (h.kin hB) hn hfuel rest
    (by rw [← hlen, hls, List.length_append]) (fun link hlink => hrange link (by
      rw [hls]
      exact List.mem_append_right _ hlink)) (fun a _ ha => .inl ha)
    (fun a ha hdescends => .inr ⟨notMem_roots_of_underRoots (List.Nodup.of_map _ horder.nodup) ha, hdescends⟩)
    hstate horder
  refine hrun.mono id ?_
  rintro ⟨p', ok⟩ ⟨hok, hroots, hthreaded, hsib⟩
  have hlinks := hroots.links fun b hb =>
    (hstate.covers b hb).resolve_right (not_or.mpr ⟨List.not_mem_nil, List.not_mem_nil⟩)
  have hilist : p'.ilist n = { p.ilist n with siBh := (p'.ilist n).siBh } := by
    rw [hlinks.ilist]
    exact linkNext_sinode (p.unmapped (B.keys id))
  refine ⟨hok, p'.nextLink n none none, hilist, ?_, fun hnames => ?_⟩
  · apply hlinks.relinked hchain hcut _ (fun b hb => List.mem_append_left _ hb) _ hsome
    · intro i link hi hlink
      exact hthreaded.placed _ (mem_roots_linkForest hlink hi pre.length)
    · exact hsib
    · rintro s ⟨⟩
    · intro b hb hnot
      apply List.mem_append_right
      simp [hb, hnot]
  · exact hlinks.chainEnds hchain hcut (hsib (hcut.last_ne_none hsome)) hnames.clean hnames.apart
      horder.nodup

theorem keepLinks_iBlocks (hcut : ChainCut p (p.ilist n).siBh ls pre rest A B)
    (hrange : ∀ link ∈ ls, link < extdesc.sb.sBlocksCount) :
    keepLinks p.blist (fun link => link ≠ 0 ∧ extdesc.sb.sBlocksCount ≤ link) ls 0 (p.ilist n).siBh none =
      some (pre.length, rest, (nonzero pre).getLast?, if rest = [] then none else B.roots.head?) := by
  have hnone : (pre ++ rest.take 1).any
      (fun link => decide (link ≠ 0 ∧ extdesc.sb.sBlocksCount ≤ link)) = false := by
    rw [List.any_eq_false]
    intro link hlink
    have hmem : link ∈ ls := by
      rw [hcut.differs.links]
      rw [List.mem_append] at hlink ⊢
      exact hlink.imp_right List.mem_of_mem_take
    rw [decide_eq_true_iff]
    exact fun hexpired => UInt32.not_le.mpr (hrange link hmem) hexpired.2
  rw [keepLinks_eq (SibChain.roots hcut.linked) hcut.differs, hnone, if_neg Bool.false_ne_true,
    Option.or_none, Nat.zero_add]

abbrev diffBlocks (extdesc : ExtDesc) (fuel : ℕ) (n : UInt32) (pre rest : List UInt32) (ocurrent : Option UInt32)
    (p : PartitionData) : Option (PartitionData × Bool) :=
  (unmapSiblings fuel (fun _ => n) (oldBlock p.blist (nonzero pre).getLast? ocurrent) p).bind
    (diffLinks extdesc fuel n rest pre.length (nonzero pre).getLast?)

theorem diffBlocks_mirrors (h : p.Tracked) (hn : n ≠ 0) (hcut : ChainCut p (p.ilist n).siBh ls pre rest A B)
    (horder : InodeOrderly extdesc p n ls pre rest B) (hlen : ls.length = 15)
    (hrange : ∀ link ∈ ls, link < extdesc.sb.sBlocksCount) (hfuel : 2 ^ 33 + 19 < fuel) :
    Yields (diffBlocks extdesc fuel n pre rest (if rest = [] then none else B.roots.head?) p)
      (InodeEnds extdesc p n pre rest B) fun r => r.2 = true ∧ ∃ siBh,
        r.1.ilist n = { p.ilist n with siBh := siBh } ∧
        (ChainMirror r.1 n siBh iBlockLevel (diffOffset extdesc) (A.append B).roots ls ↔
          ChainKept p iBlockLevel (diffOffset extdesc) (A.append B).roots ls pre) ∧
        (NamesOwn extdesc p n pre rest A B → ChainEnds r.1 siBh) := by
  have hroots := SibChain.roots hcut.linked
  obtain ⟨F, hF⟩ := h.forest n hn
  obtain rfl := Rep.unique hF.linked hcut.linked
  have hchain : Chain p n (p.ilist n).siBh (A.append B) :=
    ⟨hF.linked, hF.nodup, fun b hb => (hF.mem_iff b).mp hb⟩
  have hlength := nodes_le_of_nodup hchain.nodup
  rw [diffBlocks, oldBlock_eq hroots hcut.differs]
  by_cases hsame : rest = [] ∧ nonzero pre = []
  · obtain ⟨rfl, hnil⟩ := hsame
    obtain ⟨fuel, rfl⟩ := Nat.exists_eq_add_of_le' (show 1 ≤ fuel by omega)
    rw [if_pos ⟨rfl, hnil⟩, unmapSiblings, if_pos rfl, Option.bind_some, hnil]
    exact .of_some rfl ⟨rfl, (p.ilist n).siBh, rfl, hcut.mirror_iff hnil, fun _ => ⟨_, hcut.linked, hlength⟩⟩
  · have hsome : rest = [] → nonzero pre ≠ [] := fun hrest hnil => hsame ⟨hrest, hnil⟩
    rw [if_neg hsame, ← head_eq_headD, hchain.unmap hn h.leaf (fun _ _ => rfl) (by omega), Option.bind_some]
    refine (diffLinks_relinked h hn hcut horder hlen hrange hsome hfuel).mono id ?_
    rintro ⟨p', ok⟩ ⟨hok, siBh, hilist, hrelinked, hends⟩
    refine ⟨hok, siBh, hilist, hrelinked.mirror_iff hcut (fun b hb => ?_) hsome, hends⟩
    apply hchain.owner
    rw [keys_append]
    exact List.mem_append_left _ (hcut.mem_keys b hb)

theorem ChainMirror.congr {p' : PartitionData} {h : UInt32} {level : ℕ → ℕ} {offset : ℕ → UInt32}
    {old : List UInt32} (hmirror : ChainMirror p n h level offset old ls) (hblist : p'.blist = p.blist) :
    ChainMirror p' n h level offset old ls := by
  obtain ⟨hchain, hplaced, hunmapped⟩ := hmirror
  obtain ⟨blist, ilist, dataCache, globalVersion, tmpfs, queue⟩ := p'
  obtain rfl : blist = p.blist := hblist
  exact ⟨hchain, hplaced, hunmapped⟩

theorem InodeMirror.congr {p' : PartitionData} {old : List UInt32} (hmirror : InodeMirror extdesc p n inode old)
    (hblist : p'.blist = p.blist) (hilist : p'.ilist = p.ilist) : InodeMirror extdesc p' n inode old := by
  obtain ⟨hmode, hsize, hctime, hmtime, hblocks⟩ := hmirror
  rw [← hilist] at hmode hsize hctime hmtime hblocks
  exact ⟨hmode, hsize, hctime, hmtime, hblocks.congr hblist⟩

theorem mirror_setInode {p' : PartitionData} {old : List UInt32} {siBh : UInt32}
    (hilist : p'.ilist n = sinodeOf inode siBh) :
    InodeMirror extdesc p' n inode old ↔
      ChainMirror p' n siBh iBlockLevel (diffOffset extdesc) old (List.ofFn inode.iBlock) := by
  constructor
  · intro hmirror
    have hblocks := hmirror.blocks
    rw [hilist] at hblocks
    exact hblocks
  · intro hblocks
    constructor <;> rw [hilist] <;> first | rfl | exact hblocks

theorem ChainCut.setInode {sinode : SInode} (hcut : ChainCut p (p.ilist n).siBh ls pre rest A B)
    (hbh : sinode.siBh = (p.ilist n).siBh) :
    ChainCut (p.setInode n sinode) ((p.setInode n sinode).ilist n).siBh ls pre rest A B := by
  have hself : (p.setInode n sinode).ilist n = sinode := update_self _ _ _
  rw [hself, hbh]
  exact ⟨hcut.linked, hcut.differs⟩

theorem InodeOrderly.setInode (horder : InodeOrderly extdesc p n ls pre rest B) (sinode : SInode) :
    InodeOrderly extdesc (p.setInode n sinode) n ls pre rest B := ⟨horder.kept, horder.linked⟩

theorem InodeEnds.setInode (h : InodeEnds extdesc p n pre rest B) (sinode : SInode) :
    InodeEnds extdesc (p.setInode n sinode) n pre rest B := by
  have hsame : ∀ F X, RootsEnd (p.unmapped (B.keys id)) n X F →
      RootsEnd ((p.setInode n sinode).unmapped (B.keys id)) n X F := by
    intro F
    induction F with
    | nil => exact fun _ => id
    | node a kids rest _ ih => exact fun X h => ⟨h.1, ih _ h.2⟩
  exact hsame _ _ h

theorem NamesOwn.setInode (hnames : NamesOwn extdesc p n pre rest A B) (sinode : SInode) :
    NamesOwn extdesc (p.setInode n sinode) n pre rest A B := ⟨hnames.clean, hnames.apart⟩

theorem chainKept_setInode {level : ℕ → ℕ} {offset : ℕ → UInt32} {old : List UInt32} {sinode : SInode} :
    ChainKept (p.setInode n sinode) level offset old ls pre ↔ ChainKept p level offset old ls pre :=
  ⟨fun h => ⟨h.nonempty, h.placed⟩, fun h => ⟨h.nonempty, h.placed⟩⟩

theorem diffInode_mapped (h : p.Tracked) (hn : n ≠ 0) (hused : inode.iMode ≠ 0)
    (hcut : ChainCut p (p.ilist n).siBh (List.ofFn inode.iBlock) pre rest A B)
    (horder : InodeOrderly extdesc p n (List.ofFn inode.iBlock) pre rest B)
    (hrange : ∀ link ∈ List.ofFn inode.iBlock, link < extdesc.sb.sBlocksCount) (hfuel : 2 ^ 33 + 19 < fuel) :
    Yields (diffBlocks extdesc fuel n pre rest (if rest = [] then none else B.roots.head?)
        (p.setInode n (sinodeOf inode (p.ilist n).siBh)))
      (InodeEnds extdesc p n pre rest B) fun r =>
        (r.2 = true → (r.1.ilist n).siMode = inode.iMode) ∧
        (InodeMirror extdesc r.1 n inode (A.append B).roots ↔
          ChainKept p iBlockLevel (diffOffset extdesc) (A.append B).roots (List.ofFn inode.iBlock) pre) ∧
        (NamesOwn extdesc p n pre rest A B → ChainEnds r.1 (r.1.ilist n).siBh) := by
  have hset : (p.setInode n (sinodeOf inode (p.ilist n).siBh)).Tracked :=
    h.setInode rfl fun hzero => absurd hzero hused
  have hself : (p.setInode n (sinodeOf inode (p.ilist n).siBh)).ilist n =
      sinodeOf inode (p.ilist n).siBh := update_self _ _ _
  refine (diffBlocks_mirrors hset hn (hcut.setInode rfl) (horder.setInode _) List.length_ofFn hrange hfuel).mono
    (fun hends => hends.setInode _) ?_
  rintro ⟨p', ok⟩ ⟨-, siBh, hilist, hiff, hends⟩
  rw [hself] at hilist
  refine ⟨fun _ => ?_, ?_, fun hnames => ?_⟩
  · rw [hilist]
    rfl
  · rw [← chainKept_setInode, ← hiff]
    exact mirror_setInode hilist
  · rw [hilist]
    exact hends (hnames.setInode _)

theorem mirrorable_iff_kept {old : List UInt32} (hmaps : MapsBlocks p n inode oinode) :
    ChainKept p iBlockLevel (diffOffset extdesc) old (List.ofFn inode.iBlock) pre ↔
      InodeMirrorable extdesc p n inode oinode old pre := by
  refine ⟨fun hkept => ⟨fun hold hsame => ?_, fun hold _ hblocks => ?_, fun _ => hkept⟩, fun h => h.mapped hmaps⟩
  · exact absurd ((hmaps hold).1.symm.trans hsame) Bool.false_ne_true
  · exact absurd ((hmaps hold).2.symm.trans hblocks) Bool.false_ne_true

theorem diffInode_created (h : p.Tracked) (hold : (p.ilist n).siMode = 0)
    (hkind : (!inodeIsdir inode.iMode && !inodeIsregular inode.iMode) = false) (hused : inode.iMode ≠ 0)
    (hlive : inode.iDtime < inode.iCtime)
    (hcut : ChainCut p (p.ilist n).siBh (List.ofFn inode.iBlock) pre rest A B) (hfuel : 0 < fuel) :
    diffInode extdesc fuel n inode oinode p =
      (diffBlocks extdesc fuel n pre rest (if rest = [] then none else B.roots.head?)
        (p.setInode n (sinodeOf inode (p.ilist n).siBh))).bind (copyRegular extdesc fuel n) := by
  have hzero : (p.ilist n).siBh = 0 := h.unused n hold
  have hroots := SibChain.roots hcut.linked
  rw [hzero] at hroots ⊢
  have hnil : (A.append B).roots = [] := by
    cases hK : (A.append B).roots with
    | nil => rfl
    | cons b l =>
      rw [hK] at hroots
      exact absurd hroots.1.symm hroots.2.1
  have hcutnil := hcut.differs.chain
  rw [hnil, eq_comm, List.append_eq_nil_iff] at hcutnil
  have hlast : (nonzero pre).getLast? = none := by
    rw [hcutnil.1]
    rfl
  obtain ⟨fuel, rfl⟩ := Nat.exists_eq_add_of_le' hfuel
  rw [diffBlocks, hlast, hcutnil.2, List.head?_nil, ite_self, oldBlock, unmapSiblings, if_pos rfl, Option.bind_some]
  have hdiff := @diffLinks_zeros extdesc (p.setInode n (sinodeOf inode 0)) n pre (fuel + 1) hcutnil.1 rest 0 none
  rw [Nat.zero_add, ← hcut.differs.links] at hdiff
  rw [← hdiff]
  dsimp only [diffInode]
  rw [hkind]
  simp only [Bool.false_eq_true, if_false]
  rw [if_neg (not_not_intro hold), if_pos ⟨hlive, hused⟩]
  rfl

theorem diffInode_mirrors (h : p.Tracked) (hn : n ≠ 0)
    (hmode : inodeIsdir inode.iMode = true ∨ inodeIsregular inode.iMode = true)
    (hlive : inode.iDtime < inode.iCtime) (hrange : ∀ i, inode.iBlock i < extdesc.sb.sBlocksCount)
    (hcut : ChainCut p (p.ilist n).siBh (List.ofFn inode.iBlock) pre rest A B)
    (horder : MapsBlocks p n inode oinode → InodeOrderly extdesc p n (List.ofFn inode.iBlock) pre rest B)
    (hfuel : 2 ^ 33 + 19 < fuel) :
    ∃ run, diffInode extdesc fuel n inode oinode p = run.bind (copyRegular extdesc fuel n) ∧
      Yields run (MapsBlocks p n inode oinode → InodeEnds extdesc p n pre rest B) fun r =>
        (r.2 = true → (r.1.ilist n).siMode = inode.iMode) ∧
        (InodeMirror extdesc r.1 n inode (A.append B).roots ↔
          InodeMirrorable extdesc p n inode oinode (A.append B).roots pre) ∧
        ((MapsBlocks p n inode oinode → NamesOwn extdesc p n pre rest A B) →
          ChainEnds r.1 (r.1.ilist n).siBh) := by
  have hkind : (!inodeIsdir inode.iMode && !inodeIsregular inode.iMode) = false := by
    obtain hmode | hmode := hmode
    · rw [hmode]
      rfl
    · rw [hmode, Bool.not_true, Bool.and_false]
  have hused : inode.iMode ≠ 0 := by
    intro hzero
    rw [hzero] at hmode
    exact absurd hmode (by decide)
  have hgone : ¬(inode.iCtime ≤ inode.iDtime ∨ inode.iMode = 0) :=
    not_or.mpr ⟨UInt32.not_le.mpr hlive, hused⟩
  have hlinks : ∀ link ∈ List.ofFn inode.iBlock, link < extdesc.sb.sBlocksCount := by
    intro link hlink
    obtain ⟨i, rfl⟩ := List.mem_ofFn.mp hlink
    exact hrange i
  have hmapped : ∀ hmaps : MapsBlocks p n inode oinode,
      Yields (diffBlocks extdesc fuel n pre rest (if rest = [] then none else B.roots.head?)
          (p.setInode n (sinodeOf inode (p.ilist n).siBh)))
        (MapsBlocks p n inode oinode → InodeEnds extdesc p n pre rest B) fun r =>
          (r.2 = true → (r.1.ilist n).siMode = inode.iMode) ∧
          (InodeMirror extdesc r.1 n inode (A.append B).roots ↔
            InodeMirrorable extdesc p n inode oinode (A.append B).roots pre) ∧
          ((MapsBlocks p n inode oinode → NamesOwn extdesc p n pre rest A B) →
            ChainEnds r.1 (r.1.ilist n).siBh) := by
    intro hmaps
    refine (diffInode_mapped h hn hused hcut (horder hmaps) hlinks hfuel).mono (fun hends => hends hmaps) ?_
    rintro r ⟨hmode', hiff, hends⟩
    exact ⟨hmode', hiff.trans (mirrorable_iff_kept hmaps), fun hnames => hends (hnames hmaps)⟩
  by_cases hold : (p.ilist n).siMode = 0
  · exact ⟨_, diffInode_created h hold hkind hused hlive hcut (by omega), hmapped fun h => absurd hold h⟩
  dsimp only [diffInode]
  rw [hkind]
  simp only [Bool.false_eq_true, if_false]
  rw [if_pos hold, if_neg hgone]
  by_cases hsame : inodeUnchanged (p.ilist n) inode oinode = true
  · refine ⟨some (p, false), if_pos hsame, .of_some rfl ⟨?_, ⟨fun hmirror => ⟨fun _ _ => hmirror, fun _ hdiff => ?_,
      fun hmaps => ?_⟩, fun hmirrorable => hmirrorable.unchanged hold hsame⟩, fun _ => h.chainEnds hn⟩⟩
    · rintro ⟨⟩
    · exact absurd (hdiff.symm.trans hsame) Bool.false_ne_true
    · exact absurd ((hmaps hold).1.symm.trans hsame) Bool.false_ne_true
  rw [Bool.not_eq_true] at hsame
  by_cases hblocks : iBlocksUnchanged (p.ilist n) inode oinode = true
  · have hset : (p.setInode n (sinodeOf inode (p.ilist n).siBh)).ilist n =
        sinodeOf inode (p.ilist n).siBh := update_self _ _ _
    refine ⟨some (p.setInode n (sinodeOf inode (p.ilist n).siBh), true),
      (if_neg (Bool.eq_false_iff.mp hsame)).trans (if_pos hblocks), .of_some rfl ⟨fun _ => ?_, ?_, fun _ => ?_⟩⟩
    · rw [hset]
      rfl
    · rw [mirror_setInode hset]
      constructor
      · intro hmirror
        refine ⟨fun _ h' => absurd (hsame.symm.trans h') Bool.false_ne_true, fun _ _ _ => hmirror.congr rfl,
          fun hmaps => absurd ((hmaps hold).2.symm.trans hblocks) Bool.false_ne_true⟩
      · exact fun hmirrorable => (hmirrorable.blocksUnchanged hold hsame hblocks).congr rfl
    · rw [hset]
      exact h.chainEnds hn
  · rw [Bool.not_eq_true] at hblocks
    refine ⟨_, ?_, hmapped fun _ => ⟨hsame, hblocks⟩⟩
    apply (if_neg (Bool.eq_false_iff.mp hsame)).trans
    apply (if_neg (Bool.eq_false_iff.mp hblocks)).trans
    have hkeep : keepLinks (p.setInode n (sinodeOf inode (p.ilist n).siBh)).blist
        (fun link => link ≠ 0 ∧ extdesc.sb.sBlocksCount ≤ link) (List.ofFn inode.iBlock) 0
        (p.ilist n).siBh none = _ := keepLinks_iBlocks hcut hlinks
    rw [hkeep]
    exact (Option.bind_assoc _ _ _).symm

theorem copyRegular_yields {r : PartitionData × Bool} (hmode : r.2 = true → (r.1.ilist n).siMode = inode.iMode)
    (hfuel : 2 ^ 33 + 19 < fuel) :
    Yields (copyRegular extdesc fuel n r)
      (inodeIsregular inode.iMode = true → ChainEnds r.1 (r.1.ilist n).siBh) fun p' => CopyKeeps r.1 p' := by
  obtain ⟨p₁, ok⟩ := r
  cases ok with
  | false => exact .of_some rfl (.refl p₁)
  | true =>
    refine ⟨fun hends => ?_, fun p' => copyRegular_keeps⟩
    by_cases hregular : inodeIsregular inode.iMode = true
    · obtain ⟨K, hK, hlen⟩ := hends hregular
      obtain ⟨p', -, hcopy⟩ := @copyRegular_some p₁ n K extdesc hK
      exact ⟨p', hcopy fuel (by omega)⟩
    · refine ⟨p₁, ?_⟩
      rw [copyRegular, hmode rfl, if_neg hregular]

theorem diffInode_agrees (h : p.Tracked) (hn : n ≠ 0)
    (hmode : inodeIsdir inode.iMode = true ∨ inodeIsregular inode.iMode = true)
    (hlive : inode.iDtime < inode.iCtime) (hrange : ∀ i, inode.iBlock i < extdesc.sb.sBlocksCount)
    (hcut : ChainCut p (p.ilist n).siBh (List.ofFn inode.iBlock) pre rest A B)
    (horder : MapsBlocks p n inode oinode → InodeOrderly extdesc p n (List.ofFn inode.iBlock) pre rest B)
    (hfuel : 2 ^ 33 + 19 < fuel) :
    Yields (diffInode extdesc fuel n inode oinode p)
      ((MapsBlocks p n inode oinode → InodeEnds extdesc p n pre rest B) ∧
        (inodeIsregular inode.iMode = true → MapsBlocks p n inode oinode → NamesOwn extdesc p n pre rest A B))
      fun p' => (InodeMirror extdesc p' n inode (A.append B).roots ↔
        InodeMirrorable extdesc p n inode oinode (A.append B).roots pre) := by
  obtain ⟨run, hrun, hyields⟩ := diffInode_mirrors h hn hmode hlive hrange hcut horder hfuel
  rw [hrun]
  refine hyields.bind fun r ⟨hmode', hiff, hends⟩ => ?_
  refine (copyRegular_yields hmode' hfuel).mono (fun hnames hregular => hends (hnames hregular)) fun p' hkeeps => ?_
  rw [← hiff]
  exact ⟨fun hmirror => hmirror.congr hkeeps.blist.symm hkeeps.ilist.symm,
    fun hmirror => hmirror.congr hkeeps.blist hkeeps.ilist⟩

end Mapped

def laterFile (blocks : List UInt32) : ExtInode := { directFile blocks with iCtime := 2, iMtime := 2 }

theorem laterFile_mode (blocks : List UInt32) :
    inodeIsdir (laterFile blocks).iMode = true ∨ inodeIsregular (laterFile blocks).iMode = true := by
  have hregular : inodeIsregular 0x8000 = true := by decide
  exact Or.inr hregular

theorem laterFile_maps (n : UInt32) (blocks : List UInt32) : MapsBlocks twoInodes n (laterFile blocks) none :=
  fun _ => ⟨rfl, rfl⟩

theorem laterFile_iBlockForest :
    iBlockForest hundredBlocks (twoInodes.unmapped [8]) 3 (7 :: 6 :: List.replicate 13 0) 0 =
      .node ⟨7, 0, 0⟩ .nil (.node ⟨6, 0, 1⟩ .nil .nil) := by
  rw [iBlockForest, linkForest_cons (by decide), linkForest_cons (by decide), linkForest_replicate]
  rfl

end SBlktrace
