import SBlktrace.ForeignUnmap
import SBlktrace.IndirectMirror
import SBlktrace.InodeIntrospection
import Mathlib

namespace Forest

variable {α : Type}

def underRoots : Forest α → Forest α
  | nil => nil
  | node _ kids rest => kids.append rest.underRoots

theorem underRoots_sublist (F : Forest α) : F.underRoots.nodes.Sublist F.nodes := by
  induction F with
  | nil => exact List.Sublist.refl []
  | node a kids rest _ ih =>
    rw [underRoots, nodes_append, nodes]
    exact ((List.Sublist.refl _).append ih).cons a

theorem notMem_roots_of_underRoots {F : Forest α} (h : F.nodes.Nodup) {a : α} (ha : a ∈ F.underRoots.nodes) :
    a ∉ F.roots := by
  induction F with
  | nil => exact List.not_mem_nil
  | node b kids rest _ ih =>
    rw [nodes] at h
    obtain ⟨hb, h⟩ := List.nodup_cons.mp h
    obtain ⟨-, hrest, hdisjoint⟩ := List.nodup_append.mp h
    rw [underRoots, nodes_append, List.mem_append] at ha
    rw [roots, List.mem_cons, not_or]
    constructor
    · rintro rfl
      exact hb (List.mem_append.mpr (ha.imp_right fun ha => (underRoots_sublist rest).subset ha))
    · obtain ha | ha := ha
      · exact fun hin => hdisjoint a ha a ((roots_sublist rest).subset hin) rfl
      · exact ih hrest ha

end Forest

namespace SBlktrace

open Function Forest PartitionData

structure Yields {α : Type} (run : Option α) (ends : Prop) (post : α → Prop) : Prop where
  ends : ends → ∃ r, run = some r
  post : ∀ r, run = some r → post r

section Yields

variable {α β : Type} {run : Option α} {ends ends' : Prop} {post post' : α → Prop} {r : α}

theorem Yields.of_some (h : run = some r) (hpost : post r) : Yields run ends post := by
  refine ⟨fun _ => ⟨r, h⟩, fun r' h' => ?_⟩
  rw [h] at h'
  obtain rfl := Option.some.inj h'
  exact hpost

theorem Yields.bind {next : α → Option β} {left : β → Prop} (h : Yields run ends post)
    (hnext : ∀ r, post r → Yields (next r) ends' left) : Yields (run.bind next) (ends ∧ ends') left := by
  constructor
  · rintro ⟨hends, hends'⟩
    obtain ⟨r, hr⟩ := h.ends hends
    obtain ⟨r', hr'⟩ := (hnext r (h.post r hr)).ends hends'
    exact ⟨r', by rw [hr, Option.bind_some, hr']⟩
  · intro r' hr'
    obtain ⟨r, hr, hrest⟩ := Option.bind_eq_some_iff.mp hr'
    exact (hnext r (h.post r hr)).post r' hrest

theorem Yields.mono (h : Yields run ends post) (hends : ends' → ends) (hpost : ∀ r, post r → post' r) :
    Yields run ends' post' :=
  ⟨fun h' => h.ends (hends h'), fun r hr => hpost r (h.post r hr)⟩

end Yields

/-- What is mapped below a block that an inode links: nothing, where the block is unmapped first. -/
abbrev topKids (extdesc : ExtDesc) (p : PartitionData) (n : UInt32) (level : ℕ) (link o : UInt32) :
    Forest BlockNode :=
  if p.owner link = 0 then cachedKids extdesc (p.othersCache n) level link o else .nil

abbrev iBlockForest (extdesc : ExtDesc) (p : PartitionData) (n : UInt32) (ls : List UInt32) (i : ℕ) :
    Forest BlockNode :=
  linkForest (topKids extdesc p n) iBlockLevel (diffOffset extdesc) ls i

abbrev OwnOrFree (q : PartitionData) (n b : UInt32) : Prop := q.owner b = n ∨ q.owner b = 0

/-- Blocks were linked to the inode in place of its chain's end; the inode's blocks that were linked
before stay, whatever other inode the blocks belonged to. -/
structure RootLinks (extdesc : ExtDesc) (q q' : PartitionData) (n : UInt32) (current : Option UInt32)
    (T : List UInt32) (F : Forest BlockNode) (clean : Prop) : Prop where
  kept : ∀ b ∈ T, OwnOrFree q n b →
    q'.blist b = (q.linkNext n none current (q'.nextLink n none current)).blist b
  ilist : q'.ilist = (q.linkNext n none current (q'.nextLink n none current)).ilist
  left : ∀ b ∉ T ++ F.blocks, Left q q' b
  pointers : q.PointersBelow extdesc.sb.sBlocksCount → q'.PointersBelow extdesc.sb.sBlocksCount
  taken : Taken n q q'
  finite : clean →
    (q'.nextLink n none current = q.nextLink n none current → q.nextLink n none current = 0) →
    ∃ K : Forest UInt32, q'.Linked (q'.nextLink n none current) K ∧ (K.keys id).Sublist F.blocks

structure RootUnmapped (p q q' : PartitionData) (n : UInt32) (T : List UInt32) (link : UInt32) : Prop where
  left : ∀ b, Left q q' b
  kept : ∀ b ∈ T, OwnOrFree q n b → q'.blist b = q.blist b
  ilist : q'.ilist = q.ilist
  blank : q'.blist link = .blank
  uncached : p.owner link ≠ 0 → q'.dataCache link = none

structure RootRun (q : PartitionData) (n : UInt32) (current : Option UInt32) (L : List UInt32) : Prop where
  owner : ∀ c ∈ L, q.owner c = n
  chain : SibChain q.sib (L.headD 0) L
  nodup : L.Nodup
  last : L ≠ [] → current = L.getLast?

def RootsEnd (p : PartitionData) (n : UInt32) : List UInt32 → Forest BlockNode → Prop
  | _, .nil => True
  | X, .node a kids rest =>
    (p.owner a.block ≠ n → ∀ b ∈ X, ¬p.Below a.block b) ∧ RootsEnd p n (X ++ kids.blocks) rest

section Roots

variable {extdesc : ExtDesc} {p q q₁ q₂ q' : PartitionData} {n m link b : UInt32} {current : Option UInt32}
  {descends : BlockNode → Prop} {T L X : List UInt32} {a : BlockNode} {kids rest F : Forest BlockNode}
  {clean clean' : Prop} {fuel i : ℕ}

theorem Taken.ownOrFree (h : Taken n q q') (hb : OwnOrFree q n b) : OwnOrFree q' n b := by
  obtain howner | hnew := h.owner b
  · rw [OwnOrFree, howner]
    exact hb
  · exact hnew

theorem RootLinks.links (h : RootLinks extdesc q q' n current T F clean) (hT : ∀ b ∈ T, OwnOrFree q n b) :
    Links extdesc q q' n none current T F clean :=
  ⟨fun b hb => h.kept b hb (hT b hb), h.ilist, h.left, h.pointers, h.taken, h.finite⟩

theorem Links.roots (h : Links extdesc q q' n none current T F clean) :
    RootLinks extdesc q q' n current T F clean :=
  ⟨fun b hb _ => h.kept b hb, h.ilist, h.left, h.pointers, h.taken, h.finite⟩

theorem RootLinks.mono (h : RootLinks extdesc q q' n current T F clean) (hclean : clean' → clean) :
    RootLinks extdesc q q' n current T F clean' :=
  ⟨h.kept, h.ilist, h.left, h.pointers, h.taken, fun hc => h.finite (hclean hc)⟩

theorem unmapRoot (ht : p.Treelike) (hfree : ∀ b, p.owner b = 0 → p.blist b = .blank)
    (hfuel : 2 ^ 33 + 19 < fuel) (hnot : link ∉ T) (hbelow : p.owner link = n → ∀ b ∈ T, ¬p.Below link b)
    (hleft : ∀ b ∉ T, Left p q b) (htaken : Taken n p q) :
    Yields (if (q.blist link).sbInode ≠ 0 then unmapBlock fuel link (q.blist link).sbInode q else some q)
      (p.owner link ≠ n → ∀ b ∈ T, p.Below link b → Passed (p.owner link) q b)
      fun q₁ => RootUnmapped p q q₁ n T link := by
  have hlink := hleft link hnot
  have hleaves : q.LeavesEnd := htaken.leaves ht.leaf
  by_cases hzero : q.owner link = 0
  · have hblank : q.blist link = .blank ∧ (p.owner link ≠ 0 → q.dataCache link = none) := by
      by_cases howner : p.owner link = 0
      · exact ⟨hlink.blank (hfree link howner), fun h => absurd howner h⟩
      · have hgone := hlink.unmapped_of_owner fun hsame => howner (hsame.trans hzero)
        exact ⟨hgone.1, fun _ => hgone.2⟩
    exact .of_some (if_neg (not_not_intro hzero))
      ⟨Left.refl q, fun _ _ _ => rfl, rfl, hblank.1, hblank.2⟩
  have howner : p.owner link = q.owner link :=
    (hlink.owner.resolve_right hzero).symm
  by_cases hown : q.owner link = n
  · obtain ⟨q₁, hq₁, hleft₁, hsame₁, hilist₁, hgone⟩ :=
      (unmapBlock_unmaps ht (show 2 ^ 33 + 1 < fuel by omega)).own hnot (hbelow (howner.trans hown)) hleft
    rw [howner] at hgone
    exact .of_some hq₁ ⟨hleft₁, fun b hb _ => hsame₁ b hb, hilist₁, (hgone hzero).1, fun _ => (hgone hzero).2⟩
  · rw [howner]
    change Yields (if q.owner link ≠ 0 then unmapBlock fuel link (q.owner link) q else some q) _ _
    rw [if_pos hzero]
    constructor
    · intro hends
      refine unmapBlock_ends hzero ht hlink hleaves (fun b hb => ?_) hfuel
      by_cases hT : b ∈ T
      · exact .inr (hends hown b hT hb)
      · exact .inl (hleft b hT)
    · intro q₁ hq₁
      obtain ⟨hgone, hblank⟩ := (unmap_gone hzero fuel).1 link q q₁ hleaves hq₁
      refine ⟨hgone.left, fun b _ hb => (hgone.same ?_).1, hgone.ilist, (hblank rfl).1, fun _ => (hblank rfl).2⟩
      rintro heq
      obtain hb | hb := hb
      · exact hown (heq.symm.trans hb)
      · exact hzero (heq.symm.trans hb)

theorem RootUnmapped.cons (hroot : RootUnmapped p q q₁ n T a.block)
    (h : Linking extdesc q₁ q₂ n none current T a kids clean)
    (h' : RootLinks extdesc q₂ q' n (some a.block) (T ++ a.block :: kids.blocks) rest clean')
    (hcurrent : ∀ c, current = some c → c ∈ T ∧ q.owner c = n) (ha : a.block ∉ T) (hne : a.block ≠ 0)
    (hkids : a.block ∉ kids.blocks) (hclean : clean → ∀ b ∈ kids.blocks, OwnOrFree q₂ n b) :
    RootLinks extdesc q q' n current T (.node a kids rest) (clean ∧ clean') ∧
      q'.nextLink n none current = a.block ∧
      ((q'.blist a.block).sbLevel = a.level ∧ (q'.blist a.block).sbOffset = a.offset ∧
        (q'.blist a.block).sbInode = n) := by
  have hparent : ∀ s, (none : Option UInt32) = some s → s ∈ T := by
    rintro s ⟨⟩
  have htaken : Taken n q q₂ := (Taken.of_left hroot.left n).trans h.taken
  have hlinked : ∀ b ∈ T, OwnOrFree q n b → q₂.blist b = (q.linkNext n none current a.block).blist b := by
    intro b hb hown
    rw [h.kept b hb]
    have hmem : ∀ c, c ∈ T → OwnOrFree q n c → c ∈ T.filter (OwnOrFree q n ·) := by
      intro c hc hown
      exact List.mem_filter.mpr ⟨hc, decide_eq_true hown⟩
    refine linkNext_congr (T := T.filter (OwnOrFree q n ·)) (by rintro s ⟨⟩)
      (fun c hc => hmem c (hcurrent c hc).1 (.inl (hcurrent c hc).2)) (fun c hc => ?_) _ (hmem b hb hown)
    obtain ⟨hc, hown⟩ := List.mem_filter.mp hc
    exact hroot.kept c hc (of_decide_eq_true hown)
  have hsame : ∀ b ∈ T ++ a.block :: kids.blocks, b ≠ a.block → OwnOrFree q₂ n b →
      q'.blist b = q₂.blist b := by
    intro b hb hba hown
    rw [h'.kept b hb hown]
    exact update_of_ne hba _ _
  have hT : ∀ b ∈ T, OwnOrFree q n b → q'.blist b = q₂.blist b := by
    intro b hb hown
    refine hsame b (List.mem_append_left _ hb) ?_ (htaken.ownOrFree hown)
    rintro rfl
    exact ha hb
  have hilist : q'.ilist = q₂.ilist := h'.ilist
  have hnext : q'.nextLink n none current = a.block := by
    rw [nextLink_congr (by rintro s ⟨⟩)
      (fun c hc => hT c (hcurrent c hc).1 (.inl (hcurrent c hc).2)) hilist]
    exact h.nextLink hparent fun c hc => (hcurrent c hc).1
  have hself : q'.blist a.block = { q₂.blist a.block with sbSib := q'.sib a.block } := by
    rw [h'.kept a.block (List.mem_append_right _ List.mem_cons_self) (.inl h.placed.2.2)]
    exact update_self _ _ _
  refine ⟨⟨fun b hb hown => ?_, ?_, fun b hb => ?_,
    fun hp => h'.pointers (h.pointers (pointersBelow_of_left hroot.left hp)), htaken.trans h'.taken, ?_⟩,
    hnext, ?_⟩
  · rw [hnext, hT b hb hown, hlinked b hb hown]
  · rw [hnext, hilist, h.ilist]
    exact linkNext_ilist hroot.ilist _
  · rw [blocks, keys_node] at hb
    have hb' : b ∉ (T ++ a.block :: kids.blocks) ++ rest.blocks := by
      rw [List.append_assoc, List.cons_append]
      exact hb
    exact ((hroot.left b).trans (h.left b fun hin => hb' (List.mem_append_left _ hin))).trans (h'.left b hb')
  · intro hc _
    obtain ⟨hsib, K, hK, hsub⟩ := h.finite hc.1
    obtain ⟨G, hG, hsub'⟩ := h'.finite hc.2 fun _ => hsib
    refine ⟨.node a.block K G, ⟨hnext, hne, ?_, hG⟩, ?_⟩
    · have hbh : q'.bh a.block = q₂.bh a.block := by
        rw [bh, hself]
        rfl
      rw [id, hbh]
      refine Linked.congr hK fun b hb => ?_
      have hb' := hsub.subset hb
      refine hsame b (List.mem_append_right _ (List.mem_cons_of_mem _ hb')) ?_ (hclean hc.1 b hb')
      rintro rfl
      exact hkids hb'
    · rw [blocks, keys_node, keys_node]
      exact (hsub.append hsub').cons_cons _
  · rw [hself]
    exact h.placed

theorem SibChain.after {sib : UInt32 → UInt32} {h : UInt32} {l : List UInt32} (hchain : SibChain sib h l)
    (hb : b ∈ l) : ∃ l', SibChain sib (sib b) l' ∧ l'.Sublist l := by
  induction l generalizing h with
  | nil => cases hb
  | cons c l ih =>
    obtain ⟨-, -, hrest⟩ := hchain
    obtain rfl | hb := List.mem_cons.mp hb
    · exact ⟨l, hrest, List.sublist_cons_self b l⟩
    · obtain ⟨l', hl', hsub⟩ := ih hrest hb
      exact ⟨l', hl', hsub.cons c⟩

theorem RootRun.passed (h : RootRun q n current L) (hm : m ≠ n) (hlen : L.length ≤ 15) (hb : b ∈ L) :
    Passed m q b := by
  have hother : ∀ c ∈ L, q.owner c ≠ m := by
    intro c hc
    rw [h.owner c hc]
    exact hm.symm
  obtain ⟨l, hl, hsub⟩ := h.chain.after hb
  exact ⟨hother b hb, l, hl, hsub.length_le.trans hlen, fun c hc => hother c (hsub.subset hc)⟩

theorem RootRun.next (h : RootRun q n current L) (hroot : RootUnmapped p q q₁ n T a.block)
    (hlinking : Linking extdesc q₁ q₂ n none current T a kids clean) (hL : L ⊆ T) (ha : a.block ∉ T)
    (hne : a.block ≠ 0) : RootRun q₂ n (some a.block) (L ++ [a.block]) := by
  have hlinked : ∀ c ∈ L, q₂.blist c = (q₁.linkNext n none current a.block).blist c :=
    fun c hc => hlinking.kept c (hL hc)
  have hkept : ∀ c ∈ L, q₁.blist c = q.blist c :=
    fun c hc => hroot.kept c (hL hc) (.inl (h.owner c hc))
  have hend : SibChain q₂.sib a.block [a.block] := by
    refine ⟨rfl, hne, ?_⟩
    have hzero : q₁.sib a.block = 0 := by
      rw [sib, hroot.blank]
      rfl
    exact hlinking.sib.elim (fun hsib => hsib.trans hzero) id
  have hnot : a.block ∉ L := fun hin => ha (hL hin)
  refine ⟨fun c hc => ?_, ?_, ?_, fun _ => by rw [List.getLast?_append]; rfl⟩
  · obtain hc | hc := List.mem_append.mp hc
    · have howner := congrArg SBlock.sbInode (hlinked c hc)
      rw [← PartitionData.owner, ← PartitionData.owner, owner_linkNext, PartitionData.owner, PartitionData.owner,
        hkept c hc] at howner
      exact howner.trans (h.owner c hc)
    · obtain rfl := List.mem_singleton.mp hc
      exact hlinking.placed.2.2
  · have hchain := h.chain
    rw [← List.append_nil L] at hchain
    refine hchain.relink h.nodup (fun c hc hlast => ?_) (fun c hc => ?_) (fun hL => ?_) fun hL => ?_
    · rw [sib, hlinked c hc, linkNext_blist, hkept c hc]
      · rfl
      · rintro d hd rfl
        have hne' : L ≠ [] := List.ne_nil_of_mem hc
        exact hlast ((h.last hne').symm.trans hd)
      · rintro s - ⟨⟩
    · have hcL := List.mem_of_getLast? hc
      have hne' : L ≠ [] := List.ne_nil_of_mem hcL
      have hnext : q₂.sib c = a.block := by
        rw [sib, hlinked c hcL, (h.last hne').trans hc]
        change (update q₁.blist c { q₁.blist c with sbSib := a.block } c).sbSib = a.block
        rw [update_self]
      rw [hnext]
      exact hend
    · cases L with
      | nil => exact absurd rfl hL
      | cons c L => simp
    · rw [hL]
      exact hend
  · refine List.nodup_append.mpr ⟨h.nodup, List.nodup_singleton _, ?_⟩
    rintro c hc d hd rfl
    obtain rfl := List.mem_singleton.mp hd
    exact hnot hc

structure RootState (p q : PartitionData) (n : UInt32) (current : Option UInt32) (T X L : List UInt32)
    (i : ℕ) : Prop where
  left : ∀ b ∉ T, Left p q b
  taken : Taken n p q
  run : RootRun q n current L
  sub : L ⊆ T
  length : L.length ≤ i
  current : ∀ c, current = some c → c ∈ T ∧ q.owner c = n
  covers : ∀ b ∈ T, OwnOrFree p n b ∨ b ∈ L ∨ b ∈ X

theorem RootState.next (h : RootState p q n current T X L i) (hroot : RootUnmapped p q q₁ n T a.block)
    (hlinking : Linking extdesc q₁ q₂ n none current T a kids clean) (ha : a.block ∉ T) (hne : a.block ≠ 0) :
    RootState p q₂ n (some a.block) (T ++ a.block :: kids.blocks) (X ++ kids.blocks) (L ++ [a.block])
      (i + 1) := by
  refine ⟨fun b hb => ?_, ?_, h.run.next hroot hlinking h.sub ha hne, ?_, ?_, ?_, fun b hb => ?_⟩
  · have hT : b ∉ T := fun hin => hb (List.mem_append_left _ hin)
    exact ((h.left b hT).trans (hroot.left b)).trans (hlinking.left b hb)
  · exact (h.taken.trans (.of_left hroot.left n)).trans hlinking.taken
  · intro b hb
    obtain hb | hb := List.mem_append.mp hb
    · exact List.mem_append_left _ (h.sub hb)
    · obtain rfl := List.mem_singleton.mp hb
      exact List.mem_append_right _ List.mem_cons_self
  · rw [List.length_append, List.length_singleton]
    exact Nat.succ_le_succ h.length
  · rintro c ⟨⟩
    exact ⟨List.mem_append_right _ List.mem_cons_self, hlinking.placed.2.2⟩
  · rw [List.mem_append, List.mem_cons] at hb
    rw [List.mem_append, List.mem_append, List.mem_singleton]
    obtain hb | rfl | hb := hb
    · exact (h.covers b hb).imp_right (Or.imp .inl .inl)
    · exact .inr (.inl (.inr rfl))
    · exact .inr (.inr (.inr hb))

theorem othersCache_of_free (hn : n ≠ 0) (hfree : p.owner b = 0) : p.othersCache n b = p.dataCache b := by
  rw [othersCache, if_neg]
  rw [hfree]
  exact hn.symm

theorem Clean.of_underRoots (h : Clean p n (Forest.node a kids rest).underRoots) :
    (True ∧ Clean p n kids) ∧ Clean p n rest.underRoots := by
  rw [Clean, underRoots, blocks, keys_append] at h
  exact ⟨⟨trivial, fun b hb => h b (List.mem_append_left _ hb)⟩,
    fun b hb => h b (List.mem_append_right _ hb)⟩

theorem Clean.ownOrFree (h : Clean p n F) (htaken : Taken n p q) : ∀ b ∈ F.blocks, OwnOrFree q n b := by
  intro b hb
  refine htaken.ownOrFree ?_
  obtain hblank | howner := h b hb
  · rw [OwnOrFree, PartitionData.owner, hblank]
    exact .inr rfl
  · exact .inl howner

theorem Orderly.mono {descends' : BlockNode → Prop} (h : Orderly p descends T F)
    (hdescends : ∀ a ∈ F.nodes, descends' a → descends a) : Orderly p descends' T F := by
  have hdisturbs : ∀ a ∈ F.nodes, ∀ b, Disturbs p descends' a b → Disturbs p descends a b :=
    fun a ha b => Or.imp_right (And.imp_left (hdescends a ha))
  refine ⟨fun a ha b hb hd => h.kept a ha b hb (hdisturbs a ha b hd), ?_⟩
  exact h.linked.imp_of_mem fun _ hb hnot hd => hnot (hdisturbs _ hb _ hd)

theorem RootUnmapped.linking (hroot : RootUnmapped p q q₁ n T link) (ht : p.Treelike)
    (hfree : ∀ b, p.owner b = 0 → p.blist b = .blank) (hn : n ≠ 0) (hfuel : 2 ^ 33 + 19 < fuel)
    (hi : i < 15) (hstate : RootState p q n current T X L i) (hrange : link < extdesc.sb.sBlocksCount)
    (hnot : link ∉ T) (hbelow : Orderly p (Descends p n) (T ++ [link])
      (topKids extdesc p n (iBlockLevel i) link (diffOffset extdesc i))) :
    ∃ q₂, mapLinked (remapBlock extdesc n fuel) link (diffOffset extdesc i)
        ((q₁.linkNext n none current link).setBlock link
          { (q₁.linkNext n none current link).blist link with
            sbLevel := UInt8.ofNat (iBlockLevel i), sbInode := n }) = some q₂ ∧
      Linking extdesc q₁ q₂ n none current T
        ⟨link, UInt8.ofNat (iBlockLevel i), diffOffset extdesc i⟩
        (topKids extdesc p n (iBlockLevel i) link (diffOffset extdesc i))
        (True ∧ Clean p n (topKids extdesc p n (iBlockLevel i) link (diffOffset extdesc i))) := by
  have hlevel : iBlockLevel i ≤ 3 := iBlockLevel_le hi
  have hlink : Left p q₁ link := (hstate.left link hnot).trans (hroot.left link)
  have hfreed : q₁.dataCache link ≠ none → p.owner link = 0 := by
    intro hcached
    by_contra howner
    exact hcached (hroot.uncached howner)
  have hwalk : UInt8.ofNat (iBlockLevel i) ≠ 0 → q₁.dataCache link ≠ none → ∀ b ∈ T, ¬p.Below link b := by
    intro _ hcached b _
    apply not_below_of_bh
    rw [bh, hfree link (hfreed hcached)]
    rfl
  have hremap : iBlockLevel i ≠ 0 → ∀ buf, q₁.dataCache link = some buf →
      Remaps extdesc p (Descends p n) n (iBlockLevel i) link (diffOffset extdesc i) buf
        (topKids extdesc p n (iBlockLevel i) link (diffOffset extdesc i)) (remapBlock extdesc n fuel) := by
    intro hne buf hbuf
    have howner := hfreed (by
      rw [hbuf]
      rintro ⟨⟩)
    rw [topKids, if_pos howner]
    apply remapBlock_remaps hlevel ht (fun _ => id) hn (by omega) hne
    rw [othersCache_of_free hn howner]
    exact (hlink.cached hbuf).2
  apply mapLinked_linking hlevel ht _ _ _ _ _ hrange hnot hbelow hwalk hremap
  · exact fun b hb => (hstate.left b hb).trans (hroot.left b)
  · exact fun _ => hroot.blank
  · rintro s ⟨⟩
  · exact fun c hc => (hstate.current c hc).1
  · rintro s ⟨⟩

theorem diffLinks_links (ht : p.Treelike) (hfree : ∀ b, p.owner b = 0 → p.blist b = .blank)
    (hkin : ∀ a b, ¬OwnOrFree p n a → p.Below a b → p.owner b = p.owner a) (hn : n ≠ 0)
    (hfuel : 2 ^ 33 + 19 < fuel) (ls : List UInt32) (hlen : i + ls.length ≤ 15)
    (hrange : ∀ link ∈ ls, link < extdesc.sb.sBlocksCount)
    (hroots : ∀ a ∈ (iBlockForest extdesc p n ls i).roots, p.owner a.block = n → descends a)
    (hkids : ∀ a ∈ (iBlockForest extdesc p n ls i).underRoots.nodes, Descends p n a → descends a)
    (hstate : RootState p q n current T X L i)
    (horder : Orderly p descends T (iBlockForest extdesc p n ls i)) :
    Yields (diffLinks extdesc fuel n ls i current q) (RootsEnd p n X (iBlockForest extdesc p n ls i)) fun r =>
      r.2 = true ∧ RootLinks extdesc q r.1 n current T (iBlockForest extdesc p n ls i)
        (Clean p n (iBlockForest extdesc p n ls i).underRoots) ∧
      Threaded r.1 n none current (iBlockForest extdesc p n ls i) ∧
      ((nonzero ls = [] → current ≠ none) → SibChain r.1.sib (r.1.nextLink n none current) (nonzero ls)) := by
  have hparent {T : List UInt32} : ∀ s, (none : Option UInt32) = some s → s ∈ T := by
    rintro s ⟨⟩
  induction ls generalizing i current T X L q with
  | nil =>
    obtain ⟨hlinks, hthreaded, hchain⟩ := @exists_links_nil extdesc q n none current T hparent
      (fun c hc => (hstate.current c hc).1) (Clean p n .nil)
    exact .of_some rfl ⟨rfl, hlinks.roots, hthreaded, fun hnil => hchain (hnil rfl)⟩
  | cons link ls ih =>
    rw [List.length_cons] at hlen
    rw [List.forall_mem_cons] at hrange
    by_cases hzero : link = 0
    · subst hzero
      rw [iBlockForest, linkForest_zero] at horder hroots hkids ⊢
      rw [diffLinks, if_neg (not_not_intro rfl)]
      have hstate' : RootState p q n current T X L (i + 1) :=
        { hstate with length := hstate.length.trans i.le_succ }
      exact ih (by omega) hrange.2 hroots hkids hstate' horder
    rw [iBlockForest, linkForest_cons hzero] at horder hroots hkids ⊢
    rw [roots, List.forall_mem_cons] at hroots
    rw [underRoots, nodes_append, List.forall_mem_append] at hkids
    have hnot := horder.notMem
    have hunmap := unmapRoot ht hfree hfuel hnot (fun howner => horder.not_below (hroots.1 howner))
      hstate.left hstate.taken
    rw [diffLinks_cons hrange.1 hzero]
    refine (hunmap.bind fun q₁ hroot => ?_).mono (fun hends => ⟨fun hother b hb hbelow => ?_, hends.2⟩)
      fun r hr => hr
    · have hbelow : Orderly p (Descends p n) (T ++ [link])
          (topKids extdesc p n (iBlockLevel i) link (diffOffset extdesc i)) := horder.below.mono hkids.1
      obtain ⟨q₂, hq₂, hlinking⟩ :=
        hroot.linking ht hfree hn hfuel (by omega) hstate hrange.1 hnot hbelow
      rw [hq₂, Option.bind_some]
      have hnext := hstate.next hroot hlinking hnot hzero
      refine (ih (by omega) hrange.2 hroots.2 hkids.2 hnext horder.after).mono id ?_
      rintro ⟨q', ok⟩ ⟨hok, hlinks, hthreaded, hchain⟩
      obtain ⟨hall, hfirst, hself⟩ := hroot.cons hlinking hlinks hstate.current hnot hzero horder.notMem_kids
        fun hclean => hclean.2.ownOrFree hnext.taken
      refine ⟨hok, hall.mono Clean.of_underRoots, ⟨?_, fun _ => hfirst⟩, fun _ => ?_⟩
      · rw [roots, List.forall_mem_cons]
        exact ⟨hself, hthreaded.placed⟩
      · have hcons : nonzero (link :: ls) = link :: nonzero ls := by simp [nonzero, hzero]
        rw [hcons]
        exact ⟨hfirst, hzero, hchain fun _ => by simp⟩
    · by_cases howner : p.owner link = 0
      · refine absurd hbelow (not_below_of_bh ?_)
        rw [bh, hfree link howner]
        rfl
      · obtain hb | hb | hb := hstate.covers b hb
        · have hkin := hkin link b (not_or.mpr ⟨hother, howner⟩) hbelow
          rw [OwnOrFree, hkin] at hb
          exact absurd hb (not_or.mpr ⟨hother, howner⟩)
        · exact hstate.run.passed hother (hstate.length.trans (by omega)) hb
        · exact absurd hbelow (hends.1 hother b hb)

end Roots

end SBlktrace
