import SBlktrace.RemapRuns

namespace SBlktrace

open Function Forest PartitionData

structure Gone (m : UInt32) (q q' : PartitionData) : Prop where
  block : ∀ b, (q'.blist b = q.blist b ∧ q'.dataCache b = q.dataCache b) ∨
    q.owner b = m ∧ q'.blist b = .blank ∧ q'.dataCache b = none
  ilist : q'.ilist = q.ilist

def Passed (m : UInt32) (q : PartitionData) (b : UInt32) : Prop :=
  q.owner b ≠ m ∧ ∃ l : List UInt32, SibChain q.sib (q.sib b) l ∧ l.length ≤ 15 ∧
    ∀ c ∈ l, q.owner c ≠ m

section Gone

variable {p q q' q'' : PartitionData} {m a b h h' : UInt32} {l : List UInt32} {K : Forest UInt32}
  {fuel : ℕ}

theorem Gone.refl (m : UInt32) (q : PartitionData) : Gone m q q :=
  ⟨fun _ => .inl ⟨rfl, rfl⟩, rfl⟩

theorem Gone.same (h : Gone m q q') (hb : q.owner b ≠ m) :
    q'.blist b = q.blist b ∧ q'.dataCache b = q.dataCache b :=
  (h.block b).resolve_right fun hgone => hb hgone.1

theorem Gone.left (h : Gone m q q') (b : UInt32) : Left q q' b :=
  (h.block b).imp_right And.right

theorem Gone.trans (hm : m ≠ 0) (h : Gone m q q') (h' : Gone m q' q'') : Gone m q q'' := by
  refine ⟨fun b => ?_, h'.ilist.trans h.ilist⟩
  obtain ⟨hblock, hcache⟩ | ⟨howner, hblank, hnone⟩ := h.block b
  · obtain hsame' | ⟨howner', hgone'⟩ := h'.block b
    · rw [hsame'.1, hsame'.2]
      exact .inl ⟨hblock, hcache⟩
    · rw [PartitionData.owner, hblock] at howner'
      exact .inr ⟨howner', hgone'⟩
  · have hother : q'.owner b ≠ m := by
      rw [PartitionData.owner, hblank]
      exact Ne.symm hm
    obtain ⟨hblock', hcache'⟩ := h'.same hother
    exact .inr ⟨howner, hblock'.trans hblank, hcache'.trans hnone⟩

theorem PartitionData.LeavesEnd.left (hl : q.LeavesEnd) (h : ∀ b, Left q q' b) : q'.LeavesEnd :=
  fun b => (h b).leaf (hl b)

theorem SibChain.congr {sib sib' : UInt32 → UInt32} (hchain : SibChain sib h l)
    (hsame : ∀ b ∈ l, sib' b = sib b) : SibChain sib' h l := by
  induction l generalizing h with
  | nil => exact hchain
  | cons b l ih =>
    rw [List.forall_mem_cons] at hsame
    refine ⟨hchain.1, hchain.2.1, ?_⟩
    rw [hsame.1]
    exact ih hchain.2.2 hsame.2

theorem Passed.gone (hb : Passed m q b) (h : Gone m q q') : Passed m q' b := by
  have howner : ∀ c, q.owner c ≠ m → q'.owner c ≠ m := by
    intro c hc
    rw [PartitionData.owner, (h.same hc).1]
    exact hc
  obtain ⟨hother, l, hchain, hlen, hl⟩ := hb
  refine ⟨howner b hother, l, ?_, hlen, fun c hc => howner c (hl c hc)⟩
  have hsib : q'.sib b = q.sib b := congrArg SBlock.sbSib (h.same hother).1
  rw [hsib]
  exact hchain.congr fun c hc => congrArg SBlock.sbSib (h.same (hl c hc)).1

abbrev emptied (q : PartitionData) (a : UInt32) : PartitionData :=
  (q.setBlock a { q.blist a with sbInode := 0, sbOffset := 0 }).decache a

theorem emptied_of_ne (hb : b ≠ a) :
    (emptied q a).blist b = q.blist b ∧ (emptied q a).dataCache b = q.dataCache b :=
  ⟨update_of_ne hb _ _, update_of_ne hb _ _⟩

theorem emptied_self (q : PartitionData) (a : UInt32) :
    (emptied q a).blist a = { q.blist a with sbInode := 0, sbOffset := 0 } ∧
      (emptied q a).dataCache a = none :=
  ⟨update_self _ _ _, update_self _ _ _⟩

theorem PartitionData.LeavesEnd.emptied (hl : q.LeavesEnd) (a : UInt32) : (emptied q a).LeavesEnd :=
  fun b => by
    obtain rfl | hb := eq_or_ne b a
    · rw [bh, (emptied_self q b).1]
      exact hl b
    · rw [bh, (emptied_of_ne hb).1]
      exact hl b

theorem Passed.emptied (hb : Passed m q b) (howner : q.owner a = m) : Passed m (emptied q a) b := by
  -- the blocks that are passed are not the inode's, so that none is the one that is emptied
  have hkeep : ∀ c, q.owner c ≠ m → (SBlktrace.emptied q a).blist c = q.blist c := by
    intro c hc
    refine (emptied_of_ne ?_).1
    rintro rfl
    exact hc howner
  obtain ⟨hother, l, hchain, hlen, hl⟩ := hb
  refine ⟨?_, l, ?_, hlen, fun c hc => ?_⟩
  · rw [PartitionData.owner, hkeep b hother]
    exact hother
  · rw [PartitionData.sib, hkeep b hother]
    exact hchain.congr fun c hc => congrArg SBlock.sbSib (hkeep c (hl c hc))
  · rw [PartitionData.owner, hkeep c (hl c hc)]
    exact hl c hc

theorem emptied_cover (hnot : a ∉ K.keys id) (howner : q.owner a = m)
    (hcover : ∀ b ∈ K.keys id, Left p q b ∨ Passed m q b) :
    ∀ b ∈ K.keys id, Left p (emptied q a) b ∨ Passed m (emptied q a) b := by
  intro b hb
  refine (hcover b hb).imp (fun h => ?_) fun h => h.emptied howner
  have hne : b ≠ a := by
    rintro rfl
    exact hnot hb
  rw [Left, (emptied_of_ne hne).1, (emptied_of_ne hne).2]
  exact h

theorem unmapBlock_own (hl : q.LeavesEnd) (howner : q.owner a = m) :
    unmapBlock (fuel + 1) a m q =
      (unmapSiblings fuel (fun _ => m) (q.bh a) (emptied q a)).map fun q' =>
        q'.setBlock a { q'.blist a with sbBh := 0, sbSib := 0, sbLevel := 0 } := by
  have hsame : ¬ m ≠ (q.blist a).sbInode := not_not_intro howner.symm
  have hlinks : ¬ ((q.blist a).sbLevel = 0 ∧ (q.blist a).sbBh ≠ 0) :=
    fun hlink => hlink.2 (hl a hlink.1)
  rw [unmapBlock]
  dsimp only
  rw [if_neg hsame, if_neg hlinks]
  change (unmapSiblings fuel (fun _ => m) (q.bh a) (emptied q a)).bind _ = _
  cases unmapSiblings fuel (fun _ => m) (q.bh a) (emptied q a) <;> rfl

theorem unmapBlock_other (howner : q.owner a ≠ m) : unmapBlock (fuel + 1) a m q = some q := by
  rw [unmapBlock]
  exact if_pos (Ne.symm howner)

theorem Gone.finish (hm : m ≠ 0) (howner : q.owner a = m) (h : Gone m (emptied q a) q') :
    let q'' := q'.setBlock a { q'.blist a with sbBh := 0, sbSib := 0, sbLevel := 0 }
    Gone m q q'' ∧ q''.blist a = .blank ∧ q''.dataCache a = none := by
  have hother : (emptied q a).owner a ≠ m := by
    rw [PartitionData.owner, (emptied_self q a).1]
    exact Ne.symm hm
  obtain ⟨hblock, hcache⟩ := h.same hother
  rw [(emptied_self q a).1] at hblock
  rw [(emptied_self q a).2] at hcache
  have hblank : (q'.setBlock a { q'.blist a with sbBh := 0, sbSib := 0, sbLevel := 0 }).blist a =
      .blank := by
    rw [setBlock]
    dsimp only
    rw [update_self, hblock]
    rfl
  refine ⟨⟨fun b => ?_, h.ilist⟩, hblank, hcache⟩
  obtain rfl | hb := eq_or_ne b a
  · exact .inr ⟨howner, hblank, hcache⟩
  · have hset : (q'.setBlock a { q'.blist a with sbBh := 0, sbSib := 0, sbLevel := 0 }).blist b =
        q'.blist b := update_of_ne hb _ _
    have hb' := h.block b
    rw [PartitionData.owner, (emptied_of_ne hb).1, (emptied_of_ne hb).2] at hb'
    rw [hset]
    exact hb'

theorem unmap_gone (hm : m ≠ 0) (fuel : ℕ) :
    (∀ a q q', q.LeavesEnd → unmapBlock fuel a m q = some q' →
      Gone m q q' ∧ (q.owner a = m → q'.blist a = .blank ∧ q'.dataCache a = none)) ∧
    ∀ h q q', q.LeavesEnd → unmapSiblings fuel (fun _ => m) h q = some q' → Gone m q q' := by
  induction fuel with
  | zero =>
    constructor
    · rintro a q q' - ⟨⟩
    · rintro h q q' - ⟨⟩
  | succ fuel ih =>
    constructor
    · intro a q q' hl h
      by_cases howner : q.owner a = m
      · rw [unmapBlock_own hl howner] at h
        obtain ⟨q₂, hq₂, rfl⟩ := Option.map_eq_some_iff.mp h
        have hgone := ih.2 _ _ _ (hl.emptied a) hq₂
        exact ⟨(hgone.finish hm howner).1, fun _ => (hgone.finish hm howner).2⟩
      · rw [unmapBlock_other howner] at h
        obtain rfl := Option.some.inj h
        exact ⟨Gone.refl m q, fun h => absurd h howner⟩
    · intro h q q' hl hwalk
      rw [unmapSiblings] at hwalk
      by_cases hzero : h = 0
      · rw [if_pos hzero] at hwalk
        obtain rfl := Option.some.inj hwalk
        exact Gone.refl m q
      · rw [if_neg hzero] at hwalk
        obtain ⟨q₁, hq₁, hrest⟩ := Option.bind_eq_some_iff.mp hwalk
        have hgone := (ih.1 _ _ _ hl hq₁).1
        exact hgone.trans hm (ih.2 _ _ _ (hl.left hgone.left) hrest)

theorem unmapSiblings_passed (hchain : SibChain q.sib h l) (hl : ∀ c ∈ l, q.owner c ≠ m)
    (hfuel : l.length + 1 < fuel) : unmapSiblings fuel (fun _ => m) h q = some q := by
  induction l generalizing h fuel with
  | nil =>
    obtain ⟨fuel, rfl⟩ := Nat.exists_eq_succ_of_ne_zero (Nat.ne_zero_of_lt hfuel)
    rw [unmapSiblings]
    exact if_pos hchain
  | cons b l ih =>
    rw [List.length_cons] at hfuel
    obtain ⟨fuel, rfl⟩ := Nat.exists_eq_add_of_le' (show 2 ≤ fuel by omega)
    obtain ⟨rfl, hb, hrest⟩ := hchain
    rw [List.forall_mem_cons] at hl
    rw [unmapSiblings, if_neg hb, unmapBlock_other hl.1]
    exact ih hrest hl.2 (by omega)

theorem unmapSiblings_ends (hm : m ≠ 0) (hrep : p.Linked h K)
    (hnodup : (K.keys id).Nodup) (hleaves : q.LeavesEnd)
    (hcover : ∀ b ∈ K.keys id, Left p q b ∨ Passed m q b) (hstart : h' = h ∨ h' = 0)
    (hfuel : 2 * K.nodes.length + 18 < fuel) :
    ∃ q', unmapSiblings fuel (fun _ => m) h' q = some q' := by
  induction K generalizing q h h' fuel with
  | nil =>
    obtain ⟨fuel, rfl⟩ := Nat.exists_eq_succ_of_ne_zero (Nat.ne_zero_of_lt hfuel)
    have hzero : h' = 0 := hstart.elim (fun heq => heq.trans hrep) id
    exact ⟨q, by rw [unmapSiblings, if_pos hzero]⟩
  | node a kids rest ihk ihr =>
    rw [nodes, List.length_cons, List.length_append] at hfuel
    obtain ⟨fuel, rfl⟩ := Nat.exists_eq_add_of_le' (show 2 ≤ fuel by omega)
    by_cases hzero : h' = 0
    · exact ⟨q, by rw [unmapSiblings, if_pos hzero]⟩
    obtain rfl : h' = h := hstart.resolve_right hzero
    obtain ⟨hh, ha, hkids, hrest⟩ := hrep
    subst h'
    dsimp only [id] at ha hkids hrest ⊢
    rw [keys_node] at hnodup hcover
    obtain ⟨hnot, hnodup⟩ := List.nodup_cons.mp hnodup
    obtain ⟨hnodupk, hnodupr, -⟩ := List.nodup_append.mp hnodup
    simp only [id, List.mem_append, not_or] at hnot
    rw [List.forall_mem_cons, List.forall_mem_append] at hcover
    obtain ⟨hcovera, hcoverk, hcoverr⟩ := hcover
    change Left p q a ∨ Passed m q a at hcovera
    rw [unmapSiblings, if_neg ha]
    change ∃ q', (unmapBlock (fuel + 1) a m q).bind (unmapSiblings (fuel + 1) (fun _ => m) (q.sib a)) =
      some q'
    obtain hleft | ⟨hother, l, hchain, hlen, hl⟩ := hcovera
    · have hgo : ∀ q₁, Gone m q q₁ →
          ∃ q', unmapSiblings (fuel + 1) (fun _ => m) (q.sib a) q₁ = some q' := by
        intro q₁ hgone
        refine ihr hrest hnodupr (hleaves.left hgone.left) (fun b hb => ?_) hleft.sib (by omega)
        exact (hcoverr b hb).imp (fun h => h.trans (hgone.left b)) fun h => h.gone hgone
      by_cases howner : q.owner a = m
      · have hcover := emptied_cover hnot.1 howner hcoverk
        obtain ⟨q₂, hq₂⟩ : ∃ q₂, unmapSiblings fuel (fun _ => m) (q.bh a) (emptied q a) = some q₂ :=
          ihk hkids hnodupk (hleaves.emptied a) hcover hleft.bh (by omega)
        rw [unmapBlock_own hleaves howner, hq₂, Option.map_some, Option.bind_some]
        have hgone := (unmap_gone hm fuel).2 _ _ _ (hleaves.emptied a) hq₂
        exact hgo _ (hgone.finish hm howner).1
      · rw [unmapBlock_other howner, Option.bind_some]
        exact hgo q (Gone.refl m q)
    · rw [unmapBlock_other hother, Option.bind_some]
      exact ⟨q, unmapSiblings_passed hchain hl (by omega)⟩

theorem unmapBlock_ends (hm : m ≠ 0) (ht : p.Treelike) (ha : Left p q a) (hleaves : q.LeavesEnd)
    (hcover : ∀ b, p.Below a b → Left p q b ∨ Passed m q b) (hfuel : 2 ^ 33 + 19 < fuel) :
    ∃ q', unmapBlock fuel a m q = some q' := by
  obtain ⟨fuel, rfl⟩ := Nat.exists_eq_add_of_le' (show 1 ≤ fuel by omega)
  by_cases howner : q.owner a = m
  · obtain ⟨K, hK, hnodup, hnot⟩ := ht.kids a
    have hlen := nodes_le_of_nodup hnodup
    have hcover := emptied_cover hnot howner fun b hb => hcover b ⟨K, hK, hb⟩
    obtain ⟨q₂, hq₂⟩ := unmapSiblings_ends hm hK hnodup (hleaves.emptied a) hcover ha.bh
      (show 2 * K.nodes.length + 18 < fuel by omega)
    rw [unmapBlock_own hleaves howner, hq₂]
    exact ⟨_, rfl⟩
  · exact ⟨q, unmapBlock_other howner⟩

end Gone

end SBlktrace
