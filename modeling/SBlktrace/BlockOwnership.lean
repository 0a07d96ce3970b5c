import SBlktrace.SiblingForest
import SBlktrace.BlockMapping
import Mathlib

namespace SBlktrace

open Function Forest

def SBlock.blank : SBlock := ⟨0, 0, 0, 0, 0⟩

namespace PartitionData

def bh (p : PartitionData) (b : UInt32) : UInt32 := (p.blist b).sbBh

def sib (p : PartitionData) (b : UInt32) : UInt32 := (p.blist b).sbSib

def owner (p : PartitionData) (b : UInt32) : UInt32 := (p.blist b).sbInode

abbrev Linked (p : PartitionData) (h : UInt32) (F : Forest UInt32) : Prop := Forest.Rep p.bh p.sib id h F

/-- The blocks of an inode are those that its `si_bh` leads to, each along one path. -/
structure Owns (p : PartitionData) (n : UInt32) (F : Forest UInt32) : Prop where
  linked : p.Linked (p.ilist n).siBh F
  nodup : (F.keys id).Nodup
  mem_iff : ∀ b, b ∈ F.keys id ↔ p.owner b = n

/-- Each block is in the tree of its inode. An inode that is not in use has no blocks. -/
structure Owned (p : PartitionData) : Prop where
  forest : ∀ n ≠ 0, ∃ F, p.Owns n F
  leaf : ∀ b, p.owner b ≠ 0 → (p.blist b).sbLevel = 0 → p.bh b = 0

def unmapped (p : PartitionData) (l : List UInt32) : PartitionData :=
  { p with
    blist := fun b => if b ∈ l then .blank else p.blist b
    dataCache := fun b => if b ∈ l then none else p.dataCache b }

section Unmapped

variable {p : PartitionData} {l l' : List UInt32} {b : UInt32}

@[simp] theorem unmapped_nil (p : PartitionData) : p.unmapped [] = p := by
  simp [unmapped]

theorem blist_unmapped (p : PartitionData) (l : List UInt32) (b : UInt32) :
    (p.unmapped l).blist b = if b ∈ l then .blank else p.blist b := rfl

theorem dataCache_unmapped (p : PartitionData) (l : List UInt32) (b : UInt32) :
    (p.unmapped l).dataCache b = if b ∈ l then none else p.dataCache b := rfl

theorem blist_unmapped_of_notMem (hb : b ∉ l) : (p.unmapped l).blist b = p.blist b := if_neg hb

theorem unmapped_append (p : PartitionData) (l l' : List UInt32) :
    (p.unmapped l).unmapped l' = p.unmapped (l ++ l') := by
  rw [unmapped, unmapped]
  congr 1
  · funext b
    change (if b ∈ l' then _ else if b ∈ l then _ else _) = _
    grind
  · funext b
    change (if b ∈ l' then _ else if b ∈ l then _ else _) = _
    grind

theorem Linked.congr {p p' : PartitionData} {h : UInt32} {F : Forest UInt32} (hrep : p.Linked h F)
    (hsame : ∀ b ∈ F.keys id, p'.blist b = p.blist b) : p'.Linked h F := by
  apply Rep.congr hrep
  intro b hb
  rw [bh, sib, hsame b hb]
  exact ⟨rfl, rfl⟩

end Unmapped

end PartitionData

open PartitionData

section Unmap

variable {p : PartitionData} {n h : UInt32} {F : Forest UInt32} {fuel : ℕ}

theorem setBlock_unmapped (p : PartitionData) {a : UInt32} {l : List UInt32} (ha : a ∉ l)
    (sblock : SBlock) :
    let q := ((p.setBlock a { sblock with sbInode := 0, sbOffset := 0 }).decache a).unmapped l
    q.setBlock a { q.blist a with sbBh := 0, sbSib := 0, sbLevel := 0 } = p.unmapped (a :: l) := by
  intro q
  have ha' : q.blist a = { sblock with sbInode := 0, sbOffset := 0 } := by
    rw [blist_unmapped_of_notMem ha]
    exact update_self a _ _
  rw [ha', setBlock, unmapped]
  congr 1
  · funext b
    obtain rfl | hb := eq_or_ne b a
    · rw [update_self, if_pos List.mem_cons_self]
      rfl
    · have hother : ((p.setBlock a { sblock with sbInode := 0, sbOffset := 0 }).decache a).blist b =
          p.blist b := update_of_ne hb _ _
      rw [update_of_ne hb, blist_unmapped, hother]
      simp only [List.mem_cons, hb, false_or]
  · funext b
    obtain rfl | hb := eq_or_ne b a
    · have hself : ((p.setBlock b { sblock with sbInode := 0, sbOffset := 0 }).decache b).dataCache
          b = none := update_self b _ _
      rw [dataCache_unmapped, hself, if_pos List.mem_cons_self, ite_self]
    · have hother : ((p.setBlock a { sblock with sbInode := 0, sbOffset := 0 }).decache a).dataCache
          b = p.dataCache b := update_of_ne hb _ _
      rw [dataCache_unmapped, hother]
      simp only [List.mem_cons, hb, false_or]

theorem unmapSiblings_eq {inodeid : PartitionData → UInt32} (hrep : p.Linked h F)
    (hnodup : (F.keys id).Nodup) (hinode : ∀ l ⊆ F.keys id, inodeid (p.unmapped l) = n)
    (howner : ∀ b ∈ F.keys id, p.owner b = n)
    (hleaf : ∀ b ∈ F.keys id, (p.blist b).sbLevel = 0 → p.bh b = 0)
    (hfuel : 2 * F.nodes.length < fuel) :
    unmapSiblings fuel inodeid h p = some (p.unmapped (F.keys id)) := by
  induction F generalizing p h fuel inodeid with
  | nil =>
    obtain ⟨fuel, rfl⟩ := Nat.exists_eq_succ_of_ne_zero (Nat.ne_zero_of_lt hfuel)
    have hzero : h = 0 := hrep
    rw [unmapSiblings, if_pos hzero, keys_nil, unmapped_nil]
  | node a kids rest ihk ihr =>
    obtain ⟨hh, ha, hkids, hrest⟩ := hrep
    subst h
    dsimp only [id] at ha hkids hrest ⊢
    rw [keys_node] at hnodup hinode howner hleaf ⊢
    obtain ⟨hnot, hnodup⟩ := List.nodup_cons.mp hnodup
    obtain ⟨hnodupk, hnodupr, hdisjoint⟩ := List.nodup_append.mp hnodup
    simp only [id, List.mem_append, not_or] at hnot
    rw [nodes, List.length_cons, List.length_append] at hfuel
    obtain ⟨fuel, rfl⟩ := Nat.exists_eq_add_of_le' (show 2 ≤ fuel by omega)
    have hblock : unmapBlock (fuel + 1) a n p = some (p.unmapped (a :: kids.keys id)) := by
      have ha' : n = (p.blist a).sbInode := (howner a List.mem_cons_self).symm
      have hleafa : ¬ ((p.blist a).sbLevel = 0 ∧ (p.blist a).sbBh ≠ 0) :=
        fun hlink => hlink.2 (hleaf a List.mem_cons_self hlink.1)
      rw [unmapBlock]
      dsimp only
      rw [if_neg (not_not_intro ha'), if_neg hleafa]
      have hsame : ∀ b ∈ kids.keys id,
          ((p.setBlock a { p.blist a with sbInode := 0, sbOffset := 0 }).decache a).blist b =
            p.blist b := by
        intro b hb
        apply update_of_ne
        rintro rfl
        exact hnot.1 hb
      have hkids' := @ihk _ _ fuel (fun _ => n) (Linked.congr hkids hsame) hnodupk (fun _ _ => rfl)
        (fun b hb => by rw [owner, hsame b hb]; exact howner b (by simp [hb]))
        (fun b hb => by rw [bh, hsame b hb]; exact hleaf b (by simp [hb])) (by omega)
      change (unmapSiblings fuel (fun _ => n) (p.bh a) _).bind _ = _
      rw [hkids', Option.bind_some, setBlock_unmapped p hnot.1]
    have hsame : ∀ b ∈ rest.keys id, (p.unmapped (a :: kids.keys id)).blist b = p.blist b := by
      intro b hb
      apply blist_unmapped_of_notMem
      rw [List.mem_cons, not_or]
      refine ⟨?_, fun hin => hdisjoint b hin b hb rfl⟩
      rintro rfl
      exact hnot.2 hb
    have hinoder : ∀ l ⊆ rest.keys id, inodeid ((p.unmapped (a :: kids.keys id)).unmapped l) = n := by
      intro l hl
      rw [unmapped_append]
      apply hinode
      rw [List.cons_append, List.cons_subset, List.append_subset]
      refine ⟨List.mem_cons_self, fun b hb => ?_, fun b hb => ?_⟩
      · exact List.mem_cons_of_mem _ (List.mem_append_left _ hb)
      · exact List.mem_cons_of_mem _ (List.mem_append_right _ (hl hb))
    have hself : inodeid p = n := by
      have hnil := hinode [] (List.nil_subset _)
      rwa [unmapped_nil] at hnil
    have hrest' := @ihr _ _ (fuel + 1) inodeid (Linked.congr hrest hsame) hnodupr hinoder
      (fun b hb => by rw [owner, hsame b hb]; exact howner b (by simp [hb]))
      (fun b hb => by rw [bh, hsame b hb]; exact hleaf b (by simp [hb])) (by omega)
    rw [unmapSiblings, if_neg ha, hself]
    change (unmapBlock (fuel + 1) a n p).bind _ = _
    rw [hblock, Option.bind_some]
    change unmapSiblings (fuel + 1) _ (p.sib a) _ = _
    rw [hrest', unmapped_append, List.cons_append]
    rfl

theorem removeSinode_eq (howns : p.Owns n F) (hn : n ≠ 0)
    (hleaf : ∀ b, p.owner b ≠ 0 → (p.blist b).sbLevel = 0 → p.bh b = 0)
    (hfuel : 2 * F.nodes.length < fuel) :
    removeSinode fuel n p = some ((p.unmapped (F.keys id)).setInode n
      { p.ilist n with siMode := 0, siSize := 0, siBh := 0 }) := by
  have howner : ∀ b ∈ F.keys id, p.owner b = n := fun b hb => (howns.mem_iff b).mp hb
  have hunmap : unmapSiblings fuel (fun _ => n) (p.ilist n).siBh
      (p.setInode n { p.ilist n with siMode := 0, siSize := 0 }) =
        some ((p.setInode n { p.ilist n with siMode := 0, siSize := 0 }).unmapped (F.keys id)) := by
    apply @unmapSiblings_eq (p.setInode n _) _ _ _ _ _ howns.linked howns.nodup (fun _ _ => rfl) howner
    · intro b hb
      apply hleaf b
      rw [howner b hb]
      exact hn
    · exact hfuel
  have hself : (update p.ilist n { p.ilist n with siMode := 0, siSize := 0 }) n =
      { p.ilist n with siMode := 0, siSize := 0 } := update_self n _ _
  rw [removeSinode]
  change Option.bind (unmapSiblings fuel _
    ((update p.ilist n { p.ilist n with siMode := 0, siSize := 0 }) n).siBh _) _ = _
  rw [hself]
  change Option.bind (unmapSiblings fuel _ (p.ilist n).siBh _) _ = _
  rw [hunmap, Option.bind_some, setSiBh]
  change some (((p.setInode n _).unmapped (F.keys id)).setInode n
    { update p.ilist n _ n with siBh := 0 }) = _
  rw [hself, setInode, setInode]
  dsimp only [unmapped, setInode]
  rw [update_idem]

end Unmap

section Removal

variable {p : PartitionData} {n m b : UInt32} {F G : Forest UInt32}

theorem PartitionData.Owns.notMem (hF : p.Owns n F) (hG : p.Owns m G) (hne : m ≠ n)
    (hb : b ∈ G.keys id) : b ∉ F.keys id := by
  intro hin
  exact hne (((hG.mem_iff b).mp hb).symm.trans ((hF.mem_iff b).mp hin))

theorem PartitionData.Owns.removed (hF : p.Owns n F) (hm : m ≠ 0) (hne : m ≠ n)
    (hG : p.Owns m G) (sinode : SInode) :
    ((p.unmapped (F.keys id)).setInode n sinode).Owns m G := by
  have hsame : ∀ b ∈ G.keys id, (p.unmapped (F.keys id)).blist b = p.blist b :=
    fun b hb => blist_unmapped_of_notMem (hF.notMem hG hne hb)
  refine ⟨?_, hG.nodup, fun b => ?_⟩
  · change Linked _ (update p.ilist n sinode m).siBh G
    rw [update_of_ne hne]
    exact Linked.congr hG.linked hsame
  · rw [hG.mem_iff]
    change p.owner b = m ↔ ((p.unmapped (F.keys id)).blist b).sbInode = m
    rw [blist_unmapped]
    split
    · rename_i hin
      have howner := (hF.mem_iff b).mp hin
      rw [howner]
      exact ⟨fun h => absurd h (Ne.symm hne), fun h => absurd h (Ne.symm hm)⟩
    · rfl

theorem PartitionData.Owned.removed (h : p.Owned) (hn : n ≠ 0) (hF : p.Owns n F) (sinode : SInode)
    (hbh : sinode.siBh = 0) : ((p.unmapped (F.keys id)).setInode n sinode).Owned := by
  constructor
  · intro m hm
    obtain rfl | hne := eq_or_ne m n
    · refine ⟨.nil, ?_, List.nodup_nil, fun b => ?_⟩
      · change (update p.ilist m sinode m).siBh = 0
        rw [update_self, hbh]
      · refine ⟨fun hin => absurd hin List.not_mem_nil, fun howner => ?_⟩
        change ((p.unmapped (F.keys id)).blist b).sbInode = m at howner
        rw [blist_unmapped] at howner
        split at howner
        · exact absurd howner.symm hn
        · rename_i hnot
          exact absurd ((hF.mem_iff b).mpr howner) hnot
    · obtain ⟨G, hG⟩ := h.forest m hm
      exact ⟨G, hF.removed hm hne hG sinode⟩
  · intro b howner hlevel
    change ((p.unmapped (F.keys id)).blist b).sbInode ≠ 0 at howner
    change ((p.unmapped (F.keys id)).blist b).sbLevel = 0 at hlevel
    change ((p.unmapped (F.keys id)).blist b).sbBh = 0
    rw [blist_unmapped] at howner hlevel ⊢
    split
    · rfl
    · rename_i hnot
      rw [if_neg hnot] at howner hlevel
      exact h.leaf b howner hlevel

/-- Removing an inode ends, frees its blocks, and leaves those of the other inodes alone. -/
theorem removeSinode_frees (h : p.Owned) (hn : n ≠ 0) :
    ∃ fuel₀, ∀ fuel ≥ fuel₀, ∃ p', removeSinode fuel n p = some p' ∧
      (∀ b, (p'.blist b).sbInode ≠ n) ∧
      ((p'.ilist n).siBh = 0 ∧ (p'.ilist n).siMode = 0 ∧ (p'.ilist n).siSize = 0) ∧
      (∀ b, p'.dataCache b = if (p.blist b).sbInode = n then none else p.dataCache b) ∧
      (∀ b, (p.blist b).sbInode ≠ n → p'.blist b = p.blist b) ∧
      ∀ m ≠ n, p'.ilist m = p.ilist m ∧ ∀ G, m ≠ 0 → p.Owns m G →
        p'.Owns m G ∧ ∀ b ∈ G.keys id, p'.blist b = p.blist b ∧ p'.dataCache b = p.dataCache b := by
  obtain ⟨F, hF⟩ := h.forest n hn
  refine ⟨2 * F.nodes.length + 1, fun fuel hfuel => ⟨_, removeSinode_eq hF hn h.leaf hfuel, ?_⟩⟩
  have hmem : ∀ b, b ∈ F.keys id ↔ (p.blist b).sbInode = n := hF.mem_iff
  refine ⟨fun b howner => ?_, ?_, fun b => ?_, fun b hb => ?_, fun m hne => ⟨?_, fun G hm hG => ?_⟩⟩
  · change ((p.unmapped (F.keys id)).blist b).sbInode = n at howner
    rw [blist_unmapped] at howner
    split at howner
    · exact hn howner.symm
    · rename_i hnot
      exact hnot ((hmem b).mpr howner)
  · change (update p.ilist n _ n).siBh = 0 ∧ (update p.ilist n _ n).siMode = 0 ∧
      (update p.ilist n _ n).siSize = 0
    rw [update_self]
    exact ⟨rfl, rfl, rfl⟩
  · change (p.unmapped (F.keys id)).dataCache b = _
    rw [dataCache_unmapped]
    simp only [hmem]
  · apply blist_unmapped_of_notMem
    rw [hmem]
    exact hb
  · exact update_of_ne hne _ _
  · refine ⟨hF.removed hm hne hG _, fun b hb => ?_⟩
    have hnot := hF.notMem hG hne hb
    exact ⟨blist_unmapped_of_notMem hnot, if_neg hnot⟩

end Removal

def twoInodes : PartitionData where
  blist b :=
    if b = 5 then ⟨0, 0, 6, 0, 2⟩
    else if b = 6 then ⟨1, 12, 0, 7, 2⟩
    else if b = 7 then ⟨0, 12, 0, 0, 2⟩
    else if b = 8 then ⟨0, 0, 0, 0, 3⟩
    else .blank
  ilist n := ⟨if n = 2 ∨ n = 3 then 0x8000 else 0, 4096, 1, 1, 0, if n = 2 then 5 else if n = 3 then 8 else 0⟩
  dataCache _ := none
  globalVersion := 0
  tmpfs _ := none
  queue := []

theorem twoInodes_owner (b : UInt32) :
    twoInodes.owner b = if b = 5 ∨ b = 6 ∨ b = 7 then 2 else if b = 8 then 3 else 0 := by
  simp only [PartitionData.owner, twoInodes, SBlock.blank]
  grind

theorem twoInodes_owned : twoInodes.Owned := by
  constructor
  · intro n hn
    by_cases h2 : n = 2
    · subst h2
      refine ⟨.node 5 .nil (.node 6 (.node 7 .nil .nil) .nil), ?_, by decide, fun b => ?_⟩
      · simp [Linked, Forest.Rep, PartitionData.bh, PartitionData.sib, twoInodes]
      · rw [twoInodes_owner]
        simp only [keys, nodes]
        grind
    by_cases h3 : n = 3
    · subst h3
      refine ⟨.node 8 .nil .nil, ?_, by decide, fun b => ?_⟩
      · simp [Linked, Forest.Rep, PartitionData.bh, PartitionData.sib, twoInodes]
      · rw [twoInodes_owner]
        simp only [keys, nodes]
        grind
    · refine ⟨.nil, ?_, List.nodup_nil, fun b => ?_⟩
      · simp [Linked, Forest.Rep, twoInodes, h2, h3]
      · rw [twoInodes_owner]
        simp only [keys_nil, List.not_mem_nil]
        grind
  · intro b
    simp only [PartitionData.owner, PartitionData.bh, twoInodes, SBlock.blank]
    grind

theorem removeSinode_two :
    ∃ fuel₀, ∀ fuel ≥ fuel₀, ∃ p', removeSinode fuel 2 twoInodes = some p' ∧
      (∀ b, (p'.blist b).sbInode ≠ 2) ∧ (p'.ilist 2).siBh = 0 := by
  obtain ⟨fuel₀, hfrees⟩ := removeSinode_frees twoInodes_owned (show (2 : UInt32) ≠ 0 by decide)
  refine ⟨fuel₀, fun fuel hfuel => ?_⟩
  obtain ⟨p', hp', hgone, hinode, -⟩ := hfrees fuel hfuel
  exact ⟨p', hp', hgone, hinode.1⟩

end SBlktrace
