import SBlktrace.BlockTracking
import Mathlib

namespace SBlktrace

open Function Forest PartitionData

section Graft

variable {p : PartitionData} {n b h s : UInt32} {F A B : Forest UInt32} {G : Forest BlockNode}
  {parent current : Option UInt32} {l : List UInt32}

abbrev grafted (A : Forest UInt32) (G : Forest BlockNode) : Forest UInt32 :=
  A.append (G.map BlockNode.block)

theorem grafted_keys (A : Forest UInt32) (G : Forest BlockNode) :
    (grafted A G).keys id = A.keys id ++ G.blocks := by
  rw [keys_append, keys_map]
  rfl

section Replaced

variable {X Y K L M : List UInt32}

theorem mem_replaced (hX : X.Perm (K ++ L)) (hY : Y.Perm (K ++ M)) (hnodup : X.Nodup) :
    b ∈ Y ↔ (b ∈ X ∧ b ∉ L) ∨ b ∈ M := by
  have hapart := (List.nodup_append.mp (hX.nodup_iff.mp hnodup)).2.2
  rw [hY.mem_iff, hX.mem_iff, List.mem_append, List.mem_append]
  constructor
  · exact fun hb => hb.imp_left fun hkept => ⟨Or.inl hkept, fun hL => hapart b hkept b hL rfl⟩
  · rintro (⟨hb | hb, hnot⟩ | hb)
    · exact Or.inl hb
    · exact absurd hb hnot
    · exact Or.inr hb

theorem nodup_replaced (hX : X.Perm (K ++ L)) (hY : Y.Perm (K ++ M)) (hnodup : X.Nodup)
    (hM : M.Nodup) (hapart : ∀ b ∈ K, b ∉ M) : Y.Nodup := by
  rw [hY.nodup_iff, List.nodup_append]
  refine ⟨(List.nodup_append.mp (hX.nodup_iff.mp hnodup)).1, hM, ?_⟩
  rintro b hb c hc rfl
  exact hapart b hb hc

end Replaced

theorem sib_attached (hb : b ∉ G.blocks) (hcurrent : current ≠ some b) :
    (attached p n parent current G).sib b = p.sib b := by
  rw [attached, sib, blist_storeForest hb, sib]
  cases current with
  | some c =>
    change (update p.blist c { p.blist c with sbSib := G.first } b).sbSib = _
    rw [update_of_ne]
    rintro rfl
    exact hcurrent rfl
  | none =>
    cases parent with
    | some s =>
      change (update p.blist s { p.blist s with sbBh := G.first } b).sbSib = _
      by_cases hs : b = s
      · rw [hs, update_self]
      · rw [update_of_ne hs]
    | none => rfl

theorem linked_attached (hrep : p.Linked h (A.append B)) (hA : (A.keys id).Nodup)
    (hl : ∀ b ∈ A.keys id, b ∉ l) (hAG : ∀ b ∈ A.keys id, b ∉ G.blocks) (hG : G.blocks.Nodup)
    (hzero : (0 : UInt32) ∉ G.blocks) :
    (attached (p.unmapped l) n parent A.last G).Linked ((grafted A G).head id) (grafted A G) := by
  have hgraft : (attached (p.unmapped l) n parent A.last G).Linked G.first (G.map BlockNode.block) :=
    Rep.map BlockNode.block id (rep_store hG hzero)
  by_cases hnil : A = .nil
  · subst hnil
    have hhead : (G.map BlockNode.block).head id = G.first := head_map _ _ _
    rw [grafted, append, hhead]
    exact hgraft
  obtain ⟨c, hc⟩ := last_isSome hnil
  have hhead : (grafted A G).head id = h := by
    rw [hrep.head_eq]
    cases A with
    | nil => exact absurd rfl hnil
    | node a kids rest => rfl
  rw [hhead]
  apply Rep.append_congr hrep hA
  · intro k hk
    rw [bh_attached (hAG k hk), bh, blist_unmapped_of_notMem (hl k hk)]
    · rfl
    · rw [hc]
      rintro ⟨⟩
  · intro k hk hlast
    rw [sib_attached (hAG k hk), sib, blist_unmapped_of_notMem (hl k hk)]
    · rfl
    · intro hk'
      exact hlast k hk' rfl
  · intro a ha
    have hmem : a ∈ A.keys id := List.mem_map.mpr ⟨a, last_mem ha, rfl⟩
    have hsib : (attached (p.unmapped l) n parent A.last G).sib a = G.first := by
      rw [ha, attached, sib, blist_storeForest (hAG a hmem)]
      change (update (p.unmapped l).blist a _ a).sbSib = _
      rw [update_self]
    rw [id, hsib]
    exact hgraft
  · exact fun h => absurd h hnil

structure Chain (p : PartitionData) (n h : UInt32) (K : Forest UInt32) : Prop where
  linked : p.Linked h K
  nodup : (K.keys id).Nodup
  owner : ∀ b ∈ K.keys id, p.owner b = n

theorem Chain.disjoint (h : Chain p n b (A.append B)) : ∀ c ∈ A.keys id, c ∉ B.keys id := by
  have hnodup := h.nodup
  rw [keys_append] at hnodup
  intro c hA hB
  exact (List.nodup_append.mp hnodup).2.2 c hA c hB rfl

theorem Chain.kept (h : Chain p n b (A.append B)) :
    ∀ c ∈ A.keys id, (p.unmapped (B.keys id)).owner c = n := by
  intro c hc
  rw [owner_unmapped, if_neg (h.disjoint c hc)]
  apply h.owner
  rw [keys_append]
  exact List.mem_append_left _ hc

theorem PartitionData.Free.notMem (hfree : p.Free G) (hn : n ≠ 0) (hb : p.owner b = n) :
    b ∉ G.blocks := fun hin => hn (hb.symm.trans (hfree.owner b hin))

theorem Chain.graft (h : Chain p n b (A.append B)) (hn : n ≠ 0)
    (hfree : (p.unmapped (B.keys id)).Free G) (hzero : (0 : UInt32) ∉ G.blocks)
    (parent : Option UInt32) :
    (attached (p.unmapped (B.keys id)) n parent A.last G).Linked ((grafted A G).head id)
      (grafted A G) := by
  have hA := h.nodup
  rw [keys_append] at hA
  apply linked_attached h.linked (List.nodup_append.mp hA).1 h.disjoint _ hfree.nodup hzero
  exact fun c hc => hfree.notMem hn (h.kept c hc)

theorem Chain.place (h : Chain p n b (A.append B))
    (hparent : ∀ s, parent = some s → (p.unmapped (B.keys id)).owner s = n ∧
      ((p.unmapped (B.keys id)).blist s).sbLevel ≠ 0) :
    Place (p.unmapped (B.keys id)) n parent A.last := by
  refine ⟨fun c hc => h.kept c ?_, hparent⟩
  exact List.mem_map.mpr ⟨c, last_mem hc, rfl⟩

theorem PartitionData.Tracked.graftInode (h : p.Tracked) (hn : n ≠ 0) (hused : (p.ilist n).siMode ≠ 0)
    (hF : p.Owns n (A.append B)) (hfree : (p.unmapped (B.keys id)).Free G) (hleveled : G.Leveled)
    (hzero : (0 : UInt32) ∉ G.blocks) :
    (attached (p.unmapped (B.keys id)) n none A.last G).Owns n (grafted A G) ∧
      (attached (p.unmapped (B.keys id)) n none A.last G).Tracked := by
  have hchain : Chain p n (p.ilist n).siBh (A.append B) :=
    ⟨hF.linked, hF.nodup, fun b hb => (hF.mem_iff b).mp hb⟩
  have hplace : Place (p.unmapped (B.keys id)) n none A.last := by
    apply hchain.place
    rintro s hs
    cases hs
  have hhead : ((attached (p.unmapped (B.keys id)) n none A.last G).ilist n).siBh =
      (grafted A G).head id := by
    cases A with
    | nil =>
      have hfirst : (grafted .nil G).head id = G.first := head_map _ _ _
      rw [hfirst]
      exact attached_siBh G
    | node a kids rest =>
      obtain ⟨c, hc⟩ := last_isSome (show Forest.node a kids rest ≠ .nil by rintro ⟨⟩)
      rw [hc]
      exact hF.linked.head_eq
  have hlinked := hchain.graft hn hfree hzero none
  rw [← hhead] at hlinked
  have hold : ((A.append B).keys id).Perm (A.keys id ++ B.keys id) := by rw [keys_append]
  have hnew : ((grafted A G).keys id).Perm (A.keys id ++ G.blocks) := by rw [grafted_keys]
  have hnodup := nodup_replaced hold hnew hF.nodup hfree.nodup
    fun b hb => hfree.notMem hn (hchain.kept b hb)
  have howns := hF.grown hn hfree hlinked hnodup fun b => mem_replaced hold hnew hF.nodup
  refine ⟨howns, h.attach hn hused hF (fun b hb => ?_) hplace hfree hleveled howns⟩
  rw [keys_append]
  exact List.mem_append_right _ hb

theorem bh_attached_parent (hrep : p.Linked (p.bh s) (A.append B)) (hsG : s ∉ G.blocks)
    (hsl : s ∉ l) :
    (attached (p.unmapped l) n (some s) A.last G).bh s = (grafted A G).head id := by
  cases A with
  | nil =>
    have hfirst : (grafted .nil G).head id = G.first := head_map _ _ _
    rw [hfirst, attached, bh, blist_storeForest hsG]
    change (update (p.unmapped l).blist s _ s).sbBh = _
    rw [update_self]
  | node a kids rest =>
    obtain ⟨c, hc⟩ := last_isSome (show Forest.node a kids rest ≠ .nil by rintro ⟨⟩)
    rw [bh_attached hsG (by rw [hc]; rintro ⟨⟩), bh, blist_unmapped_of_notMem hsl]
    exact hrep.head_eq

theorem PartitionData.Tracked.graftKids (h : p.Tracked) (hn : n ≠ 0) (hused : (p.ilist n).siMode ≠ 0)
    (hF : p.Owns n F) (hs : s ∈ F.keys id) (hlevel : (p.blist s).sbLevel ≠ 0)
    (hkids : p.Linked (p.bh s) (A.append B)) (hset : F.setKids id s (A.append B) = F)
    (hfree : (p.unmapped (B.keys id)).Free G) (hleveled : G.Leveled) (hzero : (0 : UInt32) ∉ G.blocks) :
    (attached (p.unmapped (B.keys id)) n (some s) A.last G).Owns n (F.setKids id s (grafted A G)) ∧
      (attached (p.unmapped (B.keys id)) n (some s) A.last G).Tracked := by
  have hold := setKids_perm hF.nodup hs (A.append B)
  have hnew := setKids_perm hF.nodup hs (grafted A G)
  rw [hset] at hold
  have hsplit := hold.nodup_iff.mp hF.nodup
  obtain ⟨-, hkidsNodup, hapart⟩ := List.nodup_append.mp hsplit
  have hself : s ∈ (F.setKids id s .nil).keys id := mem_setKids_self hs .nil
  have hout : ∀ b ∈ (F.setKids id s .nil).keys id, b ∉ A.keys id ∧ b ∉ B.keys id := by
    intro b hb
    rw [← not_or, ← List.mem_append, ← keys_append]
    exact fun hin => hapart b hb b hin rfl
  have hown : ∀ b ∈ F.keys id, p.owner b = n := fun b hb => (hF.mem_iff b).mp hb
  have hchain : Chain p n (p.bh s) (A.append B) :=
    ⟨hkids, hkidsNodup, fun b hb => hown b (hold.mem_iff.mpr (List.mem_append_right _ hb))⟩
  have hkept : ∀ b ∈ (F.setKids id s .nil).keys id, (p.unmapped (B.keys id)).owner b = n := by
    intro b hb
    rw [owner_unmapped, if_neg (hout b hb).2]
    exact hown b (hold.mem_iff.mpr (List.mem_append_left _ hb))
  have hnot : ∀ b ∈ (F.setKids id s .nil).keys id, b ∉ G.blocks :=
    fun b hb => hfree.notMem hn (hkept b hb)
  have hplace : Place (p.unmapped (B.keys id)) n (some s) A.last := by
    apply hchain.place
    rintro s' hs'
    cases hs'
    refine ⟨hkept s hself, ?_⟩
    rw [blist_unmapped_of_notMem (hout s hself).2]
    exact hlevel
  have hlast : ∀ b ∈ (F.setKids id s .nil).keys id, A.last ≠ some b := by
    intro b hb hlast
    exact (hout b hb).1 (List.mem_map.mpr ⟨b, last_mem hlast, rfl⟩)
  have hlinked := hchain.graft hn hfree hzero (some s)
  rw [← bh_attached_parent hkids (hnot s hself) (hout s hself).2] at hlinked
  have hilist : (attached (p.unmapped (B.keys id)) n (some s) A.last G).ilist = p.ilist := by
    cases A.last <;> rfl
  have hrep : (attached (p.unmapped (B.keys id)) n (some s) A.last G).Linked
      ((attached (p.unmapped (B.keys id)) n (some s) A.last G).ilist n).siBh
      (F.setKids id s (grafted A G)) := by
    rw [hilist]
    apply Rep.setKids hF.linked hF.nodup hs hlinked
    · intro b hb
      rw [sib_attached (hnot b hb) (hlast b hb), sib, blist_unmapped_of_notMem (hout b hb).2]
      rfl
    · intro b hb hne
      rw [bh_attached (hnot b hb), bh, blist_unmapped_of_notMem (hout b hb).2]
      · rfl
      · rintro - hs'
        cases hs'
        exact hne rfl
  rw [keys_append, ← List.append_assoc] at hold
  rw [grafted_keys, ← List.append_assoc] at hnew
  have hnodup : ((F.setKids id s (grafted A G)).keys id).Nodup := by
    apply nodup_replaced hold hnew hF.nodup hfree.nodup
    intro b hb
    obtain hb | hb := List.mem_append.mp hb
    · exact hnot b hb
    · exact hfree.notMem hn (hchain.kept b hb)
  have howns := hF.grown hn hfree hrep hnodup fun b => mem_replaced hold hnew hF.nodup
  refine ⟨howns, h.attach hn hused hF (fun b hb => ?_) hplace hfree hleveled howns⟩
  exact hold.mem_iff.mpr (List.mem_append_right _ hb)

end Graft

end SBlktrace
