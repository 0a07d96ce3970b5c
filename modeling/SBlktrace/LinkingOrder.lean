import SBlktrace.StaleChains
import Mathlib

namespace SBlktrace

open Function Forest PartitionData

namespace PartitionData

def Below (p : PartitionData) (b a : UInt32) : Prop :=
  ∃ K : Forest UInt32, p.Linked (p.bh b) K ∧ a ∈ K.keys id

def LeavesEnd (p : PartitionData) : Prop := ∀ b, (p.blist b).sbLevel = 0 → p.bh b = 0

structure Treelike (p : PartitionData) : Prop where
  kids : ∀ b, ∃ K : Forest UInt32, p.Linked (p.bh b) K ∧ (K.keys id).Nodup ∧ b ∉ K.keys id
  leaf : p.LeavesEnd

/-- The cache without the blocks of an inode, which lose their contents where they are unmapped. -/
def othersCache (p : PartitionData) (n b : UInt32) : Option Buf :=
  if p.owner b = n then none else p.dataCache b

def PointersBelow (p : PartitionData) (c : UInt32) : Prop := ∀ b, p.bh b < c ∧ p.sib b < c

end PartitionData

/-- `remap_block` goes below a block that it links: it unmaps a block of the inode, and maps an indirect
block from the cache. -/
def Descends (p : PartitionData) (n : UInt32) (a : BlockNode) : Prop :=
  p.owner a.block = n ∨ a.level ≠ 0 ∧ p.dataCache a.block ≠ none

def Disturbs (p : PartitionData) (descends : BlockNode → Prop) (a : BlockNode) (b : UInt32) : Prop :=
  b = a.block ∨ descends a ∧ p.Below a.block b

/-- Linking the blocks, one after the other, changes none of a list and none that were linked before. -/
structure Orderly (p : PartitionData) (descends : BlockNode → Prop) (T : List UInt32)
    (F : Forest BlockNode) : Prop where
  kept : ∀ a ∈ F.nodes, ∀ b ∈ T, ¬Disturbs p descends a b
  linked : F.nodes.Pairwise fun a b => ¬Disturbs p descends b a.block

section Orderly

variable {p : PartitionData} {descends : BlockNode → Prop} {T : List UInt32} {a : BlockNode}
  {kids rest : Forest BlockNode}

theorem Orderly.notMem (h : Orderly p descends T (.node a kids rest)) : a.block ∉ T :=
  fun hin => h.kept a List.mem_cons_self _ hin (Or.inl rfl)

theorem Orderly.not_below (h : Orderly p descends T (.node a kids rest)) (ha : descends a) :
    ∀ b ∈ T, ¬p.Below a.block b :=
  fun b hb hbelow => h.kept a List.mem_cons_self b hb (Or.inr ⟨ha, hbelow⟩)

theorem Orderly.notMem_kids (h : Orderly p descends T (.node a kids rest)) : a.block ∉ kids.blocks := by
  intro hin
  obtain ⟨b, hb, heq⟩ := List.mem_map.mp hin
  obtain ⟨hroot, -⟩ := List.pairwise_cons.mp h.linked
  exact hroot b (List.mem_append_left _ hb) (Or.inl heq.symm)

theorem Orderly.nodup {F : Forest BlockNode} (h : Orderly p descends T F) : F.blocks.Nodup := by
  apply List.pairwise_map.mpr
  exact h.linked.imp fun hnot heq => hnot (Or.inl heq)

theorem Orderly.below (h : Orderly p descends T (.node a kids rest)) : Orderly p descends (T ++ [a.block]) kids := by
  obtain ⟨hroot, htail⟩ := List.pairwise_cons.mp h.linked
  refine ⟨fun b hb c hc => ?_, (List.pairwise_append.mp htail).1⟩
  rw [List.mem_append, List.mem_singleton] at hc
  obtain hc | rfl := hc
  · exact h.kept b (List.mem_cons_of_mem _ (List.mem_append_left _ hb)) c hc
  · exact hroot b (List.mem_append_left _ hb)

theorem Orderly.after (h : Orderly p descends T (.node a kids rest)) :
    Orderly p descends (T ++ a.block :: kids.blocks) rest := by
  obtain ⟨hroot, htail⟩ := List.pairwise_cons.mp h.linked
  obtain ⟨-, hrest, hcross⟩ := List.pairwise_append.mp htail
  refine ⟨fun b hb c hc => ?_, hrest⟩
  rw [List.mem_append, List.mem_cons] at hc
  obtain hc | rfl | hc := hc
  · exact h.kept b (List.mem_cons_of_mem _ (List.mem_append_right _ hb)) c hc
  · exact hroot b (List.mem_append_right _ hb)
  · obtain ⟨d, hd, rfl⟩ := List.mem_map.mp hc
    exact hcross d hd b hb

end Orderly

section Treelike

variable {p q q' : PartitionData} {x b c link n : UInt32} {l : List UInt32} {fuel : ℕ}
  {parent current : Option UInt32}

theorem not_below_of_bh (hb : p.bh b = 0) : ¬p.Below b c := by
  rintro ⟨K, hK, hin⟩
  rw [hb] at hK
  obtain rfl : K = .nil := Rep.unique hK rfl
  cases hin

theorem PartitionData.Tracked.treelike (h : p.Tracked) : p.Treelike := by
  constructor
  · intro b
    by_cases howner : p.owner b = 0
    · refine ⟨.nil, ?_, List.nodup_nil, List.not_mem_nil⟩
      change p.bh b = 0
      rw [bh, h.blank b howner]
      rfl
    · obtain ⟨F, hF⟩ := h.forest _ howner
      obtain ⟨K, hchain, hnot, -⟩ := hF.kids ((hF.mem_iff b).mpr rfl)
      exact ⟨K, hchain.linked, hchain.nodup, hnot⟩
  · intro b hlevel
    by_cases howner : p.owner b = 0
    · rw [bh, h.blank b howner]
      rfl
    · exact h.leaf b howner hlevel

theorem length_le_of_nodup (h : l.Nodup) : l.length ≤ 2 ^ 32 := by
  have hnodup : (l.map UInt32.toNat).Nodup := h.map fun a b => UInt32.toNat_inj.mp
  have hsub : (l.map UInt32.toNat).toFinset ⊆ Finset.range (2 ^ 32) := by
    intro k hk
    rw [List.mem_toFinset, List.mem_map] at hk
    obtain ⟨b, -, rfl⟩ := hk
    rw [Finset.mem_range]
    exact b.toNat_lt
  have hcard := Finset.card_le_card hsub
  rw [List.toFinset_card_of_nodup hnodup, List.length_map, Finset.card_range] at hcard
  exact hcard

theorem keys_id (K : Forest UInt32) : K.keys id = K.nodes := List.map_id _

theorem nodes_le_of_nodup {K : Forest UInt32} (h : (K.keys id).Nodup) : K.nodes.length ≤ 2 ^ 32 := by
  rw [keys_id] at h
  exact length_le_of_nodup h

theorem PartitionData.Treelike.unmapBlock (ht : p.Treelike)
    (hleft : ∀ b, b = x ∨ p.Below x b → Left p q b) (hfuel : 2 ^ 33 + 1 < fuel) (n : UInt32) :
    ∃ q', unmapBlock fuel x n q = some q' ∧ (∀ b, Left q q' b) ∧
      (∀ b, b ≠ x → ¬p.Below x b → q'.blist b = q.blist b) ∧ q'.ilist = q.ilist ∧
      (q.owner x = n → q'.blist x = .blank ∧ q'.dataCache x = none) := by
  obtain ⟨K, hK, hnodup, hnot⟩ := ht.kids x
  obtain ⟨fuel, rfl⟩ := Nat.exists_eq_add_of_le' (show 1 ≤ fuel by omega)
  have hx := hleft x (Or.inl rfl)
  obtain ⟨q', hq', hfades, hblank⟩ := @unmapBlock_fades q n x fuel (K.keys id) hnot
    (hx.leaf (ht.leaf x)) (by
      intro q₁ _ hsame
      have hlen := nodes_le_of_nodup hnodup
      apply unmapSiblings_fades hK hnodup (fun b _ => ht.leaf b) _ hx.bh (by omega)
      intro b hb
      rw [Left, (hsame b hb).1, (hsame b hb).2]
      exact hleft b (Or.inr ⟨K, hK, hb⟩))
  refine ⟨q', hq', hfades.left, fun b hne hbelow => ?_, hfades.ilist, hblank⟩
  apply (hfades.same b _).1
  rw [List.mem_cons, not_or]
  exact ⟨hne, fun hb => hbelow ⟨K, hK, hb⟩⟩

theorem not_below_self (ht : p.Treelike) (x : UInt32) : ¬p.Below x x := by
  rintro ⟨K, hK, hx⟩
  obtain ⟨K', hK', -, hnot⟩ := ht.kids x
  rw [Rep.unique hK hK'] at hx
  exact hnot hx

theorem exists_linked_of_left {h h' : UInt32} {K : Forest UInt32} (hK : p.Linked h K)
    (hleft : ∀ b ∈ K.keys id, Left p q b) (hstart : h' = h ∨ h' = 0) :
    ∃ K', q.Linked h' K' ∧ (K'.keys id).Sublist (K.keys id) := by
  induction K generalizing h h' with
  | nil => exact ⟨.nil, hstart.elim (fun heq => heq.trans hK) id, List.Sublist.refl _⟩
  | node a kids rest ihk ihr =>
    obtain ⟨hh, ha, hkids, hrest⟩ := hK
    rw [keys_node] at hleft
    have hlefta : Left p q a := hleft a List.mem_cons_self
    obtain hstart | hzero := hstart
    · obtain ⟨kids', hkids', hsubk⟩ := ihk hkids (fun b hb => hleft b (by simp [hb])) hlefta.bh
      obtain ⟨rest', hrest', hsubr⟩ := ihr hrest (fun b hb => hleft b (by simp [hb])) hlefta.sib
      refine ⟨.node a kids' rest', ⟨hstart.trans hh, ha, hkids', hrest'⟩, ?_⟩
      rw [keys_node, keys_node]
      exact (hsubk.append hsubr).cons_cons _
    · exact ⟨.nil, hzero, List.nil_sublist _⟩

theorem exists_linked_relinked {h h' : UInt32} {A B G : Forest UInt32} (hrep : p.Linked h (A.append B))
    (hnodup : (A.keys id).Nodup) (hroots : ∀ b ∈ A.roots, q.bh b = p.bh b)
    (hkids : ∀ b ∈ A.keys id, b ∉ A.roots → Left p q b)
    (hsame : ∀ b ∈ A.roots, A.roots.getLast? ≠ some b → q.sib b = p.sib b)
    (hlast : ∀ c, A.roots.getLast? = some c → q.Linked (q.sib c) G)
    (hstart : A ≠ .nil → h' = h) (hnil : A = .nil → q.Linked h' G) :
    ∃ K, q.Linked h' K ∧ (K.keys id).Sublist (A.keys id ++ G.keys id) := by
  induction A generalizing h h' with
  | nil => exact ⟨G, hnil rfl, List.Sublist.refl _⟩
  | node a kids rest _ ih =>
    obtain ⟨hh, ha, hkidsRep, hrest⟩ := hrep
    rw [keys_node] at hnodup hkids ⊢
    rw [roots] at hroots hkids hsame hlast
    obtain ⟨hnot, hnodup⟩ := List.nodup_cons.mp hnodup
    obtain ⟨-, hnodupr, hdisjoint⟩ := List.nodup_append.mp hnodup
    simp only [id, List.mem_append, not_or] at hnot
    have hrestKeys : ∀ b ∈ rest.roots, b ∈ rest.keys id := by
      intro b hb
      rw [keys_id]
      exact (roots_sublist rest).subset hb
    have hkidsLeft : ∀ b ∈ kids.keys id, Left p q b := by
      intro b hb
      apply hkids b (by simp [hb])
      rw [List.mem_cons, not_or]
      refine ⟨?_, fun hin => hdisjoint b hb b (hrestKeys b hin) rfl⟩
      rintro rfl
      exact hnot.1 hb
    have hrestLeft : ∀ b ∈ rest.keys id, b ∉ rest.roots → Left p q b := by
      intro b hb hb'
      apply hkids b (by simp [hb])
      rw [List.mem_cons, not_or]
      refine ⟨?_, hb'⟩
      rintro rfl
      exact hnot.2 hb
    have hgetLast : rest ≠ .nil → (a :: rest.roots).getLast? = rest.roots.getLast? := by
      intro hne
      cases rest with
      | nil => exact absurd rfl hne
      | node c kids rest => rfl
    obtain ⟨kids', hkids', hsubk⟩ :=
      exists_linked_of_left hkidsRep hkidsLeft (Or.inl (hroots a List.mem_cons_self))
    obtain ⟨rest', hrest', hsubr⟩ : ∃ K, q.Linked (q.sib a) K ∧
        (K.keys id).Sublist (rest.keys id ++ G.keys id) := by
      apply ih hrest hnodupr (fun b hb => hroots b (List.mem_cons_of_mem _ hb)) hrestLeft
      · intro b hb hne
        apply hsame b (List.mem_cons_of_mem _ hb)
        rw [hgetLast]
        · exact hne
        · rintro rfl
          cases hb
      · intro c hc
        apply hlast c
        rw [hgetLast]
        · exact hc
        · rintro rfl
          cases hc
      · intro hne
        apply hsame a List.mem_cons_self
        rw [hgetLast hne]
        exact fun heq => hnot.2 (hrestKeys a (List.mem_of_getLast? heq))
      · rintro rfl
        exact hlast a rfl
    refine ⟨.node a kids' rest', ⟨(hstart (by rintro ⟨⟩)).trans hh, ha, hkids', hrest'⟩, ?_⟩
    rw [keys_node, List.cons_append, List.append_assoc]
    exact (hsubk.append hsubr).cons_cons _

theorem PartitionData.Treelike.left (ht : p.Treelike) (hleft : ∀ b, Left p q b) : q.Treelike := by
  constructor
  · intro b
    obtain ⟨K, hK, hnodup, hnot⟩ := ht.kids b
    obtain ⟨K', hK', hsub⟩ := exists_linked_of_left hK (fun b _ => hleft b) (hleft b).bh
    exact ⟨K', hK', hsub.nodup hnodup, fun hin => hnot (hsub.subset hin)⟩
  · intro b
    exact (hleft b).leaf (ht.leaf b)

theorem Left.pointers (h : Left p q b) (hp : p.bh b < c ∧ p.sib b < c) : q.bh b < c ∧ q.sib b < c := by
  have hzero : 0 < c := UInt32.lt_of_le_of_lt UInt32.zero_le hp.1
  obtain hbh | hbh := h.bh <;> obtain hsib | hsib := h.sib <;> rw [hbh, hsib]
  · exact hp
  · exact ⟨hp.1, hzero⟩
  · exact ⟨hzero, hp.2⟩
  · exact ⟨hzero, hzero⟩

theorem pointersBelow_of_left (h : ∀ b, Left p q b) (hp : p.PointersBelow c) : q.PointersBelow c :=
  fun b => (h b).pointers (hp b)

theorem pointersBelow_setBlock {sblock : SBlock} (hp : p.PointersBelow c)
    (hbh : sblock.sbBh < c) (hsib : sblock.sbSib < c) : (p.setBlock x sblock).PointersBelow c := by
  intro b
  by_cases hb : b = x
  · subst hb
    have hself : (p.setBlock b sblock).blist b = sblock := update_self _ _ _
    rw [bh, sib, hself]
    exact ⟨hbh, hsib⟩
  · have hother : (p.setBlock x sblock).blist b = p.blist b := update_of_ne hb _ _
    rw [bh, sib, hother]
    exact hp b

theorem pointersBelow_linkNext (hp : p.PointersBelow c) (hlink : link < c) :
    (p.linkNext n parent current link).PointersBelow c := by
  cases current with
  | some s => exact pointersBelow_setBlock hp (hp s).1 hlink
  | none =>
    cases parent with
    | some s => exact pointersBelow_setBlock hp hlink (hp s).2
    | none => exact hp

end Treelike

structure Taken (n : UInt32) (q q' : PartitionData) : Prop where
  owner : ∀ b, q'.owner b = q.owner b ∨ q'.owner b = n ∨ q'.owner b = 0
  leaves : q.LeavesEnd → q'.LeavesEnd

section Taken

variable {q q' q'' : PartitionData} {n x link : UInt32} {parent current : Option UInt32}

theorem Taken.refl (n : UInt32) (q : PartitionData) : Taken n q q := ⟨fun _ => .inl rfl, id⟩

theorem Taken.trans (h : Taken n q q') (h' : Taken n q' q'') : Taken n q q'' := by
  refine ⟨fun b => ?_, fun hq => h'.leaves (h.leaves hq)⟩
  obtain howner | hfree := h'.owner b
  · rw [howner]
    exact h.owner b
  · exact .inr hfree

theorem Taken.of_left (h : ∀ b, Left q q' b) (n : UInt32) : Taken n q q' :=
  ⟨fun b => (h b).owner.imp_right .inr, fun hq b => (h b).leaf (hq b)⟩

theorem Taken.setBlock {sblock : SBlock}
    (howner : sblock.sbInode = q.owner x ∨ sblock.sbInode = n ∨ sblock.sbInode = 0)
    (hleaf : sblock.sbLevel = 0 → q.LeavesEnd → sblock.sbBh = 0) : Taken n q (q.setBlock x sblock) := by
  have hself : (q.setBlock x sblock).blist x = sblock := update_self _ _ _
  have hother : ∀ b ≠ x, (q.setBlock x sblock).blist b = q.blist b := fun b hb => update_of_ne hb _ _
  refine ⟨fun b => ?_, fun hq b hlevel => ?_⟩
  · obtain rfl | hb := eq_or_ne b x
    · rw [PartitionData.owner, hself]
      exact howner
    · exact .inl (congrArg SBlock.sbInode (hother b hb))
  · obtain rfl | hb := eq_or_ne b x
    · rw [hself] at hlevel
      rw [bh, hself]
      exact hleaf hlevel hq
    · rw [hother b hb] at hlevel
      rw [bh, hother b hb]
      exact hq b hlevel

theorem Taken.linkNext (hlevel : ∀ s, parent = some s → link = 0 ∨ (q.blist s).sbLevel ≠ 0) :
    Taken n q (q.linkNext n parent current link) := by
  cases current with
  | some c => exact .setBlock (.inl rfl) fun hzero hq => hq c hzero
  | none =>
    cases parent with
    | some s => exact .setBlock (.inl rfl) fun hzero _ => (hlevel s rfl).resolve_right (not_not_intro hzero)
    | none => exact ⟨fun _ => .inl rfl, id⟩

end Taken

/-- A block was linked, with what its cached contents link below it; where all of it was `clean` before,
what lies below it ends. -/
structure Linking (extdesc : ExtDesc) (q q' : PartitionData) (n : UInt32) (parent current : Option UInt32)
    (T : List UInt32) (a : BlockNode) (kids : Forest BlockNode) (clean : Prop) : Prop where
  kept : ∀ b ∈ T, q'.blist b = (q.linkNext n parent current a.block).blist b
  ilist : q'.ilist = (q.linkNext n parent current a.block).ilist
  left : ∀ b ∉ T ++ a.block :: kids.blocks, Left q q' b
  pointers : q.PointersBelow extdesc.sb.sBlocksCount → q'.PointersBelow extdesc.sb.sBlocksCount
  taken : Taken n q q'
  placed : (q'.blist a.block).sbLevel = a.level ∧ (q'.blist a.block).sbOffset = a.offset ∧
    (q'.blist a.block).sbInode = n
  sib : q'.sib a.block = q.sib a.block ∨ q'.sib a.block = 0
  finite : clean → q'.sib a.block = 0 ∧ ∃ K : Forest UInt32, q'.Linked (q'.bh a.block) K ∧
    (K.keys id).Sublist kids.blocks

/-- Blocks were linked in place of a chain's end; what was linked before stays. -/
structure Links (extdesc : ExtDesc) (q q' : PartitionData) (n : UInt32) (parent current : Option UInt32)
    (T : List UInt32) (F : Forest BlockNode) (clean : Prop) : Prop where
  kept : ∀ b ∈ T, q'.blist b = (q.linkNext n parent current (q'.nextLink n parent current)).blist b
  ilist : q'.ilist = (q.linkNext n parent current (q'.nextLink n parent current)).ilist
  left : ∀ b ∉ T ++ F.blocks, Left q q' b
  pointers : q.PointersBelow extdesc.sb.sBlocksCount → q'.PointersBelow extdesc.sb.sBlocksCount
  taken : Taken n q q'
  finite : clean →
    (q'.nextLink n parent current = q.nextLink n parent current → q.nextLink n parent current = 0) →
    ∃ K : Forest UInt32, q'.Linked (q'.nextLink n parent current) K ∧ (K.keys id).Sublist F.blocks

def Clean (p : PartitionData) (n : UInt32) (F : Forest BlockNode) : Prop :=
  ∀ b ∈ F.blocks, p.blist b = .blank ∨ p.owner b = n

section Links

variable {extdesc : ExtDesc} {p q q' q'' : PartitionData} {n : UInt32} {parent current : Option UInt32}
  {descends : BlockNode → Prop} {T : List UInt32} {a : BlockNode} {kids rest F : Forest BlockNode}
  {clean clean' : Prop}

theorem Clean.node (h : Clean p n (.node a kids rest)) :
    ((p.blist a.block = .blank ∨ p.owner a.block = n) ∧ Clean p n kids) ∧ Clean p n rest := by
  rw [Clean, blocks, keys_node] at h
  obtain ⟨hroot, hrest⟩ := List.forall_mem_cons.mp h
  exact ⟨⟨hroot, fun b hb => hrest b (List.mem_append_left _ hb)⟩,
    fun b hb => hrest b (List.mem_append_right _ hb)⟩

theorem Links.refl (extdesc : ExtDesc) (q : PartitionData) (n : UInt32) (parent current : Option UInt32)
    (T : List UInt32) (F : Forest BlockNode) (clean : Prop) :
    Links extdesc q q n parent current T F clean := by
  refine ⟨fun b _ => ?_, ?_, fun b _ => Left.refl q b, id, .refl n q,
    fun _ hzero => ⟨.nil, hzero rfl, List.nil_sublist _⟩⟩
  · rw [linkNext_self]
  · rw [linkNext_self]

theorem Links.mono (h : Links extdesc q q' n parent current T F clean) (hclean : clean' → clean) :
    Links extdesc q q' n parent current T F clean' :=
  ⟨h.kept, h.ilist, h.left, h.pointers, h.taken, fun hc => h.finite (hclean hc)⟩

theorem Linking.mono (h : Linking extdesc q q' n parent current T a kids clean) (hclean : clean' → clean) :
    Linking extdesc q q' n parent current T a kids clean' :=
  ⟨h.kept, h.ilist, h.left, h.pointers, h.taken, h.placed, h.sib, fun hc => h.finite (hclean hc)⟩

theorem Links.stay (h : Links extdesc q q' n parent current T F clean) {b : UInt32} (hb : b ∈ T)
    (hcurrent : current ≠ some b) (hparent : current = none → parent ≠ some b) : q'.blist b = q.blist b := by
  rw [h.kept b hb, linkNext_blist]
  · rintro c hc rfl
    exact hcurrent hc
  · rintro s hnone hs rfl
    exact hparent hnone hs

theorem nextLink_congr (hparent : ∀ s, parent = some s → q'.blist s = q.blist s)
    (hcurrent : ∀ c, current = some c → q'.blist c = q.blist c) (hilist : q'.ilist = q.ilist) :
    q'.nextLink n parent current = q.nextLink n parent current := by
  cases current with
  | some c => exact congrArg SBlock.sbSib (hcurrent c rfl)
  | none =>
    cases parent with
    | some s => exact congrArg SBlock.sbBh (hparent s rfl)
    | none =>
      change (q'.ilist n).siBh = (q.ilist n).siBh
      rw [hilist]

theorem Linking.nextLink (h : Linking extdesc q q' n parent current T a kids clean)
    (hparent : ∀ s, parent = some s → s ∈ T) (hcurrent : ∀ c, current = some c → c ∈ T) :
    q'.nextLink n parent current = a.block := by
  rw [nextLink_congr (fun s hs => h.kept s (hparent s hs)) (fun c hc => h.kept c (hcurrent c hc)) h.ilist]
  exact nextLink_linkNext _

theorem Linking.cons (h : Linking extdesc q q' n parent current T a kids clean)
    (h' : Links extdesc q' q'' n parent (some a.block) (T ++ a.block :: kids.blocks) rest clean')
    (hparent : ∀ s, parent = some s → s ∈ T) (hcurrent : ∀ c, current = some c → c ∈ T)
    (ha : a.block ∉ T) (hne : a.block ≠ 0) (hkids : a.block ∉ kids.blocks) :
    Links extdesc q q'' n parent current T (.node a kids rest) (clean ∧ clean') ∧
      q''.nextLink n parent current = a.block ∧
      ((q''.blist a.block).sbLevel = a.level ∧ (q''.blist a.block).sbOffset = a.offset ∧
        (q''.blist a.block).sbInode = n) := by
  have hsame : ∀ b ∈ T ++ a.block :: kids.blocks, b ≠ a.block → q''.blist b = q'.blist b := by
    intro b hb hba
    rw [h'.kept b hb]
    exact update_of_ne hba _ _
  have hT : ∀ b ∈ T, q''.blist b = q'.blist b := by
    intro b hb
    apply hsame b (List.mem_append_left _ hb)
    rintro rfl
    exact ha hb
  have hilist : q''.ilist = q'.ilist := h'.ilist
  have hnext : q''.nextLink n parent current = a.block := by
    rw [nextLink_congr (fun s hs => hT s (hparent s hs)) (fun c hc => hT c (hcurrent c hc)) hilist]
    exact h.nextLink hparent hcurrent
  have hself : q''.blist a.block = { q'.blist a.block with sbSib := q''.sib a.block } := by
    rw [h'.kept a.block (List.mem_append_right _ List.mem_cons_self)]
    exact update_self _ _ _
  refine ⟨⟨fun b hb => ?_, ?_, fun b hb => ?_, fun hp => h'.pointers (h.pointers hp), h.taken.trans h'.taken, ?_⟩,
    hnext, ?_⟩
  · rw [hnext, hT b hb, h.kept b hb]
  · rw [hnext, hilist, h.ilist]
  · rw [blocks, keys_node] at hb
    have hb' : b ∉ (T ++ a.block :: kids.blocks) ++ rest.blocks := by
      rw [List.append_assoc, List.cons_append]
      exact hb
    exact (h.left b fun hin => hb' (List.mem_append_left _ hin)).trans (h'.left b hb')
  · intro hclean _
    obtain ⟨hsib, K, hK, hsub⟩ := h.finite hclean.1
    obtain ⟨G, hG, hsub'⟩ := h'.finite hclean.2 fun _ => hsib
    refine ⟨.node a.block K G, ⟨hnext, hne, ?_, hG⟩, ?_⟩
    · have hbh : q''.bh a.block = q'.bh a.block := by
        rw [bh, hself]
        rfl
      rw [id, hbh]
      apply Linked.congr hK
      intro b hb
      apply hsame b (List.mem_append_right _ (List.mem_cons_of_mem _ (hsub.subset hb)))
      rintro rfl
      exact hkids (hsub.subset hb)
    · rw [blocks, keys_node, keys_node]
      exact (hsub.append hsub').cons_cons _
  · rw [hself]
    exact h.placed

def Remaps (extdesc : ExtDesc) (p : PartitionData) (descends : BlockNode → Prop) (n : UInt32) (level : ℕ) (x offset : UInt32) (buf : Buf)
    (kids : Forest BlockNode) (remap : UInt32 → Buf → PartitionData → Option PartitionData) : Prop :=
  ∀ T q, x ∈ T → (∀ b ∉ T, Left p q b) → (∀ b ∈ T, ¬p.Below x b) →
    (q.blist x).sbLevel = UInt8.ofNat level → (q.blist x).sbOffset = offset → q.owner x = n →
    (q.bh x = p.bh x ∨ q.bh x = 0) → Orderly p descends T kids →
    ∃ q', remap x buf q = some q' ∧ Links extdesc q q' n (some x) none T kids (Clean p n kids)

theorem linkNext_dataCache (q : PartitionData) (link : UInt32) :
    (q.linkNext n parent current link).dataCache = q.dataCache := by
  cases current with
  | some c => rfl
  | none => cases parent <;> rfl

section Place

variable {link : UInt32}

theorem linkNext_blist_of_notMem (hparent : ∀ s, parent = some s → s ∈ T)
    (hcurrent : ∀ c, current = some c → c ∈ T) {b : UInt32} (hb : b ∉ T) :
    (q.linkNext n parent current link).blist b = q.blist b := by
  apply linkNext_blist
  · rintro c hc rfl
    exact hb (hcurrent c hc)
  · rintro s - hs rfl
    exact hb (hparent s hs)

theorem linking_setBlock (hparent : ∀ s, parent = some s → s ∈ T)
    (hcurrent : ∀ c, current = some c → c ∈ T) (ha : a.block ∉ T)
    (hrange : a.block < extdesc.sb.sBlocksCount)
    (hlevel : ∀ s, parent = some s → (q.blist s).sbLevel ≠ 0)
    (hblank : clean → q.blist a.block = .blank)
    {sblock : SBlock} (hleaf : sblock.sbLevel = 0 → sblock.sbBh = 0)
    (hplaced : sblock.sbLevel = a.level ∧ sblock.sbOffset = a.offset ∧ sblock.sbInode = n)
    (hsib : sblock.sbSib = q.sib a.block) (hbh : sblock.sbBh = q.bh a.block ∨ sblock.sbBh = 0)
    (kids : Forest BlockNode) :
    Linking extdesc q ((q.linkNext n parent current a.block).setBlock a.block sblock) n parent current T
      a kids clean := by
  have hself : ((q.linkNext n parent current a.block).setBlock a.block sblock).blist a.block = sblock :=
    update_self _ _ _
  have hother : ∀ b ≠ a.block,
      ((q.linkNext n parent current a.block).setBlock a.block sblock).blist b =
        (q.linkNext n parent current a.block).blist b := fun b hb => update_of_ne hb _ _
  have htaken : Taken n q ((q.linkNext n parent current a.block).setBlock a.block sblock) :=
    (Taken.linkNext fun s hs => .inr (hlevel s hs)).trans
      (.setBlock (.inr (.inl hplaced.2.2)) fun hzero _ => hleaf hzero)
  refine ⟨fun b hb => ?_, rfl, fun b hb => ?_, fun hp => ?_, htaken, ?_, .inl ?_, fun hclean => ?_⟩
  · apply hother
    rintro rfl
    exact ha hb
  · rw [List.mem_append, List.mem_cons, not_or, not_or] at hb
    apply Left.of_same
    · rw [hother b hb.2.1, linkNext_blist_of_notMem hparent hcurrent hb.1]
    · exact congrFun (linkNext_dataCache q a.block) b
  · have hzero : 0 < extdesc.sb.sBlocksCount := UInt32.lt_of_le_of_lt UInt32.zero_le hrange
    apply pointersBelow_setBlock (pointersBelow_linkNext hp hrange)
    · obtain hbh | hbh := hbh
      · rw [hbh]
        exact (hp a.block).1
      · rw [hbh]
        exact hzero
    · rw [hsib]
      exact (hp a.block).2
  · rw [hself]
    exact hplaced
  · rw [PartitionData.sib, hself]
    exact hsib
  · have hb := hblank hclean
    rw [sib, bh, hself, hsib, sib, hb]
    refine ⟨rfl, .nil, ?_, List.nil_sublist _⟩
    obtain hbh | hbh := hbh
    · rw [hbh, bh, hb]
      rfl
    · exact hbh

theorem Linking.remap {level : ℕ} {buf : Buf} (ht : p.Treelike)
    {remap : UInt32 → Buf → PartitionData → Option PartitionData}
    (hremap : Remaps extdesc p descends n level a.block a.offset buf kids remap)
    (hlevel : a.level = UInt8.ofNat level) (hleft : ∀ b ∉ T, Left p q b) (hnot : a.block ∉ T)
    (horder : Orderly p descends (T ++ [a.block]) kids) (hwalk : ∀ b ∈ T, ¬p.Below a.block b)
    (h : Linking extdesc q q' n parent current T a .nil clean) (hcache : q'.bh a.block = q.bh a.block) :
    ∃ q'', remap a.block buf q' = some q'' ∧
      Linking extdesc q q'' n parent current T a kids (clean ∧ Clean p n kids) := by
  have hout : ∀ b ∉ T ++ [a.block], Left q q' b := h.left
  obtain ⟨q'', hq'', hlinks⟩ := hremap (T ++ [a.block]) q' (by simp) (by
      intro b hb
      refine (hleft b ?_).trans (hout b hb)
      exact fun hin => hb (List.mem_append_left _ hin)) (by
      intro b hb
      rw [List.mem_append, List.mem_singleton] at hb
      obtain hb | rfl := hb
      · exact hwalk b hb
      · exact not_below_self ht _)
    (h.placed.1.trans hlevel) h.placed.2.1 h.placed.2.2 (by
      rw [hcache]
      exact (hleft _ hnot).bh) horder
  have hself : q''.blist a.block = { q'.blist a.block with sbBh := q''.bh a.block } := by
    rw [hlinks.kept a.block (by simp)]
    exact update_self _ _ _
  refine ⟨q'', hq'', fun b hb => ?_, hlinks.ilist.trans h.ilist, fun b hb => ?_,
    fun hp => hlinks.pointers (h.pointers hp), h.taken.trans hlinks.taken, ?_, ?_, fun hclean => ?_⟩
  · rw [hlinks.kept b (List.mem_append_left _ hb), ← h.kept b hb]
    apply update_of_ne
    rintro rfl
    exact hnot hb
  · have hb' : b ∉ (T ++ [a.block]) ++ kids.blocks := by
      rw [List.append_assoc]
      exact hb
    exact (hout b fun hin => hb' (List.mem_append_left _ hin)).trans (hlinks.left b hb')
  · rw [hself]
    exact h.placed
  · rw [PartitionData.sib, hself]
    exact h.sib
  · obtain ⟨hsib, K, hK, hsub⟩ := h.finite hclean.1
    have hzero : q'.nextLink n (some a.block) none = 0 := by
      cases K with
      | nil => exact hK
      | node b kids' rest' => exact absurd (hsub.subset List.mem_cons_self) List.not_mem_nil
    refine ⟨?_, hlinks.finite hclean.2 fun _ => hzero⟩
    rw [PartitionData.sib, hself]
    exact hsib

theorem mapLinked_linking {level : ℕ} (hlevel : level ≤ 3) {offset : UInt32}
    {remap : UInt32 → Buf → PartitionData → Option PartitionData} (ht : p.Treelike)
    (hleft : ∀ b ∉ T, Left p q b) (hblank : clean → q.blist link = .blank)
    (hparent : ∀ s, parent = some s → s ∈ T) (hcurrent : ∀ c, current = some c → c ∈ T)
    (hparentLevel : ∀ s, parent = some s → (q.blist s).sbLevel ≠ 0)
    (hrange : link < extdesc.sb.sBlocksCount) (hnot : link ∉ T)
    (horder : Orderly p descends (T ++ [link]) kids)
    (hwalk : UInt8.ofNat level ≠ 0 → q.dataCache link ≠ none → ∀ b ∈ T, ¬p.Below link b)
    (hremap : level ≠ 0 → ∀ buf, q.dataCache link = some buf →
      Remaps extdesc p descends n level link offset buf kids remap) :
    ∃ q', mapLinked remap link offset
        ((q.linkNext n parent current link).setBlock link
          { (q.linkNext n parent current link).blist link with
            sbLevel := UInt8.ofNat level, sbInode := n }) = some q' ∧
      Linking extdesc q q' n parent current T ⟨link, UInt8.ofNat level, offset⟩ kids
        (clean ∧ Clean p n kids) := by
  have hset : (((q.linkNext n parent current link).setBlock link
      { (q.linkNext n parent current link).blist link with
        sbLevel := UInt8.ofNat level, sbInode := n }).setBlock link
      { ((q.linkNext n parent current link).setBlock link
        { (q.linkNext n parent current link).blist link with
          sbLevel := UInt8.ofNat level, sbInode := n }).blist link with sbOffset := offset }) =
      (q.linkNext n parent current link).setBlock link
        ⟨UInt8.ofNat level, offset, q.sib link, q.bh link, n⟩ := by
    rw [linkNext_blist_of_notMem hparent hcurrent hnot, setBlock, setBlock]
    dsimp only
    rw [update_self, update_idem]
    rfl
  have hplace (bh : UInt32) (hbh : bh = q.bh link ∨ bh = 0) (hleaf : UInt8.ofNat level = 0 → bh = 0)
      (kids : Forest BlockNode) :=
    @linking_setBlock extdesc q n parent current T ⟨link, UInt8.ofNat level, offset⟩ clean hparent hcurrent
      hnot hrange hparentLevel hblank ⟨UInt8.ofNat level, offset, q.sib link, bh, n⟩ hleaf ⟨rfl, rfl, rfl⟩ rfl
      hbh kids
  have hblock : ((q.linkNext n parent current link).setBlock link
      ⟨UInt8.ofNat level, offset, q.sib link, q.bh link, n⟩).blist link =
        ⟨UInt8.ofNat level, offset, q.sib link, q.bh link, n⟩ := update_self _ _ _
  rw [mapLinked]
  dsimp only
  rw [hset, hblock]
  dsimp only
  by_cases hzero : level = 0
  · subst hzero
    have hlevel₀ : UInt8.ofNat 0 = 0 := rfl
    rw [if_pos hlevel₀]
    refine ⟨_, rfl, ?_⟩
    have hbh : ((q.linkNext n parent current link).setBlock link
        ⟨UInt8.ofNat 0, offset, q.sib link, q.bh link, n⟩).setBh link 0 =
          (q.linkNext n parent current link).setBlock link ⟨UInt8.ofNat 0, offset, q.sib link, 0, n⟩ := by
      rw [setBh, hblock, setBlock, setBlock]
      dsimp only
      rw [update_idem]
      rfl
    rw [hbh]
    exact (hplace 0 (Or.inr rfl) (fun _ => rfl) kids).mono And.left
  · have hne := ofNat_level_ne_zero (Nat.pos_of_ne_zero hzero) hlevel
    rw [if_neg hne]
    have hleaf : UInt8.ofNat level = 0 → q.bh link = 0 := fun hzero => absurd hzero hne
    have hcache : ((q.linkNext n parent current link).setBlock link
        ⟨UInt8.ofNat level, offset, q.sib link, q.bh link, n⟩).dataCache = q.dataCache :=
      linkNext_dataCache q link
    rw [hcache]
    cases hbuf : q.dataCache link with
    | none => exact ⟨_, rfl, (hplace _ (Or.inl rfl) hleaf kids).mono And.left⟩
    | some buf =>
      have hbh : ((q.linkNext n parent current link).setBlock link
          ⟨UInt8.ofNat level, offset, q.sib link, q.bh link, n⟩).bh link = q.bh link := by
        rw [bh, hblock]
      have hcached : q.dataCache link ≠ none := by
        rw [hbuf]
        rintro ⟨⟩
      exact (hplace _ (Or.inl rfl) hleaf .nil).remap ht (hremap hzero buf hbuf) rfl hleft hnot horder
        (hwalk hne hcached) hbh

end Place

end Links

end SBlktrace
