import SBlktrace.ChainUpdate
import Mathlib

namespace Forest

open SBlktrace Function

def Leveled : Forest BlockNode → Prop
  | .nil => True
  | .node a kids rest => a.level ≤ 3 ∧ (a.level = 0 → kids = .nil) ∧ kids.Leveled ∧ rest.Leveled

theorem Leveled.store {F : Forest BlockNode} {n b : UInt32} {blist : UInt32 → SBlock} (h : F.Leveled)
    (hnodup : F.blocks.Nodup) (hb : b ∈ F.blocks) :
    (F.store n blist b).sbLevel ≤ 3 ∧
      ((F.store n blist b).sbLevel = 0 → (F.store n blist b).sbBh = 0) ∧
      (F.store n blist b).sbInode = n := by
  induction F generalizing blist with
  | nil => cases hb
  | node a kids rest ihk ihr =>
    obtain ⟨hlevel, hleaf, hkids, hrest⟩ := h
    rw [blocks, keys_node] at hnodup hb
    obtain ⟨hnot, hnodup⟩ := List.nodup_cons.mp hnodup
    obtain ⟨hnodupk, hnodupr, hdisjoint⟩ := List.nodup_append.mp hnodup
    simp only [List.mem_append, not_or] at hnot
    rw [Forest.store]
    obtain rfl | hb := List.mem_cons.mp hb
    · rw [store_of_notMem hnot.2, store_of_notMem hnot.1, update_self]
      refine ⟨hlevel, fun hzero => ?_, rfl⟩
      rw [hleaf hzero]
      rfl
    obtain hb | hb := List.mem_append.mp hb
    · have hnot' : b ∉ rest.blocks := fun hin => hdisjoint b hb b hin rfl
      rw [store_of_notMem hnot']
      exact ihk hkids hnodupk hb
    · exact ihr hrest hnodupr hb

theorem Leveled.append {F G : Forest BlockNode} (hF : F.Leveled) (hG : G.Leveled) :
    (F.append G).Leveled := by
  induction F with
  | nil => exact hG
  | node a kids rest _ ih =>
    obtain ⟨hlevel, hleaf, hkids, hrest⟩ := hF
    exact ⟨hlevel, hleaf, hkids, ih hrest⟩

end Forest

namespace SBlktrace

open Function Forest PartitionData

section Leveled

variable {read : UInt32 → List UInt32} {off : ℕ → UInt32 → ℕ → UInt32}

theorem ofNat_level_le {level : ℕ} (hlevel : level ≤ 3) : UInt8.ofNat level ≤ 3 := by
  interval_cases level <;> decide

theorem linkForest_leveled {sub : ℕ → UInt32 → UInt32 → Forest BlockNode} {level : ℕ → ℕ}
    {offset : ℕ → UInt32} {top : ℕ} (hlevel : ∀ i < top, level i ≤ 3)
    (hsub : ∀ i < top, ∀ link, (sub (level i) link (offset i)).Leveled)
    (hleaf : ∀ i < top, level i = 0 → ∀ link, sub 0 link (offset i) = .nil) (ls : List UInt32) (i : ℕ)
    (htop : i + ls.length ≤ top) : (linkForest sub level offset ls i).Leveled := by
  induction ls generalizing i with
  | nil => trivial
  | cons link ls ih =>
    rw [List.length_cons] at htop
    have hrest := ih (i + 1) (by omega)
    by_cases hlink : link = 0
    · rw [hlink, linkForest_zero]
      exact hrest
    rw [linkForest_cons hlink]
    refine ⟨ofNat_level_le (hlevel i (by omega)), fun hzero => ?_, hsub i (by omega) link, hrest⟩
    have hzero' : level i = 0 := by
      by_contra hne
      exact ofNat_level_ne_zero (Nat.pos_of_ne_zero hne) (hlevel i (by omega)) hzero
    change sub (level i) link (offset i) = .nil
    rw [hzero']
    exact hleaf i (by omega) hzero' link

theorem blockKids_leveled {level : ℕ} (hlevel : level ≤ 3) (blockid o : UInt32) :
    (blockKids read off level blockid o).Leveled := by
  induction level generalizing blockid o with
  | zero => trivial
  | succ level ih =>
    apply @linkForest_leveled (fun _ => blockKids read off level) (fun _ => level)
      (off (level + 1) o) _ (fun _ _ => by omega) (fun i _ link => ih (by omega) link _) _ _ 0
      (Nat.zero_add _).le
    rintro i - rfl link
    rfl

end Leveled

namespace PartitionData

/-- The blocks of the inodes are trees of their own, and the blocks of no inode are blank. -/
structure Tracked (p : PartitionData) : Prop extends p.Owned where
  blank : ∀ b, p.owner b = 0 → p.blist b = .blank
  level : ∀ b, (p.blist b).sbLevel ≤ 3
  unused : ∀ n, (p.ilist n).siMode = 0 → (p.ilist n).siBh = 0

structure Free (p : PartitionData) (F : Forest BlockNode) : Prop where
  nodup : F.blocks.Nodup
  owner : ∀ b ∈ F.blocks, p.owner b = 0

end PartitionData

section Attach

variable {p : PartitionData} {n m b : UInt32} {F F' H : Forest UInt32} {G : Forest BlockNode}
  {parent current : Option UInt32} {l : List UInt32}

theorem owner_unmapped (p : PartitionData) (l : List UInt32) (b : UInt32) :
    (p.unmapped l).owner b = if b ∈ l then 0 else p.owner b := by
  change ((p.unmapped l).blist b).sbInode = _
  rw [blist_unmapped]
  split <;> rfl

theorem blank_unmapped (hblank : ∀ b, p.owner b = 0 → p.blist b = .blank) (l : List UInt32)
    (howner : (p.unmapped l).owner b = 0) : (p.unmapped l).blist b = .blank := by
  rw [owner_unmapped] at howner
  rw [blist_unmapped]
  split
  · rfl
  · rename_i hnot
    rw [if_neg hnot] at howner
    exact hblank b howner

theorem PartitionData.Free.attachable (hfree : p.Free G) (n : UInt32)
    (parent current : Option UInt32)
    (hblank : ∀ b, p.owner b = 0 → p.blist b = .blank)
    (hcurrent : ∀ c, current = some c → p.owner c ≠ 0) (hparent : ∀ s, parent = some s → p.owner s ≠ 0) :
    Attachable (p.linkNext n parent current 0) n parent current G := by
  have hnot : ∀ c, p.owner c ≠ 0 → c ∉ G.blocks := fun c hc hin => hc (hfree.owner c hin)
  refine ⟨hfree.nodup, fun b hb => ?_, fun c hc => hnot c (hcurrent c hc),
    fun s hs => hnot s (hparent s hs), nextLink_linkNext 0⟩
  rw [linkNext_blist]
  · exact hblank b (hfree.owner b hb)
  · rintro c hc rfl
    exact hnot c (hcurrent c hc) hb
  · rintro s - hs rfl
    exact hnot s (hparent s hs) hb

theorem owner_attached (hnodup : G.blocks.Nodup) :
    (attached p n parent current G).owner b = if b ∈ G.blocks then n else p.owner b := by
  change (G.store n (p.linkNext n parent current G.first).blist b).sbInode = _
  split
  · rename_i hb
    obtain ⟨a, ha, rfl⟩ := List.mem_map.mp hb
    exact (store_node hnodup a ha).2.2
  · rename_i hb
    rw [store_of_notMem hb]
    exact owner_linkNext _

theorem blist_attached (hb : b ∉ G.blocks) (hcurrent : ∀ c, current = some c → c ≠ b)
    (hparent : ∀ s, current = none → parent = some s → s ≠ b) :
    (attached p n parent current G).blist b = p.blist b := by
  rw [attached, blist_storeForest hb, linkNext_blist hcurrent hparent]

theorem ilist_attached (hm : m ≠ n) : (attached p n parent current G).ilist m = p.ilist m := by
  cases current with
  | some c => rfl
  | none =>
    cases parent with
    | some s => rfl
    | none => exact update_of_ne hm _ _

structure Place (p : PartitionData) (n : UInt32) (parent current : Option UInt32) : Prop where
  current : ∀ c, current = some c → p.owner c = n
  parent : ∀ s, parent = some s → p.owner s = n ∧ (p.blist s).sbLevel ≠ 0

theorem Place.blist (h : Place p n parent current) (hm : p.owner b ≠ n) (hb : b ∉ G.blocks) :
    (attached p n parent current G).blist b = p.blist b := by
  apply blist_attached hb
  · rintro c hc rfl
    exact hm (h.current c hc)
  · rintro s - hs rfl
    exact hm (h.parent s hs).1

theorem bh_attached (hb : b ∉ G.blocks) (hparent : current = none → parent ≠ some b) :
    (attached p n parent current G).bh b = p.bh b := by
  rw [attached, bh, blist_storeForest hb, ← bh]
  have hother (c : UInt32) (hc : c ≠ b) (sblock : SBlock) :
      (update p.blist c sblock b).sbBh = (p.blist b).sbBh := by
    rw [update_of_ne hc.symm]
  cases current with
  | some c =>
    change (update p.blist c { p.blist c with sbSib := G.first } b).sbBh = (p.blist b).sbBh
    by_cases hc : c = b
    · rw [hc, update_self]
    · exact hother c hc _
  | none =>
    cases parent with
    | some s =>
      apply hother s
      rintro rfl
      exact hparent rfl rfl
    | none => rfl

theorem siMode_attached : ((attached p n parent current G).ilist m).siMode = (p.ilist m).siMode := by
  by_cases hm : m = n
  · subst hm
    cases current with
    | some c => rfl
    | none =>
      cases parent with
      | some s => rfl
      | none =>
        change (update p.ilist m { p.ilist m with siBh := G.first } m).siMode = _
        rw [update_self]
  · rw [ilist_attached hm]

theorem PartitionData.Owns.beside (hF : p.Owns n F) (hH : p.Owns m H) (hm : m ≠ 0) (hne : m ≠ n)
    (hl : ∀ b ∈ l, b ∈ F.keys id) (hplace : Place (p.unmapped l) n parent current)
    (hfree : (p.unmapped l).Free G) : (attached (p.unmapped l) n parent current G).Owns m H := by
  have hout : ∀ b, p.owner b = m → b ∉ l ∧ b ∉ G.blocks := by
    intro b hb
    have hbl : b ∉ l := fun hin => hne (hb.symm.trans ((hF.mem_iff b).mp (hl b hin)))
    refine ⟨hbl, fun hin => hm ?_⟩
    have hzero := hfree.owner b hin
    rw [owner_unmapped, if_neg hbl, hb] at hzero
    exact hzero
  have hsame : ∀ b ∈ H.keys id, (attached (p.unmapped l) n parent current G).blist b = p.blist b := by
    intro b hb
    have howner := (hH.mem_iff b).mp hb
    obtain ⟨hbl, hbG⟩ := hout b howner
    rw [hplace.blist _ hbG, blist_unmapped_of_notMem hbl]
    rw [owner_unmapped, if_neg hbl, howner]
    exact hne
  refine ⟨?_, hH.nodup, fun b => ?_⟩
  · rw [ilist_attached hne]
    exact Linked.congr hH.linked hsame
  · rw [hH.mem_iff, owner_attached hfree.nodup, owner_unmapped]
    by_cases hbG : b ∈ G.blocks
    · rw [if_pos hbG]
      exact ⟨fun hb => absurd hbG (hout b hb).2, fun hb => absurd hb.symm hne⟩
    · rw [if_neg hbG]
      by_cases hbl : b ∈ l
      · rw [if_pos hbl]
        exact ⟨fun hb => absurd hbl (hout b hb).1, fun hb => absurd hb.symm hm⟩
      · rw [if_neg hbl]

theorem PartitionData.Owns.grown (hF : p.Owns n F) (hn : n ≠ 0)
    (hfree : (p.unmapped l).Free G)
    (hlinked : (attached (p.unmapped l) n parent current G).Linked
      ((attached (p.unmapped l) n parent current G).ilist n).siBh F')
    (hnodup : (F'.keys id).Nodup)
    (hmem : ∀ b, b ∈ F'.keys id ↔ (b ∈ F.keys id ∧ b ∉ l) ∨ b ∈ G.blocks) :
    (attached (p.unmapped l) n parent current G).Owns n F' := by
  refine ⟨hlinked, hnodup, fun b => ?_⟩
  rw [hmem, hF.mem_iff, owner_attached hfree.nodup, owner_unmapped]
  by_cases hbG : b ∈ G.blocks
  · rw [if_pos hbG]
    exact ⟨fun _ => rfl, fun _ => Or.inr hbG⟩
  · rw [if_neg hbG]
    by_cases hbl : b ∈ l
    · rw [if_pos hbl]
      refine ⟨?_, fun hzero => absurd hzero.symm hn⟩
      rintro (hb | hb)
      · exact absurd hbl hb.2
      · exact absurd hb hbG
    · rw [if_neg hbl]
      exact ⟨fun hb => hb.elim And.left fun hin => absurd hin hbG, fun hb => Or.inl ⟨hb, hbl⟩⟩

theorem PartitionData.Tracked.attach (h : p.Tracked) (hn : n ≠ 0) (hused : (p.ilist n).siMode ≠ 0)
    (hF : p.Owns n F) (hl : ∀ b ∈ l, b ∈ F.keys id) (hplace : Place (p.unmapped l) n parent current)
    (hfree : (p.unmapped l).Free G) (hleveled : G.Leveled)
    (hF' : (attached (p.unmapped l) n parent current G).Owns n F') :
    (attached (p.unmapped l) n parent current G).Tracked := by
  have hkept : ∀ b, b ∉ G.blocks →
      (attached (p.unmapped l) n parent current G).owner b = (p.unmapped l).owner b := by
    intro b hb
    rw [owner_attached hfree.nodup, if_neg hb]
  have hstore : ∀ b ∈ G.blocks,
      ((attached (p.unmapped l) n parent current G).blist b).sbLevel ≤ 3 ∧
        (((attached (p.unmapped l) n parent current G).blist b).sbLevel = 0 →
          (attached (p.unmapped l) n parent current G).bh b = 0) := by
    intro b hb
    obtain ⟨hlevel, hleaf, -⟩ := hleveled.store hfree.nodup hb
    exact ⟨hlevel, hleaf⟩
  refine ⟨⟨fun m hm => ?_, fun b howner hlevel => ?_⟩, fun b howner => ?_, fun b => ?_, fun m hm => ?_⟩
  · by_cases hne : m = n
    · subst hne
      exact ⟨F', hF'⟩
    · obtain ⟨H, hH⟩ := h.forest m hm
      exact ⟨H, hF.beside hH hm hne hl hplace hfree⟩
  · by_cases hb : b ∈ G.blocks
    · exact (hstore b hb).2 hlevel
    · rw [hkept b hb, owner_unmapped] at howner
      have hbl : b ∉ l := by
        intro hin
        rw [if_pos hin] at howner
        exact howner rfl
      rw [if_neg hbl] at howner
      rw [(attached_kept hb).1] at hlevel
      rw [bh_attached hb]
      · rw [blist_unmapped_of_notMem hbl] at hlevel
        rw [bh, blist_unmapped_of_notMem hbl]
        exact h.leaf b howner hlevel
      · rintro - hs
        exact (hplace.parent b hs).2 hlevel
  · have hb : b ∉ G.blocks := by
      intro hin
      rw [owner_attached hfree.nodup, if_pos hin] at howner
      exact hn howner
    rw [hkept b hb] at howner
    rw [hplace.blist _ hb]
    · exact blank_unmapped h.blank l howner
    · rw [howner]
      exact hn.symm
  · by_cases hb : b ∈ G.blocks
    · exact (hstore b hb).1
    · rw [(attached_kept hb).1, blist_unmapped]
      split
      · exact UInt8.zero_le
      · exact h.level b
  · rw [siMode_attached] at hm
    have hne : m ≠ n := by
      rintro rfl
      exact hused hm
    rw [ilist_attached hne]
    exact h.unused m hm

end Attach

end SBlktrace
