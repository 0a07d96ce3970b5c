import SBlktrace.BlockGrafting
import SBlktrace.CopyForest
import Mathlib

namespace SBlktrace

open Function Forest PartitionData

def CutFree (expired : UInt32 → Bool)
    (forest : (UInt32 → Option Buf) → List UInt32 → ℕ → Forest BlockNode) (ls : List UInt32)
    (h : UInt32) (p : PartitionData) : Prop :=
  ∀ j rest current ocurrent old,
    keepLinks p.blist expired ls 0 h none = some (j, rest, current, ocurrent) →
    p.Linked (oldBlock p.blist current ocurrent) old →
    (p.unmapped (old.keys id)).Free (forest (p.unmapped (old.keys id)).dataCache rest j)

section Cut

variable {p : PartitionData} {n h s : UInt32} {K F : Forest UInt32} {expired : UInt32 → Bool}
  {forest : (UInt32 → Option Buf) → List UInt32 → ℕ → Forest BlockNode} {ls rest : List UInt32}
  {j : ℕ} {current ocurrent : Option UInt32} {extdesc : ExtDesc}

theorem CutFree.cut (hfree : CutFree expired forest ls h p) (hrep : p.Linked h K)
    (hlinks : ∀ cache link tl j, link ≠ 0 → expired link = false →
      link ∈ (forest cache (link :: tl) j).blocks)
    (hkeep : keepLinks p.blist expired ls 0 h none = some (j, rest, current, ocurrent)) :
    (rest = [] ∧ current = none ∧ ocurrent = none) ∨
      ∃ A B : Forest UInt32, K = A.append B ∧ current = A.last ∧
        oldBlock p.blist current ocurrent = B.head id ∧ j + rest.length = ls.length ∧
        (rest = [] → current ≠ none) ∧
        (∀ link tl, rest = link :: tl →
          link ≠ 0 ∧ expired link = false ∧ (p.unmapped (B.keys id)).owner link = 0) ∧
        (p.unmapped (B.keys id)).Free (forest (p.unmapped (B.keys id)).dataCache rest j) := by
  obtain hnil | ⟨A, B, rfl, hlast, hold, hlen, hnil, hfirst⟩ := keepLinks_cut hrep hkeep
  · exact Or.inl hnil
  · have hB : p.Linked (oldBlock p.blist current ocurrent) B := by
      rw [hold]
      exact Rep.append_right hrep
    have hforest := hfree j rest current ocurrent B hkeep hB
    refine Or.inr ⟨A, B, rfl, hlast, hold, by omega, hnil, ?_, hforest⟩
    rintro link tl rfl
    obtain ⟨hlink, hexpired⟩ := hfirst link tl rfl
    exact ⟨hlink, hexpired, hforest.owner link (hlinks _ _ _ _ hlink hexpired)⟩

theorem append_length (A B : Forest UInt32) :
    (A.append B).nodes.length = A.nodes.length + B.nodes.length := by
  rw [nodes_append, List.length_append]

theorem Chain.unmap {A B : Forest UInt32} (hchain : Chain p n h (A.append B)) (hn : n ≠ 0)
    (hleaf : ∀ b, p.owner b ≠ 0 → (p.blist b).sbLevel = 0 → p.bh b = 0)
    {inodeid : PartitionData → UInt32} (hinode : ∀ l ⊆ B.keys id, inodeid (p.unmapped l) = n)
    {fuel : ℕ} (hfuel : 2 * (A.append B).nodes.length < fuel) :
    unmapSiblings fuel inodeid (B.head id) p = some (p.unmapped (B.keys id)) := by
  have hnodup := hchain.nodup
  rw [keys_append] at hnodup
  have howner : ∀ b ∈ B.keys id, p.owner b = n := by
    intro b hb
    apply hchain.owner
    rw [keys_append]
    exact List.mem_append_right _ hb
  rw [append_length] at hfuel
  apply unmapSiblings_eq (Rep.append_right hchain.linked) (List.nodup_append.mp hnodup).2.1 hinode howner
  · intro b hb
    apply hleaf b
    rw [howner b hb]
    exact hn
  · omega

theorem Chain.last_owner {A B : Forest UInt32} (hchain : Chain p n h (A.append B)) (hn : n ≠ 0) :
    ∀ c, A.last = some c → (p.unmapped (B.keys id)).owner c ≠ 0 := by
  intro c hc
  rw [hchain.kept c (List.mem_map.mpr ⟨c, last_mem hc, rfl⟩)]
  exact hn

theorem mem_mappedKids {cache : UInt32 → Option Buf} {level : ℕ} {o link : UInt32}
    (hlink : link ≠ 0) (hexpired : expiredLink extdesc link = false) (tl : List UInt32) (j : ℕ) :
    link ∈ (mappedKids extdesc cache level o (link :: tl) j).blocks := by
  rw [mappedKids, List.takeWhile_cons, hexpired, Bool.not_false, if_pos rfl, linkForest_cons hlink,
    blocks, keys_node]
  exact List.mem_cons_self

theorem mem_mappedIBlocks {cache : UInt32 → Option Buf} {link : UInt32} (hlink : link ≠ 0)
    (hexpired : expiredIBlock extdesc link = false) (tl : List UInt32) (j : ℕ) :
    link ∈ (mappedIBlocks extdesc cache (link :: tl) j).blocks := by
  rw [mappedIBlocks, List.takeWhile_cons, hexpired, Bool.not_false, if_pos rfl, linkForest_cons hlink,
    blocks, keys_node]
  exact List.mem_cons_self

theorem mappedKids_leveled {cache : UInt32 → Option Buf} {level : ℕ} (hlevel : level ≤ 2) (o : UInt32)
    (ls : List UInt32) (j : ℕ) : (mappedKids extdesc cache level o ls j).Leveled := by
  apply @linkForest_leveled (fun _ => cachedKids extdesc cache level) (fun _ => level) _ _
    (fun _ _ => by omega) (fun _ _ _ => blockKids_leveled (by omega) _ _) _ _ j le_rfl
  rintro i - rfl link
  rfl

theorem mappedIBlocks_leveled {cache : UInt32 → Option Buf} {ls : List UInt32} {j : ℕ}
    (hlen : j + ls.length ≤ 15) : (mappedIBlocks extdesc cache ls j).Leveled := by
  apply linkForest_leveled (fun _ => iBlockLevel_le) (fun i hi _ => blockKids_leveled (iBlockLevel_le hi) _ _)
    (fun _ _ _ _ => rfl)
  exact le_trans (Nat.add_le_add_left (List.takeWhile_sublist _).length_le _) hlen

theorem zero_notMem_mappedKids {cache : UInt32 → Option Buf} {level : ℕ} (o : UInt32) (ls : List UInt32)
    (j : ℕ) : (0 : UInt32) ∉ (mappedKids extdesc cache level o ls j).blocks :=
  @zero_notMem_linkForest (fun _ => cachedKids extdesc cache level) (fun _ => level) _
    (fun _ _ => zero_notMem_blockKids _ _ _) _ _

theorem remapBlock_cut (h : p.Tracked) (hn : n ≠ 0) (hs : p.owner s = n) {level : ℕ} (hlevel : level ≤ 2)
    (hsb : (p.blist s).sbLevel = UInt8.ofNat (level + 1)) (hchain : Chain p n (p.bh s) K)
    (hsK : s ∉ K.keys id) (buf : Buf)
    (hfree : CutFree (expiredLink extdesc)
      (fun cache => mappedKids extdesc cache level (p.blist s).sbOffset) (links extdesc buf) (p.bh s) p) :
    (∀ fuel, 2 * K.nodes.length + 4 < fuel → remapBlock extdesc n fuel s buf p = some p) ∨
      ∃ (A B : Forest UInt32) (G : Forest BlockNode), K = A.append B ∧
        (p.unmapped (B.keys id)).Free G ∧ G.Leveled ∧ (0 : UInt32) ∉ G.blocks ∧
        ∀ fuel, 2 * K.nodes.length + 4 < fuel → remapBlock extdesc n fuel s buf p =
          some (attached (p.unmapped (B.keys id)) n (some s) A.last G) := by
  have hexpired : (fun link => decide (extdesc.sb.sBlocksCount ≤ link)) = expiredLink extdesc := rfl
  cases hkeep : keepLinks p.blist (expiredLink extdesc) (links extdesc buf) 0 (p.blist s).sbBh none with
  | none =>
    left
    intro fuel hfuel
    obtain ⟨fuel, rfl⟩ := Nat.exists_eq_add_of_lt hfuel
    rw [remapBlock, hexpired, hkeep]
  | some cut =>
    obtain ⟨j, rest, current, ocurrent⟩ := cut
    obtain ⟨rfl, rfl, rfl⟩ | ⟨A, B, rfl, rfl, hold, -, hnil, hfirst, hforest⟩ :=
      hfree.cut hchain.linked (fun _ _ tl j hlink hexpired => mem_mappedKids hlink hexpired tl j) hkeep
    · left
      intro fuel hfuel
      obtain ⟨fuel, rfl⟩ := Nat.exists_eq_add_of_lt hfuel
      rw [remapBlock, hexpired, hkeep]
      dsimp only
      rw [oldBlock, show 2 * K.nodes.length + 4 + fuel = 2 * K.nodes.length + 3 + fuel + 1 by omega,
        unmapSiblings, if_pos rfl]
      rfl
    right
    refine ⟨A, B, _, rfl, hforest, mappedKids_leveled hlevel _ _ _, zero_notMem_mappedKids _ _ _,
      fun fuel hfuel => ?_⟩
    obtain ⟨fuel, rfl⟩ := Nat.exists_eq_add_of_lt hfuel
    have hsB : s ∉ B.keys id := by
      rw [keys_append] at hsK
      exact fun hin => hsK (List.mem_append_right _ hin)
    have hinode : ∀ l ⊆ B.keys id, ((p.unmapped l).blist s).sbInode = n := by
      intro l hl
      rw [blist_unmapped_of_notMem fun hin => hsB (hl hin)]
      exact hs
    have howner : (p.unmapped (B.keys id)).owner s ≠ 0 := by
      rw [owner_unmapped, if_neg hsB, hs]
      exact hn
    rw [remapBlock, hexpired, hkeep]
    dsimp only
    rw [hold, hchain.unmap hn h.leaf hinode (by omega)]
    change remapLinks extdesc _ _ n s rest j A.last (p.unmapped (B.keys id)) = _
    rw [remapLinks_relink hnil hfirst]
    have hattach := hforest.attachable n (some s) A.last
      (fun b => blank_unmapped h.blank _) (hchain.last_owner hn) (by
        rintro s' hs'
        cases hs'
        exact howner)
    have hblock := @linkNext_kept n 0 (some s) A.last (p.unmapped (B.keys id)) s
    rw [blist_unmapped_of_notMem hsB] at hblock
    rw [remapLinks_eq hlevel (fun hne => remapBlock_maps (by omega) (by omega) hne) rest j
      ⟨hblock.1.trans hsb, hblock.2⟩ (attached_dataCache .nil) hattach, attached_linkNext]

theorem PartitionData.Tracked.used (h : p.Tracked) (hF : p.Owns n F) (hs : s ∈ F.keys id) :
    (p.ilist n).siMode ≠ 0 := by
  intro hmode
  have hzero := h.unused n hmode
  have hlinked := hF.linked
  rw [hzero] at hlinked
  cases F with
  | nil => cases hs
  | node a kids rest => exact hlinked.2.1 hlinked.1.symm

theorem PartitionData.Owns.kids (hF : p.Owns n F) (hs : s ∈ F.keys id) :
    ∃ K, Chain p n (p.bh s) K ∧ s ∉ K.keys id ∧ F.setKids id s K = F := by
  obtain ⟨K, hK, hset⟩ := Rep.exists_kids hF.linked hF.nodup hs
  have hperm := setKids_perm hF.nodup hs K
  rw [hset] at hperm
  obtain ⟨-, hnodup, hapart⟩ := List.nodup_append.mp (hperm.nodup_iff.mp hF.nodup)
  refine ⟨K, ⟨hK, hnodup, fun b hb => ?_⟩, fun hin => ?_, hset⟩
  · exact (hF.mem_iff b).mp (hperm.mem_iff.mpr (List.mem_append_right _ hb))
  · exact hapart s (mem_setKids_self hs .nil) s hin rfl

end Cut

def datablockWriteIntrospection (extdesc : ExtDesc) (fuel : ℕ) (blockid : UInt32) (buf : Buf)
    (p : PartitionData) : Option PartitionData :=
  let inodeid := (p.blist blockid).sbInode
  if inodeid ≠ 0 then
    if (p.blist blockid).sbLevel ≠ 0 then remapBlock extdesc inodeid fuel blockid buf p else some p
  else some p

def BlockFree (extdesc : ExtDesc) (blockid : UInt32) (buf : Buf) (p : PartitionData) : Prop :=
  (p.blist blockid).sbInode ≠ 0 → (p.blist blockid).sbLevel ≠ 0 →
    CutFree (expiredLink extdesc)
      (fun cache => mappedKids extdesc cache ((p.blist blockid).sbLevel.toNat - 1)
        (p.blist blockid).sbOffset)
      (links extdesc buf) (p.blist blockid).sbBh p

def Ends {α : Type} (f : ℕ → Option α) (a : α) : Prop := ∃ bound, ∀ fuel, bound < fuel → f fuel = some a

theorem Ends.unique {α : Type} {f : ℕ → Option α} {a a' : α} (h : Ends f a) (h' : Ends f a') : a = a' := by
  obtain ⟨bound, h⟩ := h
  obtain ⟨bound', h'⟩ := h'
  have ha := h (max bound bound' + 1) (by omega)
  have ha' := h' (max bound bound' + 1) (by omega)
  rw [ha] at ha'
  exact Option.some.inj ha'

section Steps

variable {p : PartitionData} {n : UInt32} {F : Forest UInt32} {extdesc : ExtDesc}

theorem level_eq {level : UInt8} (hle : level ≤ 3) (hne : level ≠ 0) :
    level.toNat - 1 ≤ 2 ∧ level = UInt8.ofNat (level.toNat - 1 + 1) := by
  have hle' : level.toNat ≤ 3 := hle
  have hpos : level.toNat ≠ 0 := fun hzero => hne (UInt8.toNat_inj.mp hzero)
  refine ⟨by omega, ?_⟩
  rw [Nat.sub_add_cancel (Nat.pos_of_ne_zero hpos), UInt8.ofNat_toNat]

theorem datablockWrite_tracked (h : p.Tracked) {blockid : UInt32} {buf : Buf}
    (hfree : BlockFree extdesc blockid buf p) :
    ∃ p', p'.Tracked ∧ Ends (fun fuel => datablockWriteIntrospection extdesc fuel blockid buf p) p' := by
  by_cases hinode : (p.blist blockid).sbInode = 0
  · refine ⟨p, h, 0, fun fuel _ => ?_⟩
    dsimp only [datablockWriteIntrospection]
    rw [if_neg (not_not_intro hinode)]
  by_cases hlevel : (p.blist blockid).sbLevel = 0
  · refine ⟨p, h, 0, fun fuel _ => ?_⟩
    dsimp only [datablockWriteIntrospection]
    rw [if_pos hinode, if_neg (not_not_intro hlevel)]
  obtain ⟨F, hF⟩ := h.forest _ hinode
  have hs : blockid ∈ F.keys id := (hF.mem_iff blockid).mpr rfl
  obtain ⟨K, hchain, hsK, hset⟩ := hF.kids hs
  obtain ⟨hle, heq⟩ := level_eq (h.level blockid) hlevel
  have hwrite : ∀ fuel, datablockWriteIntrospection extdesc fuel blockid buf p =
      remapBlock extdesc (p.blist blockid).sbInode fuel blockid buf p := by
    intro fuel
    rw [datablockWriteIntrospection, if_pos hinode, if_pos hlevel]
  obtain hsame | ⟨A, B, G, rfl, hfree', hleveled, hzero, hremap⟩ :=
    remapBlock_cut h hinode rfl hle heq hchain hsK buf (hfree hinode hlevel)
  · exact ⟨p, h, 2 * K.nodes.length + 4, fun fuel hfuel => (hwrite fuel).trans (hsame fuel hfuel)⟩
  · obtain ⟨-, htracked⟩ := h.graftKids hinode (h.used hF hs) hF hs hlevel hchain.linked hset hfree'
      hleveled hzero
    exact ⟨_, htracked, 2 * (A.append B).nodes.length + 4, fun fuel hfuel => (hwrite fuel).trans (hremap fuel hfuel)⟩

end Steps

end SBlktrace
