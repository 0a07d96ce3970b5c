import SBlktrace.ScanForest
import Mathlib

namespace Forest

variable {α κ : Type} {key : α → κ}

def roots : Forest α → List α
  | nil => []
  | node a _ rest => a :: rest.roots

def Degree (k : ℕ) : Forest α → Prop
  | nil => True
  | node _ kids rest => kids.roots.length ≤ k ∧ kids.Degree k ∧ rest.Degree k

instance Degree.decidable (k : ℕ) : (F : Forest α) → Decidable (F.Degree k)
  | nil => isTrue trivial
  | node _ kids rest =>
    have := Degree.decidable k kids
    have := Degree.decidable k rest
    inferInstanceAs (Decidable (kids.roots.length ≤ k ∧ kids.Degree k ∧ rest.Degree k))

def firstTwo (key : α → κ) : Forest α → List κ
  | nil => []
  | node a kids nil => key a :: kids.firstTwo key
  | node a kids (node b kids' _) => key a :: (kids.firstTwo key ++ key b :: kids'.firstTwo key)

theorem firstTwo_subset (F : Forest α) : ∀ k ∈ F.firstTwo key, k ∈ F.keys key := by
  induction F using firstTwo.induct with
  | case1 => simp [firstTwo]
  | case2 a kids ih =>
    rw [firstTwo, keys_node, keys_nil, List.append_nil]
    intro k hk
    obtain rfl | hk := List.mem_cons.mp hk
    · exact List.mem_cons_self
    · exact List.mem_cons_of_mem _ (ih k hk)
  | case3 a kids b kids' rest ih ih' =>
    rw [firstTwo, keys_node, keys_node]
    intro k hk
    simp only [List.mem_cons, List.mem_append] at hk ⊢
    obtain rfl | hk | rfl | hk := hk
    · exact Or.inl rfl
    · exact Or.inr (Or.inl (ih k hk))
    · exact Or.inr (Or.inr (Or.inl rfl))
    · exact Or.inr (Or.inr (Or.inr (Or.inl (ih' k hk))))

theorem head_mem {F : Forest α} [Zero κ] (h : F ≠ nil) : F.head key ∈ F.keys key := by
  cases F with
  | nil => exact absurd rfl h
  | node a kids rest =>
    rw [keys_node]
    exact List.mem_cons_self

theorem forall_mem_firstTwo {F : Forest α} (hnodup : (F.keys key).Nodup) :
    (∀ k ∈ F.keys key, k ∈ F.firstTwo key) ↔ F.roots.length ≤ 2 ∧ F.Degree 2 := by
  induction F using firstTwo.induct with
  | case1 => simp [firstTwo, roots, Degree]
  | case2 a kids ih =>
    rw [keys_node, keys_nil, List.append_nil] at hnodup ⊢
    obtain ⟨hnot, hkids⟩ := List.nodup_cons.mp hnodup
    rw [firstTwo]
    constructor
    · intro h
      have hall : ∀ k ∈ kids.keys key, k ∈ kids.firstTwo key := by
        intro k hk
        obtain rfl | hmem := List.mem_cons.mp (h k (List.mem_cons_of_mem _ hk))
        · exact absurd hk hnot
        · exact hmem
      obtain ⟨hlen, hdegree⟩ := (ih hkids).mp hall
      exact ⟨by simp [roots], hlen, hdegree, trivial⟩
    · rintro ⟨-, hlen, hdegree, -⟩ k hk
      obtain rfl | hk := List.mem_cons.mp hk
      · exact List.mem_cons_self
      · exact List.mem_cons_of_mem _ ((ih hkids).mpr ⟨hlen, hdegree⟩ k hk)
  | case3 a kids b kids' rest ih ih' =>
    rw [keys_node, keys_node] at hnodup ⊢
    simp only [List.nodup_cons, List.nodup_append, List.mem_cons, List.mem_append, not_or]
      at hnodup
    obtain ⟨⟨hak, hab, hak', har⟩, hkids, ⟨⟨hbk', hbr⟩, hkids', hrest, hdis'⟩, hdis⟩ := hnodup
    rw [firstTwo]
    simp only [List.mem_cons, List.mem_append]
    constructor
    · intro h
      -- A third tree would not be among the first two.
      have hrestnil : rest = nil := by
        by_contra hne
        obtain ⟨c, hc⟩ : ∃ c, c ∈ rest.keys key := by
          cases rest with
          | nil => exact absurd rfl hne
          | node c kc rc => exact ⟨key c, by simp⟩
        obtain rfl | hmem | rfl | hmem := h c (Or.inr (Or.inr (Or.inr (Or.inr hc))))
        · exact har hc
        · exact hdis _ (firstTwo_subset _ _ hmem) _ (Or.inr (Or.inr hc)) rfl
        · exact hbr hc
        · exact hdis' _ (firstTwo_subset _ _ hmem) _ hc rfl
      subst hrestnil
      have hall : ∀ k ∈ kids.keys key, k ∈ kids.firstTwo key := by
        intro k hk
        obtain rfl | hmem | rfl | hmem := h k (Or.inr (Or.inl hk))
        · exact absurd hk hak
        · exact hmem
        · exact absurd rfl (hdis _ hk _ (Or.inl rfl))
        · exact absurd rfl (hdis _ hk _ (Or.inr (Or.inl (firstTwo_subset _ _ hmem))))
      have hall' : ∀ k ∈ kids'.keys key, k ∈ kids'.firstTwo key := by
        intro k hk
        obtain rfl | hmem | rfl | hmem := h k (Or.inr (Or.inr (Or.inr (Or.inl hk))))
        · exact absurd hk hak'
        · exact absurd rfl (hdis _ (firstTwo_subset _ _ hmem) _ (Or.inr (Or.inl hk)))
        · exact absurd hk hbk'
        · exact hmem
      obtain ⟨hlen, hdegree⟩ := (ih hkids).mp hall
      obtain ⟨hlen', hdegree'⟩ := (ih' hkids').mp hall'
      exact ⟨by simp [roots], hlen, hdegree, hlen', hdegree', trivial⟩
    · rintro ⟨htwo, hlen, hdegree, hlen', hdegree', -⟩ k hmem
      have hrestnil : rest = nil := by
        cases rest with
        | nil => rfl
        | node c kc rc =>
          simp only [roots, List.length_cons] at htwo
          omega
      subst hrestnil
      simp only [keys_nil, List.not_mem_nil, or_false] at hmem
      obtain rfl | hmem | rfl | hmem := hmem
      · exact Or.inl rfl
      · exact Or.inr (Or.inl ((ih hkids).mpr ⟨hlen, hdegree⟩ k hmem))
      · exact Or.inr (Or.inr (Or.inl rfl))
      · exact Or.inr (Or.inr (Or.inr ((ih' hkids').mpr ⟨hlen', hdegree'⟩ k hmem)))

end Forest

namespace SBlktrace

open Function Forest PartitionData

section Clear

variable {α : Type} {key : α → UInt32} {q : PartitionData} {h b link : UInt32} {F : Forest α}
  {fuel : ℕ}

theorem owner_setBh (q : PartitionData) (b link x : UInt32) :
    (q.setBh b link).owner x = q.owner x := by
  change (update q.blist b _ x).sbInode = _
  obtain rfl | hne := eq_or_ne x b
  · rw [update_self]
    rfl
  · rw [update_of_ne hne]
    rfl

theorem owner_setSib (q : PartitionData) (b link x : UInt32) :
    (q.setSib b link).owner x = q.owner x := by
  change (update q.blist b _ x).sbInode = _
  obtain rfl | hne := eq_or_ne x b
  · rw [update_self]
    rfl
  · rw [update_of_ne hne]
    rfl

theorem blist_setBlock_of_ne {x : UInt32} (hne : x ≠ b) (sblock : SBlock) :
    (q.setBlock b sblock).blist x = q.blist x := update_of_ne hne _ _

/-- What a call of `clear_sblock` does: it takes the first two blocks of each chain from their inode. -/
structure Cleared (key : α → UInt32) (F : Forest α) (q q' : PartitionData) : Prop where
  blist : ∀ b ∉ F.keys key, q'.blist b = q.blist b
  owner : ∀ b, q'.owner b = if b ∈ F.firstTwo key then 0 else q.owner b
  ilist : q'.ilist = q.ilist

theorem Cleared.nil (q : PartitionData) : Cleared key .nil q q :=
  ⟨fun _ _ => rfl, fun b => by simp [firstTwo], rfl⟩

theorem clearSblock_node {a : α} {kids rest : Forest α}
    (hrep : Forest.Rep q.bh q.sib key h (.node a kids rest)) (hnot : key a ∉ kids.keys key) (hzero : q.sib 0 = 0)
    (hbelow : ∀ q₁ : PartitionData, Forest.Rep q₁.bh q₁.sib key (q₁.bh (key a)) kids → q₁.sib 0 = 0 →
      ∃ q₂, clearSblock fuel (q₁.bh (key a)) q₁ = some q₂ ∧ Cleared key kids q₁ q₂) :
    ∃ q₃, clearSblock (fuel + 1) h q = clearSblock fuel (rest.head key) (q₃.setSib (rest.head key) 0) ∧
      Cleared key (.node a kids .nil) q q₃ := by
  obtain ⟨rfl, ha, hkids, hrest⟩ := hrep
  set q₁ := q.setBlock (key a) { q.blist (key a) with sbInode := 0 } with hq₁
  have hself₁ : q₁.blist (key a) = { q.blist (key a) with sbInode := 0 } := update_self _ _ _
  have hne₁ : ∀ x, x ≠ key a → q₁.blist x = q.blist x := fun x hx => blist_setBlock_of_ne hx _
  have hlinks : ∀ x, q₁.bh x = q.bh x ∧ q₁.sib x = q.sib x := by
    intro x
    rw [bh, sib]
    obtain rfl | hne := eq_or_ne x (key a)
    · rw [hself₁]
      exact ⟨rfl, rfl⟩
    · rw [hne₁ x hne]
      exact ⟨rfl, rfl⟩
  have howner₁ : ∀ x, q₁.owner x = if x = key a then 0 else q.owner x := by
    intro x
    rw [PartitionData.owner]
    obtain rfl | hne := eq_or_ne x (key a)
    · rw [hself₁, if_pos rfl]
    · rw [hne₁ x hne, if_neg hne]
      rfl
  have hkids₁ : Forest.Rep q₁.bh q₁.sib key (q₁.bh (key a)) kids := by
    rw [(hlinks _).1]
    exact hkids.congr fun k _ => hlinks k
  obtain ⟨q₂, hclear₂, hcleared⟩ : ∃ q₂, (if (q₁.blist (key a)).sbBh ≠ 0 then
      clearSblock fuel (q₁.blist (key a)).sbBh q₁ else some q₁) = some q₂ ∧ Cleared key kids q₁ q₂ := by
    by_cases hbh : (q₁.blist (key a)).sbBh ≠ 0
    · rw [if_pos hbh]
      exact hbelow q₁ hkids₁ ((hlinks 0).2.trans hzero)
    · rw [if_neg hbh]
      obtain rfl : kids = .nil := by
        cases kids with
        | nil => rfl
        | node b kids' rest' => exact absurd (hkids₁.head_eq.symm.trans (not_not.mp hbh)) hkids₁.2.1
      exact ⟨q₁, rfl, Cleared.nil q₁⟩
  have hself₃ : (q₂.setBh (key a) 0).blist (key a) = { q₂.blist (key a) with sbBh := 0 } := update_self _ _ _
  have hnext : ((q₂.setBh (key a) 0).blist (key a)).sbSib = rest.head key := by
    rw [hself₃, hcleared.blist _ hnot]
    exact (hlinks _).2.trans hrest.head_eq
  refine ⟨q₂.setBh (key a) 0, ?_, fun x hx => ?_, fun x => ?_, hcleared.ilist⟩
  · rw [clearSblock, if_neg ha, ← hnext]
    dsimp only [bind]
    rw [← hq₁]
    by_cases hbh : (q₁.blist (key a)).sbBh ≠ 0
    · rw [if_pos hbh] at hclear₂ ⊢
      rw [hclear₂, Option.bind_some]
    · rw [if_neg hbh] at hclear₂ ⊢
      rw [hclear₂, Option.bind_some]
  · simp only [keys_node, keys_nil, List.append_nil, List.mem_cons, not_or] at hx
    rw [setBh, blist_setBlock_of_ne hx.1, hcleared.blist x hx.2, hne₁ x hx.1]
  · rw [owner_setBh, hcleared.owner, howner₁, firstTwo]
    simp only [List.mem_cons]
    grind

section Second

variable {a b : α} {kids kids' rest : Forest α} {q₃ q' : PartitionData}

theorem Cleared.rep_second (hc : Cleared key (.node a kids .nil) q q₃)
    (hrep : Forest.Rep q.bh q.sib key h (.node b kids' rest))
    (hnodup : ((Forest.node a kids (.node b kids' rest)).keys key).Nodup) :
    Forest.Rep (q₃.setSib (key b) 0).bh (q₃.setSib (key b) 0).sib key (key b) (.node b kids' .nil) := by
  obtain ⟨-, hb, hkids', -⟩ := hrep
  rw [keys_node, keys_node] at hnodup
  obtain ⟨hnot, hnodup⟩ := List.nodup_cons.mp hnodup
  obtain ⟨-, hnodupr, hdisjoint⟩ := List.nodup_append.mp hnodup
  simp only [List.mem_append, List.mem_cons, not_or] at hnot
  have hbk : key b ∉ kids'.keys key := fun hin => (List.nodup_cons.mp hnodupr).1 (List.mem_append_left _ hin)
  have hout : ∀ x ∈ key b :: kids'.keys key, q₃.blist x = q.blist x := by
    intro x hx
    apply hc.blist
    rw [keys_node, keys_nil, List.append_nil, List.mem_cons, not_or]
    constructor
    · rintro rfl
      rw [List.mem_cons] at hx
      exact hx.elim hnot.2.1 hnot.2.2.1
    · intro hin
      refine hdisjoint x hin x ?_ rfl
      rw [← List.cons_append]
      exact List.mem_append_left _ hx
  have hself : (q₃.setSib (key b) 0).blist (key b) = { q.blist (key b) with sbSib := 0 } := by
    rw [← hout _ List.mem_cons_self]
    exact update_self _ _ _
  refine ⟨rfl, hb, ?_, ?_⟩
  · rw [bh, hself]
    apply hkids'.congr
    intro x hx
    have hne : x ≠ key b := by
      rintro rfl
      exact hbk hx
    rw [bh, sib, setSib, blist_setBlock_of_ne hne, hout x (List.mem_cons_of_mem _ hx)]
    exact ⟨rfl, rfl⟩
  · change (q₃.setSib (key b) 0).sib (key b) = 0
    rw [sib, hself]

theorem Cleared.second (hc : Cleared key (.node a kids .nil) q q₃)
    (hc' : Cleared key (.node b kids' .nil) (q₃.setSib (key b) 0) q') :
    Cleared key (.node a kids (.node b kids' rest)) q q' := by
  refine ⟨fun x hx => ?_, fun x => ?_, hc'.ilist.trans hc.ilist⟩
  · simp only [keys_node, List.mem_cons, List.mem_append, not_or] at hx
    rw [hc'.blist x (by simp [hx]), setSib, blist_setBlock_of_ne hx.2.2.1, hc.blist x (by simp [hx])]
  · rw [hc'.owner, owner_setSib, hc.owner]
    simp only [firstTwo, List.mem_cons, List.mem_append]
    grind

end Second

/-- The walk ends, but zeroes the link of the block that it goes on to instead of the one it leaves. -/
theorem clearSblock_cleared (hrep : Forest.Rep q.bh q.sib key h F) (hnodup : (F.keys key).Nodup)
    (hzero : q.sib 0 = 0) (hfuel : F.nodes.length < fuel) :
    ∃ q', clearSblock fuel h q = some q' ∧ Cleared key F q q' := by
  induction hlen : F.nodes.length using Nat.strong_induction_on generalizing F q h fuel with
  | _ len ih =>
  obtain ⟨fuel, rfl⟩ := Nat.exists_eq_succ_of_ne_zero (Nat.ne_zero_of_lt hfuel)
  cases F with
  | nil =>
    have hh : h = 0 := hrep
    refine ⟨q, ?_, Cleared.nil q⟩
    rw [clearSblock, if_pos hh]
  | node a kids rest =>
    have hrest := hrep.2.2.2
    have hkeys := hnodup
    rw [keys_node] at hkeys
    obtain ⟨hnot, hkeys⟩ := List.nodup_cons.mp hkeys
    obtain ⟨hnodupk, hnodupr, -⟩ := List.nodup_append.mp hkeys
    rw [nodes, List.length_cons, List.length_append] at hlen hfuel
    obtain ⟨q₃, hstep, hcleared⟩ := @clearSblock_node _ key q h fuel a kids rest hrep
      (fun hin => hnot (List.mem_append_left _ hin)) hzero
      fun q₁ hkids₁ hzero₁ => ih _ (by omega) hkids₁ hnodupk hzero₁ (by omega) rfl
    have hzero₃ : q₃.sib 0 = 0 := by
      have h0 : (0 : UInt32) ∉ (Forest.node a kids .nil).keys key := by
        rw [keys_node, keys_nil, List.append_nil, List.mem_cons, not_or]
        exact ⟨Ne.symm hrep.2.1, fun hin => hrep.2.2.1.ne_zero 0 hin rfl⟩
      rw [sib, hcleared.blist 0 h0]
      exact hzero
    rw [Nat.succ_eq_add_one, hstep]
    cases rest with
    | nil =>
      have hself : q₃.setSib 0 0 = q₃ := by
        have hsib : (q₃.blist 0).sbSib = 0 := hzero₃
        calc q₃.setSib 0 0 = q₃.setSib 0 (q₃.blist 0).sbSib := by rw [hsib]
          _ = q₃ := q₃.setBlock_self 0
      obtain ⟨fuel, rfl⟩ := Nat.exists_eq_succ_of_ne_zero (show fuel ≠ 0 by omega)
      refine ⟨q₃, ?_, hcleared⟩
      rw [head_nil, hself, clearSblock, if_pos rfl]
    | node b kids' rest' =>
      have hb := hrest.2.1
      rw [head_node]
      rw [nodes, List.length_cons, List.length_append] at hlen hfuel
      have hsize : (Forest.node b kids' .nil).nodes.length = kids'.nodes.length + 1 := by
        simp [nodes]
      have hnodupb : ((Forest.node b kids' .nil).keys key).Nodup := by
        rw [keys_node] at hnodupr ⊢
        rw [keys_nil, List.append_nil]
        exact hnodupr.sublist ((List.sublist_append_left _ _).cons_cons _)
      obtain ⟨q', hclear', hcleared'⟩ := ih _ (by omega) (hcleared.rep_second hrest hnodup) hnodupb
        (by rw [sib, setSib, blist_setBlock_of_ne (Ne.symm hb)]; exact hzero₃) (show _ < fuel by omega) rfl
      exact ⟨q', hclear', hcleared.second hcleared'⟩

end Clear

structure PartitionData.Fresh (p : PartitionData) : Prop where
  blank : ∀ b, p.owner b = 0 → p.blist b = .blank
  zero : p.owner 0 = 0

structure NothingLeft (n : UInt32) (blocks : List UInt32) (p p' : PartitionData) : Prop where
  siMode : (p'.ilist n).siMode = 0
  siBh : (p'.ilist n).siBh = 0
  sbInode : ∀ b, (p'.blist b).sbInode ≠ n
  others : ∀ b ∉ blocks, p'.blist b = p.blist b

section Failure

variable {extdesc : ExtDesc} {fd : UInt32 → Option Buf} {n : UInt32} {inode : ExtInode}
  {p q : PartitionData} {F G : Forest BlockNode} {fuel : ℕ}

def keptForest : Forest BlockNode → Forest BlockNode → Forest BlockNode
  | .nil, G => G
  | .node a kids rest, _ => .node a kids rest

theorem keptForest_blocks : ∀ b ∈ (keptForest F G).blocks, b ∈ (F.append G).blocks := by
  intro b hb
  cases F with
  | nil => exact hb
  | node a kids rest =>
    rw [blocks, keys_append]
    exact List.mem_append_left _ hb

theorem mem_kept_firstTwo (hnodup : (F.append G).blocks.Nodup) :
    (∀ b ∈ (F.append G).blocks, b ∈ (keptForest F G).firstTwo BlockNode.block) ↔
      (F = .nil ∨ G = .nil) ∧ (F.append G).roots.length ≤ 2 ∧ (F.append G).Degree 2 := by
  cases F with
  | nil =>
    rw [append] at hnodup ⊢
    have hiff := forall_mem_firstTwo hnodup
    change (∀ b ∈ G.blocks, b ∈ G.firstTwo BlockNode.block) ↔ _
    rw [hiff]
    simp
  | node a kids rest =>
    by_cases hG : G = .nil
    · subst hG
      rw [append_nil] at hnodup ⊢
      rw [← forall_mem_firstTwo hnodup]
      simp [keptForest]
    · have hdisjoint := hnodup
      rw [blocks, keys_append] at hdisjoint
      refine ⟨fun h => ?_, fun h => absurd h.1 (by simp [hG])⟩
      have hhead : G.first ∈ G.blocks := head_mem hG
      have hmem := h G.first (by rw [blocks, keys_append]; exact List.mem_append_right _ hhead)
      exact absurd rfl ((List.nodup_append.mp hdisjoint).2.2 _ (firstTwo_subset _ _ hmem) _ hhead)

def failedScan (n : UInt32) (sinode : SInode) (F G : Forest BlockNode) (p : PartitionData) :
    PartitionData :=
  ((p.setInode n { sinode with siBh := keptFirst none F G }).storeForest n F).storeForest n G

theorem failedScan_linked (hnodup : (F.append G).blocks.Nodup)
    (hzero : (0 : UInt32) ∉ (F.append G).blocks) (sinode : SInode) :
    Forest.Rep (failedScan n sinode F G p).bh (failedScan n sinode F G p).sib BlockNode.block
      (keptFirst none F G) (keptForest F G) := by
  cases F with
  | nil => exact rep_store hnodup hzero
  | node a kids rest =>
    rw [blocks, keys_append] at hnodup hzero
    obtain ⟨hF, -, hdisjoint⟩ := List.nodup_append.mp hnodup
    have hrep := @rep_store (.node a kids rest) n p.blist hF fun h => hzero (List.mem_append_left _ h)
    apply Forest.Rep.congr hrep
    intro b hb
    have hnot : b ∉ G.blocks := fun hin => hdisjoint b hb b hin rfl
    have hsame : (failedScan n sinode (.node a kids rest) G p).blist b =
        (Forest.node a kids rest).store n p.blist b := blist_storeForest hnot
    rw [bh, sib, hsame]
    exact ⟨rfl, rfl⟩

theorem failedScan_blist {b : UInt32} (hb : b ∉ (F.append G).blocks) (sinode : SInode) :
    (failedScan n sinode F G p).blist b = p.blist b := by
  rw [blocks, keys_append, List.mem_append, not_or] at hb
  rw [failedScan, blist_storeForest hb.2, blist_storeForest hb.1]
  rfl

theorem failedScan_owner {b : UInt32} (hnodup : (F.append G).blocks.Nodup)
    (hb : b ∈ (F.append G).blocks) (sinode : SInode) :
    (failedScan n sinode F G p).owner b = n := by
  rw [blocks, keys_append] at hnodup hb
  obtain ⟨hF, hG, hdisjoint⟩ := List.nodup_append.mp hnodup
  obtain hb | hb := List.mem_append.mp hb
  · have hnot : b ∉ G.blocks := fun hin => hdisjoint b hb b hin rfl
    obtain ⟨a, ha, rfl⟩ := List.mem_map.mp hb
    rw [PartitionData.owner, failedScan, blist_storeForest hnot]
    exact (store_node hF a ha).2.2
  · obtain ⟨a, ha, rfl⟩ := List.mem_map.mp hb
    exact (store_node hG a ha).2.2

theorem nothingLeft_iff (hn : n ≠ 0) (hfree : ∀ b, p.owner b ≠ n)
    (hnodup : (F.append G).blocks.Nodup) {sinode sinode' : SInode} (hmode : sinode'.siMode = 0)
    (hbh : sinode'.siBh = 0) {q₀ : PartitionData} (hq₀ : q₀.blist = (failedScan n sinode F G p).blist)
    (hcleared : Cleared BlockNode.block (keptForest F G) q₀ q) :
    NothingLeft n (F.append G).blocks p (q.setInode n sinode') ↔
      (F = .nil ∨ G = .nil) ∧ (F.append G).roots.length ≤ 2 ∧ (F.append G).Degree 2 := by
  have howner₀ : ∀ b, q₀.owner b = (failedScan n sinode F G p).owner b := by
    intro b
    rw [PartitionData.owner, hq₀]
    rfl
  rw [← mem_kept_firstTwo hnodup]
  constructor
  · intro h b hb
    by_contra hnot
    apply h.sbInode b
    change q.owner b = n
    rw [hcleared.owner, if_neg hnot, howner₀, failedScan_owner hnodup hb]
  · intro h
    refine ⟨?_, ?_, fun b hb => ?_, fun b hb => ?_⟩
    · change (update q.ilist n sinode' n).siMode = 0
      rw [update_self, hmode]
    · change (update q.ilist n sinode' n).siBh = 0
      rw [update_self, hbh]
    · change q.owner b = n at hb
      rw [hcleared.owner] at hb
      split at hb
      · exact hn hb.symm
      · rename_i hnot
        have hout : b ∉ (F.append G).blocks := fun hin => hnot (h b hin)
        apply hfree b
        rw [howner₀, PartitionData.owner, failedScan_blist hout] at hb
        exact hb
    · change q.blist b = p.blist b
      rw [hcleared.blist b fun hin => hb (keptForest_blocks b hin), hq₀, failedScan_blist hb]

theorem parseIBlocks_failed {sinode : SInode} (hp : p.Fresh)
    (htrees : attachIBlocks extdesc fd (List.ofFn inode.iBlock) 0 = (F, G, false))
    (hnodup : (F.append G).blocks.Nodup) (hunused : ∀ b ∈ (F.append G).blocks, p.owner b = 0)
    (hbh : sinode.siBh = 0) :
    parseIBlocks extdesc fd n (List.ofFn inode.iBlock) 0 none (p.setInode n sinode) =
      (failedScan n sinode F G p, false) := by
  have hattachable : Attachable (p.setInode n sinode) n none none (F.append G) := by
    refine ⟨hnodup, fun b hb => hp.blank b (hunused b hb), ?_, ?_, ?_⟩
    · rintro c hc
      cases hc
    · rintro c hc
      cases hc
    · change (update p.ilist n sinode n).siBh = 0
      rw [update_self]
      exact hbh
  rw [parseIBlocks_eq _ _ _ _ htrees hattachable]
  refine congrArg (·, false) ?_
  have hlink : (p.setInode n sinode).linkNext n none none (keptFirst none F G) =
      p.setInode n { sinode with siBh := keptFirst none F G } := by
    change (p.setInode n sinode).setInode n { update p.ilist n sinode n with siBh := _ } = _
    rw [update_self, setInode, setInode]
    dsimp only
    rw [update_idem]
    rfl
  rw [hlink]
  rfl

/-- A failed scan leaves nothing of the inode behind exactly if the tree at which it stopped is the
first or has no block, and no more than two blocks were attached to the inode or to one block. -/
theorem failedScan_clears_iff (hn : n ≠ 0) (hp : p.Fresh) (hfree : ∀ b, p.owner b ≠ n)
    (htrees : attachIBlocks extdesc fd (List.ofFn inode.iBlock) 0 = (F, G, false))
    (hnodup : (F.append G).blocks.Nodup) (hunused : ∀ b ∈ (F.append G).blocks, p.owner b = 0) :
    (∃ fuel₀, ∀ fuel ≥ fuel₀, ∃ p', initSinodeSblock fuel extdesc fd n inode p = some (p', false) ∧
        NothingLeft n (F.append G).blocks p p') ↔
      (F = .nil ∨ G = .nil) ∧ (F.append G).roots.length ≤ 2 ∧ (F.append G).Degree 2 := by
  have hzero : (0 : UInt32) ∉ (F.append G).blocks := by
    have h := @zero_notMem_attachLinks ℕ
      (fun i => attachBlock extdesc fd (iBlockLevel i) (iBlockOffset extdesc i)) (· + 1)
      (fun i _ hlink => zero_notMem_attachBlock _ _ hlink) (List.ofFn inode.iBlock) 0
    rw [attachIBlocks] at htrees
    rwa [htrees] at h
  set sinode : SInode :=
    ⟨inode.iMode, inode.iSize, inode.iCtime, inode.iMtime, inode.iDtime, 0⟩ with hsinode
  set q := failedScan n sinode F G p with hq
  have hparse : parseIBlocks extdesc fd n (List.ofFn inode.iBlock) 0 none (p.setInode n sinode) =
      (q, false) := parseIBlocks_failed hp htrees hnodup hunused rfl
  -- The blocks are cleared from a partition in which only the mode of the inode is other.
  have hself : q.ilist n = { sinode with siBh := keptFirst none F G } := update_self n _ _
  set q₀ := q.setInode n { q.ilist n with siMode := 0 } with hq₀
  have hinit : ∀ fuel, initSinodeSblock fuel extdesc fd n inode p =
      (clearSblock fuel (keptFirst none F G) q₀).map fun q' => (q'.setSiBh n 0, false) := by
    intro fuel
    rw [initSinodeSblock, ← hsinode, hparse]
    change (clearSinode fuel n q).map (fun p => (p, false)) = _
    rw [clearSinode, ← hq₀]
    have hbh : (q₀.ilist n).siBh = keptFirst none F G := by
      rw [hq₀, hself]
      change (update q.ilist n _ n).siBh = _
      rw [update_self]
    rw [hbh]
    change Option.map _ ((clearSblock fuel _ q₀).bind _) = _
    cases clearSblock fuel (keptFirst none F G) q₀ <;> rfl
  have hclear : ∀ fuel > (keptForest F G).nodes.length, ∃ q',
      clearSblock fuel (keptFirst none F G) q₀ = some q' ∧
        Cleared BlockNode.block (keptForest F G) q₀ q' := by
    intro fuel hfuel
    apply clearSblock_cleared
    · exact failedScan_linked hnodup hzero sinode
    · cases F with
      | nil => exact hnodup
      | node a kids rest =>
        rw [blocks, keys_append] at hnodup
        exact (List.nodup_append.mp hnodup).1
    · change ((failedScan n sinode F G p).blist 0).sbSib = 0
      rw [failedScan_blist hzero, hp.blank 0 hp.zero]
      rfl
    · exact hfuel
  have hnothing : ∀ q', Cleared BlockNode.block (keptForest F G) q₀ q' →
      (NothingLeft n (F.append G).blocks p (q'.setSiBh n 0) ↔
        (F = .nil ∨ G = .nil) ∧ (F.append G).roots.length ≤ 2 ∧ (F.append G).Degree 2) := by
    intro q' hcleared
    have hblist : q₀.blist = (failedScan n sinode F G p).blist := rfl
    refine nothingLeft_iff hn hfree hnodup ?_ rfl hblist hcleared
    rw [hcleared.ilist, hq₀]
    change (update q.ilist n _ n).siMode = 0
    rw [update_self]
  constructor
  · rintro ⟨fuel₀, h⟩
    obtain ⟨p', hp', hleft⟩ := h (max fuel₀ ((keptForest F G).nodes.length + 1)) (le_max_left _ _)
    obtain ⟨q', hq', hcleared⟩ := hclear (max fuel₀ ((keptForest F G).nodes.length + 1))
      (lt_of_lt_of_le (Nat.lt_succ_self _) (le_max_right _ _))
    rw [hinit, hq'] at hp'
    cases hp'
    exact (hnothing q' hcleared).mp hleft
  · intro h
    refine ⟨(keptForest F G).nodes.length + 1, fun fuel hfuel => ?_⟩
    obtain ⟨q', hq', hcleared⟩ := hclear fuel hfuel
    refine ⟨q'.setSiBh n 0, ?_, (hnothing q' hcleared).mpr h⟩
    rw [hinit, hq']
    rfl

end Failure

def blankPartition : PartitionData where
  blist _ := .blank
  ilist _ := ⟨0, 0, 0, 0, 0, 0⟩
  dataCache _ := none
  globalVersion := 0
  tmpfs _ := none
  queue := []

theorem blankPartition_fresh : blankPartition.Fresh := ⟨fun _ _ => rfl, rfl⟩

def hundredBlocks : ExtDesc := initExtDesc ⟨100, 1, 0, 8192, 32, 128, 0⟩ ⟨3⟩ .ext2

def directFile (blocks : List UInt32) : ExtInode :=
  ⟨0x8000, 4096, 1, 1, 0, fun i => blocks.getD i 0⟩

theorem failedScan_clears_one :
    ∃ fuel₀, ∀ fuel ≥ fuel₀, ∃ p', initSinodeSblock fuel hundredBlocks (fun _ => none) 2
      (directFile [5, 200]) blankPartition = some (p', false) ∧ NothingLeft 2 [5] blankPartition p' := by
  have htrees : attachIBlocks hundredBlocks (fun _ => none) (List.ofFn (directFile [5, 200]).iBlock)
      0 = (.node ⟨5, 0, 0⟩ .nil .nil, .nil, false) := rfl
  have hfree : ∀ b, blankPartition.owner b ≠ 2 := by
    intro b
    change (0 : UInt32) ≠ 2
    decide
  exact (failedScan_clears_iff (by decide) blankPartition_fresh hfree htrees (by decide)
    fun _ _ => rfl).mpr ⟨Or.inr rfl, by decide, by decide⟩

/-- The third block of a file stays its own when the fourth one is not on the disk. -/
theorem failedScan_third :
    ∃ p', initSinodeSblock 10 hundredBlocks (fun _ => none) 2 (directFile [5, 6, 7, 200])
      blankPartition = some (p', false) ∧ (p'.blist 7).sbInode = 2 ∧
        ¬ NothingLeft 2 [5, 6, 7] blankPartition p' :=
  ⟨_, rfl, rfl, fun h => h.sbInode 7 rfl⟩

end SBlktrace
