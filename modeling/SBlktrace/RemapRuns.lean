import SBlktrace.LinkingOrder
import Mathlib

namespace SBlktrace

open Function Forest PartitionData

section Forests

variable {sub : ℕ → UInt32 → UInt32 → Forest BlockNode} {level : ℕ → ℕ} {offset : ℕ → UInt32}
  {ls ls' : List UInt32}

theorem linkForest_append (ls ls' : List UInt32) (i : ℕ) :
    linkForest sub level offset (ls ++ ls') i =
      (linkForest sub level offset ls i).append (linkForest sub level offset ls' (i + ls.length)) := by
  induction ls generalizing i with
  | nil => rfl
  | cons link ls ih =>
    have hindex : i + (ls.length + 1) = i + 1 + ls.length := by omega
    rw [List.cons_append, List.length_cons, hindex]
    by_cases hlink : link = 0
    · subst hlink
      rw [linkForest_zero, linkForest_zero, ih]
    · rw [linkForest_cons hlink, linkForest_cons hlink, append, ih]

theorem roots_linkForest (ls : List UInt32) (i : ℕ) :
    (linkForest sub level offset ls i).roots.map BlockNode.block = nonzero ls := by
  induction ls generalizing i with
  | nil => rfl
  | cons link ls ih =>
    by_cases hlink : link = 0
    · subst hlink
      rw [linkForest_zero, ih]
      rfl
    · have hcons : nonzero (link :: ls) = link :: nonzero ls := by simp [nonzero, hlink]
      rw [linkForest_cons hlink, roots, List.map_cons, ih, hcons]

theorem mem_roots_linkForest {link : UInt32} (hlink : link ≠ 0) {j : ℕ} (hj : ls[j]? = some link) (i : ℕ) :
    ⟨link, UInt8.ofNat (level (i + j)), offset (i + j)⟩ ∈ (linkForest sub level offset ls i).roots := by
  induction ls generalizing i j with
  | nil => cases hj
  | cons link' ls ih =>
    cases j with
    | zero =>
      obtain rfl := Option.some.inj hj
      rw [linkForest_cons hlink, roots]
      exact List.mem_cons_self
    | succ j =>
      have hindex : i + (j + 1) = i + 1 + j := by omega
      have hmem := ih hj (i + 1)
      rw [hindex]
      by_cases hlink' : link' = 0
      · subst hlink'
        rw [linkForest_zero]
        exact hmem
      · rw [linkForest_cons hlink', roots]
        exact List.mem_cons_of_mem _ hmem

end Forests

section Orderly

variable {p : PartitionData} {descends : BlockNode → Prop} {T : List UInt32} {F G : Forest BlockNode}

theorem Orderly.append (h : Orderly p descends T (F.append G)) :
    Orderly p descends (T ++ F.roots.map BlockNode.block) G := by
  have hkept := h.kept
  have hlinked := h.linked
  rw [nodes_append] at hkept hlinked
  obtain ⟨-, hG, hcross⟩ := List.pairwise_append.mp hlinked
  refine ⟨fun a ha b hb => ?_, hG⟩
  rw [List.mem_append] at hb
  obtain hb | hb := hb
  · exact hkept a (List.mem_append_right _ ha) b hb
  · obtain ⟨c, hc, rfl⟩ := List.mem_map.mp hb
    exact hcross c ((roots_sublist F).subset hc) a ha

end Orderly

section Links

variable {extdesc : ExtDesc} {p q q' q'' : PartitionData} {n : UInt32} {parent current : Option UInt32}
  {descends : BlockNode → Prop} {T : List UInt32} {a : BlockNode} {kids rest : Forest BlockNode}
  {clean : Prop}

structure Threaded (q : PartitionData) (n : UInt32) (parent current : Option UInt32)
    (F : Forest BlockNode) : Prop where
  placed : ∀ a ∈ F.roots, (q.blist a.block).sbLevel = a.level ∧ (q.blist a.block).sbOffset = a.offset ∧
    (q.blist a.block).sbInode = n
  first : F ≠ .nil → q.nextLink n parent current = F.first

theorem Links.ended (hparent : ∀ s, parent = some s → s ∈ T) (hcurrent : ∀ c, current = some c → c ∈ T)
    (x : UInt32) (F : Forest BlockNode) (clean : Prop) :
    Links extdesc q (q.linkNext n parent current 0) n parent current T F clean := by
  have hnext : (q.linkNext n parent current 0).nextLink n parent current = 0 := nextLink_linkNext 0
  refine ⟨fun b _ => by rw [hnext], by rw [hnext], fun b hb => ?_, fun hp => ?_,
    .linkNext fun _ _ => .inl rfl, fun _ _ => ?_⟩
  · apply Left.of_same
    · exact linkNext_blist_of_notMem hparent hcurrent fun hin => hb (List.mem_append_left _ hin)
    · exact congrFun (linkNext_dataCache q 0) b
  · exact pointersBelow_linkNext hp (UInt32.lt_of_le_of_lt UInt32.zero_le (hp x).1)
  · exact ⟨.nil, hnext, List.nil_sublist _⟩

theorem linkNext_congr (hparent : ∀ s, parent = some s → s ∈ T) (hcurrent : ∀ c, current = some c → c ∈ T)
    (hsame : ∀ b ∈ T, q'.blist b = q.blist b) (link : UInt32) {b : UInt32} (hb : b ∈ T) :
    (q'.linkNext n parent current link).blist b = (q.linkNext n parent current link).blist b := by
  have hupdate (c : UInt32) (hc : c ∈ T) (f : SBlock → SBlock) :
      update q'.blist c (f (q'.blist c)) b = update q.blist c (f (q.blist c)) b := by
    rw [hsame c hc, update_apply, update_apply, hsame b hb]
  cases current with
  | some c => exact hupdate c (hcurrent c rfl) fun s => { s with sbSib := link }
  | none =>
    cases parent with
    | some s => exact hupdate s (hparent s rfl) fun s => { s with sbBh := link }
    | none => exact hsame b hb

theorem linkNext_ilist (hilist : q'.ilist = q.ilist) (link : UInt32) :
    (q'.linkNext n parent current link).ilist = (q.linkNext n parent current link).ilist := by
  cases current with
  | some c => exact hilist
  | none =>
    cases parent with
    | some s => exact hilist
    | none =>
      change update q'.ilist n _ = update q.ilist n _
      rw [hilist]

theorem Linking.of_left (h : Linking extdesc q' q'' n parent current T a kids clean)
    (hparent : ∀ s, parent = some s → s ∈ T) (hcurrent : ∀ c, current = some c → c ∈ T)
    (hleft : ∀ b, Left q q' b) (hsame : ∀ b ∈ T, q'.blist b = q.blist b) (hilist : q'.ilist = q.ilist) :
    Linking extdesc q q'' n parent current T a kids clean := by
  refine ⟨fun b hb => ?_, ?_, fun b hb => (hleft b).trans (h.left b hb), fun hp => ?_,
    (Taken.of_left hleft n).trans h.taken, h.placed, ?_, h.finite⟩
  · rw [h.kept b hb, linkNext_congr hparent hcurrent hsame _ hb]
  · rw [h.ilist, linkNext_ilist hilist]
  · exact h.pointers (pointersBelow_of_left hleft hp)
  · obtain hsib | hsib := h.sib
    · rw [hsib]
      exact (hleft a.block).sib
    · exact .inr hsib

theorem exists_links_nil (hparent : ∀ s, parent = some s → s ∈ T) (hcurrent : ∀ c, current = some c → c ∈ T)
    (clean : Prop) :
    Links extdesc q (q.endChain current) n parent current T .nil clean ∧
      Threaded (q.endChain current) n parent current .nil ∧
      (current ≠ none → SibChain (q.endChain current).sib ((q.endChain current).nextLink n parent current) []) := by
  have hthreaded {q' : PartitionData} : Threaded q' n parent current .nil :=
    ⟨by rintro a ⟨⟩, fun hnil => absurd rfl hnil⟩
  cases current with
  | none => exact ⟨.refl .., hthreaded, fun hnone => absurd rfl hnone⟩
  | some c =>
    refine ⟨Links.ended hparent hcurrent c _ _, hthreaded, fun _ => ?_⟩
    exact @nextLink_linkNext q n parent (some c) 0

theorem Linking.consRun {link offset : UInt32} {level : UInt8} {ls : List UInt32} {clean' : Prop}
    (h : Linking extdesc q q' n parent current T ⟨link, level, offset⟩ kids clean)
    (h' : Links extdesc q' q'' n parent (some link) (T ++ link :: kids.blocks) rest clean')
    (hthreaded : Threaded q'' n parent (some link) rest)
    (hparent : ∀ s, parent = some s → s ∈ T) (hcurrent : ∀ c, current = some c → c ∈ T)
    (hlink : link ∉ T) (hne : link ≠ 0) (hkids : link ∉ kids.blocks) :
    Links extdesc q q'' n parent current T (.node ⟨link, level, offset⟩ kids rest) (clean ∧ clean') ∧
      Threaded q'' n parent current (.node ⟨link, level, offset⟩ kids rest) ∧
      (SibChain q''.sib (q''.nextLink n parent (some link)) (nonzero ls) →
        SibChain q''.sib (q''.nextLink n parent current) (nonzero (link :: ls))) := by
  obtain ⟨hall, hnext, hself⟩ := h.cons h' hparent hcurrent hlink hne hkids
  refine ⟨hall, ⟨?_, fun _ => hnext⟩, fun hchain => ?_⟩
  · rw [roots, List.forall_mem_cons]
    exact ⟨hself, hthreaded.placed⟩
  · have hcons : nonzero (link :: ls) = link :: nonzero ls := by simp [nonzero, hne]
    rw [hcons]
    exact ⟨hnext, hne, hchain⟩

/-- Unmapping a block leaves the others that do not lie below it alone, and a block of another inode is
not unmapped at all. -/
def Unmaps (p : PartitionData) (unmap : UInt32 → UInt32 → PartitionData → Option PartitionData) : Prop :=
  ∀ x q n, (q.owner x ≠ n → unmap x n q = some q) ∧
    ((∀ b, b = x ∨ p.Below x b → Left p q b) → ∃ q', unmap x n q = some q' ∧ (∀ b, Left q q' b) ∧
      (∀ b, b ≠ x → ¬p.Below x b → q'.blist b = q.blist b) ∧ q'.ilist = q.ilist ∧
      (q.owner x = n → q'.blist x = .blank ∧ q'.dataCache x = none))

theorem Unmaps.run {unmap : UInt32 → UInt32 → PartitionData → Option PartitionData} (hunmap : Unmaps p unmap)
    {link m : UInt32} (hm : m ≠ 0) (hlink : link ∉ T) (hbelow : p.owner link = m → ∀ b ∈ T, ¬p.Below link b)
    (hleft : ∀ b ∉ T, Left p q b) :
    ∃ q', unmap link m q = some q' ∧ (∀ b, Left q q' b) ∧ (∀ b ∈ T, q'.blist b = q.blist b) ∧
      q'.ilist = q.ilist ∧ (q.owner link = m → q'.blist link = .blank ∧ q'.dataCache link = none) := by
  by_cases howner : q.owner link = m
  · have howner' : p.owner link = m := by
      obtain hq | hq := (hleft link hlink).owner
      · exact hq.symm.trans howner
      · exact absurd (howner.symm.trans hq) hm
    have hout : ∀ b, b = link ∨ p.Below link b → Left p q b := by
      rintro b (rfl | hb)
      · exact hleft b hlink
      · exact hleft b fun hin => hbelow howner' b hin hb
    obtain ⟨q', hq', hleft', hsame, hilist, hblank⟩ := (hunmap link q m).2 hout
    refine ⟨q', hq', hleft', fun b hb => hsame b ?_ (hbelow howner' b hb), hilist, hblank⟩
    rintro rfl
    exact hlink hb
  · exact ⟨q, (hunmap link q m).1 howner, Left.refl q, fun _ _ => rfl, rfl, fun h => absurd h howner⟩

theorem Left.unmapped_of_owner {b : UInt32} (h : Left p q b) (howner : p.owner b ≠ q.owner b) :
    q.blist b = .blank ∧ q.dataCache b = none := by
  obtain ⟨hblock, -⟩ | hblank := h
  · exact absurd (congrArg SBlock.sbInode hblock).symm howner
  · exact hblank

theorem Unmaps.link {unmap : UInt32 → UInt32 → PartitionData → Option PartitionData} (hunmap : Unmaps p unmap)
    {link m : UInt32} (hm : m ≠ 0) (hlink : link ∉ T) (hbelow : p.owner link = m → ∀ b ∈ T, ¬p.Below link b)
    (hleft : ∀ b ∉ T, Left p q b) :
    ∃ q', (if (q.blist link).sbInode ≠ 0 then unmap link m q else some q) = some q' ∧
      (∀ b, Left q q' b) ∧ (∀ b ∈ T, q'.blist b = q.blist b) ∧ q'.ilist = q.ilist ∧
      (p.owner link = m → q'.blist link = .blank ∧ q'.dataCache link = none) := by
  obtain ⟨q', hq', hleft', hsame, hilist, hblank⟩ := hunmap.run hm hlink hbelow hleft
  have hgone : p.owner link = m → q'.blist link = .blank ∧ q'.dataCache link = none := by
    intro howner
    by_cases howner' : q.owner link = m
    · exact hblank howner'
    · have hq := (hleft link hlink).unmapped_of_owner (by
        rw [howner]
        exact Ne.symm howner')
      obtain ⟨hblock, hcache⟩ | hnone := hleft' link
      · rw [hblock, hcache]
        exact hq
      · exact hnone
  by_cases hzero : (q.blist link).sbInode ≠ 0
  · rw [if_pos hzero]
    exact ⟨q', hq', hleft', hsame, hilist, hgone⟩
  · rw [if_neg hzero]
    refine ⟨q, rfl, Left.refl q, fun _ _ => rfl, rfl, fun howner => ?_⟩
    apply (hleft link hlink).unmapped_of_owner
    intro hsame
    exact hm (howner.symm.trans (hsame.trans (not_not.mp hzero)))

theorem Unmaps.own {unmap : UInt32 → UInt32 → PartitionData → Option PartitionData} (hunmap : Unmaps p unmap)
    {link : UInt32} (hlink : link ∉ T) (hbelow : ∀ b ∈ T, ¬p.Below link b) (hleft : ∀ b ∉ T, Left p q b) :
    ∃ q', (if (q.blist link).sbInode ≠ 0 then unmap link (q.blist link).sbInode q else some q) = some q' ∧
      (∀ b, Left q q' b) ∧ (∀ b ∈ T, q'.blist b = q.blist b) ∧ q'.ilist = q.ilist ∧
      (p.owner link ≠ 0 → q'.blist link = .blank ∧ q'.dataCache link = none) := by
  by_cases hzero : (q.blist link).sbInode ≠ 0
  · rw [if_pos hzero]
    obtain ⟨q', hq', hleft', hsame, hilist, hblank⟩ := hunmap.run hzero hlink (fun _ => hbelow) hleft
    exact ⟨q', hq', hleft', hsame, hilist, fun _ => hblank rfl⟩
  · rw [if_neg hzero]
    refine ⟨q, rfl, Left.refl q, fun _ _ => rfl, rfl, fun howner => ?_⟩
    apply (hleft link hlink).unmapped_of_owner
    exact fun hsame => howner (hsame.trans (not_not.mp hzero))

-- One turn of the loop: the block of the link is unmapped, placed below `x` and mapped.
theorem Unmaps.linking {level : ℕ} (hlevel : level ≤ 2) {x o link : UInt32} (ht : p.Treelike)
    {unmap : UInt32 → UInt32 → PartitionData → Option PartitionData} (hunmap : Unmaps p unmap)
    {remap : UInt32 → Buf → PartitionData → Option PartitionData}
    (hremap : level ≠ 0 → ∀ b offset buf, p.othersCache n b = some buf →
      Remaps extdesc p descends n level b offset buf (cachedKids extdesc (p.othersCache n) level b offset) remap)
    (hdescends : ∀ a, Descends p n a → descends a) (hn : n ≠ 0) {i : ℕ} (hx : x ∈ T)
    (hcurrent : ∀ c, current = some c → c ∈ T) (hleft : ∀ b ∉ T, Left p q b)
    (hblock : (q.blist x).sbLevel = UInt8.ofNat (level + 1) ∧ (q.blist x).sbOffset = o ∧
      (q.blist x).sbInode = n)
    (hrange : link < extdesc.sb.sBlocksCount)
    (horder : Orderly p descends T (.node ⟨link, UInt8.ofNat level, remapOffset extdesc (level + 1) o i⟩
      (cachedKids extdesc (p.othersCache n) level link (remapOffset extdesc (level + 1) o i)) rest)) :
    ∃ q₁ q₂,
      (if (q.blist link).sbInode ≠ 0 then unmap link (q.blist x).sbInode q else some q) = some q₁ ∧
      ((q₁.blist x).sbLevel = UInt8.ofNat (level + 1) ∧ (q₁.blist x).sbOffset = o) ∧
      mapLinked remap link (remapOffset extdesc (level + 1) o i)
        ((q₁.linkNext n (some x) current link).setBlock link
          { (q₁.linkNext n (some x) current link).blist link with
            sbLevel := UInt8.ofNat level, sbInode := n }) = some q₂ ∧
      Linking extdesc q q₂ n (some x) current T
        ⟨link, UInt8.ofNat level, remapOffset extdesc (level + 1) o i⟩
        (cachedKids extdesc (p.othersCache n) level link (remapOffset extdesc (level + 1) o i))
        ((p.blist link = .blank ∨ p.owner link = n) ∧
          Clean p n (cachedKids extdesc (p.othersCache n) level link (remapOffset extdesc (level + 1) o i))) ∧
      (q₂.blist x).sbLevel = UInt8.ofNat (level + 1) ∧ (q₂.blist x).sbOffset = o ∧
        (q₂.blist x).sbInode = n := by
  have hparent : ∀ s, some x = some s → s ∈ T := by
    rintro s ⟨⟩
    exact hx
  have hnot := horder.notMem
  obtain ⟨q₁, hq₁, hleft₁, hsame₁, hilist₁, hgone⟩ := hunmap.link hn hnot
    (fun howner => horder.not_below (hdescends _ (Or.inl howner))) hleft
  rw [← hblock.2.2] at hq₁
  have hlink : Left p q₁ link := (hleft link hnot).trans (hleft₁ link)
  have hx₁ : (q₁.blist x).sbLevel = UInt8.ofNat (level + 1) ∧ (q₁.blist x).sbOffset = o := by
    rw [hsame₁ x hx]
    exact ⟨hblock.1, hblock.2.1⟩
  have hlevelx : ∀ s, some x = some s → (q₁.blist s).sbLevel ≠ 0 := by
    rintro s ⟨⟩
    rw [hx₁.1]
    exact ofNat_level_ne_zero level.succ_pos (Nat.succ_le_succ hlevel)
  have hblank : p.blist link = .blank ∨ p.owner link = n → q₁.blist link = .blank := by
    rintro (hblank | howner)
    · exact hlink.blank hblank
    · exact (hgone howner).1
  have hwalk : UInt8.ofNat level ≠ 0 → q₁.dataCache link ≠ none → ∀ b ∈ T, ¬p.Below link b := by
    intro hlevel' hcached
    refine horder.not_below (hdescends _ (Or.inr ⟨hlevel', fun hnone => hcached ?_⟩))
    exact hlink.uncached hnone
  have hremap' : level ≠ 0 → ∀ buf, q₁.dataCache link = some buf →
      Remaps extdesc p descends n level link (remapOffset extdesc (level + 1) o i) buf
        (cachedKids extdesc (p.othersCache n) level link (remapOffset extdesc (level + 1) o i)) remap := by
    intro hlevel' buf hbuf
    apply hremap hlevel'
    have hother : p.owner link ≠ n := by
      intro howner
      rw [(hgone howner).2] at hbuf
      cases hbuf
    rw [othersCache, if_neg hother]
    exact (hlink.cached hbuf).2
  obtain ⟨q₂, hq₂, hlinking⟩ := mapLinked_linking (hlevel.trans (by decide)) ht
    (fun b hb => (hleft b hb).trans (hleft₁ b)) hblank hparent hcurrent hlevelx hrange hnot horder.below
    hwalk hremap'
  replace hlinking := hlinking.of_left hparent hcurrent hleft₁ hsame₁ hilist₁
  refine ⟨q₁, q₂, hq₁, hx₁, hq₂, hlinking, ?_⟩
  rw [hlinking.kept x hx]
  exact ⟨(linkNext_kept x).1.trans hblock.1, (linkNext_kept x).2.trans hblock.2.1,
    (owner_linkNext link).trans hblock.2.2⟩

theorem remapLinks_links {level : ℕ} (hlevel : level ≤ 2) {x o : UInt32} (ht : p.Treelike)
    {unmap : UInt32 → UInt32 → PartitionData → Option PartitionData} (hunmap : Unmaps p unmap)
    {remap : UInt32 → Buf → PartitionData → Option PartitionData}
    (hremap : level ≠ 0 → ∀ b offset buf, p.othersCache n b = some buf →
      Remaps extdesc p descends n level b offset buf (cachedKids extdesc (p.othersCache n) level b offset) remap)
    (hdescends : ∀ a, Descends p n a → descends a) (hn : n ≠ 0) (ls : List UInt32) (i : ℕ) (hx : x ∈ T)
    (hcurrent : ∀ c, current = some c → c ∈ T)
    (hleft : ∀ b ∉ T, Left p q b)
    (hblock : (q.blist x).sbLevel = UInt8.ofNat (level + 1) ∧ (q.blist x).sbOffset = o ∧
      (q.blist x).sbInode = n)
    (horder : Orderly p descends T (mappedKids extdesc (p.othersCache n) level o ls i)) :
    ∃ q', remapLinks extdesc unmap remap n x ls i current q = some q' ∧
      Links extdesc q q' n (some x) current T (mappedKids extdesc (p.othersCache n) level o ls i)
        (Clean p n (mappedKids extdesc (p.othersCache n) level o ls i)) ∧
      Threaded q' n (some x) current (mappedKids extdesc (p.othersCache n) level o ls i) ∧
      ((∀ link ∈ ls, expiredLink extdesc link = false) → (nonzero ls = [] → current ≠ none) →
        SibChain q'.sib (q'.nextLink n (some x) current) (nonzero ls)) := by
  have hparent : ∀ s, some x = some s → s ∈ T := by
    rintro s ⟨⟩
    exact hx
  induction ls generalizing i current T q with
  | nil =>
    obtain ⟨hlinks, hthreaded, hchain⟩ := @exists_links_nil extdesc q n (some x) current T hparent hcurrent
      (Clean p n .nil)
    exact ⟨_, rfl, hlinks, hthreaded, fun _ hnil => hchain (hnil rfl)⟩
  | cons link ls ih =>
    rw [mappedKids, List.takeWhile_cons] at horder ⊢
    by_cases hexpired : extdesc.sb.sBlocksCount ≤ link
    · have hexpired' : (!expiredLink extdesc link) = false := by simp [expiredLink, hexpired]
      rw [hexpired'] at horder ⊢
      rw [remapLinks, if_pos hexpired]
      refine ⟨q, rfl, .refl .., ⟨by rintro a ⟨⟩, fun hnil => absurd rfl hnil⟩,
        fun hall => ?_⟩
      rw [hall link List.mem_cons_self] at hexpired'
      cases hexpired'
    have hexpired' : (!expiredLink extdesc link) = true := by simp [expiredLink, hexpired]
    rw [hexpired', if_pos rfl] at horder ⊢
    by_cases hzero : link = 0
    · subst hzero
      rw [linkForest_zero] at horder ⊢
      rw [remapLinks, if_neg hexpired, if_neg (not_not_intro rfl)]
      obtain ⟨q', hq', hlinks, hthreaded, hchain⟩ := ih (i + 1) hx hcurrent hleft hblock horder hparent
      refine ⟨q', hq', hlinks, hthreaded, fun hall hnil => ?_⟩
      exact hchain (fun link hlink => hall link (List.mem_cons_of_mem _ hlink)) hnil
    rw [linkForest_cons hzero] at horder ⊢
    have hrange := UInt32.not_le.mp hexpired
    have hnot := horder.notMem
    have hne : x ≠ link := by
      rintro rfl
      exact hnot hx
    obtain ⟨q₁, q₂, hq₁, hx₁, hq₂, hlinking, hx₂⟩ := hunmap.linking hlevel ht hremap hdescends hn hx
      hcurrent hleft hblock hrange horder
    obtain ⟨q', hq', hlinks, hthreaded, hchain⟩ := @ih q₂ (some link) _ (i + 1) (List.mem_append_left _ hx)
      (by
        rintro c ⟨⟩
        exact List.mem_append_right _ List.mem_cons_self)
      (fun b hb => ((hleft b fun hin => hb (List.mem_append_left _ hin))).trans (hlinking.left b hb)) hx₂
      horder.after (fun s hs => List.mem_append_left _ (hparent s hs))
    obtain ⟨hall, hplaced, hcons⟩ :=
      hlinking.consRun hlinks hthreaded hparent hcurrent hnot hzero horder.notMem_kids
    refine ⟨q', ?_, hall.mono Clean.node, hplaced, fun hexp _ => hcons ?_⟩
    · rw [remapLinks_cons hlevel hrange hzero hne hq₁ hx₁ hq₂]
      exact hq'
    · exact hchain (fun l hl => hexp l (List.mem_cons_of_mem _ hl)) fun _ => by simp

end Links

section Remap

variable {extdesc : ExtDesc} {p q : PartitionData} {n h h' : UInt32} {K : Forest UInt32}

theorem exists_sibChain (hK : p.Linked h K) (hleft : ∀ b ∈ K.keys id, Left p q b)
    (hstart : h' = h ∨ h' = 0) : ∃ l, SibChain q.sib h' l ∧ l <+: K.roots := by
  induction K generalizing h h' with
  | nil => exact ⟨[], hstart.elim (fun heq => heq.trans hK) id, List.prefix_rfl⟩
  | node a kids rest _ ih =>
    obtain ⟨hh, ha, -, hrest⟩ := hK
    dsimp only [id] at hh ha hrest
    rw [keys_node] at hleft
    rw [hh] at hstart
    obtain hstart | hzero := hstart
    · rw [hstart]
      obtain ⟨l, hl, hprefix⟩ := ih hrest (fun b hb => hleft b (by simp [hb]))
        (hleft a List.mem_cons_self).sib
      refine ⟨a :: l, ⟨rfl, ha, hl⟩, ?_⟩
      rw [roots]
      exact List.cons_prefix_cons.mpr ⟨rfl, hprefix⟩
    · exact ⟨[], hzero, List.nil_prefix⟩

theorem mappedKids_append {cache : UInt32 → Option Buf} {level : ℕ} {o : UInt32} {pre : List UInt32}
    (hpre : pre.any (expiredLink extdesc) = false) (rest : List UInt32) (i : ℕ) :
    mappedKids extdesc cache level o (pre ++ rest) i =
      (mappedKids extdesc cache level o pre i).append
        (mappedKids extdesc cache level o rest (i + pre.length)) := by
  have hall : ∀ link ∈ pre, (!expiredLink extdesc link) = true := by
    intro link hlink
    rw [List.any_eq_false] at hpre
    simpa using hpre link hlink
  rw [mappedKids, mappedKids, mappedKids, List.takeWhile_append_of_pos hall, linkForest_append,
    List.takeWhile_eq_self_iff.mpr hall]

theorem FirstDiffers.kids_eq {cache : UInt32 → Option Buf} {level : ℕ} {o : UInt32}
    {l ls pre rest gone : List UInt32} (hcut : FirstDiffers l ls pre rest gone)
    (hpre : pre.any (expiredLink extdesc) = false) :
    mappedKids extdesc cache level o ls 0 =
      (mappedKids extdesc cache level o pre 0).append (mappedKids extdesc cache level o rest pre.length) := by
  have happend : mappedKids extdesc cache level o (pre ++ rest) 0 = _ := mappedKids_append hpre rest 0
  rw [Nat.zero_add] at happend
  rw [hcut.links]
  exact happend

theorem first_gone {B : Forest UInt32} {pre rest l gone : List UInt32} (hB : B.roots = gone ++ l) :
    (if rest = [] ∧ nonzero pre = [] then 0 else gone.headD 0) = B.head id ∨
      (if rest = [] ∧ nonzero pre = [] then (0 : UInt32) else gone.headD 0) = 0 := by
  by_cases hnone : rest = [] ∧ nonzero pre = []
  · rw [if_pos hnone]
    exact Or.inr rfl
  · rw [if_neg hnone, head_eq_headD, hB]
    cases gone with
    | nil => exact Or.inr rfl
    | cons b gone => exact Or.inl rfl

theorem roots_mappedKids {cache : UInt32 → Option Buf} {level : ℕ} {o : UInt32} {ls : List UInt32}
    (hls : ls.any (expiredLink extdesc) = false) (i : ℕ) :
    (mappedKids extdesc cache level o ls i).roots.map BlockNode.block = nonzero ls := by
  have hall : ∀ link ∈ ls, (!expiredLink extdesc link) = true := by
    intro link hlink
    rw [List.any_eq_false] at hls
    simpa using hls link hlink
  rw [mappedKids, List.takeWhile_eq_self_iff.mpr hall]
  exact roots_linkForest ls i

theorem unmapBlock_unmaps (ht : p.Treelike) {fuel : ℕ} (hfuel : 2 ^ 33 + 1 < fuel) :
    Unmaps p (unmapBlock fuel) := by
  intro x q n
  refine ⟨fun howner => ?_, fun hleft => ht.unmapBlock hleft hfuel n⟩
  obtain ⟨fuel, rfl⟩ := Nat.exists_eq_add_of_le' (show 1 ≤ fuel by omega)
  have hother : n ≠ (q.blist x).sbInode := Ne.symm howner
  rw [unmapBlock]
  dsimp only
  rw [if_pos hother]

theorem Links.of_kept {q₁ q' : PartitionData} {x : UInt32} {T l : List UInt32} {F G : Forest BlockNode}
    (hF : F.roots.map BlockNode.block = l) (hx : x ∈ T) (hl : ∀ b ∈ l, b ∉ T) (hleft : ∀ b, Left q q₁ b)
    (hsame : ∀ b ∈ T, q₁.blist b = q.blist b) (hilist : q₁.ilist = q.ilist) (hfirst : l ≠ [] → q.bh x ≠ 0)
    (h : Links extdesc q₁ q' n (some x) l.getLast? (T ++ l) G (Clean p n G)) :
    Links extdesc q q' n (some x) none T (F.append G) (Clean p n (F.append G)) := by
  have hparent : ∀ s, some x = some s → s ∈ T := by
    rintro s ⟨⟩
    exact hx
  have hblocks : (F.append G).blocks = F.blocks ++ G.blocks := keys_append F G
  have hsub : ∀ b ∈ l, b ∈ F.blocks := by
    rintro b hb
    rw [← hF] at hb
    obtain ⟨a, ha, rfl⟩ := List.mem_map.mp hb
    exact List.mem_map.mpr ⟨a, (roots_sublist F).subset ha, rfl⟩
  have hout : ∀ b ∉ T ++ (F.append G).blocks, Left q q' b := by
    intro b hb
    apply (hleft b).trans (h.left b _)
    rw [hblocks] at hb
    simp only [List.mem_append, not_or] at hb ⊢
    exact ⟨⟨hb.1, fun hin => hb.2.1 (hsub b hin)⟩, hb.2.2⟩
  have hpointers := fun hp => h.pointers (pointersBelow_of_left hleft hp)
  have htaken := (Taken.of_left hleft n).trans h.taken
  cases l with
  | nil =>
    have hnone : ∀ c, (none : Option UInt32) = some c → c ∈ T := by
      rintro c ⟨⟩
    refine ⟨fun b hb => ?_, ?_, hout, hpointers, htaken, fun hclean hzero => ?_⟩
    · rw [h.kept b (List.mem_append_left _ hb)]
      exact linkNext_congr hparent hnone hsame _ hb
    · rw [h.ilist]
      exact linkNext_ilist hilist _
    · have hnext : q₁.nextLink n (some x) none = q.nextLink n (some x) none :=
        nextLink_congr (fun s hs => hsame s (hparent s hs)) (fun c hc => hsame c (hnone c hc)) hilist
      rw [← hnext] at hzero
      have hcleanG : Clean p n G := by
        intro b hb
        apply hclean b
        rw [hblocks]
        exact List.mem_append_right _ hb
      obtain ⟨K, hK, hsub'⟩ := h.finite hcleanG hzero
      refine ⟨K, hK, ?_⟩
      rw [hblocks]
      exact hsub'.trans (List.sublist_append_right _ _)
  | cons a l =>
    obtain ⟨c, hc⟩ : ∃ c, (a :: l).getLast? = some c := ⟨_, List.getLast?_cons⟩
    have hcT : c ∉ T := hl c (List.mem_of_getLast? hc)
    rw [hc] at h
    have hstay : ∀ b ∈ T, q'.blist b = q.blist b := by
      intro b hb
      rw [h.kept b (List.mem_append_left _ hb), ← hsame b hb]
      apply update_of_ne
      rintro rfl
      exact hcT hb
    have hnext : q'.nextLink n (some x) none = q.nextLink n (some x) none :=
      congrArg SBlock.sbBh (hstay x hx)
    have hilist' : q'.ilist = q.ilist := h.ilist.trans hilist
    refine ⟨fun b hb => ?_, ?_, hout, hpointers, htaken, fun _ hzero => ?_⟩
    · rw [hnext, linkNext_self]
      exact hstay b hb
    · rw [hnext, linkNext_self]
      exact hilist'
    · exact absurd (hzero hnext) (hfirst (List.cons_ne_nil _ _))

theorem remapBlock_remaps {level : ℕ} (hlevel : level ≤ 3) (ht : p.Treelike)
    {descends : BlockNode → Prop} (hdescends : ∀ a, Descends p n a → descends a) (hn : n ≠ 0) {fuel : ℕ}
    (hfuel : 2 ^ 33 + 2 + level < fuel) (hzero : level ≠ 0) {x offset : UInt32} {buf : Buf}
    (hbuf : p.othersCache n x = some buf) :
    Remaps extdesc p descends n level x offset buf (cachedKids extdesc (p.othersCache n) level x offset)
      (remapBlock extdesc n fuel) := by
  induction level generalizing fuel x offset buf with
  | zero => exact absurd rfl hzero
  | succ level ih =>
    intro T q hx hleft hbelow hlev hoff hown hbh horder
    obtain ⟨fuel, rfl⟩ := Nat.exists_eq_add_of_le' (show 1 ≤ fuel by omega)
    have hread : readLinks extdesc (p.othersCache n) x = links extdesc buf := by
      rw [readLinks, hbuf]
      rfl
    have hkids : cachedKids extdesc (p.othersCache n) (level + 1) x offset =
        mappedKids extdesc (p.othersCache n) level offset (links extdesc buf) 0 := by
      rw [cachedKids, blockKids, cachedLinks, hread]
    rw [hkids] at horder ⊢
    obtain ⟨K, hK, hnodup, hnot⟩ := ht.kids x
    have hKT : ∀ b ∈ K.keys id, b ∉ T := fun b hb hin => hbelow b hin ⟨K, hK, hb⟩
    have hKleft : ∀ b ∈ K.keys id, Left p q b := fun b hb => hleft b (hKT b hb)
    obtain ⟨l, hl, l', hroots⟩ := exists_sibChain hK hKleft hbh
    obtain ⟨pre, rest, gone, hcut⟩ := exists_firstDiffers l (links extdesc buf)
    rw [remapBlock_eq hl hcut]
    by_cases hany : (pre ++ rest.take 1).any (expiredLink extdesc) = true
    · rw [if_pos hany]
      exact ⟨q, rfl, .refl ..⟩
    rw [if_neg hany]
    rw [hcut.chain, List.append_assoc] at hroots
    obtain ⟨A, B, rfl, hA, hB⟩ := exists_append_of_roots hroots.symm
    have hBK : ∀ b ∈ B.keys id, b ∈ (A.append B).keys id := by
      intro b hb
      rw [keys_append]
      exact List.mem_append_right _ hb
    have hnodupB := hnodup
    rw [keys_append] at hnodupB
    have hlen := nodes_le_of_nodup hnodup
    rw [append_length] at hlen
    obtain ⟨q₁, hq₁, hfades⟩ := @unmapSiblings_fades p q B (B.head id) _ fuel
      (fun p => (p.blist x).sbInode) (Rep.append_right hK) (List.nodup_append.mp hnodupB).2.1
      (fun b _ => ht.leaf b) (fun b hb => hKleft b (hBK b hb)) (first_gone hB) (by omega)
    have hsame : ∀ b ∈ T, q₁.blist b = q.blist b :=
      fun b hb => (hfades.same b fun hin => hKT b (hBK b hin) hb).1
    have hpre : pre.any (expiredLink extdesc) = false := by
      rw [List.any_append, Bool.not_eq_true, Bool.or_eq_false_iff] at hany
      exact hany.1
    rw [hcut.kids_eq hpre] at horder ⊢
    have horder' := horder.append
    rw [roots_mappedKids hpre] at horder'
    have hpreA : ∀ b ∈ nonzero pre, b ∈ (A.append B).keys id := by
      intro b hb
      rw [← hA] at hb
      rw [keys_append, keys_id]
      exact List.mem_append_left _ ((roots_sublist A).subset hb)
    have hblock := hsame x hx
    obtain ⟨q', hq', hlinks, -, -⟩ := @remapLinks_links extdesc p q₁ n (nonzero pre).getLast?
      descends (T ++ nonzero pre) level (by omega) x offset ht (unmapBlock fuel)
      (unmapBlock_unmaps ht (by omega)) (remapBlock extdesc n fuel)
      (fun hne b o buf hbuf => ih (by omega) (by omega) hne hbuf) hdescends hn rest pre.length
      (List.mem_append_left _ hx)
      (fun c hc => List.mem_append_right _ (List.mem_of_getLast? hc))
      (fun b hb => (hleft b fun hin => hb (List.mem_append_left _ hin)).trans (hfades.left b))
      (by
        rw [hblock]
        exact ⟨hlev, hoff, hown⟩) horder'
    refine ⟨q', ?_, ?_⟩
    · rw [hq₁, Option.bind_some]
      exact hq'
    · apply Links.of_kept (roots_mappedKids hpre 0) hx (fun b hb => hKT b (hpreA b hb)) hfades.left hsame
        hfades.ilist _ hlinks
      intro hne hnil
      rw [hcut.chain, hnil] at hl
      cases hpre' : nonzero pre with
      | nil => exact hne hpre'
      | cons b l =>
        rw [hpre'] at hl
        exact hl.2.1 hl.1.symm

end Remap

end SBlktrace
