import SBlktrace.IntrospectionSteps
import SBlktrace.ScanFailure
import Mathlib

namespace Forest

variable {α κ : Type}

theorem roots_sublist (F : Forest α) : F.roots.Sublist F.nodes := by
  induction F with
  | nil => exact List.Sublist.refl []
  | node a kids rest _ ih => exact (ih.trans (List.sublist_append_right _ _)).cons_cons a

theorem roots_append (F G : Forest α) : (F.append G).roots = F.roots ++ G.roots := by
  induction F with
  | nil => rfl
  | node a kids rest _ ih => rw [append, roots, roots, ih, List.cons_append]

theorem last_eq_getLast? (F : Forest α) : F.last = F.roots.getLast? := by
  induction F with
  | nil => rfl
  | node a kids rest _ ih =>
    rw [last_node, ih, roots, List.getLast?_cons]
    cases rest.roots.getLast? <;> rfl

theorem exists_append_of_roots {F : Forest α} {l l' : List α} (h : F.roots = l ++ l') :
    ∃ A B : Forest α, F = A.append B ∧ A.roots = l ∧ B.roots = l' := by
  induction l generalizing F with
  | nil => exact ⟨nil, F, rfl, rfl, h⟩
  | cons b l ih =>
    cases F with
    | nil => cases h
    | node a kids rest =>
      rw [roots, List.cons_append, List.cons.injEq] at h
      obtain ⟨rfl, h⟩ := h
      obtain ⟨A, B, rfl, rfl, rfl⟩ := ih h
      exact ⟨node a kids A, B, rfl, rfl, rfl⟩

theorem head_eq_headD [Zero α] (F : Forest α) : F.head id = F.roots.headD 0 := by
  cases F <;> rfl

end Forest

namespace SBlktrace

open Function Forest PartitionData

section Chains

variable {sib : UInt32 → UInt32} {h : UInt32} {l : List UInt32}

def SibChain (sib : UInt32 → UInt32) : UInt32 → List UInt32 → Prop
  | h, [] => h = 0
  | h, b :: l => h = b ∧ b ≠ 0 ∧ SibChain sib (sib b) l

theorem SibChain.head_eq (hchain : SibChain sib h l) : h = l.headD 0 := by
  cases l with
  | nil => exact hchain
  | cons b l => exact hchain.1

theorem SibChain.unique {l' : List UInt32} (hchain : SibChain sib h l) (hchain' : SibChain sib h l') :
    l = l' := by
  induction l generalizing h l' with
  | nil =>
    cases l' with
    | nil => rfl
    | cons b l' => exact absurd (hchain'.1.symm.trans hchain) hchain'.2.1
  | cons a l ih =>
    cases l' with
    | nil => exact absurd (hchain.1.symm.trans hchain') hchain.2.1
    | cons b l' =>
      obtain rfl : a = b := hchain.1.symm.trans hchain'.1
      rw [ih hchain.2.2 hchain'.2.2]

theorem SibChain.append {l₁ l₂ : List UInt32} (hchain : SibChain sib h (l₁ ++ l₂)) :
    (∀ c, l₁.getLast? = some c → sib c = l₂.headD 0) ∧ (l₁ = [] → h = l₂.headD 0) := by
  induction l₁ generalizing h with
  | nil => exact ⟨by rintro c ⟨⟩, fun _ => hchain.head_eq⟩
  | cons a l₁ ih =>
    obtain ⟨-, -, hrest⟩ := hchain
    obtain ⟨hlast, hnil⟩ := ih hrest
    refine ⟨fun c hc => ?_, by rintro ⟨⟩⟩
    cases l₁ with
    | nil =>
      cases hc
      exact hnil rfl
    | cons b l₁ => exact hlast c hc

theorem SibChain.lt {c : UInt32} (hchain : SibChain sib h l) (hh : h < c) (hsib : ∀ b, sib b < c) :
    ∀ b ∈ l, b < c := by
  induction l generalizing h with
  | nil =>
    rintro b ⟨⟩
  | cons a l ih =>
    obtain ⟨rfl, -, hrest⟩ := hchain
    rw [List.forall_mem_cons]
    exact ⟨hh, ih hrest (hsib h)⟩

theorem SibChain.roots {p : PartitionData} {K : Forest UInt32} (hK : p.Linked h K) :
    SibChain p.sib h K.roots := by
  induction K generalizing h with
  | nil => exact hK
  | node a kids rest _ ih =>
    obtain ⟨hh, ha, -, hrest⟩ := hK
    exact ⟨hh, ha, ih hrest⟩

theorem SibChain.relink {sib' : UInt32 → UInt32} {h' : UInt32} {l₁ l₂ l₂' : List UInt32}
    (hchain : SibChain sib h (l₁ ++ l₂)) (hnodup : l₁.Nodup)
    (hsame : ∀ b ∈ l₁, l₁.getLast? ≠ some b → sib' b = sib b)
    (hlast : ∀ c, l₁.getLast? = some c → SibChain sib' (sib' c) l₂')
    (hstart : l₁ ≠ [] → h' = h) (hnil : l₁ = [] → SibChain sib' h' l₂') :
    SibChain sib' h' (l₁ ++ l₂') := by
  induction l₁ generalizing h h' with
  | nil => exact hnil rfl
  | cons a l₁ ih =>
    obtain ⟨hh, ha, hrest⟩ := hchain
    obtain ⟨hnot, hnodup⟩ := List.nodup_cons.mp hnodup
    refine ⟨(hstart (List.cons_ne_nil _ _)).trans hh, ha, ?_⟩
    apply ih hrest hnodup
    · intro b hb hne
      apply hsame b (List.mem_cons_of_mem _ hb)
      cases l₁ with
      | nil => cases hb
      | cons c l₁ => exact hne
    · intro c hc
      apply hlast
      cases l₁ with
      | nil => cases hc
      | cons d l₁ => exact hc
    · intro hne
      apply hsame a List.mem_cons_self
      intro heq
      cases l₁ with
      | nil => exact hne rfl
      | cons d l₁ => exact hnot (List.mem_of_getLast? heq)
    · rintro rfl
      exact hlast a rfl

def nonzero (ls : List UInt32) : List UInt32 := ls.filter (· ≠ 0)

theorem mem_nonzero {ls : List UInt32} {link : UInt32} : link ∈ nonzero ls ↔ link ∈ ls ∧ link ≠ 0 := by
  simp [nonzero]

/-- Where the links differ from a chain: `pre` are those that do not, with zeros between, `rest` the
others and `gone` what is left of the chain. -/
structure FirstDiffers (l ls pre rest gone : List UInt32) : Prop where
  links : ls = pre ++ rest
  chain : l = nonzero pre ++ gone
  differs : ∀ link tl, rest = link :: tl → link ≠ 0 ∧ gone.head? ≠ some link

theorem exists_firstDiffers (l ls : List UInt32) : ∃ pre rest gone, FirstDiffers l ls pre rest gone := by
  induction ls generalizing l with
  | nil => exact ⟨[], [], l, rfl, rfl, by rintro _ _ ⟨⟩⟩
  | cons link ls ih =>
    by_cases hzero : link = 0
    · subst hzero
      obtain ⟨pre, rest, gone, rfl, rfl, hdiffers⟩ := ih l
      exact ⟨0 :: pre, rest, gone, rfl, rfl, hdiffers⟩
    by_cases hhead : l.head? = some link
    · cases l with
      | nil => cases hhead
      | cons b l =>
        obtain rfl := Option.some.inj hhead
        obtain ⟨pre, rest, gone, rfl, rfl, hdiffers⟩ := ih l
        refine ⟨b :: pre, rest, gone, rfl, ?_, hdiffers⟩
        simp [nonzero, hzero]
    · refine ⟨[], link :: ls, l, rfl, rfl, ?_⟩
      rintro _ _ ⟨⟩
      exact ⟨hzero, hhead⟩

theorem keepLinks_eq {blist : UInt32 → SBlock} {expired : UInt32 → Bool} {ls pre rest gone : List UInt32}
    (hchain : SibChain (fun b => (blist b).sbSib) h l) (hcut : FirstDiffers l ls pre rest gone) (i : ℕ)
    (current : Option UInt32) :
    keepLinks blist expired ls i h current =
      if (pre ++ rest.take 1).any expired then none
      else some (i + pre.length, rest, (nonzero pre).getLast?.or current,
        if rest = [] then none else gone.head?) := by
  obtain ⟨rfl, rfl, hdiffers⟩ := hcut
  induction pre generalizing h i current with
  | nil =>
    cases rest with
    | nil => rfl
    | cons link tl =>
      obtain ⟨hlink, hhead⟩ := hdiffers link tl rfl
      have hstart : h ≠ link := by
        rintro rfl
        cases gone with
        | nil => exact hlink hchain
        | cons b gone => exact hhead (congrArg some hchain.1.symm)
      have hgone : (if h ≠ 0 then some h else none) = gone.head? := by
        cases gone with
        | nil =>
          have hzero : h = 0 := hchain
          rw [if_neg (not_not_intro hzero)]
          rfl
        | cons b gone =>
          obtain ⟨rfl, hb, -⟩ := hchain
          rw [if_pos hb]
          rfl
      rw [List.nil_append, List.nil_append, keepLinks, if_pos hlink, if_pos hstart, hgone,
        List.take_succ_cons, List.take_zero, List.any_cons, List.any_nil, Bool.or_false, if_neg (List.cons_ne_nil _ _)]
      rfl
  | cons link pre ih =>
    rw [List.cons_append, List.cons_append, keepLinks.eq_def, List.any_cons]
    dsimp only
    by_cases hexpired : expired link = true
    · rw [if_pos hexpired, hexpired, Bool.true_or, if_pos rfl]
    rw [if_neg hexpired, Bool.eq_false_iff.mpr hexpired, Bool.false_or, List.length_cons]
    have hindex : i + (pre.length + 1) = i + 1 + pre.length := by omega
    rw [hindex]
    by_cases hzero : link = 0
    · subst hzero
      rw [if_neg (not_not_intro rfl)]
      exact ih (i + 1) current hchain
    · have hcons : nonzero (link :: pre) = link :: nonzero pre := by simp [nonzero, hzero]
      rw [hcons] at hchain ⊢
      obtain ⟨rfl, -, hrest⟩ := hchain
      rw [if_pos hzero, if_neg (not_not_intro rfl), ih (i + 1) (some h) hrest, List.getLast?_cons]
      cases (nonzero pre).getLast? <;> rfl

theorem oldBlock_eq {blist : UInt32 → SBlock} {ls pre rest gone : List UInt32}
    (hchain : SibChain (fun b => (blist b).sbSib) h l) (hcut : FirstDiffers l ls pre rest gone) :
    oldBlock blist (nonzero pre).getLast? (if rest = [] then none else gone.head?) =
      if rest = [] ∧ nonzero pre = [] then 0 else gone.headD 0 := by
  obtain ⟨rfl, rfl, -⟩ := hcut
  obtain ⟨hlast, -⟩ := hchain.append
  by_cases hrest : rest = []
  · rw [if_pos hrest]
    cases hpre : (nonzero pre).getLast? with
    | none =>
      rw [List.getLast?_eq_none_iff] at hpre
      rw [if_pos ⟨hrest, hpre⟩]
      rfl
    | some c =>
      have hne : nonzero pre ≠ [] := by
        intro hnil
        rw [hnil] at hpre
        cases hpre
      rw [if_neg fun h => hne h.2]
      exact hlast c hpre
  · rw [if_neg hrest, if_neg fun h => hrest h.1]
    cases gone with
    | nil =>
      cases hpre : (nonzero pre).getLast? with
      | none => rfl
      | some c => exact hlast c hpre
    | cons b gone => cases (nonzero pre).getLast? <;> rfl

theorem remapBlock_eq {p : PartitionData} {extdesc : ExtDesc} {n s : UInt32} {buf : Buf} {fuel : ℕ}
    {pre rest gone : List UInt32} (hchain : SibChain p.sib (p.bh s) l)
    (hcut : FirstDiffers l (links extdesc buf) pre rest gone) :
    remapBlock extdesc n (fuel + 1) s buf p =
      if (pre ++ rest.take 1).any (expiredLink extdesc) then some p
      else
        (unmapSiblings fuel (fun p => (p.blist s).sbInode)
          (if rest = [] ∧ nonzero pre = [] then 0 else gone.headD 0) p).bind
            (remapLinks extdesc (unmapBlock fuel) (remapBlock extdesc n fuel) n s rest pre.length
              (nonzero pre).getLast?) := by
  have hkeep : keepLinks p.blist (fun link => extdesc.sb.sBlocksCount ≤ link) (links extdesc buf) 0
      (p.blist s).sbBh none = _ := keepLinks_eq hchain hcut 0 none
  have hexpired : (fun link => decide (extdesc.sb.sBlocksCount ≤ link)) = expiredLink extdesc := rfl
  rw [remapBlock, hkeep, hexpired]
  by_cases hany : (pre ++ rest.take 1).any (expiredLink extdesc) = true
  · rw [if_pos hany, if_pos hany]
  · rw [if_neg hany, if_neg hany, Option.or_none, Nat.zero_add]
    dsimp only
    rw [oldBlock_eq hchain hcut]
    rfl

end Chains

def Left (p q : PartitionData) (b : UInt32) : Prop :=
  (q.blist b = p.blist b ∧ q.dataCache b = p.dataCache b) ∨
    (q.blist b = .blank ∧ q.dataCache b = none)

structure Fades (q q' : PartitionData) (l : List UInt32) : Prop where
  left : ∀ b, Left q q' b
  same : ∀ b ∉ l, q'.blist b = q.blist b ∧ q'.dataCache b = q.dataCache b
  ilist : q'.ilist = q.ilist

section Left

variable {p q q' : PartitionData} {b : UInt32} {l l' : List UInt32}

theorem Left.refl (p : PartitionData) (b : UInt32) : Left p p b := Or.inl ⟨rfl, rfl⟩

theorem Left.trans (h : Left p q b) (h' : Left q q' b) : Left p q' b := by
  obtain ⟨hblock, hcache⟩ | hblank := h'
  · rw [Left, hblock, hcache]
    exact h
  · exact Or.inr hblank

theorem Left.of_same (hblock : q.blist b = p.blist b) (hcache : q.dataCache b = p.dataCache b) :
    Left p q b := Or.inl ⟨hblock, hcache⟩

theorem Left.blank (h : Left p q b) (hblank : p.blist b = .blank) : q.blist b = .blank := by
  obtain ⟨hblock, -⟩ | ⟨hblock, -⟩ := h
  · rw [hblock, hblank]
  · exact hblock

theorem Left.bh (h : Left p q b) : q.bh b = p.bh b ∨ q.bh b = 0 := by
  obtain ⟨hblock, -⟩ | ⟨hblock, -⟩ := h
  · rw [PartitionData.bh, hblock]
    exact Or.inl rfl
  · rw [PartitionData.bh, hblock]
    exact Or.inr rfl

theorem Left.sib (h : Left p q b) : q.sib b = p.sib b ∨ q.sib b = 0 := by
  obtain ⟨hblock, -⟩ | ⟨hblock, -⟩ := h
  · rw [PartitionData.sib, hblock]
    exact Or.inl rfl
  · rw [PartitionData.sib, hblock]
    exact Or.inr rfl

theorem Left.owner (h : Left p q b) : q.owner b = p.owner b ∨ q.owner b = 0 := by
  obtain ⟨hblock, -⟩ | ⟨hblock, -⟩ := h
  · rw [PartitionData.owner, hblock]
    exact Or.inl rfl
  · rw [PartitionData.owner, hblock]
    exact Or.inr rfl

theorem Left.leaf (h : Left p q b) (hleaf : (p.blist b).sbLevel = 0 → p.bh b = 0)
    (hlevel : (q.blist b).sbLevel = 0) : q.bh b = 0 := by
  obtain ⟨hblock, -⟩ | ⟨hblock, -⟩ := h
  · rw [hblock] at hlevel
    rw [PartitionData.bh, hblock]
    exact hleaf hlevel
  · rw [PartitionData.bh, hblock]
    rfl

theorem Left.cached (h : Left p q b) {buf : Buf} (hbuf : q.dataCache b = some buf) :
    q.blist b = p.blist b ∧ p.dataCache b = some buf := by
  obtain ⟨hblock, hcache⟩ | ⟨-, hnone⟩ := h
  · exact ⟨hblock, hcache.symm.trans hbuf⟩
  · rw [hnone] at hbuf
    cases hbuf

theorem Left.uncached (h : Left p q b) (hnone : p.dataCache b = none) : q.dataCache b = none := by
  obtain ⟨-, hcache⟩ | ⟨-, hcache⟩ := h
  · exact hcache.trans hnone
  · exact hcache

theorem Left.unmapped (p : PartitionData) (l : List UInt32) (b : UInt32) : Left p (p.unmapped l) b := by
  by_cases hb : b ∈ l
  · exact Or.inr ⟨if_pos hb, if_pos hb⟩
  · exact Or.inl ⟨if_neg hb, if_neg hb⟩

theorem Fades.refl (q : PartitionData) (l : List UInt32) : Fades q q l :=
  ⟨Left.refl q, fun _ _ => ⟨rfl, rfl⟩, rfl⟩

theorem Fades.trans {q'' : PartitionData} (h : Fades q q' l) (h' : Fades q' q'' l') :
    Fades q q'' (l ++ l') := by
  refine ⟨fun b => (h.left b).trans (h'.left b), fun b hb => ?_, h'.ilist.trans h.ilist⟩
  rw [List.mem_append, not_or] at hb
  rw [(h'.same b hb.2).1, (h'.same b hb.2).2]
  exact h.same b hb.1

end Left

section Unmap

variable {p q : PartitionData} {K : Forest UInt32} {h h' n a : UInt32} {fuel : ℕ}

theorem unmapBlock_fades {l : List UInt32} (ha : a ∉ l)
    (hleaf : (q.blist a).sbLevel = 0 → q.bh a = 0)
    (hkids : ∀ q₁ : PartitionData, q₁.ilist = q.ilist →
      (∀ b ∈ l, q₁.blist b = q.blist b ∧ q₁.dataCache b = q.dataCache b) →
      ∃ q₂, unmapSiblings fuel (fun _ => n) (q.bh a) q₁ = some q₂ ∧ Fades q₁ q₂ l) :
    ∃ q', unmapBlock (fuel + 1) a n q = some q' ∧ Fades q q' (a :: l) ∧
      (q.owner a = n → q'.blist a = .blank ∧ q'.dataCache a = none) := by
  by_cases howner : q.owner a = n
  · have hlinks : ¬ ((q.blist a).sbLevel = 0 ∧ (q.blist a).sbBh ≠ 0) :=
      fun hlink => hlink.2 (hleaf hlink.1)
    have hother : ∀ b ≠ a,
        ((q.setBlock a { q.blist a with sbInode := 0, sbOffset := 0 }).decache a).blist b =
          q.blist b ∧
        ((q.setBlock a { q.blist a with sbInode := 0, sbOffset := 0 }).decache a).dataCache b =
          q.dataCache b :=
      fun b hb => ⟨update_of_ne hb _ _, update_of_ne hb _ _⟩
    obtain ⟨q₂, hq₂, hfades⟩ := hkids
      ((q.setBlock a { q.blist a with sbInode := 0, sbOffset := 0 }).decache a) rfl (by
        intro b hb
        apply hother
        rintro rfl
        exact ha hb)
    have hself : q₂.blist a = { q.blist a with sbInode := 0, sbOffset := 0 } := by
      rw [(hfades.same a ha).1]
      exact update_self a _ _
    have hcache : q₂.dataCache a = none := by
      rw [(hfades.same a ha).2]
      exact update_self a _ _
    have hblank : ({ q₂.blist a with sbBh := 0, sbSib := 0, sbLevel := 0 } : SBlock) = .blank := by
      rw [hself]
      rfl
    have ha' : (q₂.setBlock a .blank).blist a = .blank := update_self a _ _
    refine ⟨q₂.setBlock a .blank, ?_, ⟨fun b => ?_, fun b hb => ?_, hfades.ilist⟩,
      fun _ => ⟨ha', hcache⟩⟩
    · rw [unmapBlock]
      dsimp only
      have hsame : ¬ n ≠ (q.blist a).sbInode := not_not_intro howner.symm
      rw [if_neg hsame, if_neg hlinks]
      change (unmapSiblings fuel _ (q.bh a) _).bind _ = _
      rw [hq₂, Option.bind_some, hblank]
    · by_cases hb : b = a
      · subst hb
        exact Or.inr ⟨ha', hcache⟩
      · have hleft := hfades.left b
        rw [Left, (hother b hb).1, (hother b hb).2] at hleft
        have hset : (q₂.setBlock a .blank).blist b = q₂.blist b := update_of_ne hb _ _
        rw [Left, hset]
        exact hleft
    · rw [List.mem_cons, not_or] at hb
      have hset : (q₂.setBlock a .blank).blist b = q₂.blist b := update_of_ne hb.1 _ _
      rw [hset, ← (hother b hb.1).1, ← (hother b hb.1).2]
      exact hfades.same b hb.2
  · refine ⟨q, ?_, Fades.refl q _, fun h => absurd h howner⟩
    have hother : n ≠ (q.blist a).sbInode := Ne.symm howner
    rw [unmapBlock]
    dsimp only
    rw [if_pos hother]

theorem unmapSiblings_fades {inodeid : PartitionData → UInt32} (hrep : p.Linked h K)
    (hnodup : (K.keys id).Nodup) (hleaf : ∀ b ∈ K.keys id, (p.blist b).sbLevel = 0 → p.bh b = 0)
    (hleft : ∀ b ∈ K.keys id, Left p q b) (hstart : h' = h ∨ h' = 0)
    (hfuel : 2 * K.nodes.length < fuel) :
    ∃ q', unmapSiblings fuel inodeid h' q = some q' ∧ Fades q q' (K.keys id) := by
  induction K generalizing q h h' fuel inodeid with
  | nil =>
    obtain ⟨fuel, rfl⟩ := Nat.exists_eq_succ_of_ne_zero (Nat.ne_zero_of_lt hfuel)
    have hzero : h' = 0 := hstart.elim (fun heq => heq.trans hrep) id
    exact ⟨q, by rw [unmapSiblings, if_pos hzero], Fades.refl q _⟩
  | node a kids rest ihk ihr =>
    rw [nodes, List.length_cons, List.length_append] at hfuel
    obtain ⟨fuel, rfl⟩ := Nat.exists_eq_add_of_le' (show 2 ≤ fuel by omega)
    by_cases hzero : h' = 0
    · exact ⟨q, by rw [unmapSiblings, if_pos hzero], Fades.refl q _⟩
    obtain rfl : h' = h := hstart.resolve_right hzero
    obtain ⟨hh, ha, hkids, hrest⟩ := hrep
    subst h'
    dsimp only [id] at ha hkids hrest ⊢
    rw [keys_node] at hnodup hleaf hleft ⊢
    obtain ⟨hnot, hnodup⟩ := List.nodup_cons.mp hnodup
    obtain ⟨hnodupk, hnodupr, hdisjoint⟩ := List.nodup_append.mp hnodup
    simp only [id, List.mem_append, not_or] at hnot
    have hlefta := hleft a List.mem_cons_self
    obtain ⟨q₁, hq₁, hfades, -⟩ := @unmapBlock_fades q (inodeid q) a fuel (kids.keys id) hnot.1
      (hlefta.leaf (hleaf a List.mem_cons_self)) (by
        intro q₁ _ hsame
        apply ihk hkids hnodupk (fun b hb => hleaf b (by simp [hb]))
        · intro b hb
          rw [Left, (hsame b hb).1, (hsame b hb).2]
          exact hleft b (by simp [hb])
        · exact hlefta.bh
        · omega)
    obtain ⟨q', hq', hfades'⟩ := @ihr q₁ _ (q.sib a) (fuel + 1) inodeid hrest hnodupr
      (fun b hb => hleaf b (by simp [hb])) (fun b hb => (hleft b (by simp [hb])).trans (hfades.left b))
      hlefta.sib (by omega)
    refine ⟨q', ?_, ?_⟩
    · rw [unmapSiblings, if_neg ha]
      change (unmapBlock (fuel + 1) a _ q).bind _ = _
      rw [hq₁, Option.bind_some]
      exact hq'
    · have htrans := hfades.trans hfades'
      rw [List.cons_append] at htrans
      exact htrans

end Unmap

end SBlktrace
