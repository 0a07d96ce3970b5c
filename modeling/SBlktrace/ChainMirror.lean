import SBlktrace.RemapRuns
import Mathlib

namespace SBlktrace

open Function Forest PartitionData

/-- A chain is the links, in order, each where its number says, and the blocks of before that are no
links are unmapped. -/
structure ChainMirror (p' : PartitionData) (n h : UInt32) (level : ℕ → ℕ) (offset : ℕ → UInt32)
    (old ls : List UInt32) : Prop where
  chain : SibChain p'.sib h (nonzero ls)
  placed : ∀ i link, ls[i]? = some link → link ≠ 0 →
    (p'.blist link).sbLevel = UInt8.ofNat (level i) ∧ (p'.blist link).sbOffset = offset i ∧
      p'.owner link = n
  unmapped : ∀ b ∈ old, b ∉ ls → p'.blist b = .blank

structure ChainKept (p : PartitionData) (level : ℕ → ℕ) (offset : ℕ → UInt32) (old ls pre : List UInt32) :
    Prop where
  nonempty : nonzero ls = [] → old = []
  placed : ∀ i link, pre[i]? = some link → link ≠ 0 →
    (p.blist link).sbLevel = UInt8.ofNat (level i) ∧ (p.blist link).sbOffset = offset i

/-- The trees of a chain, those that stay and the others, against the links that are to take their
place. -/
structure ChainCut (p : PartitionData) (h : UInt32) (ls pre rest : List UInt32) (A B : Forest UInt32) :
    Prop where
  linked : p.Linked h (A.append B)
  differs : FirstDiffers (A.append B).roots ls pre rest B.roots

structure Relinked (p p' : PartitionData) (n h : UInt32) (level : ℕ → ℕ) (offset : ℕ → UInt32)
    (ls pre rest : List UInt32) (B : Forest UInt32) : Prop where
  chain : SibChain p'.sib h (nonzero ls)
  kept : ∀ b ∈ nonzero pre, (p'.blist b).sbLevel = (p.blist b).sbLevel ∧
    (p'.blist b).sbOffset = (p.blist b).sbOffset ∧ p'.owner b = p.owner b
  placed : ∀ i link, rest[i]? = some link → link ≠ 0 →
    (p'.blist link).sbLevel = UInt8.ofNat (level (pre.length + i)) ∧
      (p'.blist link).sbOffset = offset (pre.length + i) ∧ p'.owner link = n
  gone : ∀ b ∈ B.roots, b ∉ ls → p'.blist b = .blank

section Cut

variable {extdesc : ExtDesc} {p p' : PartitionData} {n h h' : UInt32} {level : ℕ → ℕ} {offset : ℕ → UInt32}
  {ls pre rest : List UInt32} {A B : Forest UInt32} {parent : Option UInt32} {T : List UInt32}
  {F : Forest BlockNode} {clean : Prop}

theorem exists_chainCut {K : Forest UInt32} (hK : p.Linked h K) (ls : List UInt32) :
    ∃ pre rest A B, ChainCut p h ls pre rest A B := by
  obtain ⟨pre, rest, gone, hcut⟩ := exists_firstDiffers K.roots ls
  obtain ⟨A, B, rfl, -, rfl⟩ := exists_append_of_roots hcut.chain
  exact ⟨pre, rest, A, B, hK, hcut⟩

theorem ChainCut.roots (hcut : ChainCut p h ls pre rest A B) : A.roots = nonzero pre := by
  have hall := hcut.differs.chain
  rw [roots_append] at hall
  exact List.append_cancel_right hall

theorem ChainCut.mem_keys (hcut : ChainCut p h ls pre rest A B) : ∀ b ∈ nonzero pre, b ∈ A.keys id := by
  intro b hb
  rw [← hcut.roots] at hb
  rw [keys_id]
  exact (roots_sublist A).subset hb

theorem Relinked.mirror_iff (hlinked : Relinked p p' n h' level offset ls pre rest B)
    (hcut : ChainCut p h ls pre rest A B) (hown : ∀ b ∈ nonzero pre, p.owner b = n)
    (hsome : rest = [] → nonzero pre ≠ []) :
    ChainMirror p' n h' level offset (A.append B).roots ls ↔
      ChainKept p level offset (A.append B).roots ls pre := by
  have hne : nonzero ls ≠ [] := by
    intro hnil
    rw [hcut.differs.links, nonzero, List.filter_append, List.append_eq_nil_iff] at hnil
    cases rest with
    | nil => exact hsome rfl hnil.1
    | cons link tl =>
      obtain ⟨hlink, -⟩ := hcut.differs.differs link tl rfl
      simp [hlink] at hnil
  have hmem : ∀ {i : ℕ} {link : UInt32}, pre[i]? = some link → link ≠ 0 → link ∈ nonzero pre :=
    fun hi hlink => mem_nonzero.mpr ⟨List.mem_of_getElem? hi, hlink⟩
  constructor
  · intro hmirror
    refine ⟨fun hnil => absurd hnil hne, fun i link hi hlink => ?_⟩
    obtain ⟨hlevel, hoffset, -⟩ := hlinked.kept link (hmem hi hlink)
    have hi' : ls[i]? = some link := by
      rw [hcut.differs.links, List.getElem?_append_left (List.getElem?_eq_some_iff.mp hi).1]
      exact hi
    obtain ⟨hlevel', hoffset', -⟩ := hmirror.placed i link hi' hlink
    exact ⟨hlevel.symm.trans hlevel', hoffset.symm.trans hoffset'⟩
  · intro hkept
    refine ⟨hlinked.chain, fun i link hi hlink => ?_, fun b hb hnot => hlinked.gone b ?_ hnot⟩
    · rw [hcut.differs.links] at hi
      by_cases hlt : i < pre.length
      · rw [List.getElem?_append_left hlt] at hi
        obtain ⟨hlevel, hoffset, howner⟩ := hlinked.kept link (hmem hi hlink)
        obtain ⟨hlevel', hoffset'⟩ := hkept.placed i link hi hlink
        exact ⟨hlevel.trans hlevel', hoffset.trans hoffset', howner.trans (hown link (hmem hi hlink))⟩
      · rw [List.getElem?_append_right (Nat.le_of_not_lt hlt)] at hi
        have hplaced := hlinked.placed _ link hi hlink
        rw [Nat.add_sub_cancel' (Nat.le_of_not_lt hlt)] at hplaced
        exact hplaced
    · rw [hcut.differs.chain, List.mem_append] at hb
      refine hb.resolve_left fun hin => hnot ?_
      rw [hcut.differs.links]
      exact List.mem_append_left _ (mem_nonzero.mp hin).1

theorem ChainCut.mirror_iff (hcut : ChainCut p h ls pre [] A B) (hnil : nonzero pre = []) :
    ChainMirror p n h level offset (A.append B).roots ls ↔
      ChainKept p level offset (A.append B).roots ls pre := by
  have hroots := SibChain.roots hcut.linked
  have hls := hcut.differs.links
  rw [List.append_nil] at hls
  subst hls
  have hzero : ∀ (i : ℕ) (link : UInt32), ls[i]? = some link → link = 0 := by
    intro i link hi
    by_contra hlink
    have hmem := mem_nonzero.mpr ⟨List.mem_of_getElem? hi, hlink⟩
    rw [hnil] at hmem
    cases hmem
  constructor
  · intro hmirror
    refine ⟨fun _ => hroots.unique ?_, fun i link hi hlink => absurd (hzero i link hi) hlink⟩
    rw [← hnil]
    exact hmirror.chain
  · intro hkept
    have hold := hkept.nonempty hnil
    refine ⟨?_, fun i link hi hlink => absurd (hzero i link hi) hlink, fun b hb => ?_⟩
    · rw [hnil, ← hold]
      exact hroots
    · rw [hold] at hb
      cases hb

theorem ChainCut.last_ne_none {h : UInt32} (hcut : ChainCut p h ls pre rest A B)
    (hsome : rest = [] → nonzero pre ≠ []) (hnil : nonzero rest = []) : (nonzero pre).getLast? ≠ none := by
  intro hnone
  rw [List.getLast?_eq_none_iff] at hnone
  cases rest with
  | nil => exact hsome rfl hnone
  | cons link tl =>
    obtain ⟨hlink, -⟩ := hcut.differs.differs link tl rfl
    simp [nonzero, hlink] at hnil

theorem Links.relinked (hchain : Chain p n (p.nextLink n parent none) (A.append B))
    (hcut : ChainCut p (p.nextLink n parent none) ls pre rest A B)
    (hparent : ∀ s, parent = some s → s ∈ T ∧ s ∉ (A.append B).keys id)
    (hpre : ∀ b ∈ nonzero pre, b ∈ T) (hgone : ∀ b ∈ B.roots, b ∉ ls → b ∈ T)
    (hsome : rest = [] → nonzero pre ≠ [])
    (hlinks : Links extdesc (p.unmapped (B.keys id)) p' n parent (nonzero pre).getLast? T F clean)
    (hplaced : ∀ i link, rest[i]? = some link → link ≠ 0 →
      (p'.blist link).sbLevel = UInt8.ofNat (level (pre.length + i)) ∧
        (p'.blist link).sbOffset = offset (pre.length + i) ∧ p'.owner link = n)
    (hsib : (nonzero rest = [] → (nonzero pre).getLast? ≠ none) →
      SibChain p'.sib (p'.nextLink n parent (nonzero pre).getLast?) (nonzero rest)) :
    Relinked p p' n (p'.nextLink n parent none) level offset ls pre rest B := by
  have hpreA := hcut.mem_keys
  have hpreB : ∀ b ∈ nonzero pre, (p.unmapped (B.keys id)).blist b = p.blist b :=
    fun b hb => blist_unmapped_of_notMem (hchain.disjoint b (hpreA b hb))
  have hparentA : ∀ s, parent = some s → s ∉ A.keys id ∧ s ∉ B.keys id := by
    intro s hs
    have hnot := (hparent s hs).2
    rw [keys_append, List.mem_append, not_or] at hnot
    exact hnot
  refine ⟨?_, fun b hb => ?_, hplaced, fun b hb hnot => ?_⟩
  · have hls : nonzero ls = nonzero pre ++ nonzero rest := by
      rw [hcut.differs.links, nonzero, List.filter_append]
      rfl
    have hroots := SibChain.roots hcut.linked
    rw [hls]
    rw [hcut.differs.chain] at hroots
    have hsib' := hsib (hcut.last_ne_none hsome)
    apply hroots.relink
    · rw [← hcut.roots]
      apply (roots_sublist A).nodup
      have hnodup := hchain.nodup
      rw [keys_append, keys_id] at hnodup
      exact (List.nodup_append.mp hnodup).1
    · intro b hb hlast
      have hb' : p'.blist b = p.blist b := by
        rw [hlinks.stay (hpre b hb) hlast, hpreB b hb]
        intro hnone
        rw [List.getLast?_eq_none_iff.mp hnone] at hb
        cases hb
      exact congrArg SBlock.sbSib hb'
    · intro c hc
      rw [hc] at hsib'
      exact hsib'
    · intro hne
      have hlast : ∀ s, parent = some s → (nonzero pre).getLast? ≠ some s :=
        fun s hs hc => (hparentA s hs).1 (hpreA s (List.mem_of_getLast? hc))
      obtain ⟨c, hc⟩ := Option.ne_none_iff_exists'.mp fun hnone => hne (List.getLast?_eq_none_iff.mp hnone)
      apply nextLink_congr
      · intro s hs
        rw [hlinks.stay (hparent s hs).1 (hlast s hs)
          fun hnone => absurd (List.getLast?_eq_none_iff.mp hnone) hne]
        exact blist_unmapped_of_notMem (hparentA s hs).2
      · rintro c ⟨⟩
      · rw [hlinks.ilist, hc]
        rfl
    · intro hnil
      rw [hnil] at hsib'
      exact hsib'
  · rw [PartitionData.owner, hlinks.kept b (hpre b hb), (linkNext_kept b).1, (linkNext_kept b).2,
      ← PartitionData.owner, owner_linkNext, PartitionData.owner, hpreB b hb]
    exact ⟨rfl, rfl, rfl⟩
  · have hbB : b ∈ B.keys id := by
      rw [keys_id]
      exact (roots_sublist B).subset hb
    rw [hlinks.stay (hgone b hb hnot)]
    · exact if_pos hbB
    · intro hc
      exact hchain.disjoint b (hpreA b (List.mem_of_getLast? hc)) hbB
    · intro _ hs
      exact (hparentA b hs).2 hbB

end Cut

end SBlktrace
