import SBlktrace.CachedForest
import Mathlib

namespace SBlktrace

open Function Forest PartitionData

section Keep

variable {p : PartitionData} {h : UInt32} {F : Forest UInt32} {expired : UInt32 → Bool}
  {ls rest : List UInt32} {i j : ℕ} {current current' ocurrent : Option UInt32}

theorem keepLinks_chain (hrep : p.Linked h F)
    (hkeep : keepLinks p.blist expired ls i h current = some (j, rest, current', ocurrent)) :
    ∃ A B : Forest UInt32, F = A.append B ∧ current' = A.last.or current ∧ j + rest.length = i + ls.length ∧
      ((rest = [] ∧ ocurrent = none) ∨
        (∃ link tl, rest = link :: tl ∧ link ≠ 0 ∧ expired link = false) ∧
          ocurrent = if B.head id = 0 then none else some (B.head id)) := by
  induction ls generalizing h F i current with
  | nil =>
    cases hkeep
    exact ⟨.nil, F, rfl, rfl, rfl, Or.inl ⟨rfl, rfl⟩⟩
  | cons link ls ih =>
    rw [keepLinks] at hkeep
    rw [List.length_cons]
    split at hkeep
    · cases hkeep
    rename_i hexpired
    by_cases hzero : link = 0
    · rw [if_neg (not_not_intro hzero)] at hkeep
      obtain ⟨A, B, hF, hlast, hlen, hrest⟩ := ih hrep hkeep
      exact ⟨A, B, hF, hlast, by omega, hrest⟩
    rw [if_pos hzero] at hkeep
    by_cases hlink : h = link
    · rw [if_neg (not_not_intro hlink)] at hkeep
      cases F with
      | nil => exact absurd (hlink.symm.trans hrep) hzero
      | node a kids rest' =>
        obtain ⟨rfl, -, -, hrest'⟩ := hrep
        obtain ⟨A, B, hF, hlast, hlen, hrest⟩ := ih hrest' hkeep
        refine ⟨.node h kids A, B, by rw [append, hF], ?_, by omega, hrest⟩
        rw [hlast, last_node, Option.or_assoc]
        rfl
    · rw [if_pos hlink] at hkeep
      cases hkeep
      refine ⟨.nil, F, rfl, rfl, by rw [List.length_cons], Or.inr ⟨⟨link, ls, rfl, hzero, ?_⟩, ?_⟩⟩
      · exact Bool.eq_false_iff.mpr hexpired
      · rw [← hrep.head_eq]
        exact ite_not _ _ _

theorem keepLinks_cut (hrep : p.Linked h F)
    (hkeep : keepLinks p.blist expired ls i h none = some (j, rest, current, ocurrent)) :
    (rest = [] ∧ current = none ∧ ocurrent = none) ∨
      ∃ A B : Forest UInt32, F = A.append B ∧ current = A.last ∧ oldBlock p.blist current ocurrent = B.head id ∧
        j + rest.length = i + ls.length ∧ (rest = [] → current ≠ none) ∧
        ∀ link tl, rest = link :: tl → link ≠ 0 ∧ expired link = false := by
  obtain ⟨A, B, rfl, hlast, hlen, hrest⟩ := keepLinks_chain hrep hkeep
  rw [Option.or_none] at hlast
  have hnone : oldBlock p.blist A.last none = B.head id ∨ A.last = none := by
    cases hA : A.last with
    | none => exact Or.inr rfl
    | some c => exact Or.inl (Rep.sib_last hrep hA)
  obtain ⟨hnil, rfl⟩ | ⟨⟨link, tl, hcons, hlink, hexpired⟩, hold⟩ := hrest
  · obtain hold | hA := hnone
    · by_cases hA : A.last = none
      · exact Or.inl ⟨hnil, hlast.trans hA, rfl⟩
      · refine Or.inr ⟨A, B, rfl, hlast, by rw [hlast, hold], hlen, fun _ => by rw [hlast]; exact hA, ?_⟩
        intro link tl hcons
        rw [hnil] at hcons
        cases hcons
    · exact Or.inl ⟨hnil, hlast.trans hA, rfl⟩
  · refine Or.inr ⟨A, B, rfl, hlast, ?_, hlen, ?_, ?_⟩
    · rw [hold, hlast]
      split
      · rename_i hB
        obtain hold | hA := hnone
        · exact hold
        · rw [hA, hB]
          rfl
      · rw [oldBlock]
    · intro hnil
      rw [hnil] at hcons
      cases hcons
    · intro link' tl' hcons'
      rw [hcons] at hcons'
      cases hcons'
      exact ⟨hlink, hexpired⟩

end Keep

section Relink

variable {p : PartitionData} {n b : UInt32} {parent current : Option UInt32}

theorem setBh_setBh (p : PartitionData) (b link link' : UInt32) :
    (p.setBh b link).setBh b link' = p.setBh b link' := by
  rw [setBh, setBh, setBlock, setBlock, setBh, setBlock]
  dsimp only
  rw [update_self, update_idem]

theorem setSiBh_setSiBh (p : PartitionData) (n link link' : UInt32) :
    (p.setSiBh n link).setSiBh n link' = p.setSiBh n link' := by
  rw [setSiBh, setSiBh, setInode, setInode, setSiBh, setInode]
  dsimp only
  rw [update_self, update_idem]

theorem linkNext_linkNext (p : PartitionData) (n : UInt32) (parent current : Option UInt32)
    (link link' : UInt32) :
    (p.linkNext n parent current link).linkNext n parent current link' =
      p.linkNext n parent current link' := by
  cases current with
  | some c => exact setSib_setSib p c link link'
  | none =>
    cases parent with
    | some s => exact setBh_setBh p s link link'
    | none => exact setSiBh_setSiBh p n link link'

theorem owner_linkNext (link : UInt32) : (p.linkNext n parent current link).owner b = p.owner b := by
  have hupdate (c : UInt32) (sblock : SBlock) (hinode : sblock.sbInode = (p.blist c).sbInode) :
      (update p.blist c sblock b).sbInode = (p.blist b).sbInode := by
    by_cases hb : b = c
    · subst hb
      rw [update_self, hinode]
    · rw [update_of_ne hb]
  cases current with
  | some c => exact hupdate c _ rfl
  | none =>
    cases parent with
    | some s => exact hupdate s _ rfl
    | none => rfl

theorem nextLink_linkNext (link : UInt32) :
    (p.linkNext n parent current link).nextLink n parent current = link := by
  cases current with
  | some c =>
    change (update p.blist c { p.blist c with sbSib := link } c).sbSib = link
    rw [update_self]
  | none =>
    cases parent with
    | some s =>
      change (update p.blist s { p.blist s with sbBh := link } s).sbBh = link
      rw [update_self]
    | none =>
      change (update p.ilist n { p.ilist n with siBh := link } n).siBh = link
      rw [update_self]

variable {extdesc : ExtDesc} {ls : List UInt32} {i : ℕ}

theorem remapLinks_relink {unmap : UInt32 → UInt32 → PartitionData → Option PartitionData}
    {remap : UInt32 → Buf → PartitionData → Option PartitionData} {s : UInt32}
    (hnil : ls = [] → current ≠ none)
    (hfirst : ∀ link tl, ls = link :: tl → link ≠ 0 ∧ expiredLink extdesc link = false ∧ p.owner link = 0) :
    remapLinks extdesc unmap remap n s ls i current p =
      remapLinks extdesc unmap remap n s ls i current (p.linkNext n (some s) current 0) := by
  cases ls with
  | nil =>
    cases current with
    | none => exact absurd rfl (hnil rfl)
    | some c => exact congrArg some (setSib_setSib p c 0 0).symm
  | cons link tl =>
    obtain ⟨hlink, hexpired, howner⟩ := hfirst link tl rfl
    have howner' : ((p.linkNext n (some s) current 0).blist link).sbInode = 0 :=
      (owner_linkNext 0).trans howner
    have howner'' : (p.blist link).sbInode = 0 := howner
    rw [remapLinks, remapLinks, if_neg (of_decide_eq_false hexpired), if_neg (of_decide_eq_false hexpired),
      if_pos hlink, if_pos hlink, howner', howner'', if_neg (not_not_intro rfl),
      if_neg (not_not_intro rfl)]
    dsimp only [Option.bind_some, bind, pure]
    rw [linkNext_linkNext]

theorem diffLinks_relink {fuel : ℕ} (hnil : ls = [] → current ≠ none)
    (hfirst : ∀ link tl, ls = link :: tl →
      link ≠ 0 ∧ expiredIBlock extdesc link = false ∧ p.owner link = 0) :
    diffLinks extdesc fuel n ls i current p =
      diffLinks extdesc fuel n ls i current (p.linkNext n none current 0) := by
  cases ls with
  | nil =>
    cases current with
    | none => exact absurd rfl (hnil rfl)
    | some c => exact congrArg (fun p => some (p, true)) (setSib_setSib p c 0 0).symm
  | cons link tl =>
    obtain ⟨hlink, hexpired, howner⟩ := hfirst link tl rfl
    have howner' : ((p.linkNext n none current 0).blist link).sbInode = 0 :=
      (owner_linkNext 0).trans howner
    have howner'' : (p.blist link).sbInode = 0 := howner
    have hrange : ¬ extdesc.sb.sBlocksCount ≤ link := fun hle => of_decide_eq_false hexpired ⟨hlink, hle⟩
    rw [diffLinks, diffLinks, if_pos hlink, if_pos hlink, if_neg hrange, if_neg hrange]
    dsimp only
    rw [howner', howner'', if_neg (not_not_intro rfl), if_neg (not_not_intro rfl)]
    dsimp only [Option.bind_some, bind, pure]
    rw [linkNext_linkNext]

theorem attached_linkNext (F : Forest BlockNode) :
    attached (p.linkNext n parent current 0) n parent current F = attached p n parent current F := by
  rw [attached, linkNext_linkNext, attached]

end Relink

end SBlktrace
