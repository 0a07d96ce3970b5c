import Mathlib

namespace KWayMerge

open Function

variable {κ α : Type} [DecidableEq κ] (le : α → α → Prop)

/-- `out` takes the streams `s` apart, always from a stream whose first element is least. -/
inductive Merged : (κ → List α) → List (κ × α) → Prop where
  | nil {s : κ → List α} (hs : ∀ k, s k = []) : Merged s []
  | cons {s : κ → List α} {k : κ} {a : α} {as : List α} {out : List (κ × α)} (hk : s k = a :: as)
      (hle : ∀ k' b bs, s k' = b :: bs → le a b) (hout : Merged (update s k as) out) :
      Merged s ((k, a) :: out)

variable {le} {s : κ → List α} {out : List (κ × α)}

theorem Merged.stream_eq (hm : Merged le s out) (k : κ) :
    (out.filter (fun p => p.1 = k)).map Prod.snd = s k := by
  induction hm with
  | nil hs => simp [hs]
  | @cons s k' a as out hk _ _ ih =>
    by_cases hkk : k' = k
    · subst hkk
      rw [update_self] at ih
      simp [ih, hk]
    · rw [update_of_ne (Ne.symm hkk)] at ih
      simp [hkk, ih]

theorem Merged.mem (hm : Merged le s out) {k : κ} {a : α} : (k, a) ∈ out ↔ a ∈ s k := by
  rw [← hm.stream_eq k]
  simp

theorem Merged.perm [DecidableEq α] (hm : Merged le s out) {key : α → κ} {l : List α}
    (hkey : ∀ k, ∀ a ∈ s k, key a = k) (hl : ∀ k, l.filter (fun a => key a = k) = s k) :
    (out.map Prod.snd).Perm l := by
  have hout : ∀ k, (out.map Prod.snd).filter (fun a => key a = k) = s k := by
    intro k
    rw [List.filter_map, ← hm.stream_eq k]
    congr 1
    apply List.filter_congr
    intro p hp
    rw [Function.comp_apply, hkey p.1 p.2 (hm.mem.mp hp)]
  rw [List.perm_iff_count]
  intro a
  have hcount : ∀ l' : List α, l'.count a = (l'.filter (fun b => key b = key a)).count a :=
    fun l' => (List.count_filter (by simp)).symm
  rw [hcount, hcount l, hout, hl]

theorem Merged.sorted (hm : Merged le s out) (htrans : ∀ a b c, le a b → le b c → le a c)
    (hs : ∀ k, (s k).Pairwise le) :
    out.Pairwise (fun p q => le p.2 q.2) := by
  induction hm with
  | nil _ => exact List.Pairwise.nil
  | @cons s k a as out hk hle hout ih =>
    have hsorted : ∀ k', (update s k as k').Pairwise le := by
      intro k'
      by_cases hkk : k' = k
      · subst hkk
        rw [update_self]
        exact (List.pairwise_cons.mp (hk ▸ hs k')).2
      · rw [update_of_ne hkk]
        exact hs k'
    refine List.pairwise_cons.mpr ⟨?_, ih hsorted⟩
    rintro ⟨k', b⟩ hb
    have hbs := hout.mem.mp hb
    by_cases hkk : k' = k
    · subst hkk
      rw [update_self] at hbs
      exact (List.pairwise_cons.mp (hk ▸ hs k')).1 b hbs
    · rw [update_of_ne hkk] at hbs
      cases hc : s k' with
      | nil => simp [hc] at hbs
      | cons c cs =>
        have hac := hle k' c cs hc
        rw [hc] at hbs
        rcases List.mem_cons.mp hbs with rfl | hbs
        · exact hac
        · exact htrans _ _ _ hac ((List.pairwise_cons.mp (hc ▸ hs k')).1 b hbs)

end KWayMerge
