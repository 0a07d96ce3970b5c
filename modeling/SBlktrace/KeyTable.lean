import Mathlib

namespace KeyTable

open Function

variable {ν ρ κ : Type*}

/-- Nodes that hold one record for each key, as a function from keys to records. -/
structure Tabulates (key : ρ → κ) (val : ν → ρ) (nodes : Finset ν) (find : κ → Option ρ) :
    Prop where
  unique : ∀ p ∈ nodes, ∀ q ∈ nodes, key (val p) = key (val q) → p = q
  find : ∀ k r, find k = some r ↔ ∃ p ∈ nodes, val p = r ∧ key r = k

variable {key : ρ → κ} {val val' : ν → ρ} {nodes : Finset ν} {find : κ → Option ρ} {p : ν}

namespace Tabulates

theorem empty (key : ρ → κ) (val : ν → ρ) : Tabulates key val ∅ fun _ => none where
  unique p hp := absurd hp (Finset.notMem_empty p)
  find k r := by simp

theorem congr (h : Tabulates key val nodes find) (hval : ∀ p ∈ nodes, val' p = val p) :
    Tabulates key val' nodes find where
  unique p hp q hq := by
    rw [hval p hp, hval q hq]
    exact h.unique p hp q hq
  find k r := by
    rw [h.find k r]
    refine exists_congr fun p => and_congr_right fun hp => ?_
    rw [hval p hp]

theorem find_mem (h : Tabulates key val nodes find) (hp : p ∈ nodes) :
    find (key (val p)) = some (val p) :=
  (h.find _ _).mpr ⟨p, hp, rfl, rfl⟩

theorem find_none (h : Tabulates key val nodes find) {k : κ} (hk : ∀ p ∈ nodes, key (val p) ≠ k) :
    find k = none := by
  rw [Option.eq_none_iff_forall_not_mem]
  intro r hr
  obtain ⟨p, hp, rfl, hkey⟩ := (h.find k r).mp hr
  exact hk p hp hkey

variable [DecidableEq ν] [DecidableEq κ]

theorem erase (h : Tabulates key val nodes find) (hp : p ∈ nodes) :
    Tabulates key val (nodes.erase p) (update find (key (val p)) none) where
  unique q hq r hr := h.unique q (Finset.mem_of_mem_erase hq) r (Finset.mem_of_mem_erase hr)
  find k r := by
    obtain rfl | hne := eq_or_ne k (key (val p))
    · rw [update_self]
      refine iff_of_false (Option.some_ne_none r).symm ?_
      rintro ⟨q, hq, rfl, hkey⟩
      obtain ⟨hne, hq⟩ := Finset.mem_erase.mp hq
      exact hne (h.unique q hq p hp hkey)
    · rw [update_of_ne hne, h.find k r]
      refine exists_congr fun q => ?_
      rw [Finset.mem_erase]
      refine ⟨fun ⟨hq, hval, hkey⟩ => ⟨⟨?_, hq⟩, hval, hkey⟩, fun ⟨hq, hrest⟩ => ⟨hq.2, hrest⟩⟩
      rintro rfl
      exact hne (hval ▸ hkey).symm

theorem insert (h : Tabulates key val nodes find) (hnew : ∀ q ∈ nodes, key (val q) ≠ key (val p)) :
    Tabulates key val (insert p nodes) (update find (key (val p)) (some (val p))) where
  unique q hq r hr hkey := by
    obtain rfl | hq' := Finset.mem_insert.mp hq
    · obtain rfl | hr' := Finset.mem_insert.mp hr
      · rfl
      · exact absurd hkey.symm (hnew r hr')
    · obtain rfl | hr' := Finset.mem_insert.mp hr
      · exact absurd hkey (hnew q hq')
      · exact h.unique q hq' r hr' hkey
  find k r := by
    obtain rfl | hne := eq_or_ne k (key (val p))
    · rw [update_self, Option.some_inj]
      refine ⟨fun hr => ⟨p, Finset.mem_insert_self p nodes, hr, by rw [hr]⟩, ?_⟩
      rintro ⟨q, hq, rfl, hkey⟩
      obtain rfl | hq := Finset.mem_insert.mp hq
      · rfl
      · exact absurd hkey (hnew q hq)
    · rw [update_of_ne hne, h.find k r]
      refine exists_congr fun q => ?_
      rw [Finset.mem_insert]
      refine ⟨fun ⟨hq, hrest⟩ => ⟨.inr hq, hrest⟩, fun ⟨hq, hval, hkey⟩ => ⟨?_, hval, hkey⟩⟩
      refine hq.resolve_left ?_
      rintro rfl
      exact hne (hval ▸ hkey).symm

theorem replace (h : Tabulates key val nodes find) {q : ν} (hp : p ∈ nodes)
    (hkey : key (val q) = key (val p)) :
    Tabulates key val (Insert.insert q (nodes.erase p)) (update find (key (val p)) (some (val q))) := by
  have hnew : ∀ r ∈ nodes.erase p, key (val r) ≠ key (val q) := by
    intro r hr hrq
    obtain ⟨hne, hr⟩ := Finset.mem_erase.mp hr
    exact hne (h.unique r hr p hp (hrq.trans hkey))
  have hinsert := (h.erase hp).insert hnew
  rw [hkey, update_idem] at hinsert
  exact hinsert

end Tabulates

end KeyTable
