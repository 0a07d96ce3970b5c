import SBlktrace.JournalReplay
import Mathlib

namespace SBlktrace

open Function

variable {σ : Type} {jn : Journal} {fs : FileSystem σ} {st : JournalState σ} {q : ℕ} {buf : Buf}

theorem searchFrom_sound {blockid : UInt32} {journalBlocklist : ℕ → UInt32} {ll ul : ℤ} {k : ℕ}
    (hll : 0 ≤ ll) (h : searchFrom blockid journalBlocklist ll ul = some k) :
    journalBlocklist k = blockid ∧ (k : ℤ) ≤ ul := by
  fun_induction searchFrom blockid journalBlocklist ll ul with
  | case1 ll ul hle mid hlt ih =>
    obtain ⟨hk, hku⟩ := ih hll h
    exact ⟨hk, by omega⟩
  | case2 ll ul hle mid hnlt hgt ih => exact ih (by omega) h
  | case3 ll ul hle mid hnlt hngt =>
    obtain rfl := Option.some.inj h
    refine ⟨UInt32.le_antisymm (UInt32.not_lt.mp hnlt) (UInt32.not_lt.mp hngt), by omega⟩
  | case4 ll ul hgt => exact absurd h (by simp)

theorem searchFrom_complete {journalBlocklist : ℕ → UInt32} {ll ul : ℤ} {size k : ℕ}
    (hasc : ∀ i j, i < j → j < size → journalBlocklist i < journalBlocklist j) (hll : 0 ≤ ll)
    (hul : ul < size) (hlk : ll ≤ k) (hku : (k : ℤ) ≤ ul) :
    searchFrom (journalBlocklist k) journalBlocklist ll ul = some k := by
  fun_induction searchFrom (journalBlocklist k) journalBlocklist ll ul with
  | case1 ll ul hle mid hlt ih =>
    have hkm : k < mid.toNat := by
      by_contra hge
      rcases (not_lt.mp hge).lt_or_eq with hlt' | heq
      · exact UInt32.lt_asymm (hasc _ _ hlt' (by omega)) hlt
      · rw [heq] at hlt
        exact UInt32.lt_irrefl _ hlt
    exact ih hll (by omega) hlk (by omega)
  | case2 ll ul hle mid hnlt hgt ih =>
    have hkm : mid.toNat < k := by
      by_contra hge
      rcases (not_lt.mp hge).lt_or_eq with hlt' | heq
      · exact hnlt (hasc _ _ hlt' (by omega))
      · rw [← heq] at hgt
        exact UInt32.lt_irrefl _ hgt
    exact ih (by omega) hul (by omega) hku
  | case3 ll ul hle mid hnlt hngt =>
    have hkm : mid.toNat = k := by
      rcases lt_trichotomy mid.toNat k with hlt | heq | hgt
      · exact absurd (hasc _ _ hlt (by omega)) hngt
      · exact heq
      · exact absurd (hasc _ _ hgt (by omega)) hnlt
    rw [hkm]
  | case4 ll ul hgt => omega

namespace Journal

structure Valid (jn : Journal) : Prop where
  distinct : ∀ i j, i < jn.jsBlocks → j < jn.jsBlocks → jn.sjbBlockid i = jn.sjbBlockid j → i = j
  header : 12 ≤ jn.jsBlockSize
  fits : jn.jsBlockSize ≤ 4096

def heard (jn : Journal) (q : ℕ) : Bool := jn.lookup (jn.sjbBlockid q) = some q

theorem lookup_sound {blockid : UInt32} (h : jn.lookup blockid = some q) :
    jn.sjbBlockid q = blockid ∧ q < jn.jsBlocks := by
  unfold lookup getJournalblockFromDatablock at h
  split at h
  · exact absurd h (by simp)
  · obtain ⟨hid, hq⟩ := searchFrom_sound le_rfl h
    exact ⟨hid, by omega⟩

theorem lookup_eq (hv : jn.Valid) (hq : q < jn.jsBlocks) :
    jn.lookup (jn.sjbBlockid q) = if jn.heard q then some q else none := by
  cases hl : jn.lookup (jn.sjbBlockid q) with
  | none => simp [heard, hl]
  | some q' =>
    obtain ⟨hid, hq'⟩ := lookup_sound hl
    obtain rfl := hv.distinct q' q hq' hq hid
    simp [heard, hl]

theorem heard_of_ascending
    (hasc : ∀ i j, i < j → j < jn.jsBlocks → jn.sjbBlockid i < jn.sjbBlockid j)
    (hq : q < jn.jsBlocks) : jn.heard q = true := by
  have hle : ∀ i j, i ≤ j → j < jn.jsBlocks → ¬jn.sjbBlockid j < jn.sjbBlockid i := by
    intro i j hij hj
    rcases hij.lt_or_eq with hlt | rfl
    · exact UInt32.lt_asymm (hasc i j hlt hj)
    · exact UInt32.lt_irrefl _
  unfold heard lookup getJournalblockFromDatablock
  rw [if_neg, searchFrom_complete hasc le_rfl (by omega) (by omega) (by omega)]
  · simp
  · rw [not_or]
    exact ⟨hle 0 q (Nat.zero_le _) hq, hle q (jn.jsBlocks - 1) (by omega) (by omega)⟩

theorem next_lt (hq : q < jn.jsBlocks) (hb : 2 ≤ jn.jsBlocks) :
    1 ≤ jn.next q ∧ jn.next q < jn.jsBlocks := by
  unfold next
  split <;> omega

def nth (jn : Journal) (q i : ℕ) : ℕ :=
  if q + 1 + i < jn.jsBlocks then q + 1 + i else q + 2 + i - jn.jsBlocks

theorem placeAfter_positions {α : Type} (l : List α) (hq : q < jn.jsBlocks)
    (hl : l.length < jn.jsBlocks) :
    (jn.placeAfter q l).map Prod.snd = (List.range l.length).map (jn.nth q) := by
  induction l generalizing q with
  | nil => rfl
  | cons a l ih =>
    simp only [List.length_cons] at hl
    have hnext := jn.next_lt hq (by omega)
    rw [placeAfter, List.map_cons, ih hnext.2 (by omega), List.length_cons,
      List.range_succ_eq_map, List.map_cons, List.map_map]
    congr 1
    · unfold next nth
      split <;> split <;> omega
    · apply List.map_congr_left
      intro i hi
      rw [List.mem_range] at hi
      change jn.nth (jn.next q) i = jn.nth q (i + 1)
      unfold next nth
      split <;> split <;> split <;> omega

theorem placeAfter_nodup {α : Type} (l : List α) (hq : q < jn.jsBlocks)
    (hl : l.length < jn.jsBlocks) : ((jn.placeAfter q l).map Prod.snd).Nodup := by
  rw [placeAfter_positions l hq hl]
  apply List.Nodup.map_on _ List.nodup_range
  intro i hi j hj hij
  rw [List.mem_range] at hi hj
  unfold nth at hij
  split at hij <;> split at hij <;> omega

theorem placeAfter_lt {α : Type} {l : List α} (hq : q < jn.jsBlocks) (hb : 2 ≤ jn.jsBlocks)
    {p : α × ℕ} (hp : p ∈ jn.placeAfter q l) : p.2 < jn.jsBlocks := by
  induction l generalizing q with
  | nil => exact absurd hp (by simp [placeAfter])
  | cons a l ih =>
    have hnext := (jn.next_lt hq hb).2
    rcases List.mem_cons.mp hp with rfl | hp
    · exact hnext
    · exact ih hnext hp

end Journal

end SBlktrace
