import SBlktrace.SeekDistance
import Mathlib

namespace SBlktrace

open RangeTree

namespace SeekBkt

def median (sofar target : ℤ) : RangeTree SeekBkt → Option ℕ
  | .nil => none
  | .node left sbp right =>
    if sofar + sbp.nseeks.toInt ≥ target then some sbp.sectors
    else (median sofar target left).or (median sofar target right)

end SeekBkt

namespace Seeki

def seekiMedian (sip : Seeki) : ℕ := (SeekBkt.median 0 (sip.totSeeks / 2) sip.root).getD 0

end Seeki

structure IsMedian (dists : List ℕ) (d : ℕ) : Prop where
  mem : d ∈ dists
  below : 2 * dists.countP (· < d) ≤ dists.length
  above : 2 * dists.countP (d < ·) ≤ dists.length

namespace SeekBkt

def HoldsHalf (dists : List ℕ) (sbp : SeekBkt) : Prop := dists.length / 2 ≤ sbp.nseeks.toInt

def Lopsided (dists : List ℕ) (sbp : SeekBkt) : Prop :=
  2 * dists.count sbp.sectors < dists.length ∧
    ((∀ d ∈ dists, sbp.sectors ≤ d) ∨ ∀ d ∈ dists, d ≤ sbp.sectors)

/-- A bucket holds half of the seeks, and each lopsided one that does is behind another one; where the
counter of none does, it is that of 0 which has overflowed. -/
def HalfFirst (dists : List ℕ) (walk : List SeekBkt) : Prop :=
  ((∃ sbp ∈ walk, sbp.HoldsHalf dists) ∧
    ∀ (i : ℕ) (sbp : SeekBkt), walk[i]? = some sbp → sbp.HoldsHalf dists → sbp.Lopsided dists →
      ∃ (j : ℕ) (sbp' : SeekBkt), j < i ∧ walk[j]? = some sbp' ∧ sbp'.HoldsHalf dists) ∨
  (∀ sbp ∈ walk, ¬ sbp.HoldsHalf dists) ∧ dists.length ≤ 2 * dists.count 0

theorem median_eq_find (sofar target : ℤ) (t : RangeTree SeekBkt) :
    median sofar target t = (t.preOrder.find? fun sbp =>
      decide (target ≤ sofar + sbp.nseeks.toInt)).map SeekBkt.sectors := by
  induction t with
  | nil => rfl
  | node left sbp right ihleft ihright =>
    rw [median, preOrder, List.find?_cons, List.find?_append, ihleft, ihright]
    by_cases h : target ≤ sofar + sbp.nseeks.toInt
    · rw [if_pos h, decide_eq_true h]
      rfl
    · rw [if_neg h, decide_eq_false h, Option.map_or]

theorem countP_add_count (dists : List ℕ) (d : ℕ) :
    dists.countP (· < d) + dists.count d + dists.countP (d < ·) = dists.length := by
  induction dists with
  | nil => rfl
  | cons x dists ih =>
    rw [List.countP_cons, List.countP_cons, List.count_cons, List.length_cons]
    obtain hlt | rfl | hlt := lt_trichotomy x d
    · simp only [hlt, hlt.ne, hlt.not_gt, decide_true, decide_false, beq_iff_eq, Bool.false_eq_true,
        if_true, if_false]
      omega
    · simp only [lt_irrefl, decide_false, beq_self_eq_true, Bool.false_eq_true, if_true, if_false]
      omega
    · simp only [hlt, hlt.ne', hlt.not_gt, decide_true, decide_false, beq_iff_eq, Bool.false_eq_true,
        if_true, if_false]
      omega

theorem isMedian_iff_not_lopsided {dists : List ℕ} {sbp : SeekBkt} (hmem : sbp.sectors ∈ dists)
    (hhalf : dists.length / 2 ≤ dists.count sbp.sectors) :
    IsMedian dists sbp.sectors ↔ ¬ sbp.Lopsided dists := by
  have hall := countP_add_count dists sbp.sectors
  have hleast : (∀ d ∈ dists, sbp.sectors ≤ d) ↔ dists.countP (· < sbp.sectors) = 0 := by
    simp only [List.countP_eq_zero, decide_eq_true_eq, not_lt]
  have hgreatest : (∀ d ∈ dists, d ≤ sbp.sectors) ↔ dists.countP (sbp.sectors < ·) = 0 := by
    simp only [List.countP_eq_zero, decide_eq_true_eq, not_lt]
  rw [Lopsided, hleast, hgreatest]
  constructor
  · rintro ⟨-, hbelow, habove⟩
    omega
  · intro hnot
    constructor
    · exact hmem
    all_goals omega

theorem isMedian_zero_iff {dists : List ℕ} (h : dists ≠ []) :
    IsMedian dists 0 ↔ dists.length ≤ 2 * dists.count 0 := by
  have hall := countP_add_count dists 0
  have hbelow : dists.countP (· < 0) = 0 := by
    simp only [List.countP_eq_zero, decide_eq_true_eq, Nat.not_lt_zero, not_false_eq_true,
      implies_true]
  have hpos := List.length_pos_iff.mpr h
  constructor
  · rintro ⟨-, -, habove⟩
    omega
  · intro hle
    constructor
    · apply List.count_pos_iff.mp
      omega
    all_goals omega

theorem Counts.count_of_holdsHalf {dists : List ℕ} {t : RangeTree SeekBkt} {sbp : SeekBkt}
    (h : Counts dists t) (hsbp : sbp ∈ t.toList) (hhalf : sbp.HoldsHalf dists) :
    sbp.sectors ∈ dists ∧ dists.length / 2 ≤ dists.count sbp.sectors := by
  refine ⟨(h.mem_iff _).mp (List.mem_map_of_mem hsbp), ?_⟩
  have hnseeks := h.nseeks_eq sbp hsbp
  rw [HoldsHalf, hnseeks, Int32.toInt_ofNat'] at hhalf
  have hmod : ((dists.count sbp.sectors : ℤ).bmod Int32.size) ≤ dists.count sbp.sectors := by
    rw [Int.bmod_def, show ((Int32.size : ℕ) : ℤ) = 4294967296 from rfl]
    omega
  omega

theorem median_iff {dists : List ℕ} {t : RangeTree SeekBkt} (h : Counts dists t) (hne : dists ≠ []) :
    IsMedian dists ((median 0 (dists.length / 2) t).getD 0) ↔ HalfFirst dists t.preOrder := by
  have hin {i : ℕ} {sbp : SeekBkt} (hsbp : t.preOrder[i]? = some sbp) : sbp ∈ t.toList :=
    t.preOrder_perm.mem_iff.mp (List.mem_of_getElem? hsbp)
  have hhalf (sbp : SeekBkt) : decide ((dists.length / 2 : ℤ) ≤ 0 + sbp.nseeks.toInt) = true ↔
      sbp.HoldsHalf dists := by rw [decide_eq_true_iff, zero_add, HoldsHalf]
  rw [median_eq_find]
  cases hfind : t.preOrder.find? fun sbp => decide ((dists.length / 2 : ℤ) ≤ 0 + sbp.nseeks.toInt) with
  | none =>
    simp only [List.find?_eq_none, hhalf] at hfind
    rw [Option.map_none, Option.getD_none, isMedian_zero_iff hne]
    constructor
    · exact fun hle => .inr ⟨hfind, hle⟩
    · rintro (⟨⟨sbp, hsbp, hholds⟩, -⟩ | ⟨-, hle⟩)
      · exact absurd hholds (hfind sbp hsbp)
      · exact hle
  | some sbp =>
    obtain ⟨hholds, i, hi, hsbp, hbefore⟩ := List.find?_eq_some_iff_getElem.mp hfind
    rw [hhalf] at hholds
    have hat : t.preOrder[i]? = some sbp := by rw [List.getElem?_eq_getElem hi, hsbp]
    have hfirst (j : ℕ) (sbp' : SeekBkt) (hj : j < i) (hsbp' : t.preOrder[j]? = some sbp') :
        ¬ sbp'.HoldsHalf dists := by
      have hnot := hbefore j hj
      obtain ⟨hlt, rfl⟩ := List.getElem?_eq_some_iff.mp hsbp'
      intro hholds'
      rw [(hhalf _).mpr hholds'] at hnot
      cases hnot
    obtain ⟨hmem, hcount⟩ := h.count_of_holdsHalf (hin hat) hholds
    rw [Option.map_some, Option.getD_some, isMedian_iff_not_lopsided hmem hcount]
    constructor
    · intro hnot
      refine .inl ⟨⟨sbp, List.mem_of_getElem? hat, hholds⟩, fun j sbp' hsbp' hholds' hlopsided => ?_⟩
      obtain hlt | rfl | hlt := lt_trichotomy i j
      · exact ⟨i, sbp, hlt, hat, hholds⟩
      · rw [hat] at hsbp'
        rw [← Option.some.inj hsbp'] at hlopsided
        exact absurd hlopsided hnot
      · exact absurd hholds' (hfirst j sbp' hlt hsbp')
    · rintro (⟨-, hlopsided⟩ | ⟨hnone, -⟩) hlop
      · obtain ⟨j, sbp', hj, hsbp', hholds'⟩ := hlopsided i sbp hat hholds hlop
        exact hfirst j sbp' hj hsbp' hholds'
      · exact hnone sbp (List.mem_of_getElem? hat) hholds

end SeekBkt

namespace Seeki

end Seeki

end SBlktrace
