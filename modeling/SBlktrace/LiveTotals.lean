import SBlktrace.LiveIntervals
import Mathlib

namespace SBlktrace

open RangeTree

/-- `struct get_info`, as far as the walk adds to it, with the count of `struct p_live_info`. -/
structure GetInfo where
  nlives : ℕ
  tStart : UInt64
  tEnd : UInt64
  totLive : UInt64

structure PLiveInfo where
  nlives : ℕ
  avgLive : ℚ
  avgLull : ℚ
  pLive : ℚ

def bitTime (t : UInt64) : ℚ := (t.toNat / 1000000000 : ℕ) + (t.toNat % 1000000000 : ℕ) / 1000000000

namespace GetInfo

def add (gip : GetInfo) (plp : PLive) : GetInfo where
  nlives := gip.nlives + 1
  totLive := gip.totLive + (plp.ct - plp.dt)
  -- the times are unsigned
  tStart := if (gip.tStart.toNat : ℚ) < 0 ∨ plp.dt < gip.tStart then plp.dt else gip.tStart
  tEnd := if (gip.tEnd.toNat : ℚ) < 0 ∨ plp.ct > gip.tEnd then plp.ct else gip.tEnd

def pLiveVisit : RangeTree PLive → GetInfo → GetInfo
  | .nil, gip => gip
  | .node left plp right, gip => pLiveVisit right ((pLiveVisit left gip).add plp)

def visited (root : RangeTree PLive) : GetInfo := pLiveVisit root ⟨0, 0, 0, 0⟩

def pLiveGet (root : RangeTree PLive) : PLiveInfo :=
  let gi := visited root
  if gi.nlives = 0 then ⟨gi.nlives, 0, 0, 0⟩
  else if gi.nlives = 1 then ⟨gi.nlives, 0, 0, 100⟩
  else
    let tTime := bitTime (gi.tEnd - gi.tStart)
    let totLive := bitTime gi.totLive
    ⟨gi.nlives, totLive / gi.nlives, (tTime - totLive) / (gi.nlives - 1), 100 * (totLive / tTime)⟩

theorem bitTime_eq (t : UInt64) : bitTime t = t.toNat / 1000000000 := by
  have hdiv : (t.toNat : ℚ) = 1000000000 * (t.toNat / 1000000000 : ℕ) + (t.toNat % 1000000000 : ℕ) := by
    exact_mod_cast (Nat.div_add_mod t.toNat 1000000000).symm
  rw [bitTime, hdiv, add_div, mul_div_cancel_left₀ _ (by norm_num)]

theorem pLiveVisit_eq_foldl (root : RangeTree PLive) (gip : GetInfo) :
    pLiveVisit root gip = root.toList.foldl add gip := by
  induction root generalizing gip with
  | nil => rfl
  | node left plp right ihleft ihright =>
    rw [pLiveVisit, ihleft, ihright, toList_node, List.foldl_append, List.foldl_cons]

def duration (plp : PLive) : ℕ := plp.ct.toNat - plp.dt.toNat

theorem sum_duration_le {l : List PLive} {lo hi : ℕ} (h : PLive.Apart l) (hle : lo ≤ hi)
    (hlo : ∀ plp ∈ l, lo ≤ plp.dt.toNat) (hhi : ∀ plp ∈ l, plp.ct.toNat ≤ hi) :
    (l.map duration).sum ≤ hi - lo := by
  induction l generalizing lo with
  | nil => exact Nat.zero_le _
  | cons plp l ih =>
    obtain ⟨hsorted, hdt⟩ := h
    obtain ⟨hplp, hsorted⟩ := List.pairwise_cons.mp hsorted
    rw [List.forall_mem_cons] at hlo hhi hdt
    have hown := UInt64.le_iff_toNat_le.mp hdt.1
    have hrest := ih ⟨hsorted, hdt.2⟩ hhi.1
      (fun y hy => (UInt64.lt_iff_toNat_lt.mp (hplp y hy)).le) hhi.2
    rw [List.map_cons, List.sum_cons, duration]
    omega

theorem foldl_add {l : List PLive} {gip : GetInfo} (hdt : ∀ plp ∈ l, plp.dt ≤ plp.ct)
    (hstart : gip.tStart = 0) :
    (l.foldl add gip).nlives = gip.nlives + l.length ∧ (l.foldl add gip).tStart = 0 ∧
      (l.foldl add gip).totLive = gip.totLive + UInt64.ofNat (l.map duration).sum ∧
      (l.foldl add gip).tEnd.toNat = (l.map fun plp => plp.ct.toNat).foldl max gip.tEnd.toNat := by
  induction l generalizing gip with
  | nil => exact ⟨rfl, hstart, (UInt64.add_zero _).symm, rfl⟩
  | cons plp l ih =>
    rw [List.forall_mem_cons] at hdt
    have hstart' : (gip.add plp).tStart = 0 := by
      have hnot : ¬ ((gip.tStart.toNat : ℚ) < 0 ∨ plp.dt < gip.tStart) := by
        rw [hstart, UInt64.lt_iff_toNat_lt]
        simp
      rw [add, if_neg hnot, hstart]
    have hend : (gip.add plp).tEnd.toNat = max gip.tEnd.toNat plp.ct.toNat := by
      have hneg : ¬ (gip.tEnd.toNat : ℚ) < 0 := not_lt.mpr (Nat.cast_nonneg _)
      simp only [add, hneg, false_or, gt_iff_lt, UInt64.lt_iff_toNat_lt]
      split_ifs
      all_goals omega
    obtain ⟨hnlives, htStart, htot, htEnd⟩ := ih hdt.2 hstart'
    refine ⟨?_, htStart, ?_, ?_⟩
    · rw [List.foldl_cons, hnlives, List.length_cons]
      change gip.nlives + 1 + l.length = _
      omega
    · have hduration : UInt64.ofNat (duration plp) = plp.ct - plp.dt := by
        apply UInt64.toNat_inj.mp
        rw [UInt64.toNat_sub_of_le _ _ hdt.1]
        exact Nat.mod_eq_of_lt ((Nat.sub_le _ _).trans_lt plp.ct.toNat_lt)
      rw [List.foldl_cons, htot, List.map_cons, List.sum_cons, UInt64.ofNat_add, hduration]
      change gip.totLive + (plp.ct - plp.dt) + _ = _
      rw [UInt64.add_assoc]
    · rw [List.foldl_cons, htEnd, hend]
      rfl

structure Totals (l : List PLive) (gi : GetInfo) (plip : PLiveInfo) : Prop where
  nlives : gi.nlives = l.length ∧ plip.nlives = l.length
  totLive : gi.totLive.toNat = (l.map duration).sum
  tStart : (∃ plp ∈ l, plp.dt = gi.tStart) ∧ ∀ plp ∈ l, gi.tStart ≤ plp.dt
  tEnd : (∃ plp ∈ l, plp.ct = gi.tEnd) ∧ ∀ plp ∈ l, plp.ct ≤ gi.tEnd
  avgLive : plip.avgLive = (l.map duration).sum / 1000000000 / l.length
  avgLull : 2 ≤ l.length → plip.avgLull =
    ((gi.tEnd.toNat - gi.tStart.toNat - (l.map duration).sum : ℚ) / 1000000000) / (l.length - 1)

def FromZero (l : List PLive) : Prop :=
  (∃ plp ∈ l, plp.dt = 0) ∧ (l.length = 1 → ∀ plp ∈ l, plp.ct = plp.dt)

theorem le_foldl_max (l : List ℕ) (m : ℕ) :
    m ≤ l.foldl max m ∧ (∀ n ∈ l, n ≤ l.foldl max m) ∧ (l.foldl max m = m ∨ l.foldl max m ∈ l) := by
  induction l generalizing m with
  | nil => exact ⟨le_rfl, List.forall_mem_nil _, .inl rfl⟩
  | cons n l ih =>
    obtain ⟨hle, hall, hin⟩ := ih (max m n)
    rw [List.foldl_cons, List.forall_mem_cons, List.mem_cons]
    refine ⟨(le_max_left m n).trans hle, ⟨(le_max_right m n).trans hle, hall⟩, ?_⟩
    obtain hin | hin := hin
    · obtain hmax | hmax := max_choice m n
      · exact .inl (hin.trans hmax)
      · exact .inr (.inl (hin.trans hmax))
    · exact .inr (.inr hin)

section Walked

variable {root : RangeTree PLive}

theorem visited_spec (h : PLive.Apart root.toList) (hne : root.toList ≠ []) :
    (visited root).nlives = root.toList.length ∧ (visited root).tStart = 0 ∧
      (visited root).totLive.toNat = (root.toList.map duration).sum ∧
      (∃ plp ∈ root.toList, plp.ct = (visited root).tEnd) ∧
      ∀ plp ∈ root.toList, plp.ct ≤ (visited root).tEnd := by
  obtain ⟨hnlives, hstart, htot, hend⟩ := @foldl_add root.toList ⟨0, 0, 0, 0⟩ h.le rfl
  rw [visited, pLiveVisit_eq_foldl]
  obtain ⟨-, hlast, hin⟩ := le_foldl_max (root.toList.map fun plp => plp.ct.toNat) 0
  have hlast' : ∀ plp ∈ root.toList, plp.ct ≤ (root.toList.foldl add ⟨0, 0, 0, 0⟩).tEnd := by
    intro plp hplp
    rw [UInt64.le_iff_toNat_le, hend]
    exact hlast _ (List.mem_map_of_mem hplp)
  refine ⟨by rw [hnlives, Nat.zero_add], hstart, ?_, ?_, hlast'⟩
  · have hsum := @sum_duration_le root.toList 0 (2 ^ 64 - 1) h (Nat.zero_le _)
      (fun plp _ => Nat.zero_le _) fun plp _ => Nat.le_pred_of_lt plp.ct.toNat_lt
    rw [htot, UInt64.zero_add]
    exact Nat.mod_eq_of_lt (hsum.trans_lt (by norm_num))
  · obtain hin | hin := hin
    -- all of them end at 0
    · obtain ⟨plp, hplp⟩ := List.exists_mem_of_ne_nil _ hne
      have hle := UInt64.le_iff_toNat_le.mp (hlast' plp hplp)
      rw [hend] at hle
      refine ⟨plp, hplp, UInt64.toNat_inj.mp ?_⟩
      rw [hend]
      change plp.ct.toNat ≤ List.foldl max 0 _ at hle
      change _ = List.foldl max 0 _
      omega
    · obtain ⟨plp, hplp, heq⟩ := List.mem_map.mp hin
      refine ⟨plp, hplp, UInt64.toNat_inj.mp ?_⟩
      rw [hend, heq]
      rfl

theorem totals_iff (h : PLive.Apart root.toList) (hne : root.toList ≠ []) :
    Totals root.toList (visited root) (pLiveGet root) ↔ FromZero root.toList := by
  obtain ⟨hnlives, hstart, htot, hend⟩ := visited_spec h hne
  have hpos := List.length_pos_iff.mpr hne
  constructor
  · intro htotals
    constructor
    · rw [← hstart]
      exact htotals.tStart.1
    · intro hone plp hplp
      have havg := htotals.avgLive
      rw [pLiveGet, hnlives, hone, if_neg one_ne_zero, if_pos rfl] at havg
      obtain ⟨x, hx⟩ := List.length_eq_one_iff.mp hone
      rw [hx, List.mem_singleton] at hplp
      rw [hx, List.map_singleton, List.sum_singleton, ← hplp, Nat.cast_one, div_one] at havg
      have hzero : duration plp = 0 := by
        have hdiv := div_eq_zero_iff.mp havg.symm
        exact_mod_cast hdiv.resolve_right (by norm_num)
      have hle := UInt64.le_iff_toNat_le.mp (h.le plp (by rw [hx, hplp]; exact List.mem_cons_self))
      rw [duration] at hzero
      apply UInt64.toNat_inj.mp
      omega
  · rintro ⟨⟨first, hfirst, hzero⟩, hone⟩
    refine ⟨⟨hnlives, ?_⟩, htot, ⟨⟨first, hfirst, hzero.trans hstart.symm⟩, ?_⟩, hend, ?_, ?_⟩
    · rw [pLiveGet]
      split_ifs
      all_goals exact hnlives
    · intro plp hplp
      rw [hstart, UInt64.le_iff_toNat_le]
      exact Nat.zero_le _
    · rw [pLiveGet, hnlives, if_neg hpos.ne']
      by_cases hlength : root.toList.length = 1
      · have hsum : (root.toList.map duration).sum = 0 := by
          apply List.sum_eq_zero
          intro n hn
          obtain ⟨plp, hplp, rfl⟩ := List.mem_map.mp hn
          rw [duration, hone hlength plp hplp, Nat.sub_self]
        rw [if_pos hlength, hsum]
        norm_num
      · rw [if_neg hlength]
        dsimp only
        rw [bitTime_eq, htot]
    · intro htwo
      have hlength : root.toList.length ≠ 1 := by omega
      rw [pLiveGet, hnlives, if_neg hpos.ne', if_neg hlength]
      dsimp only
      rw [bitTime_eq, bitTime_eq, htot, hstart, UInt64.sub_zero, UInt64.toNat_zero, Nat.cast_zero,
        sub_zero, ← sub_div]

end Walked

end GetInfo

/-- Of any tree that was built the totals are right just if its first interval starts at 0, and is not
a single one that has a length. -/
theorem live_totals_iff {δ : Type*} [DecidableEq δ] (rb : LiveRb) (calls : List (LiveCall δ))
    (h : ∀ call ∈ calls, call.dt ≤ call.ct) (fuel : ℕ) (hfuel : calls.length ≤ fuel) :
    ∃ st, PLives.run rb fuel calls = some st ∧ ∀ k, (st.trees k).toList ≠ [] →
      (GetInfo.Totals (st.trees k).toList (GetInfo.visited (st.trees k)) (GetInfo.pLiveGet (st.trees k)) ↔
        GetInfo.FromZero (st.trees k).toList) := by
  obtain ⟨st, hrun, hconsistent, -⟩ := PLives.run_consistent rb calls h hfuel
  exact ⟨st, hrun, fun k hne => GetInfo.totals_iff (hconsistent.apart k) hne⟩

theorem live_totals_two :
    (∀ call ∈ ([⟨0, 0, 20⟩, ⟨0, 30, 40⟩] : List (LiveCall ℕ)), call.dt ≤ call.ct) ∧
      ∃ st, PLives.run chained 2 ([⟨0, 0, 20⟩, ⟨0, 30, 40⟩] : List (LiveCall ℕ)) = some st ∧
        ∀ k, (st.trees k).toList ≠ [] →
          (GetInfo.Totals (st.trees k).toList (GetInfo.visited (st.trees k))
              (GetInfo.pLiveGet (st.trees k)) ↔
            GetInfo.FromZero (st.trees k).toList) :=
  ⟨by decide, live_totals_iff chained [⟨0, 0, 20⟩, ⟨0, 30, 40⟩] (by decide) 2 (by decide)⟩

/-- One interval from 10 to 30: its start is taken for 0, and its average length for 0. -/
theorem live_totals_late :
    ∃ st, PLives.run chained 1 ([⟨0, 10, 30⟩] : List (LiveCall ℕ)) = some st ∧
      (st.trees none).toList = [⟨1, 10, 30⟩] ∧ (GetInfo.visited (st.trees none)).tStart = 0 ∧
      (GetInfo.pLiveGet (st.trees none)).avgLive = 0 ∧
      ¬ GetInfo.Totals (st.trees none).toList (GetInfo.visited (st.trees none))
        (GetInfo.pLiveGet (st.trees none)) := by
  refine ⟨_, rfl, rfl, rfl, rfl, fun h => ?_⟩
  obtain ⟨plp, hplp, hstart⟩ := h.tStart.1
  obtain rfl := List.mem_singleton.mp hplp
  exact absurd hstart (by decide)

end SBlktrace
