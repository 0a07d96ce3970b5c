import SBlktrace.RangeTree
import Mathlib

namespace SBlktrace

open RangeTree

structure SeekBkt where
  sectors : ℕ
  nseeks : Int32

namespace SeekBkt

def seekAgain (sbp : SeekBkt) : SeekBkt := { sbp with nseeks := sbp.nseeks + 1 }

def descend (sectors : ℕ) : RangeTree SeekBkt → Bool × RangeTree SeekBkt
  | .nil => (true, .node .nil ⟨sectors, 1⟩ .nil)
  | .node left sbp right =>
    if sectors < sbp.sectors then
      ((descend sectors left).1, .node (descend sectors left).2 sbp right)
    else if sectors > sbp.sectors then
      ((descend sectors right).1, .node left sbp (descend sectors right).2)
    else (false, .node left sbp.seekAgain right)

def insert (rb : Rebalance SeekBkt) (root : RangeTree SeekBkt) (sectors : ℕ) : RangeTree SeekBkt :=
  if (descend sectors root).1 = true then rb.color (descend sectors root).2
  else (descend sectors root).2

def insertAll (rb : Rebalance SeekBkt) (dists : List ℕ) : RangeTree SeekBkt :=
  dists.foldl (insert rb) .nil

section Descent

variable {sectors : ℕ} {t : RangeTree SeekBkt}

theorem insert_toList (rb : Rebalance SeekBkt) :
    (insert rb t sectors).toList = (descend sectors t).2.toList := by
  rw [insert]
  split_ifs
  · exact rb.color_toList _
  · rfl

theorem descend_split (h : Sorted SeekBkt.sectors t.toList) : ∃ before after,
    (∀ sbp ∈ before, sbp.sectors < sectors) ∧ (∀ sbp ∈ after, sectors < sbp.sectors) ∧
      ((t.toList = before ++ after ∧
          (descend sectors t).2.toList = before ++ ⟨sectors, 1⟩ :: after) ∨
        ∃ sbp, sbp.sectors = sectors ∧ t.toList = before ++ sbp :: after ∧
          (descend sectors t).2.toList = before ++ sbp.seekAgain :: after) := by
  induction t with
  | nil => exact ⟨[], [], List.forall_mem_nil _, List.forall_mem_nil _, .inl ⟨rfl, rfl⟩⟩
  | node left sbp right ihleft ihright =>
    obtain ⟨hleft, hright, hltl, hltr, -⟩ := sorted_node h
    rw [descend]
    obtain hlt | heq | hlt := lt_trichotomy sectors sbp.sectors
    · obtain ⟨before, after, hbefore, hafter, hlists⟩ := ihleft hleft
      rw [if_pos hlt]
      refine ⟨before, after ++ sbp :: right.toList, hbefore, ?_, ?_⟩
      · rw [List.forall_mem_append, List.forall_mem_cons]
        exact ⟨hafter, hlt, fun y hy => hlt.trans (hltr y hy)⟩
      · simp only [toList_node]
        obtain ⟨hlist, hlist'⟩ | ⟨sbp, hsbp, hlist, hlist'⟩ := hlists
        · refine .inl ⟨?_, ?_⟩
          · rw [hlist, List.append_assoc]
          · rw [hlist', List.append_assoc, List.cons_append]
        · refine .inr ⟨sbp, hsbp, ?_, ?_⟩
          · rw [hlist, List.append_assoc, List.cons_append]
          · rw [hlist', List.append_assoc, List.cons_append]
    · rw [if_neg heq.not_lt, if_neg heq.not_gt]
      refine ⟨left.toList, right.toList, ?_, ?_, .inr ⟨sbp, heq.symm, rfl, rfl⟩⟩
      · rw [heq]
        exact hltl
      · rw [heq]
        exact hltr
    · obtain ⟨before, after, hbefore, hafter, hlists⟩ := ihright hright
      rw [if_neg hlt.not_gt, if_pos hlt]
      refine ⟨left.toList ++ sbp :: before, after, ?_, hafter, ?_⟩
      · rw [List.forall_mem_append, List.forall_mem_cons]
        exact ⟨fun y hy => (hltl y hy).trans hlt, hlt, hbefore⟩
      · simp only [toList_node]
        obtain ⟨hlist, hlist'⟩ | ⟨sbp', hsbp, hlist, hlist'⟩ := hlists
        · refine .inl ⟨?_, ?_⟩
          · rw [hlist, List.append_assoc, List.cons_append]
          · rw [hlist', List.append_assoc, List.cons_append]
        · refine .inr ⟨sbp', hsbp, ?_, ?_⟩
          · rw [hlist, List.append_assoc, List.cons_append]
          · rw [hlist', List.append_assoc, List.cons_append]

end Descent

structure Counts (dists : List ℕ) (t : RangeTree SeekBkt) : Prop where
  sorted : Sorted SeekBkt.sectors t.toList
  mem_iff : ∀ sectors, sectors ∈ t.toList.map SeekBkt.sectors ↔ sectors ∈ dists
  nseeks_eq : ∀ sbp ∈ t.toList, sbp.nseeks = Int32.ofNat (dists.count sbp.sectors)

theorem insert_counts (rb : Rebalance SeekBkt) {dists : List ℕ} {t : RangeTree SeekBkt}
    (h : Counts dists t) (sectors : ℕ) : Counts (dists ++ [sectors]) (insert rb t sectors) := by
  obtain ⟨hsorted, hmem, hnseeks⟩ := h
  obtain ⟨before, after, hbefore, hafter, hlists⟩ := @descend_split sectors t hsorted
  have hother (sbp : SeekBkt) (hne : sbp.sectors ≠ sectors) :
      (dists ++ [sectors]).count sbp.sectors = dists.count sbp.sectors := by
    rw [List.count_append, List.count_singleton, if_neg (by simpa using hne.symm), Nat.add_zero]
  have hself : (dists ++ [sectors]).count sectors = dists.count sectors + 1 := by
    rw [List.count_append, List.count_singleton_self]
  have hsides (sbp : SeekBkt) (hsbp : sbp ∈ before ∨ sbp ∈ after) : sbp.sectors ≠ sectors := by
    obtain hsbp | hsbp := hsbp
    · exact (hbefore sbp hsbp).ne
    · exact (hafter sbp hsbp).ne'
  obtain ⟨hlist, hlist'⟩ | ⟨sbp, hsbp, hlist, hlist'⟩ := hlists
  · rw [hlist] at hsorted hnseeks hmem
    have hnone : dists.count sectors = 0 := by
      rw [List.count_eq_zero, ← hmem, List.mem_map]
      rintro ⟨sbp, hin, heq⟩
      exact hsides sbp (List.mem_append.mp hin) heq
    constructor
    · rw [insert_toList, hlist']
      exact pairwise_around hsorted hbefore hafter
    · intro d
      rw [insert_toList, hlist', List.mem_append, List.mem_singleton, ← hmem, List.map_append,
        List.map_append, List.map_cons, List.mem_append, List.mem_append, List.mem_cons]
      tauto
    · intro sbp hin
      rw [insert_toList, hlist', List.mem_append, List.mem_cons] at hin
      obtain hin | rfl | hin := hin
      · rw [hother sbp (hsides sbp (.inl hin)), hnseeks sbp (List.mem_append_left _ hin)]
      · rw [hself, hnone]
        rfl
      · rw [hother sbp (hsides sbp (.inr hin)), hnseeks sbp (List.mem_append_right _ hin)]
  · rw [hlist] at hsorted hnseeks hmem
    have hsorted' : Sorted SeekBkt.sectors (before ++ after) :=
      hsorted.sublist ((List.sublist_cons_self sbp after).append_left before)
    constructor
    · rw [insert_toList, hlist']
      subst hsbp
      exact pairwise_around hsorted' hbefore hafter
    · intro d
      rw [insert_toList, hlist', List.mem_append, List.mem_singleton, ← hmem, List.map_append,
        List.map_append, List.map_cons, List.map_cons, List.mem_append, List.mem_append,
        List.mem_cons, List.mem_cons, ← hsbp]
      change _ ∨ d = sbp.sectors ∨ _ ↔ _
      tauto
    · intro sbp' hin
      rw [insert_toList, hlist', List.mem_append, List.mem_cons] at hin
      obtain hin | rfl | hin := hin
      · rw [hother sbp' (hsides sbp' (.inl hin)), hnseeks sbp' (List.mem_append_left _ hin)]
      · have hcount := hnseeks sbp (List.mem_append_right _ List.mem_cons_self)
        change sbp.nseeks + 1 = Int32.ofNat ((dists ++ [sectors]).count sbp.sectors)
        rw [hcount, hsbp, hself, Int32.ofNat_add]
        rfl
      · rw [hother sbp' (hsides sbp' (.inr hin)),
          hnseeks sbp' (List.mem_append_right _ (List.mem_cons_of_mem _ hin))]

theorem insertAll_counts (rb : Rebalance SeekBkt) (dists : List ℕ) :
    Counts dists (insertAll rb dists) := by
  induction dists using List.reverseRecOn with
  | nil =>
    exact ⟨.nil, fun sectors => Iff.rfl, List.forall_mem_nil _⟩
  | append_singleton dists sectors ih =>
    rw [insertAll, List.foldl_append, List.foldl_cons, List.foldl_nil]
    exact insert_counts rb ih sectors

end SeekBkt

end SBlktrace
