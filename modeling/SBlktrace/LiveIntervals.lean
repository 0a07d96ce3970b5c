import SBlktrace.RangeTree
import Mathlib

namespace SBlktrace

open RangeTree

structure PLive where
  address : ℕ
  dt : UInt64
  ct : UInt64

/-- `rb_insert_color` as of `Rebalance`, and `rb_erase`, which takes out a node. -/
structure LiveRb extends Rebalance PLive where
  erase : ℕ → RangeTree PLive → RangeTree PLive
  erase_toList : ∀ address t, (erase address t).toList = t.toList.filter (·.address ≠ address)

structure LiveHeap where
  allPLives : List ℕ
  allocated : ℕ

namespace PLive

def inside (plp : PLive) (dt ct : UInt64) : Bool :=
  if plp.dt ≤ dt ∧ dt ≤ plp.ct then true
  else if plp.dt ≤ ct ∧ ct ≤ plp.ct then true
  else if dt < plp.dt ∧ plp.ct < ct then true
  else false

def descend (dt ct : UInt64) : RangeTree PLive → Option PLive
  | .nil => none
  | .node left plp right =>
    if plp.inside dt ct then some plp
    else if ct < plp.dt then descend dt ct left
    else descend dt ct right

def link (new : PLive) : RangeTree PLive → RangeTree PLive
  | .nil => .node .nil new .nil
  | .node left plp right =>
    if new.ct < plp.dt then .node (link new left) plp right else .node left plp (link new right)

def pLiveAddTree (rb : LiveRb) : ℕ → RangeTree PLive → LiveHeap → UInt64 → UInt64 →
    Option (RangeTree PLive × LiveHeap)
  | 0, _, _, _, _ => none
  | fuel + 1, root, heap, dt, ct =>
    match descend dt ct root with
    | some plp =>
      pLiveAddTree rb fuel (rb.erase plp.address root)
        { heap with allPLives := heap.allPLives.erase plp.address }
        (if plp.dt < dt then plp.dt else dt) (if plp.ct > ct then plp.ct else ct)
    | none =>
      let plp : PLive := ⟨heap.allocated, dt, ct⟩
      some (rb.color (link plp root), ⟨heap.allPLives ++ [plp.address], heap.allocated + 1⟩)

def span (dt ct : UInt64) : Set ℝ := Set.Icc (dt.toNat : ℝ) ct.toNat

def covered (l : List PLive) : Set ℝ := {t | ∃ plp ∈ l, t ∈ span plp.dt plp.ct}

def addresses (root : RangeTree PLive) : List ℕ := root.toList.map PLive.address

structure Apart (l : List PLive) : Prop where
  sorted : l.Pairwise fun x y => x.ct < y.dt
  le : ∀ plp ∈ l, plp.dt ≤ plp.ct

structure Tracked (others : ℕ → Prop) (root : RangeTree PLive) (heap : LiveHeap) : Prop where
  nodup : heap.allPLives.Nodup
  mem_iff : ∀ address, address ∈ heap.allPLives ↔ others address ∨ address ∈ addresses root
  once : (addresses root).Nodup
  own : ∀ address ∈ addresses root, ¬ others address
  allocated : ∀ address ∈ heap.allPLives, address < heap.allocated

section Walk

variable {plp new : PLive} {dt ct : UInt64} {l : List PLive} {t left right : RangeTree PLive}

theorem inside_iff (hplp : plp.dt ≤ plp.ct) (h : dt ≤ ct) :
    plp.inside dt ct = true ↔ plp.dt ≤ ct ∧ dt ≤ plp.ct := by
  rw [UInt64.le_iff_toNat_le] at hplp h
  simp only [inside, UInt64.le_iff_toNat_le, UInt64.lt_iff_toNat_lt]
  split_ifs
  all_goals
    simp only [false_iff, true_iff]
    omega

theorem lt_or_lt_of_not_inside (hplp : plp.dt ≤ plp.ct) (h : dt ≤ ct)
    (hnot : ¬ plp.inside dt ct = true) : ct < plp.dt ∨ plp.ct < dt := by
  rw [inside_iff hplp h] at hnot
  simp only [UInt64.le_iff_toNat_le, UInt64.lt_iff_toNat_lt] at hnot ⊢
  omega

theorem apart_node (h : Apart (node left plp right).toList) :
    Apart left.toList ∧ Apart right.toList ∧ plp.dt ≤ plp.ct ∧
      (∀ y ∈ left.toList, y.ct < plp.dt) ∧ ∀ y ∈ right.toList, plp.ct < y.dt := by
  obtain ⟨hsorted, hle⟩ := h
  obtain ⟨hleft, hright, hcross⟩ := List.pairwise_append.mp hsorted
  obtain ⟨hplp, hright⟩ := List.pairwise_cons.mp hright
  rw [toList_node, List.forall_mem_append, List.forall_mem_cons] at hle
  exact ⟨⟨hleft, hle.1⟩, ⟨hright, hle.2.2⟩, hle.2.1, fun y hy => hcross y hy plp List.mem_cons_self,
    hplp⟩

theorem descend_mem (h : descend dt ct t = some plp) : plp ∈ t.toList ∧ plp.inside dt ct = true := by
  induction t with
  | nil => cases h
  | node left x right ihleft ihright =>
    rw [descend] at h
    rw [toList_node, List.mem_append, List.mem_cons]
    split_ifs at h with hinside hlt
    · obtain rfl := Option.some.inj h
      exact ⟨.inr (.inl rfl), hinside⟩
    · exact ⟨.inl (ihleft h).1, (ihleft h).2⟩
    · exact ⟨.inr (.inr (ihright h).1), (ihright h).2⟩

theorem link_split (hapart : Apart t.toList) (hle : new.dt ≤ new.ct)
    (h : descend new.dt new.ct t = none) : ∃ before after, t.toList = before ++ after ∧
      (link new t).toList = before ++ new :: after ∧ (∀ y ∈ before, y.ct < new.dt) ∧
      ∀ y ∈ after, new.ct < y.dt := by
  induction t with
  | nil => exact ⟨[], [], rfl, rfl, List.forall_mem_nil _, List.forall_mem_nil _⟩
  | node left x right ihleft ihright =>
    obtain ⟨hleft, hright, hx, hltl, hltr⟩ := apart_node hapart
    rw [descend] at h
    rw [link]
    split_ifs at h with hinside hlt
    · obtain ⟨before, after, hlist, hlist', hbefore, hafter⟩ := ihleft hleft h
      rw [if_pos hlt]
      refine ⟨before, after ++ x :: right.toList, ?_, ?_, hbefore, ?_⟩
      · rw [toList_node, hlist, List.append_assoc]
      · rw [toList_node, hlist', List.append_assoc, List.cons_append]
      · rw [List.forall_mem_append, List.forall_mem_cons]
        exact ⟨hafter, hlt, fun y hy =>
          UInt64.lt_trans hlt (UInt64.lt_of_le_of_lt hx (hltr y hy))⟩
    · obtain ⟨before, after, hlist, hlist', hbefore, hafter⟩ := ihright hright h
      have hgt : x.ct < new.dt := (lt_or_lt_of_not_inside hx hle hinside).resolve_left hlt
      rw [if_neg hlt]
      refine ⟨left.toList ++ x :: before, after, ?_, ?_, ?_, hafter⟩
      · rw [toList_node, hlist, List.append_assoc, List.cons_append]
      · rw [toList_node, hlist', List.append_assoc, List.cons_append]
      · rw [List.forall_mem_append, List.forall_mem_cons]
        exact ⟨fun y hy => UInt64.lt_trans (hltl y hy) (UInt64.lt_of_le_of_lt hx hgt), hgt, hbefore⟩

theorem link_apart (hapart : Apart t.toList) (hle : new.dt ≤ new.ct)
    (h : descend new.dt new.ct t = none) :
    Apart (link new t).toList ∧ (link new t).toList.Perm (new :: t.toList) := by
  obtain ⟨before, after, hlist, hlist', hbefore, hafter⟩ := link_split hapart hle h
  obtain ⟨hsorted, hle'⟩ := hapart
  rw [hlist] at hsorted hle'
  rw [hlist', hlist]
  refine ⟨⟨?_, ?_⟩, List.perm_middle⟩
  · exact pairwise_around hsorted hbefore hafter
  · rw [List.forall_mem_append] at hle'
    rw [List.forall_mem_append, List.forall_mem_cons]
    exact ⟨hle'.1, hle, hle'.2⟩

theorem covered_cons : covered (plp :: l) = span plp.dt plp.ct ∪ covered l := by
  ext t
  simp only [covered, Set.mem_union, Set.mem_ofPred_eq, List.mem_cons, exists_eq_or_imp]

theorem covered_perm {l' : List PLive} (h : l.Perm l') : covered l = covered l' := by
  ext t
  simp only [covered, Set.mem_ofPred_eq, h.mem_iff]

theorem span_hull (hplp : plp.dt ≤ plp.ct) (h : dt ≤ ct) (hinside : plp.inside dt ct = true) :
    span (if plp.dt < dt then plp.dt else dt) (if plp.ct > ct then plp.ct else ct) =
      span plp.dt plp.ct ∪ span dt ct := by
  have hmeet := (inside_iff hplp h).mp hinside
  have hmin : ((if plp.dt < dt then plp.dt else dt).toNat : ℝ) = min (plp.dt.toNat : ℝ) dt.toNat := by
    rw [← Nat.cast_min]
    congr 1
    simp only [UInt64.lt_iff_toNat_lt]
    split_ifs
    all_goals omega
  have hmax : ((if plp.ct > ct then plp.ct else ct).toNat : ℝ) = max (plp.ct.toNat : ℝ) ct.toNat := by
    rw [← Nat.cast_max]
    congr 1
    simp only [gt_iff_lt, UInt64.lt_iff_toNat_lt]
    split_ifs
    all_goals omega
  rw [span, hmin, hmax, span, span]
  symm
  apply Set.Icc_union_Icc'
  · exact_mod_cast UInt64.le_iff_toNat_le.mp hmeet.2
  · exact_mod_cast UInt64.le_iff_toNat_le.mp hmeet.1

theorem hull_le (h : dt ≤ ct) :
    (if plp.dt < dt then plp.dt else dt) ≤ (if plp.ct > ct then plp.ct else ct) := by
  simp only [gt_iff_lt, UInt64.le_iff_toNat_le, UInt64.lt_iff_toNat_lt] at h ⊢
  split_ifs
  all_goals omega

theorem mem_addresses (h : plp ∈ t.toList) : plp.address ∈ addresses t := List.mem_map_of_mem h

theorem perm_erase (rb : LiveRb) (hplp : plp ∈ t.toList) (honce : (addresses t).Nodup) :
    t.toList.Perm (plp :: (rb.erase plp.address t).toList) := by
  obtain ⟨before, after, hlist⟩ := List.append_of_mem hplp
  rw [addresses, hlist, List.map_append, List.map_cons, List.nodup_middle, List.nodup_cons,
    ← List.map_append] at honce
  have hother : ∀ y ∈ before ++ after, decide (y.address ≠ plp.address) = true := by
    intro y hy
    apply decide_eq_true
    intro heq
    apply honce.1
    rw [← heq]
    exact List.mem_map_of_mem hy
  rw [List.forall_mem_append] at hother
  rw [rb.erase_toList, hlist, List.filter_append, List.filter_cons_of_neg (by simp),
    List.filter_eq_self.mpr hother.1, List.filter_eq_self.mpr hother.2]
  exact List.perm_middle

theorem erase_apart (rb : LiveRb) (address : ℕ) (h : Apart t.toList) :
    Apart (rb.erase address t).toList := by
  rw [rb.erase_toList]
  exact ⟨h.sorted.filter _, fun y hy => h.le y (List.mem_of_mem_filter hy)⟩

end Walk

namespace Tracked

variable {others : ℕ → Prop} {root : RangeTree PLive} {heap : LiveHeap} {plp : PLive}

theorem erase (rb : LiveRb) (h : Tracked others root heap) (hplp : plp ∈ root.toList) :
    Tracked others (rb.erase plp.address root)
      { heap with allPLives := heap.allPLives.erase plp.address } := by
  have hperm : (addresses root).Perm (plp.address :: addresses (rb.erase plp.address root)) :=
    (perm_erase rb hplp h.once).map PLive.address
  have honce := (hperm.nodup_iff).mp h.once
  rw [List.nodup_cons] at honce
  have hmem {address : ℕ} (hin : address ∈ addresses (rb.erase plp.address root)) :
      address ∈ addresses root := hperm.mem_iff.mpr (List.mem_cons_of_mem _ hin)
  constructor
  · exact h.nodup.erase _
  · intro address
    dsimp only
    rw [h.nodup.mem_erase_iff, h.mem_iff, hperm.mem_iff, List.mem_cons]
    constructor
    · rintro ⟨hne, hother | rfl | hin⟩
      · exact .inl hother
      · exact absurd rfl hne
      · exact .inr hin
    · rintro (hother | hin)
      · refine ⟨?_, .inl hother⟩
        rintro rfl
        exact h.own _ (mem_addresses hplp) hother
      · refine ⟨?_, .inr (.inr hin)⟩
        rintro rfl
        exact honce.1 hin
  · exact honce.2
  · exact fun address hin => h.own address (hmem hin)
  · exact fun address hin => h.allocated address (List.mem_of_mem_erase hin)

theorem link {root' : RangeTree PLive} (h : Tracked others root heap)
    (hplp : plp.address = heap.allocated) (hperm : root'.toList.Perm (plp :: root.toList)) :
    Tracked others root' ⟨heap.allPLives ++ [plp.address], heap.allocated + 1⟩ := by
  have hperm' : (addresses root').Perm (heap.allocated :: addresses root) := by
    rw [← hplp]
    exact hperm.map PLive.address
  have hfresh : heap.allocated ∉ heap.allPLives := fun hin => lt_irrefl _ (h.allocated _ hin)
  rw [hplp]
  constructor
  · rw [List.nodup_append]
    refine ⟨h.nodup, List.nodup_singleton _, fun address hin address' hin' => ?_⟩
    rw [List.mem_singleton.mp hin']
    exact (h.allocated address hin).ne
  · intro address
    dsimp only
    rw [List.mem_append, List.mem_singleton, h.mem_iff, hperm'.mem_iff, List.mem_cons]
    tauto
  · rw [hperm'.nodup_iff, List.nodup_cons]
    exact ⟨fun hin => hfresh ((h.mem_iff _).mpr (.inr hin)), h.once⟩
  · intro address hin hother
    obtain rfl | hin := List.mem_cons.mp (hperm'.mem_iff.mp hin)
    · exact hfresh ((h.mem_iff _).mpr (.inl hother))
    · exact h.own address hin hother
  · intro address hin
    dsimp only at hin ⊢
    obtain hin | hin := List.mem_append.mp hin
    · exact Nat.lt_succ_of_lt (h.allocated address hin)
    · rw [List.mem_singleton.mp hin]
      exact Nat.lt_succ_self _

end Tracked

theorem pLiveAddTree_spec (rb : LiveRb) {fuel : ℕ} {root : RangeTree PLive} {heap : LiveHeap}
    {dt ct : UInt64} {others : ℕ → Prop} (hle : dt ≤ ct) (hapart : Apart root.toList)
    (htracked : Tracked others root heap) (hfuel : root.toList.length < fuel) :
    ∃ root' heap', pLiveAddTree rb fuel root heap dt ct = some (root', heap') ∧
      Apart root'.toList ∧ covered root'.toList = covered root.toList ∪ span dt ct ∧
      Tracked others root' heap' ∧ heap.allocated ≤ heap'.allocated ∧
      root'.toList.length ≤ root.toList.length + 1 := by
  induction fuel generalizing root heap dt ct with
  | zero => exact absurd hfuel (Nat.not_lt_zero _)
  | succ fuel ih =>
    rw [pLiveAddTree]
    cases hdescend : descend dt ct root with
    | none =>
      obtain ⟨hapart', hperm⟩ := @link_apart ⟨heap.allocated, dt, ct⟩ root hapart hle hdescend
      refine ⟨_, _, rfl, ?_, ?_, ?_, Nat.le_succ _, ?_⟩
      · rwa [rb.color_toList]
      · rw [rb.color_toList, covered_perm hperm, covered_cons, Set.union_comm]
      · apply htracked.link rfl
        rwa [rb.color_toList]
      · rw [rb.color_toList, hperm.length_eq, List.length_cons]
    | some plp =>
      obtain ⟨hplp, hinside⟩ := descend_mem hdescend
      have hperm := perm_erase rb hplp htracked.once
      have hlength := hperm.length_eq
      rw [List.length_cons] at hlength
      obtain ⟨root', heap', hadd, hapart', hcovered, htracked', hallocated, hlength'⟩ :=
        ih (hull_le hle) (erase_apart rb plp.address hapart) (htracked.erase rb hplp) (by omega)
      refine ⟨root', heap', hadd, hapart', ?_, htracked', hallocated, by omega⟩
      rw [hcovered, span_hull (hapart.le plp hplp) hle hinside, covered_perm hperm, covered_cons,
        ← Set.union_assoc, Set.union_comm (covered _)]

end PLive

structure PLives (δ : Type*) where
  trees : Option δ → RangeTree PLive
  heap : LiveHeap

structure LiveCall (δ : Type*) where
  dip : δ
  dt : UInt64
  ct : UInt64

namespace PLives

open Function PLive

variable {δ : Type*} [DecidableEq δ]

def empty : PLives δ := ⟨fun _ => .nil, ⟨[], 0⟩⟩

def addAt (rb : LiveRb) (fuel : ℕ) (st : PLives δ) (k : Option δ) (dt ct : UInt64) :
    Option (PLives δ) :=
  (pLiveAddTree rb fuel (st.trees k) st.heap dt ct).map fun added =>
    ⟨update st.trees k added.1, added.2⟩

def pLiveAdd (rb : LiveRb) (fuel : ℕ) (st : PLives δ) (call : LiveCall δ) : Option (PLives δ) :=
  (st.addAt rb fuel (some call.dip) call.dt call.ct).bind fun st =>
    st.addAt rb fuel none call.dt call.ct

def run (rb : LiveRb) (fuel : ℕ) (calls : List (LiveCall δ)) : Option (PLives δ) :=
  calls.foldlM (pLiveAdd rb fuel) empty

def coverOf (calls : List (LiveCall δ)) (k : Option δ) : Set ℝ :=
  {t | ∃ call ∈ calls, (k = none ∨ k = some call.dip) ∧ t ∈ span call.dt call.ct}

/-- The trees hold disjoint intervals that cover the given times, and the list holds their nodes, each
once. -/
structure Consistent (st : PLives δ) (cover : Option δ → Set ℝ) : Prop where
  apart : ∀ k, Apart (st.trees k).toList
  covered : ∀ k, covered (st.trees k).toList = cover k
  nodup : st.heap.allPLives.Nodup
  mem_iff : ∀ address, address ∈ st.heap.allPLives ↔ ∃ k, address ∈ addresses (st.trees k)
  once : ∀ k, (addresses (st.trees k)).Nodup
  own : ∀ k k' address, address ∈ addresses (st.trees k) → address ∈ addresses (st.trees k') → k = k'
  allocated : ∀ address ∈ st.heap.allPLives, address < st.heap.allocated

def others (st : PLives δ) (k : Option δ) (address : ℕ) : Prop :=
  ∃ k', k' ≠ k ∧ address ∈ addresses (st.trees k')

variable {st : PLives δ} {cover : Option δ → Set ℝ} {k : Option δ} {dt ct : UInt64} {fuel : ℕ}

theorem Consistent.tracked (h : st.Consistent cover) (k : Option δ) :
    Tracked (st.others k) (st.trees k) st.heap := by
  refine ⟨h.nodup, fun address => ?_, h.once k, ?_, h.allocated⟩
  · rw [h.mem_iff]
    constructor
    · rintro ⟨k', hin⟩
      by_cases hk : k' = k
      · exact .inr (hk ▸ hin)
      · exact .inl ⟨k', hk, hin⟩
    · rintro (⟨k', -, hin⟩ | hin)
      · exact ⟨k', hin⟩
      · exact ⟨k, hin⟩
  · rintro address hin ⟨k', hk, hin'⟩
    exact hk (h.own k' k address hin' hin)

theorem addAt_consistent (rb : LiveRb) (h : st.Consistent cover) (hle : dt ≤ ct)
    (hfuel : (st.trees k).toList.length < fuel) :
    ∃ st', st.addAt rb fuel k dt ct = some st' ∧
      st'.Consistent (update cover k (cover k ∪ span dt ct)) ∧
      (∀ k', k' ≠ k → st'.trees k' = st.trees k') ∧
      (st'.trees k).toList.length ≤ (st.trees k).toList.length + 1 := by
  obtain ⟨root, heap, hadd, hapart, hcovered, htracked, -, hlength⟩ :=
    pLiveAddTree_spec rb hle (h.apart k) (h.tracked k) hfuel
  obtain ⟨st', hst', hself, hother, rfl⟩ : ∃ st', st.addAt rb fuel k dt ct = some st' ∧
      st'.trees k = root ∧ (∀ k', k' ≠ k → st'.trees k' = st.trees k') ∧ heap = st'.heap := by
    refine ⟨⟨update st.trees k root, heap⟩, ?_, update_self k root st.trees,
      fun k' hk => update_of_ne hk root st.trees, rfl⟩
    rw [addAt, hadd]
    rfl
  refine ⟨st', hst', ⟨?_, ?_, htracked.nodup, ?_, ?_, ?_, htracked.allocated⟩, hother, ?_⟩
  · intro k'
    by_cases hk : k' = k
    · rwa [hk, hself]
    · rw [hother k' hk]
      exact h.apart k'
  · intro k'
    by_cases hk : k' = k
    · rw [hk, hself, update_self, hcovered, h.covered]
    · rw [hother k' hk, update_of_ne hk, h.covered]
  · intro address
    rw [htracked.mem_iff]
    constructor
    · rintro (⟨k', hk, hin⟩ | hin)
      · exact ⟨k', by rwa [hother k' hk]⟩
      · exact ⟨k, by rwa [hself]⟩
    · rintro ⟨k', hin⟩
      by_cases hk : k' = k
      · rw [hk, hself] at hin
        exact .inr hin
      · rw [hother k' hk] at hin
        exact .inl ⟨k', hk, hin⟩
  · intro k'
    by_cases hk : k' = k
    · rw [hk, hself]
      exact htracked.once
    · rw [hother k' hk]
      exact h.once k'
  · intro i j address hi hj
    by_cases hik : i = k
    · by_cases hjk : j = k
      · rw [hik, hjk]
      · rw [hik, hself] at hi
        rw [hother j hjk] at hj
        exact absurd ⟨j, hjk, hj⟩ (htracked.own address hi)
    · by_cases hjk : j = k
      · rw [hjk, hself] at hj
        rw [hother i hik] at hi
        exact absurd ⟨i, hik, hi⟩ (htracked.own address hj)
      · rw [hother i hik] at hi
        rw [hother j hjk] at hj
        exact h.own i j address hi hj
  · rwa [hself]

theorem coverOf_concat (calls : List (LiveCall δ)) (call : LiveCall δ) :
    coverOf (calls ++ [call]) =
      update (update (coverOf calls) (some call.dip)
          (coverOf calls (some call.dip) ∪ span call.dt call.ct))
        none (coverOf calls none ∪ span call.dt call.ct) := by
  funext k
  ext t
  have hsplit : t ∈ coverOf (calls ++ [call]) k ↔
      t ∈ coverOf calls k ∨ (k = none ∨ k = some call.dip) ∧ t ∈ span call.dt call.ct := by
    simp only [coverOf, Set.mem_ofPred_eq, List.mem_append, List.mem_singleton, or_and_right,
      exists_or, exists_eq_left]
  rw [hsplit]
  cases k with
  | none => simp only [update_self, Set.mem_union, true_or, true_and]
  | some d =>
    rw [update_of_ne (Option.some_ne_none d)]
    by_cases hd : d = call.dip
    · simp only [hd, update_self, Set.mem_union, or_true, true_and]
    · have hne : some d ≠ some call.dip := fun heq => hd (Option.some.inj heq)
      rw [update_of_ne hne]
      simp only [hne, reduceCtorEq, or_self, false_and, or_false]

theorem run_consistent (rb : LiveRb) (calls : List (LiveCall δ)) (h : ∀ call ∈ calls, call.dt ≤ call.ct)
    (hfuel : calls.length ≤ fuel) : ∃ st, run rb fuel calls = some st ∧
      st.Consistent (coverOf calls) ∧ ∀ k, (st.trees k).toList.length ≤ calls.length := by
  induction calls using List.reverseRecOn with
  | nil =>
    refine ⟨empty, rfl, ⟨fun k => ⟨.nil, List.forall_mem_nil _⟩, fun k => ?_, List.nodup_nil,
      fun address => ?_, fun k => List.nodup_nil, ?_, List.forall_mem_nil _⟩, fun k => le_rfl⟩
    · ext t
      exact iff_of_false (fun ⟨_, hin, _⟩ => List.not_mem_nil hin) fun ⟨_, hin, _⟩ =>
        List.not_mem_nil hin
    · exact iff_of_false List.not_mem_nil fun ⟨_, hin⟩ => List.not_mem_nil hin
    · exact fun _ _ _ hin => absurd hin List.not_mem_nil
  | append_singleton calls call ih =>
    rw [List.length_append, List.length_singleton] at hfuel
    rw [List.forall_mem_append] at h
    obtain ⟨st, hrun, hconsistent, hlength⟩ := ih h.1 (by omega)
    have hle := h.2 call List.mem_cons_self
    have hdip := hlength (some call.dip)
    have hall := hlength none
    obtain ⟨st', hadd, hconsistent', hother, hgrown⟩ :=
      @addAt_consistent _ _ _ _ (some call.dip) _ _ fuel rb hconsistent hle (by omega)
    have hnone : st'.trees none = st.trees none := hother none (Option.some_ne_none _).symm
    obtain ⟨st'', hadd', hconsistent'', hother', hgrown'⟩ :=
      @addAt_consistent _ _ _ _ none _ _ fuel rb hconsistent' hle (by rw [hnone]; omega)
    refine ⟨st'', ?_, ?_, fun k => ?_⟩
    · rw [run, List.foldlM_append, ← run, hrun]
      change (st.pLiveAdd rb fuel call).bind _ = _
      rw [pLiveAdd, hadd, Option.bind_some, hadd']
      rfl
    · rw [coverOf_concat]
      rwa [update_of_ne (Option.some_ne_none _).symm] at hconsistent''
    · rw [List.length_append, List.length_singleton]
      cases k with
      | none =>
        rw [hnone] at hgrown'
        omega
      | some d =>
        have hd := hlength (some d)
        rw [hother' _ (Option.some_ne_none d)]
        by_cases heq : some d = some call.dip
        · rw [heq]
          omega
        · rw [hother _ heq]
          omega

end PLives

/-- Over any sequence of calls the trees hold disjoint intervals which cover what was given, and the
list holds exactly their nodes. -/
theorem live_intervals_union {δ : Type*} [DecidableEq δ] (rb : LiveRb) (calls : List (LiveCall δ))
    (h : ∀ call ∈ calls, call.dt ≤ call.ct) (fuel : ℕ) (hfuel : calls.length ≤ fuel) :
    ∃ st, PLives.run rb fuel calls = some st ∧ st.Consistent (PLives.coverOf calls) := by
  obtain ⟨st, hrun, hconsistent, -⟩ := PLives.run_consistent rb calls h hfuel
  exact ⟨st, hrun, hconsistent⟩

def chained : LiveRb where
  color := id
  color_toList := fun _ => rfl
  erase := fun address t =>
    (t.toList.filter (·.address ≠ address)).foldr (fun plp right => .node .nil plp right) .nil
  erase_toList := by
    intro address t
    induction t.toList.filter (·.address ≠ address) with
    | nil => rfl
    | cons plp l ih =>
      rw [List.foldr_cons, toList_node, ih]
      rfl

theorem live_intervals_two :
    (∀ call ∈ ([⟨0, 10, 20⟩, ⟨0, 15, 30⟩] : List (LiveCall ℕ)), call.dt ≤ call.ct) ∧
      ∃ st, PLives.run chained 2 ([⟨0, 10, 20⟩, ⟨0, 15, 30⟩] : List (LiveCall ℕ)) = some st ∧
        st.Consistent (PLives.coverOf [⟨0, 10, 20⟩, ⟨0, 15, 30⟩]) :=
  ⟨by decide, live_intervals_union chained [⟨0, 10, 20⟩, ⟨0, 15, 30⟩] (by decide) 2 (by decide)⟩

end SBlktrace
