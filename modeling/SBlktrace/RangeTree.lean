import Mathlib

inductive RangeTree (ν : Type*) where
  | nil
  | node (left : RangeTree ν) (x : ν) (right : RangeTree ν)

namespace RangeTree

variable {ν κ : Type*}

def toList : RangeTree ν → List ν
  | nil => []
  | node left x right => left.toList ++ x :: right.toList

@[simp] theorem toList_nil : (nil : RangeTree ν).toList = [] := rfl

@[simp] theorem toList_node (left : RangeTree ν) (x : ν) (right : RangeTree ν) :
    (node left x right).toList = left.toList ++ x :: right.toList := rfl

def map (f : ν → ν) : RangeTree ν → RangeTree ν
  | nil => nil
  | node left x right => node (left.map f) (f x) (right.map f)

theorem toList_map (f : ν → ν) (t : RangeTree ν) : (t.map f).toList = t.toList.map f := by
  induction t with
  | nil => rfl
  | node left x right ihleft ihright =>
    rw [map, toList_node, ihleft, ihright, toList_node, List.map_append, List.map_cons]

def preOrder : RangeTree ν → List ν
  | nil => []
  | node left x right => x :: (left.preOrder ++ right.preOrder)

def postOrder : RangeTree ν → List ν
  | nil => []
  | node left x right => left.postOrder ++ (right.postOrder ++ [x])

theorem preOrder_perm (t : RangeTree ν) : t.preOrder.Perm t.toList := by
  induction t with
  | nil => exact .nil
  | node left x right ihleft ihright =>
    exact ((ihleft.append ihright).cons x).trans List.perm_middle.symm

theorem postOrder_perm (t : RangeTree ν) : t.postOrder.Perm t.toList := by
  induction t with
  | nil => exact .nil
  | node left x right ihleft ihright =>
    exact ihleft.append ((ihright.append_right [x]).trans (List.perm_append_singleton x _))

variable [LinearOrder κ] (start stop : ν → κ)

def insert (x : ν) : RangeTree ν → Option (RangeTree ν)
  | nil => some (node nil x nil)
  | node left y right =>
    if start x < start y then (insert x left).map fun left => node left y right
    else if start y < start x then (insert x right).map fun right => node left y right
    else none

def find (k : κ) : RangeTree ν → Option ν
  | nil => none
  | node left x right =>
    if k < start x then find k left else if stop x ≤ k then find k right else some x

def lookup (k : κ) : RangeTree ν → Option ν
  | nil => none
  | node left x right =>
    if k < start x then lookup k left else if start x < k then lookup k right else some x

def gather (s e : κ) : RangeTree ν → List ν
  | nil => []
  | node left x right =>
    (if s ≤ start x ∧ stop x ≤ e then [x] else []) ++
      (if s < start x then gather s e left else []) ++
      (if stop x < e then gather s e right else [])

variable {start stop}

def Nested (start stop : ν → κ) (x y : ν) : Prop :=
  (start x ≤ start y ∧ stop y ≤ stop x) ∨ (start y ≤ start x ∧ stop x ≤ stop y)

theorem nested_comm {x y : ν} : Nested start stop x y ↔ Nested start stop y x := or_comm

theorem lt_of_not_nested {x y : ν} (h : ¬ Nested start stop x y) (hlt : start x < start y) :
    stop x < stop y := by
  by_contra hstop
  exact h (.inl ⟨hlt.le, not_lt.mp hstop⟩)

def Ordered (start stop : ν → κ) (l : List ν) : Prop :=
  l.Pairwise fun x y => start x < start y ∧ stop x < stop y

variable {t t' left right : RangeTree ν} {x y q : ν} {s e k : κ}

theorem ordered_node (h : Ordered start stop (node left x right).toList) :
    Ordered start stop left.toList ∧ Ordered start stop right.toList ∧
      (∀ y ∈ left.toList, start y < start x ∧ stop y < stop x) ∧
      ∀ y ∈ right.toList, start x < start y ∧ stop x < stop y := by
  obtain ⟨hleft, hright, hcross⟩ := List.pairwise_append.mp h
  obtain ⟨hx, hright⟩ := List.pairwise_cons.mp hright
  exact ⟨hleft, hright, fun y hy => hcross y hy x List.mem_cons_self, hx⟩

theorem insert_split (h : Ordered start stop t.toList) (hnew : ∀ y ∈ t.toList, start x ≠ start y) :
    ∃ t' before after, t.insert start x = some t' ∧ t.toList = before ++ after ∧
      t'.toList = before ++ x :: after ∧ (∀ y ∈ before, start y < start x) ∧
      ∀ y ∈ after, start x < start y := by
  induction t with
  | nil => exact ⟨_, [], [], rfl, rfl, rfl, List.forall_mem_nil _, List.forall_mem_nil _⟩
  | node left y right ihleft ihright =>
    obtain ⟨hleft, hright, hltl, hltr⟩ := ordered_node h
    rw [toList_node, List.forall_mem_append, List.forall_mem_cons] at hnew
    obtain ⟨hnewl, hy, hnewr⟩ := hnew
    obtain hlt | hlt := lt_or_gt_of_ne hy
    · obtain ⟨t', before, after, hinsert, hlist, hlist', hbefore, hafter⟩ := ihleft hleft hnewl
      refine ⟨node t' y right, before, after ++ y :: right.toList, ?_, ?_, ?_, hbefore, ?_⟩
      · rw [RangeTree.insert, if_pos hlt, hinsert]
        rfl
      · rw [toList_node, hlist, List.append_assoc]
      · rw [toList_node, hlist', List.append_assoc, List.cons_append]
      · rw [List.forall_mem_append, List.forall_mem_cons]
        exact ⟨hafter, hlt, fun z hz => hlt.trans (hltr z hz).1⟩
    · obtain ⟨t', before, after, hinsert, hlist, hlist', hbefore, hafter⟩ := ihright hright hnewr
      refine ⟨node left y t', left.toList ++ y :: before, after, ?_, ?_, ?_, ?_, hafter⟩
      · rw [RangeTree.insert, if_neg hlt.not_gt, if_pos hlt, hinsert]
        rfl
      · rw [toList_node, hlist, List.append_assoc, List.cons_append]
      · rw [toList_node, hlist', List.append_assoc, List.cons_append]
      · rw [List.forall_mem_append, List.forall_mem_cons]
        exact ⟨fun z hz => (hltl z hz).1.trans hlt, hlt, hbefore⟩

theorem pairwise_around {r : ν → ν → Prop} {before after : List ν} (h : (before ++ after).Pairwise r)
    (hbefore : ∀ y ∈ before, r y x) (hafter : ∀ y ∈ after, r x y) :
    (before ++ x :: after).Pairwise r := by
  obtain ⟨hb, ha, hcross⟩ := List.pairwise_append.mp h
  refine List.pairwise_append.mpr ⟨hb, List.pairwise_cons.mpr ⟨hafter, ha⟩, fun y hy z hz => ?_⟩
  obtain rfl | hz := List.mem_cons.mp hz
  · exact hbefore y hy
  · exact hcross y hy z hz

theorem insert_ordered (h : Ordered start stop t.toList)
    (hnew : ∀ y ∈ t.toList, ¬ Nested start stop x y) :
    ∃ t', t.insert start x = some t' ∧ t'.toList.Perm (x :: t.toList) ∧
      Ordered start stop t'.toList := by
  have hne : ∀ y ∈ t.toList, start x ≠ start y := by
    intro y hy heq
    obtain hle | hle := le_total (stop x) (stop y)
    · exact hnew y hy (.inr ⟨heq.ge, hle⟩)
    · exact hnew y hy (.inl ⟨heq.le, hle⟩)
  obtain ⟨t', before, after, hinsert, hlist, hlist', hbefore, hafter⟩ := insert_split h hne
  rw [hlist, List.forall_mem_append] at hnew
  rw [hlist] at h
  refine ⟨t', hinsert, ?_, ?_⟩
  · rw [hlist, hlist']
    exact List.perm_middle
  · rw [hlist']
    apply pairwise_around h
    · intro y hy
      have hnested : ¬ Nested start stop y x := fun hn => hnew.1 y hy (nested_comm.mp hn)
      exact ⟨hbefore y hy, lt_of_not_nested hnested (hbefore y hy)⟩
    · exact fun y hy => ⟨hafter y hy, lt_of_not_nested (hnew.2 y hy) (hafter y hy)⟩

theorem gather_self (h : Ordered start stop t.toList) (hq : q ∈ t.toList) :
    t.gather start stop (start q) (stop q) = [q] := by
  induction t with
  | nil => cases hq
  | node left x right ihleft ihright =>
    obtain ⟨hleft, hright, hltl, hltr⟩ := ordered_node h
    rw [gather]
    rw [toList_node, List.mem_append, List.mem_cons] at hq
    obtain hq | rfl | hq := hq
    · obtain ⟨hstart, hstop⟩ := hltl q hq
      rw [if_neg (fun hin => hstop.not_ge hin.2), if_pos hstart, if_neg hstop.not_gt,
        ihleft hleft hq]
      rfl
    · rw [if_pos ⟨le_rfl, le_rfl⟩, if_neg (lt_irrefl _), if_neg (lt_irrefl _)]
      rfl
    · obtain ⟨hstart, hstop⟩ := hltr q hq
      rw [if_neg (fun hin => hstart.not_ge hin.1), if_neg hstart.not_gt, if_pos hstop,
        ihright hright hq]
      rfl

theorem find_mem (h : t.find start stop k = some q) : q ∈ t.toList := by
  induction t with
  | nil => cases h
  | node left x right ihleft ihright =>
    rw [find] at h
    rw [toList_node, List.mem_append, List.mem_cons]
    split_ifs at h
    · exact .inl (ihleft h)
    · exact .inr (.inr (ihright h))
    · exact .inr (.inl (Option.some.inj h).symm)

theorem Ordered.nodup {l : List ν} (h : Ordered start stop l) : (l.map start).Nodup := by
  apply List.pairwise_map.mpr
  apply h.imp
  rintro x y ⟨hlt, -⟩
  exact hlt.ne

theorem Ordered.eq_of_start {l : List ν} (h : Ordered start stop l) (hx : x ∈ l) (hy : y ∈ l)
    (heq : start x = start y) : x = y :=
  List.inj_on_of_nodup_map h.nodup hx hy heq

theorem find_contains (h : t.find start stop k = some q) : start q ≤ k ∧ k < stop q := by
  induction t with
  | nil => cases h
  | node left x right ihleft ihright =>
    rw [find] at h
    split_ifs at h with hstart hstop
    · exact ihleft h
    · exact ihright h
    · obtain rfl := Option.some.inj h
      exact ⟨not_lt.mp hstart, not_le.mp hstop⟩

theorem find_of_mem (h : Ordered start stop t.toList) (hq : q ∈ t.toList) (hstart : start q ≤ k)
    (hstop : k < stop q) (hclear : ∀ y ∈ t.toList, y ≠ q → stop y ≤ start q ∨ stop q ≤ start y) :
    t.find start stop k = some q := by
  induction t with
  | nil => cases hq
  | node left x right ihleft ihright =>
    obtain ⟨hleft, hright, hltl, hltr⟩ := ordered_node h
    rw [toList_node, List.forall_mem_append, List.forall_mem_cons] at hclear
    obtain ⟨hcleft, hcx, hcright⟩ := hclear
    rw [find]
    rw [toList_node, List.mem_append, List.mem_cons] at hq
    obtain hq | rfl | hq := hq
    · obtain hx | hx := hcx fun heq => (hltl q hq).1.ne (by rw [heq])
      · exact absurd ((hltl q hq).2.trans_le (hx.trans (hstart.trans hstop.le))) (lt_irrefl _)
      · rw [if_pos (hstop.trans_le hx)]
        exact ihleft hleft hq hcleft
    · rw [if_neg (not_lt.mpr hstart), if_neg (not_le.mpr hstop)]
    · have hx : stop x ≤ start q := by
        obtain hx | hx := hcx fun heq => (hltr q hq).1.ne (by rw [heq])
        · exact hx
        · exact absurd ((hstart.trans_lt hstop).trans_le hx) (hltr q hq).1.not_gt
      rw [if_neg (not_lt.mpr ((hltr q hq).1.le.trans hstart)), if_pos (hx.trans hstart)]
      exact ihright hright hq hcright

theorem insert_of_mem (h : Ordered start stop t.toList) (hy : y ∈ t.toList)
    (heq : start x = start y) : t.insert start x = none := by
  induction t with
  | nil => cases hy
  | node left z right ihleft ihright =>
    obtain ⟨hleft, hright, hltl, hltr⟩ := ordered_node h
    rw [RangeTree.insert]
    rw [toList_node, List.mem_append, List.mem_cons] at hy
    obtain hy | rfl | hy := hy
    · rw [if_pos (heq.trans_lt (hltl y hy).1), ihleft hleft hy]
      rfl
    · rw [heq, if_neg (lt_irrefl _), if_neg (lt_irrefl _)]
    · have hlt := (hltr y hy).1.trans_eq heq.symm
      rw [if_neg hlt.not_gt, if_pos hlt, ihright hright hy]
      rfl

/-- What a rebalancing makes of trees: the order of the nodes is that of before. -/
structure Rebalance (ν : Type*) where
  color : RangeTree ν → RangeTree ν
  color_toList : ∀ t, (color t).toList = t.toList

section Overlap

def Sorted (start : ν → κ) (l : List ν) : Prop := l.Pairwise fun x y => start x < start y

theorem sorted_node (h : Sorted start (node left x right).toList) :
    Sorted start left.toList ∧ Sorted start right.toList ∧ (∀ y ∈ left.toList, start y < start x) ∧
      (∀ y ∈ right.toList, start x < start y) ∧
      ∀ y ∈ left.toList, ∀ z ∈ right.toList, start y < start z := by
  obtain ⟨hleft, hright, hcross⟩ := List.pairwise_append.mp h
  obtain ⟨hx, hright⟩ := List.pairwise_cons.mp hright
  exact ⟨hleft, hright, fun y hy => hcross y hy x List.mem_cons_self, hx,
    fun y hy z hz => hcross y hy z (List.mem_cons_of_mem x hz)⟩

theorem Sorted.nodup {l : List ν} (h : Sorted start l) : l.Nodup :=
  h.imp fun hlt heq => hlt.ne (congrArg start heq)

theorem insert_sorted (h : Sorted start t.toList) (hnew : ∀ y ∈ t.toList, start x ≠ start y) :
    ∃ t', t.insert start x = some t' ∧ t'.toList.Perm (x :: t.toList) ∧ Sorted start t'.toList := by
  have hself : Ordered start start t.toList := h.imp fun hlt => ⟨hlt, hlt⟩
  obtain ⟨t', before, after, hinsert, hlist, hlist', hbefore, hafter⟩ := insert_split hself hnew
  refine ⟨t', hinsert, ?_, ?_⟩
  · rw [hlist, hlist']
    exact List.perm_middle
  · rw [hlist']
    rw [hlist] at h
    exact pairwise_around h hbefore hafter

theorem insert_sorted_of_mem (h : Sorted start t.toList) (hy : y ∈ t.toList) (heq : start x = start y) :
    t.insert start x = none := by
  have hself : Ordered start start t.toList := h.imp fun hlt => ⟨hlt, hlt⟩
  exact insert_of_mem hself hy heq

theorem lookup_mem (h : t.lookup start k = some x) : x ∈ t.toList ∧ start x = k := by
  induction t with
  | nil => cases h
  | node left y right ihleft ihright =>
    rw [lookup] at h
    rw [toList_node, List.mem_append, List.mem_cons]
    split_ifs at h with hlt hgt
    · exact ⟨.inl (ihleft h).1, (ihleft h).2⟩
    · exact ⟨.inr (.inr (ihright h).1), (ihright h).2⟩
    · obtain rfl := Option.some.inj h
      exact ⟨.inr (.inl rfl), le_antisymm (not_lt.mp hlt) (not_lt.mp hgt)⟩

theorem lookup_of_mem (h : Sorted start t.toList) (hx : x ∈ t.toList) :
    t.lookup start (start x) = some x := by
  induction t with
  | nil => cases hx
  | node left y right ihleft ihright =>
    obtain ⟨hleft, hright, hltl, hltr, -⟩ := sorted_node h
    rw [lookup]
    rw [toList_node, List.mem_append, List.mem_cons] at hx
    obtain hx | rfl | hx := hx
    · rw [if_pos (hltl x hx)]
      exact ihleft hleft hx
    · rw [if_neg (lt_irrefl _), if_neg (lt_irrefl _)]
    · rw [if_neg (hltr x hx).not_gt, if_pos (hltr x hx)]
      exact ihright hright hx

theorem lookup_eq_some_iff (h : Sorted start t.toList) :
    t.lookup start k = some x ↔ x ∈ t.toList ∧ start x = k := by
  constructor
  · exact lookup_mem
  · rintro ⟨hx, rfl⟩
    exact lookup_of_mem h hx

def LeftOfStopped (start stop : ν → κ) (k : κ) (y : ν) : RangeTree ν → Prop
  | nil => False
  | node left x right =>
    (y ∈ left.toList ∧ start x ≤ k ∧ stop x ≤ k) ∨ left.LeftOfStopped start stop k y ∨
      right.LeftOfStopped start stop k y

def RightOfLonger (stop : ν → κ) (e : κ) (y : ν) : RangeTree ν → Prop
  | nil => False
  | node left x right =>
    (y ∈ right.toList ∧ e ≤ stop x) ∨ left.RightOfLonger stop e y ∨ right.RightOfLonger stop e y

theorem LeftOfStopped.mem (h : t.LeftOfStopped start stop k y) : y ∈ t.toList := by
  induction t with
  | nil => cases h
  | node left x right ihleft ihright =>
    rw [toList_node, List.mem_append, List.mem_cons]
    obtain ⟨hy, -⟩ | h | h := h
    · exact .inl hy
    · exact .inl (ihleft h)
    · exact .inr (.inr (ihright h))

theorem RightOfLonger.mem (h : t.RightOfLonger stop e y) : y ∈ t.toList := by
  induction t with
  | nil => cases h
  | node left x right ihleft ihright =>
    rw [toList_node, List.mem_append, List.mem_cons]
    obtain ⟨hy, -⟩ | h | h := h
    · exact .inr (.inr hy)
    · exact .inl (ihleft h)
    · exact .inr (.inr (ihright h))

theorem RightOfLonger.mono (hle : k ≤ e) (h : t.RightOfLonger stop e y) : t.RightOfLonger stop k y := by
  induction t with
  | nil => exact h
  | node left x right ihleft ihright =>
    obtain ⟨hy, hx⟩ | h | h := h
    · exact .inl ⟨hy, hle.trans hx⟩
    · exact .inr (.inl (ihleft h))
    · exact .inr (.inr (ihright h))

theorem find_isSome_iff (h : Sorted start t.toList) :
    (t.find start stop k).isSome = true ↔
      ∃ q ∈ t.toList, start q ≤ k ∧ k < stop q ∧ ¬ t.LeftOfStopped start stop k q := by
  induction t with
  | nil => exact iff_of_false (fun hfind => by cases hfind) fun ⟨q, hq, _⟩ => by cases hq
  | node left x right ihleft ihright =>
    obtain ⟨hleft, hright, hltl, hltr, hcross⟩ := sorted_node h
    rw [find]
    by_cases hstart : k < start x
    · rw [if_pos hstart, ihleft hleft]
      constructor
      · rintro ⟨q, hq, hle, hlt, hnot⟩
        refine ⟨q, List.mem_append_left _ hq, hle, hlt, ?_⟩
        rintro (⟨-, hx, -⟩ | hin | hin)
        · exact absurd hx (not_le.mpr hstart)
        · exact hnot hin
        · exact absurd (hcross q hq q hin.mem) (lt_irrefl _)
      · rintro ⟨q, hq, hle, hlt, hnot⟩
        rw [toList_node, List.mem_append, List.mem_cons] at hq
        obtain hq | rfl | hq := hq
        · exact ⟨q, hq, hle, hlt, fun hin => hnot (.inr (.inl hin))⟩
        · exact absurd hle (not_le.mpr hstart)
        · exact absurd ((hltr q hq).trans_le hle) hstart.not_gt
    rw [if_neg hstart]
    rw [not_lt] at hstart
    by_cases hstop : stop x ≤ k
    · rw [if_pos hstop, ihright hright]
      constructor
      · rintro ⟨q, hq, hle, hlt, hnot⟩
        refine ⟨q, List.mem_append_right _ (List.mem_cons_of_mem _ hq), hle, hlt, ?_⟩
        rintro (⟨hin, -⟩ | hin | hin)
        · exact absurd (hcross q hin q hq) (lt_irrefl _)
        · exact absurd (hcross q hin.mem q hq) (lt_irrefl _)
        · exact hnot hin
      · rintro ⟨q, hq, hle, hlt, hnot⟩
        rw [toList_node, List.mem_append, List.mem_cons] at hq
        obtain hq | rfl | hq := hq
        · exact absurd (.inl ⟨hq, hstart, hstop⟩) hnot
        · exact absurd hlt (not_lt.mpr hstop)
        · exact ⟨q, hq, hle, hlt, fun hin => hnot (.inr (.inr hin))⟩
    · rw [if_neg hstop]
      rw [not_le] at hstop
      refine iff_of_true rfl ⟨x, List.mem_append_right _ List.mem_cons_self, hstart, hstop, ?_⟩
      rintro (⟨hin, -⟩ | hin | hin)
      · exact absurd (hltl x hin) (lt_irrefl _)
      · exact absurd (hltl x hin.mem) (lt_irrefl _)
      · exact absurd (hltr x hin.mem) (lt_irrefl _)

theorem mem_gather_iff (h : Sorted start t.toList) :
    y ∈ t.gather start stop s e ↔
      y ∈ t.toList ∧ s ≤ start y ∧ stop y ≤ e ∧ ¬ t.RightOfLonger stop e y := by
  induction t with
  | nil => exact iff_of_false List.not_mem_nil fun hy => List.not_mem_nil hy.1
  | node left x right ihleft ihright =>
    obtain ⟨hleft, hright, hltl, hltr, hcross⟩ := sorted_node h
    have hhere : y ∈ (if s ≤ start x ∧ stop x ≤ e then [x] else []) ↔
        y = x ∧ s ≤ start x ∧ stop x ≤ e := by
      split_ifs with hin
      · exact List.mem_singleton.trans (and_iff_left hin).symm
      · exact iff_of_false List.not_mem_nil fun hy => hin hy.2
    have hbelow (t : RangeTree ν) (P : Prop) [Decidable P] :
        y ∈ (if P then t.gather start stop s e else []) ↔ P ∧ y ∈ t.gather start stop s e := by
      split_ifs with hP
      · exact (and_iff_right hP).symm
      · exact iff_of_false List.not_mem_nil fun hy => hP hy.1
    rw [gather, List.mem_append, List.mem_append, hhere, hbelow, hbelow, ihleft hleft, ihright hright,
      toList_node, List.mem_append, List.mem_cons]
    constructor
    · rintro ((⟨rfl, hs, he⟩ | ⟨-, hy, hs, he, hnot⟩) | ⟨hx, hy, hs, he, hnot⟩)
      · refine ⟨.inr (.inl rfl), hs, he, ?_⟩
        rintro (⟨hin, -⟩ | hin | hin)
        · exact absurd (hltr y hin) (lt_irrefl _)
        · exact absurd (hltl y hin.mem) (lt_irrefl _)
        · exact absurd (hltr y hin.mem) (lt_irrefl _)
      · refine ⟨.inl hy, hs, he, ?_⟩
        rintro (⟨hin, -⟩ | hin | hin)
        · exact absurd (hcross y hy y hin) (lt_irrefl _)
        · exact hnot hin
        · exact absurd (hcross y hy y hin.mem) (lt_irrefl _)
      · refine ⟨.inr (.inr hy), hs, he, ?_⟩
        rintro (⟨-, hle⟩ | hin | hin)
        · exact absurd hx (not_lt.mpr hle)
        · exact absurd (hcross y hin.mem y hy) (lt_irrefl _)
        · exact hnot hin
    · rintro ⟨hy | rfl | hy, hs, he, hnot⟩
      · exact .inl (.inr ⟨hs.trans_lt (hltl y hy), hy, hs, he, fun hin => hnot (.inr (.inl hin))⟩)
      · exact .inl (.inl ⟨rfl, hs, he⟩)
      · exact .inr ⟨not_le.mp fun hle => hnot (.inl ⟨hy, hle⟩), hy, hs, he,
          fun hin => hnot (.inr (.inr hin))⟩

theorem gather_subperm : (t.gather start stop s e).Subperm t.toList := by
  induction t with
  | nil => exact List.Subperm.refl _
  | node left x right ihleft ihright =>
    have hhere : (if s ≤ start x ∧ stop x ≤ e then [x] else []).Subperm [x] := by
      split_ifs
      · exact List.Subperm.refl _
      · exact List.nil_subperm
    have hbelow (t : RangeTree ν) (P : Prop) [Decidable P]
        (ih : (t.gather start stop s e).Subperm t.toList) :
        (if P then t.gather start stop s e else []).Subperm t.toList := by
      split_ifs
      · exact ih
      · exact List.nil_subperm
    have hall := (hhere.append (hbelow left (s < start x) ihleft)).append (hbelow right (stop x < e) ihright)
    rw [gather]
    exact hall.trans (@List.perm_middle _ x _ _).symm.subperm

theorem gather_nodup (h : Sorted start t.toList) : (t.gather start stop s e).Nodup := by
  obtain ⟨l, hperm, hsub⟩ := @gather_subperm _ _ _ start stop t s e
  exact hperm.nodup_iff.mp (h.nodup.sublist hsub)

end Overlap

end RangeTree
