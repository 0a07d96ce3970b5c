import SBlktrace.FifoQueue

namespace FifoQueue

open Function

variable {ι ν : Type*} {next : ν → Option ν} {head : ι → Option ν} {lists : ι → List ν}

/-- Lists that share the nodes of one heap: each node is on one list at most, and once. -/
structure Chains (next : ν → Option ν) (head : ι → Option ν) (lists : ι → List ν) : Prop where
  chain : ∀ i, Chain next (head i) (lists i)
  nodup : ∀ i, (lists i).Nodup
  disjoint : ∀ i j, i ≠ j → (lists i).Disjoint (lists j)

def walk (next : ν → Option ν) (p : ν → Bool) : ℕ → Option ν → Option ν → Option (Option ν × ν)
  | 0, _, _ => none
  | _ + 1, _, none => none
  | fuel + 1, prev, some n => if p n then some (prev, n) else walk next p fuel (some n) (next n)

def collect (next : ν → Option ν) : ℕ → Option ν → List ν
  | 0, _ => []
  | _ + 1, none => []
  | fuel + 1, some n => n :: collect next fuel (next n)

theorem collect_eq {fuel : ℕ} {p : Option ν} {l : List ν} (hchain : Chain next p l)
    (hfuel : l.length < fuel) : collect next fuel p = l := by
  induction l generalizing fuel p with
  | nil =>
    rw [chain_nil] at hchain
    subst hchain
    cases fuel <;> rfl
  | cons n l ih =>
    obtain ⟨rfl, hchain⟩ := hchain
    obtain ⟨fuel, rfl⟩ := Nat.exists_eq_succ_of_ne_zero (Nat.ne_zero_of_lt hfuel)
    rw [collect, ih hchain (Nat.lt_of_succ_lt_succ hfuel)]

section Walk

variable {p : ν → Bool} {fuel : ℕ} {prev prev' cur : Option ν} {n : ν} {l : List ν}

theorem walk_none (hchain : Chain next cur l) (hfuel : l.length < fuel)
    (h : walk next p fuel prev cur = none) : ∀ n ∈ l, p n = false := by
  induction l generalizing fuel prev cur with
  | nil => exact List.forall_mem_nil _
  | cons n l ih =>
    obtain ⟨rfl, hchain⟩ := hchain
    obtain ⟨fuel, rfl⟩ := Nat.exists_eq_succ_of_ne_zero (Nat.ne_zero_of_lt hfuel)
    rw [walk] at h
    split at h
    · cases h
    · rename_i hn
      refine List.forall_mem_cons.mpr ⟨Bool.eq_false_of_not_eq_true hn, ?_⟩
      exact ih hchain (Nat.lt_of_succ_lt_succ hfuel) h

theorem walk_some (hchain : Chain next cur l) (h : walk next p fuel prev cur = some (prev', n)) :
    p n = true ∧ ∃ before after, l = before ++ n :: after ∧ prev' = before.getLast?.or prev := by
  induction l generalizing fuel prev cur with
  | nil =>
    rw [chain_nil] at hchain
    subst hchain
    cases fuel <;> cases h
  | cons m l ih =>
    obtain ⟨rfl, hchain⟩ := hchain
    cases fuel with
    | zero => cases h
    | succ fuel =>
      rw [walk] at h
      split at h
      · rename_i hm
        cases h
        exact ⟨hm, [], l, rfl, rfl⟩
      · obtain ⟨hn, before, after, rfl, rfl⟩ := ih hchain h
        refine ⟨hn, m :: before, after, rfl, ?_⟩
        rw [List.getLast?_cons]
        cases before.getLast? <;> rfl

end Walk

section Update

variable {i j : ι} {n q : ν} {l before after : List ν} {p : Option ν}

theorem Chains.erase_frame (h : Chains next head lists) (hlist : lists i = before ++ n :: after) :
    (∀ q ∈ before ++ after, ∀ j ≠ i, q ∉ lists j) ∧ (before ++ after).Nodup := by
  have hnodup := h.nodup i
  rw [hlist] at hnodup
  refine ⟨fun q hq j hne hj => h.disjoint j i hne hj ?_, (List.nodup_middle.mp hnodup).of_cons⟩
  rw [hlist]
  exact List.mem_append.mpr ((List.mem_append.mp hq).imp_right (List.mem_cons_of_mem n))

variable [DecidableEq ι]

theorem mem_update_push :
    q ∈ update lists i (n :: lists i) j ↔ q ∈ lists j ∨ (q = n ∧ j = i) := by
  obtain rfl | hne := eq_or_ne j i
  · rw [update_self, List.mem_cons, or_comm]
    simp
  · rw [update_of_ne hne]
    simp [hne]

theorem Chains.mem_update_erase (h : Chains next head lists)
    (hlist : lists i = before ++ n :: after) :
    q ∈ update lists i (before ++ after) j ↔ q ∈ lists j ∧ q ≠ n := by
  obtain rfl | hne := eq_or_ne j i
  · have hnodup := h.nodup j
    rw [hlist] at hnodup
    have hn := (List.nodup_middle.mp hnodup).notMem
    rw [update_self, hlist]
    simp only [List.mem_append, List.mem_cons] at hn ⊢
    grind
  · rw [update_of_ne hne]
    refine ⟨fun hq => ⟨hq, ?_⟩, And.left⟩
    rintro rfl
    exact h.disjoint j i hne hq (by simp [hlist])

theorem Chains.replace (h : Chains next head lists)
    (hnew : ∀ q ∈ l, ∀ j ≠ i, q ∉ lists j) (hnodup : l.Nodup) {next' : ν → Option ν}
    (hchain : Chain next' p l) (hframe : ∀ j ≠ i, ∀ q ∈ lists j, next' q = next q) :
    Chains next' (update head i p) (update lists i l) where
  chain j := by
    obtain rfl | hne := eq_or_ne j i
    · rw [update_self, update_self]
      exact hchain
    · rw [update_of_ne hne, update_of_ne hne]
      exact (h.chain j).congr (hframe j hne)
  nodup j := by
    obtain rfl | hne := eq_or_ne j i
    · rw [update_self]
      exact hnodup
    · rw [update_of_ne hne]
      exact h.nodup j
  disjoint j k hjk := by
    obtain rfl | hj := eq_or_ne j i
    · rw [update_self, update_of_ne hjk.symm]
      exact fun q hq hk => hnew q hq k hjk.symm hk
    obtain rfl | hk := eq_or_ne k i
    · rw [update_self, update_of_ne hjk]
      exact fun q hj hq => hnew q hq j hjk hj
    · rw [update_of_ne hj, update_of_ne hk]
      exact h.disjoint j k hjk

theorem Chains.pop (h : Chains next head lists) (hlist : lists i = n :: after) :
    Chains next (update head i (next n)) (update lists i after) := by
  have hsplit : lists i = [] ++ n :: after := hlist
  obtain ⟨hnew, hnodup⟩ := h.erase_frame hsplit
  have hchain := h.chain i
  rw [hlist] at hchain
  exact h.replace hnew hnodup hchain.2 fun _ _ _ _ => rfl

variable [DecidableEq ν]

theorem Chains.push (h : Chains next head lists) (hn : ∀ j, n ∉ lists j) :
    Chains (update next n (head i)) (update head i (some n)) (update lists i (n :: lists i)) := by
  have hframe : ∀ j, ∀ q ∈ lists j, update next n (head i) q = next q := by
    intro j q hq
    refine update_of_ne ?_ _ _
    rintro rfl
    exact hn j hq
  refine h.replace (fun q hq j hne hj => ?_) (List.nodup_cons.mpr ⟨hn i, h.nodup i⟩) ⟨rfl, ?_⟩
    fun j _ => hframe j
  · obtain rfl | hq := List.mem_cons.mp hq
    · exact hn j hj
    · exact h.disjoint j i hne hj hq
  · rw [update_self]
    exact (h.chain i).congr (hframe i)

theorem chain_bypass (hchain : Chain next p (before ++ q :: n :: after))
    (hnodup : (before ++ q :: n :: after).Nodup) :
    Chain (update next q (next n)) p (before ++ q :: after) := by
  induction before generalizing p with
  | nil =>
    obtain ⟨hp, hq, hafter⟩ := hchain
    refine ⟨hp, ?_⟩
    rw [update_self]
    have hmem := (List.nodup_cons.mp hnodup).1
    exact hafter.update (fun h => hmem (List.mem_cons_of_mem n h)) _
  | cons m before ih =>
    obtain ⟨hp, hchain⟩ := hchain
    obtain ⟨hm, hnodup⟩ := List.nodup_cons.mp hnodup
    refine ⟨hp, ?_⟩
    rw [update_of_ne]
    · exact ih hchain hnodup
    · rintro rfl
      exact hm (List.mem_append_right _ List.mem_cons_self)

theorem Chains.bypass (h : Chains next head lists) (hlist : lists i = before ++ q :: n :: after) :
    Chains (update next q (next n)) head (update lists i (before ++ q :: after)) := by
  have hlist' : lists i = (before ++ [q]) ++ n :: after := by simp [hlist]
  obtain ⟨hnew, hnodup⟩ := h.erase_frame hlist'
  rw [List.append_assoc, List.singleton_append] at hnew hnodup
  have hchain := h.chain i
  have hall := h.nodup i
  rw [hlist] at hchain hall
  have hreplace := h.replace hnew hnodup (chain_bypass hchain hall) fun j hne m hm => ?_
  · rwa [update_eq_self] at hreplace
  · refine update_of_ne ?_ _ _
    rintro rfl
    exact hnew m (List.mem_append_right _ List.mem_cons_self) j hne hm

theorem chain_append {t : ν} (hchain : Chain next p l) (hnodup : l.Nodup) (hlast : l.getLast? = some t)
    {q : Option ν} (hafter : Chain (update next t q) q after) :
    Chain (update next t q) p (l ++ after) := by
  induction l generalizing p with
  | nil => cases hlast
  | cons n l ih =>
    obtain ⟨hp, hchain⟩ := hchain
    obtain ⟨hn, hnodup⟩ := List.nodup_cons.mp hnodup
    refine ⟨hp, ?_⟩
    cases l with
    | nil =>
      obtain rfl : n = t := Option.some.inj hlast
      rw [update_self]
      exact hafter
    | cons m l =>
      have hlast' : (m :: l).getLast? = some t := hlast
      have hne : n ≠ t := by
        rintro rfl
        exact hn (List.mem_of_getLast? hlast')
      rw [update_of_ne hne]
      exact ih hchain hnodup hlast'

theorem Chains.append (h : Chains next head lists) (hn : ∀ j, n ∉ lists j) {t : ν}
    (hlast : (lists i).getLast? = some t) :
    Chains (update (update next t (some n)) n none) head (update lists i (lists i ++ [n])) := by
  have ht : t ∈ lists i := List.mem_of_getLast? hlast
  have htn : n ≠ t := by
    rintro rfl
    exact hn i ht
  have hchain : Chain (update (update next n none) t (some n)) (head i) (lists i ++ [n]) := by
    apply chain_append ((h.chain i).update (hn i) none) (h.nodup i) hlast
    rw [chain_cons, update_of_ne htn, update_self]
    exact ⟨rfl, rfl⟩
  rw [update_comm htn] at hchain
  have hframe : ∀ j ≠ i, ∀ q ∈ lists j, update (update next t (some n)) n none q = next q := by
    intro j hne q hq
    have hqn : q ≠ n := by
      rintro rfl
      exact hn j hq
    have hqt : q ≠ t := by
      rintro rfl
      exact h.disjoint j i hne hq ht
    rw [update_of_ne hqn, update_of_ne hqt]
  have hnew : ∀ q ∈ lists i ++ [n], ∀ j ≠ i, q ∉ lists j := by
    intro q hq j hne hj
    obtain hq | hq := List.mem_append.mp hq
    · exact h.disjoint j i hne hj hq
    · obtain rfl := List.mem_singleton.mp hq
      exact hn j hj
  have hnodup : (lists i ++ [n]).Nodup := by
    rw [List.nodup_append]
    refine ⟨h.nodup i, List.nodup_singleton n, ?_⟩
    rintro q hq m hm rfl
    obtain rfl := List.mem_singleton.mp hm
    exact hn i hq
  have hreplace := h.replace hnew hnodup hchain hframe
  rwa [update_eq_self] at hreplace

theorem Chains.prepend (h : Chains next head lists) (hij : i ≠ j) {t : ν}
    (hlast : (lists i).getLast? = some t) :
    Chains (update next t (head j)) (update (update head j (head i)) i none)
      (update (update lists j (lists i ++ lists j)) i []) := by
  have ht : t ∈ lists i := List.mem_of_getLast? hlast
  have hempty : Chains next (update head i none) (update lists i []) :=
    h.replace (by simp) List.nodup_nil rfl fun j _ q _ => rfl
  have hchain : Chain (update next t (head j)) (head i) (lists i ++ lists j) := by
    apply chain_append (h.chain i) (h.nodup i) hlast
    exact (h.chain j).update (fun hj => h.disjoint i j hij ht hj) _
  have hnew : ∀ q ∈ lists i ++ lists j, ∀ k ≠ j, q ∉ update lists i [] k := by
    intro q hq k hk
    obtain rfl | hki := eq_or_ne k i
    · rw [update_self]
      exact List.not_mem_nil
    · rw [update_of_ne hki]
      obtain hq | hq := List.mem_append.mp hq
      · exact h.disjoint i k hki.symm hq
      · exact h.disjoint j k hk.symm hq
  have hnodup : (lists i ++ lists j).Nodup :=
    (h.nodup i).append (h.nodup j) (h.disjoint i j hij)
  have hframe : ∀ k ≠ j, ∀ q ∈ update lists i [] k, update next t (head j) q = next q := by
    intro k _ q hq
    obtain rfl | hki := eq_or_ne k i
    · rw [update_self] at hq
      cases hq
    · rw [update_of_ne hki] at hq
      refine update_of_ne ?_ _ _
      rintro rfl
      exact h.disjoint i k hki.symm ht hq
  have hreplace := hempty.replace hnew hnodup hchain hframe
  rwa [update_comm hij, update_comm hij] at hreplace

end Update

end FifoQueue
