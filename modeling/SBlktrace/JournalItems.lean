import SBlktrace.LinkedChains
import SBlktrace.JournalHistory
import Mathlib

namespace SBlktrace

open Function FifoQueue

/-- The journal items, by their places in `journal_items`, and the lists they are on. -/
structure ItemPool where
  next : ℕ → Option ℕ
  item : ℕ → JournalItem
  freeJournalItems : Option ℕ
  head : ℕ → Option ℕ
  tail : ℕ → Option ℕ

def initItems (calloc : JournalItem) : ItemPool where
  next n := if n + 1 < freeJournalItem then some (n + 1) else none
  item _ := calloc
  freeJournalItems := some 0
  head _ := none
  tail _ := none

namespace ItemPool

/-- `head[i] = tail[i] = free_journal_items`, or the first free item after `tail[i]`. -/
def linkTail (p : ItemPool) (i n : ℕ) : ItemPool :=
  match p.head i with
  | none => { p with head := update p.head i (some n), tail := update p.tail i (some n) }
  | some _ =>
    { p with
      next := match p.tail i with
        | none => p.next
        | some t => update p.next t (some n)
      tail := update p.tail i (some n) }

def append (p : ItemPool) (i : ℕ) (item : JournalItem) : Option ItemPool :=
  match p.freeJournalItems with
  | none => none
  | some n =>
    let p := p.linkTail i n
    some { p with
      freeJournalItems := p.next n
      next := update p.next n none
      item := update p.item n item }

def splice (p : ItemPool) (i : ℕ) : ItemPool :=
  match p.tail i with
  | none => { p with head := update p.head i none, tail := update p.tail i none }
  | some t =>
    { p with
      next := update p.next t p.freeJournalItems
      freeJournalItems := p.head i
      head := update p.head i none
      tail := update p.tail i none }

def queued (p : ItemPool) (i : ℕ) : List JournalItem :=
  (collect p.next (freeJournalItem + 1) (p.head i)).map p.item

def free (p : ItemPool) : List ℕ := collect p.next (freeJournalItem + 1) p.freeJournalItems

def heads (p : ItemPool) : Option ℕ → Option ℕ
  | none => p.freeJournalItems
  | some i => p.head i

structure Conserved (p : ItemPool) (lists : Option ℕ → List ℕ) : Prop where
  chains : Chains p.next p.heads lists
  tail : ∀ i, p.tail i = (lists (some i)).getLast?
  all : ∀ n, n < freeJournalItem ↔ ∃ k, n ∈ lists k

section Conserved

variable {p p' : ItemPool} {lists : Option ℕ → List ℕ} {i : ℕ} {item : JournalItem}

theorem Conserved.length_lt (h : p.Conserved lists) (k : Option ℕ) :
    (lists k).length < freeJournalItem + 1 := by
  have hsub : lists k ⊆ List.range freeJournalItem :=
    fun n hn => List.mem_range.mpr ((h.all n).mpr ⟨k, hn⟩)
  have hle := ((h.chains.nodup k).subperm hsub).length_le
  rw [List.length_range] at hle
  omega

theorem Conserved.collect (h : p.Conserved lists) (k : Option ℕ) :
    collect p.next (freeJournalItem + 1) (p.heads k) = lists k :=
  collect_eq (h.chains.chain k) (h.length_lt k)

theorem Conserved.free (h : p.Conserved lists) : p.free = lists none := h.collect none

theorem Conserved.queued (h : p.Conserved lists) (i : ℕ) :
    p.queued i = (lists (some i)).map p.item := by
  rw [ItemPool.queued, ← h.collect (some i)]
  rfl

theorem chain_range (calloc : JournalItem) (n m : ℕ) (hm : n + m = freeJournalItem) :
    Chain (initItems calloc).next (if 0 < m then some n else none) (List.range' n m) := by
  induction m generalizing n with
  | zero => rfl
  | succ m ih =>
    rw [if_pos (Nat.succ_pos m), List.range'_succ]
    refine ⟨rfl, ?_⟩
    have hrest := ih (n + 1) (by omega)
    have hnext : (initItems calloc).next n = if 0 < m then some (n + 1) else none := by
      by_cases hlast : 0 < m
      · rw [if_pos hlast]
        exact if_pos (by omega)
      · rw [if_neg hlast]
        exact if_neg (by omega)
    rwa [hnext]

def initLists : Option ℕ → List ℕ
  | none => List.range freeJournalItem
  | some _ => []

theorem conserved_initItems (calloc : JournalItem) : (initItems calloc).Conserved initLists where
  chains := {
    chain := by
      intro k
      cases k with
      | none =>
        have hchain := chain_range calloc 0 freeJournalItem (Nat.zero_add _)
        have hpos : 0 < freeJournalItem := by decide
        rw [if_pos hpos] at hchain
        rw [initLists, List.range_eq_range']
        exact hchain
      | some i => rfl
    nodup := by
      intro k
      cases k with
      | none => exact List.nodup_range
      | some i => exact List.nodup_nil
    disjoint := by
      intro k l hkl n hn hn'
      cases k with
      | none =>
        cases l with
        | none => exact hkl rfl
        | some i => cases hn'
      | some i => cases hn }
  tail i := rfl
  all n := by
    constructor
    · intro hn
      exact ⟨none, List.mem_range.mpr hn⟩
    · rintro ⟨k, hk⟩
      cases k with
      | none => exact List.mem_range.mp hk
      | some i => cases hk

theorem update_heads {q : Option ℕ} (j : ℕ) (r : Option ℕ) :
    update (update p.heads none q) (some i) r (some j) = update p.head i r j := by
  by_cases hji : j = i
  · subst hji
    rw [update_self, update_self]
  · have hsome : some j ≠ some i := fun h => hji (Option.some.inj h)
    rw [update_of_ne hsome, update_of_ne (by simp), update_of_ne hji]
    rfl

theorem Conserved.append_none (h : p.Conserved lists) (hfree : lists none = []) :
    p.append i item = none := by
  have hchain := h.chains.chain none
  rw [hfree] at hchain
  have hnone : p.freeJournalItems = none := hchain
  rw [append, hnone]

def appended (lists : Option ℕ → List ℕ) (i n : ℕ) (rest : List ℕ) : Option ℕ → List ℕ :=
  update (update lists none rest) (some i) (lists (some i) ++ [n])

theorem mem_appended {n m : ℕ} {rest : List ℕ} (hfree : lists none = n :: rest) :
    (∃ k, m ∈ appended lists i n rest k) ↔ ∃ k, m ∈ lists k := by
  have hself : appended lists i n rest (some i) = lists (some i) ++ [n] := update_self _ _ _
  have hnone : appended lists i n rest none = rest := by
    rw [appended, update_of_ne (by simp), update_self]
  have hother : ∀ k, k ≠ none → k ≠ some i → appended lists i n rest k = lists k := by
    intro k hk hki
    rw [appended, update_of_ne hki, update_of_ne hk]
  constructor
  · rintro ⟨k, hk⟩
    by_cases hki : k = some i
    · rw [hki, hself, List.mem_append] at hk
      obtain hk | hk := hk
      · exact ⟨some i, hk⟩
      · refine ⟨none, ?_⟩
        rw [List.mem_singleton.mp hk, hfree]
        exact List.mem_cons_self
    by_cases hkn : k = none
    · rw [hkn, hnone] at hk
      refine ⟨none, ?_⟩
      rw [hfree]
      exact List.mem_cons_of_mem n hk
    · rw [hother k hkn hki] at hk
      exact ⟨k, hk⟩
  · rintro ⟨k, hk⟩
    by_cases hki : k = some i
    · refine ⟨some i, ?_⟩
      rw [hself, ← hki]
      exact List.mem_append_left _ hk
    by_cases hkn : k = none
    · rw [hkn, hfree] at hk
      obtain rfl | hk := List.mem_cons.mp hk
      · refine ⟨some i, ?_⟩
        rw [hself]
        exact List.mem_append_right _ (List.mem_singleton.mpr rfl)
      · refine ⟨none, ?_⟩
        rwa [hnone]
    · refine ⟨k, ?_⟩
      rwa [hother k hkn hki]

theorem Conserved.append_some (h : p.Conserved lists) {n : ℕ} {rest : List ℕ}
    (hfree : lists none = n :: rest) : ∃ p', p.append i item = some p' ∧
      p'.Conserved (appended lists i n rest) ∧ p'.item = update p.item n item := by
  have hchain := h.chains.chain none
  rw [hfree] at hchain
  have hfirst : p.freeJournalItems = some n := hchain.1
  have hpop := h.chains.pop hfree
  have hn : ∀ k, n ∉ update lists none rest k := by
    intro k hk
    have hpopped := (@Chains.mem_update_erase _ _ _ _ _ none k n n [] rest _ h.chains hfree).mp hk
    exact hpopped.2 rfl
  have hi : update lists none rest (some i) = lists (some i) := update_of_ne (by simp) _ _
  have htails : ∀ j, update p.tail i (some n) j = (appended lists i n rest (some j)).getLast? := by
    intro j
    by_cases hji : j = i
    · rw [hji, update_self, appended, update_self, List.getLast?_append]
      rfl
    · have hsome : some j ≠ some i := fun h => hji (Option.some.inj h)
      rw [update_of_ne hji, appended, update_of_ne hsome, update_of_ne (by simp)]
      exact h.tail j
  rw [append, hfirst]
  refine ⟨_, rfl, ?_⟩
  unfold linkTail
  cases hhead : p.head i with
  | none =>
    have hempty : lists (some i) = [] := by
      have hi := h.chains.chain (some i)
      rw [heads, hhead] at hi
      exact chain_none hi
    refine ⟨⟨?_, htails, fun m => (h.all m).trans (mem_appended hfree).symm⟩, rfl⟩
    have hpush := hpop.push (i := some i) hn
    rw [update_of_ne (by simp), heads, hhead, hi, hempty] at hpush
    rw [appended, hempty]
    refine cast (congrArg (Chains _ · _) ?_) hpush
    funext k
    cases k with
    | none => rfl
    | some j => exact update_heads j (some n)
  | some m =>
    have hchain := h.chains.chain (some i)
    rw [heads, hhead] at hchain
    obtain ⟨l, hl, -⟩ := chain_some hchain
    obtain ⟨t, ht⟩ : ∃ t, (lists (some i)).getLast? = some t := by
      rw [hl]
      exact ⟨_, List.getLast?_cons⟩
    have htail := (h.tail i).trans ht
    have htn : n ≠ t := by
      rintro rfl
      have hmem := List.mem_of_getLast? ht
      rw [← hi] at hmem
      exact hn _ hmem
    have hlast : (update lists none rest (some i)).getLast? = some t := by
      rw [hi]
      exact ht
    have happend := hpop.append (i := some i) hn hlast
    rw [hi] at happend
    rw [htail]
    refine ⟨⟨?_, htails, fun m => (h.all m).trans (mem_appended hfree).symm⟩, rfl⟩
    refine cast (congrArg (Chains _ · _) ?_) happend
    funext k
    cases k with
    | none => exact (update_of_ne htn (some n) p.next).symm
    | some j => exact update_of_ne (by simp) _ _

def spliced (lists : Option ℕ → List ℕ) (i : ℕ) : Option ℕ → List ℕ :=
  update (update lists none (lists (some i) ++ lists none)) (some i) []

theorem mem_spliced {m : ℕ} : (∃ k, m ∈ spliced lists i k) ↔ ∃ k, m ∈ lists k := by
  have hself : spliced lists i (some i) = [] := update_self _ _ _
  have hnone : spliced lists i none = lists (some i) ++ lists none := by
    rw [spliced, update_of_ne (by simp), update_self]
  have hother : ∀ k, k ≠ none → k ≠ some i → spliced lists i k = lists k := by
    intro k hk hki
    rw [spliced, update_of_ne hki, update_of_ne hk]
  constructor
  · rintro ⟨k, hk⟩
    by_cases hki : k = some i
    · rw [hki, hself] at hk
      cases hk
    by_cases hkn : k = none
    · rw [hkn, hnone, List.mem_append] at hk
      exact hk.elim (fun h => ⟨some i, h⟩) fun h => ⟨none, h⟩
    · rw [hother k hkn hki] at hk
      exact ⟨k, hk⟩
  · rintro ⟨k, hk⟩
    by_cases hki : k = some i
    · refine ⟨none, ?_⟩
      rw [hnone, ← hki]
      exact List.mem_append_left _ hk
    by_cases hkn : k = none
    · refine ⟨none, ?_⟩
      rw [hnone, ← hkn]
      exact List.mem_append_right _ hk
    · refine ⟨k, ?_⟩
      rwa [hother k hkn hki]

theorem Conserved.splice (h : p.Conserved lists) :
    (p.splice i).Conserved (spliced lists i) ∧ (p.splice i).item = p.item := by
  have htails : ∀ j, update p.tail i none j = (spliced lists i (some j)).getLast? := by
    intro j
    by_cases hji : j = i
    · rw [hji, update_self, spliced, update_self]
      rfl
    · have hsome : some j ≠ some i := fun h => hji (Option.some.inj h)
      rw [update_of_ne hji, spliced, update_of_ne hsome, update_of_ne (by simp)]
      exact h.tail j
  unfold ItemPool.splice
  have hall := fun m => (h.all m).trans (@mem_spliced lists i m).symm
  cases htail : p.tail i with
  | none =>
    have hempty : lists (some i) = [] := List.getLast?_eq_none_iff.mp ((h.tail i).symm.trans htail)
    have hchain := h.chains.chain (some i)
    rw [hempty] at hchain
    have hsame : spliced lists i = lists := by
      rw [spliced, hempty, List.nil_append, update_eq_self, ← hempty, update_eq_self]
    refine ⟨⟨?_, htails, hall⟩, rfl⟩
    rw [hsame]
    refine cast (congrArg (Chains _ · _) ?_) h.chains
    have hhead : p.head i = none := hchain
    have hupdate : update p.head i none = p.head := by rw [← hhead, update_eq_self]
    funext k
    cases k with
    | none => rfl
    | some j => exact (congrFun hupdate j).symm
  | some t =>
    have hprepend := h.chains.prepend (i := some i) (j := none) (by simp)
      ((h.tail i).symm.trans htail)
    refine ⟨⟨?_, htails, hall⟩, rfl⟩
    refine cast (congrArg (Chains _ · _) ?_) hprepend
    funext k
    cases k with
    | none => rfl
    | some j => exact update_heads j none

end Conserved

end ItemPool

end SBlktrace
