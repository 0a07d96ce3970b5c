import SBlktrace.SkipList
import Mathlib

namespace SBlktrace

open Function DoublyLinked

namespace SkipList

variable {pci : SkipList} {sip e : ℕ} {v : Option ℕ} {a b : UInt64} {head tail : Option ℕ}

@[simp] theorem setRange_prev : (pci.setRange sip a b).prev = pci.prev := by
  funext x
  by_cases hx : x = sip
  · subst hx
    simp [setRange, prev]
  · simp [setRange, prev, hx]

@[simp] theorem setRange_next : (pci.setRange sip a b).next = pci.next := by
  funext x
  by_cases hx : x = sip
  · subst hx
    simp [setRange, next]
  · simp [setRange, next, hx]

@[simp] theorem setRange_range :
    (pci.setRange sip a b).range = update pci.range sip (a, b) := by
  funext x
  by_cases hx : x = sip
  · subst hx
    simp [setRange, range]
  · simp [setRange, range, hx]

@[simp] theorem setPrev_prev : (pci.setPrev sip v).prev = update pci.prev sip v := by
  funext x
  by_cases hx : x = sip
  · subst hx
    simp [setPrev, prev]
  · simp [setPrev, prev, hx]

@[simp] theorem setPrev_next : (pci.setPrev sip v).next = pci.next := by
  funext x
  by_cases hx : x = sip
  · subst hx
    simp [setPrev, next]
  · simp [setPrev, next, hx]

@[simp] theorem setPrev_range : (pci.setPrev sip v).range = pci.range := by
  funext x
  by_cases hx : x = sip
  · subst hx
    simp [setPrev, range]
  · simp [setPrev, range, hx]

@[simp] theorem setNext_prev : (pci.setNext sip v).prev = pci.prev := by
  funext x
  by_cases hx : x = sip
  · subst hx
    simp [setNext, prev]
  · simp [setNext, prev, hx]

@[simp] theorem setNext_next : (pci.setNext sip v).next = update pci.next sip v := by
  funext x
  by_cases hx : x = sip
  · subst hx
    simp [setNext, next]
  · simp [setNext, next, hx]

@[simp] theorem setNext_range : (pci.setNext sip v).range = pci.range := by
  funext x
  by_cases hx : x = sip
  · subst hx
    simp [setNext, range]
  · simp [setNext, range, hx]

@[simp] theorem setEnds_prev : (pci.setEnds head tail).prev = pci.prev := rfl

@[simp] theorem setEnds_next : (pci.setEnds head tail).next = pci.next := rfl

@[simp] theorem setEnds_range : (pci.setEnds head tail).range = pci.range := rfl

@[simp] theorem newSip_prev : (pci.newSip a b).prev = update pci.prev pci.brk none := by
  funext x
  by_cases hx : x = pci.brk
  · subst hx
    simp [newSip, prev]
  · simp [newSip, prev, hx]

@[simp] theorem newSip_next : (pci.newSip a b).next = update pci.next pci.brk none := by
  funext x
  by_cases hx : x = pci.brk
  · subst hx
    simp [newSip, next]
  · simp [newSip, next, hx]

@[simp] theorem newSip_range : (pci.newSip a b).range = update pci.range pci.brk (a, b) := by
  funext x
  by_cases hx : x = pci.brk
  · subst hx
    simp [newSip, range]
  · simp [newSip, range, hx]

@[simp] theorem newSip_skipsHead : (pci.newSip a b).skipsHead = pci.skipsHead := rfl

@[simp] theorem newSip_skipsTail : (pci.newSip a b).skipsTail = pci.skipsTail := rfl

@[simp] theorem setPrev_skipsHead : (pci.setPrev sip v).skipsHead = pci.skipsHead := rfl

@[simp] theorem setPrev_skipsTail : (pci.setPrev sip v).skipsTail = pci.skipsTail := rfl

@[simp] theorem setNext_skipsHead : (pci.setNext sip v).skipsHead = pci.skipsHead := rfl

@[simp] theorem setNext_skipsTail : (pci.setNext sip v).skipsTail = pci.skipsTail := rfl

@[simp] theorem setEnds_skipsHead : (pci.setEnds head tail).skipsHead = head := rfl

@[simp] theorem setEnds_skipsTail : (pci.setEnds head tail).skipsTail = tail := rfl

@[simp] theorem appendSip_brk : (pci.appendSip a b).brk = pci.brk + 1 := by
  unfold appendSip
  cases ht : pci.skipsTail <;> simp [ht, newSip, setEnds, setNext, setPrev]

@[simp] theorem appendSip_range : (pci.appendSip a b).range = update pci.range pci.brk (a, b) := by
  unfold appendSip
  cases ht : pci.skipsTail <;> simp [ht]

def dlist (pci : SkipList) : DList ℕ := ⟨pci.next, pci.prev, pci.skipsHead, pci.skipsTail⟩

structure Rep (pci : SkipList) (ns : List ℕ) : Prop where
  rep : pci.dlist.Rep ns
  fresh : ∀ n ∈ ns, n < pci.brk

def Holds (pci : SkipList) (ivs : List (UInt64 × UInt64)) : Prop :=
  ∃ ns, pci.Rep ns ∧ ns.map pci.range = ivs

theorem empty_holds : SkipList.empty.Holds [] :=
  ⟨[], ⟨⟨⟨rfl, rfl⟩, List.nodup_nil⟩, by simp⟩, rfl⟩

variable {ns as bs : List ℕ} {p : UInt64 × UInt64 → Bool} {ivs : List (UInt64 × UInt64)}

theorem Holds.unique {ivs' : List (UInt64 × UInt64)} (hi : pci.Holds ivs) (hi' : pci.Holds ivs') :
    ivs = ivs' := by
  obtain ⟨ns, hr, rfl⟩ := hi
  obtain ⟨ns', hr', rfl⟩ := hi'
  rw [hr.rep.unique hr'.rep]

theorem Rep.findBack_split (hr : pci.Rep (as ++ bs)) (hbs : ∀ x ∈ bs, p (pci.range x) = false) :
    (∃ cs e ds, as ++ bs = cs ++ e :: ds ∧ p (pci.range e) = true ∧
        (∀ x ∈ ds, p (pci.range x) = false) ∧
        pci.findBack p as.getLast? = some (some e)) ∨
      ((∀ x ∈ as ++ bs, p (pci.range x) = false) ∧ pci.findBack p as.getLast? = some none) := by
  induction as using List.reverseRecOn generalizing bs with
  | nil =>
    right
    refine ⟨by simpa using hbs, ?_⟩
    rw [List.getLast?_nil, findBack]
  | append_singleton cs e ih =>
    rw [List.append_assoc, List.singleton_append] at hr ⊢
    rw [List.getLast?_concat, findBack]
    by_cases he : p (pci.range e) = true
    · left
      exact ⟨cs, e, bs, rfl, he, hbs, by simp [he]⟩
    · have hprev : pci.prev e = cs.getLast? := hr.rep.prev_eq
      simp only [he, hprev]
      apply ih hr
      intro x hx
      rcases List.mem_cons.mp hx with rfl | hx
      · simpa using he
      · exact hbs x hx

theorem Rep.findBack_tail (hr : pci.Rep ns) :
    (∃ cs e ds, ns = cs ++ e :: ds ∧ p (pci.range e) = true ∧
        (∀ x ∈ ds, p (pci.range x) = false) ∧
        pci.findBack p pci.skipsTail = some (some e)) ∨
      ((∀ x ∈ ns, p (pci.range x) = false) ∧ pci.findBack p pci.skipsTail = some none) := by
  have htail : pci.skipsTail = ns.getLast? := hr.rep.tail_eq
  rw [htail]
  simpa using (show pci.Rep (ns ++ []) by simpa using hr).findBack_split (by simp)

theorem map_update_range (hnd : (as ++ e :: bs).Nodup) (r : UInt64 × UInt64) :
    (as ++ e :: bs).map (update pci.range e r) = as.map pci.range ++ r :: bs.map pci.range := by
  have hne : ∀ x ∈ as ++ bs, x ≠ e := by
    intro x hx he
    exact (List.nodup_cons.mp (List.nodup_middle.mp hnd)).1 (he ▸ hx)
  have has : as.map (update pci.range e r) = as.map pci.range :=
    List.map_congr_left (fun x hx => update_of_ne (hne x (by simp [hx])) _ _)
  have hbs : bs.map (update pci.range e r) = bs.map pci.range :=
    List.map_congr_left (fun x hx => update_of_ne (hne x (by simp [hx])) _ _)
  simp [has, hbs]

theorem Rep.setRange (hr : pci.Rep (as ++ e :: bs)) (a b : UInt64) :
    (pci.setRange e a b).Holds (as.map pci.range ++ (a, b) :: bs.map pci.range) := by
  refine ⟨as ++ e :: bs, ⟨?_, hr.fresh⟩, ?_⟩
  · exact hr.rep.congr (fun _ _ => by simp [dlist]) (fun _ _ => by simp [dlist]) rfl rfl
  · rw [setRange_range, map_update_range hr.rep.nodup]

theorem Rep.appendSip (hr : pci.Rep ns) (start stop : UInt64) :
    (pci.appendSip start stop).Holds (ns.map pci.range ++ [(start, stop)]) := by
  have hnot : pci.brk ∉ ns := fun hm => Nat.lt_irrefl _ (hr.fresh _ hm)
  have hne : ∀ x ∈ ns, x ≠ pci.brk := fun x hx he => hnot (he ▸ hx)
  have htail : pci.skipsTail = ns.getLast? := hr.rep.tail_eq
  refine ⟨ns ++ [pci.brk], ⟨(hr.rep.pushBack hnot).congr ?_ ?_ ?_ ?_, ?_⟩, ?_⟩
  · intro x _
    cases ht : pci.skipsTail with
    | none => simp [dlist, DList.pushBack, SkipList.appendSip, ht]
    | some t =>
      have htb : pci.brk ≠ t := (hne t (List.mem_of_getLast? (htail.symm.trans ht))).symm
      simp only [dlist, DList.pushBack, SkipList.appendSip, ht, setEnds_next, setNext_next,
        setPrev_next, newSip_next, newSip_skipsTail]
      rw [update_comm htb]
  · intro x _
    cases ht : pci.skipsTail with
    | none => simp [dlist, DList.pushBack, SkipList.appendSip, ht]
    | some t => simp [dlist, DList.pushBack, SkipList.appendSip, ht]
  · cases ht : pci.skipsTail with
    | none => simp [dlist, DList.pushBack, SkipList.appendSip, ht]
    | some t => simp [dlist, DList.pushBack, SkipList.appendSip, ht]
  · cases ht : pci.skipsTail with
    | none => simp [dlist, DList.pushBack, SkipList.appendSip, ht]
    | some t => simp [dlist, DList.pushBack, SkipList.appendSip, ht]
  · intro x hx
    rw [appendSip_brk]
    rcases List.mem_append.mp hx with hx | hx
    · exact Nat.lt_succ_of_lt (hr.fresh x hx)
    · rw [List.mem_singleton.mp hx]
      exact Nat.lt_succ_self _
  · rw [appendSip_range, map_update_range (by simpa [List.nodup_append, hr.rep.nodup] using hne)]
    rfl

@[simp] theorem removeSip_range : (pci.removeSip sip).range = pci.range := by
  unfold SkipList.removeSip
  split <;> simp

@[simp] theorem removeSip_brk : (pci.removeSip sip).brk = pci.brk := by
  unfold SkipList.removeSip
  split <;> rfl

theorem Rep.removeSip (hr : pci.Rep (as ++ e :: bs)) :
    (pci.removeSip e).Holds (as.map pci.range ++ bs.map pci.range) := by
  have hne : ∀ x ∈ as ++ bs, x ≠ e := by
    intro x hx he
    exact (List.nodup_cons.mp (List.nodup_middle.mp hr.rep.nodup)).1 (he ▸ hx)
  have hfresh : ∀ x ∈ as ++ bs, x < pci.brk := by
    intro x hx
    apply hr.fresh
    simp only [List.mem_append, List.mem_cons] at hx ⊢
    tauto
  refine ⟨as ++ bs, ⟨hr.rep.unlink.congr ?_ ?_ ?_ ?_, by simpa using hfresh⟩, by simp⟩
  · intro x hx
    cases hp : pci.prev e <;> cases hn : pci.next e <;>
      simp [SkipList.removeSip, dlist, DList.unlink, hp, hn, hne x hx]
  · intro x hx
    cases hp : pci.prev e <;> cases hn : pci.next e <;>
      simp [SkipList.removeSip, dlist, DList.unlink, hp, hn, hne x hx]
  · cases hp : pci.prev e <;> cases hn : pci.next e <;>
      simp [SkipList.removeSip, dlist, DList.unlink, hp, hn]
  · cases hp : pci.prev e <;> cases hn : pci.next e <;>
      simp [SkipList.removeSip, dlist, DList.unlink, hp, hn]

def extend (start stop : UInt64) (r : UInt64 × UInt64) : UInt64 × UInt64 :=
  if stop = r.1 - 1 then (start, r.2) else (r.1, stop)

def trim (seq : UInt64) (r : UInt64 × UInt64) : List (UInt64 × UInt64) :=
  if r.1 = seq then if r.2 = seq then [] else [(r.1 + 1, r.2)] else [(r.1, r.2 - 1)]

theorem Holds.insertSkip (hi : pci.Holds ivs) (start stop : UInt64) :
    ∃ pci', pci.insertSkip start stop = some pci' ∧
      ((∃ cs r ds, ivs = cs ++ r :: ds ∧ adjoins start stop r = true ∧
          (∀ q ∈ ds, adjoins start stop q = false) ∧
          pci'.Holds (cs ++ extend start stop r :: ds)) ∨
        ((∀ q ∈ ivs, adjoins start stop q = false) ∧ pci'.Holds (ivs ++ [(start, stop)]))) := by
  obtain ⟨ns, hr, rfl⟩ := hi
  rcases hr.findBack_tail (p := adjoins start stop) with ⟨cs, e, ds, rfl, he, hds, hfind⟩ |
      ⟨hno, hfind⟩
  · have hset : pci.insertSkip start stop =
        some (pci.setRange e (extend start stop (pci.range e)).1
          (extend start stop (pci.range e)).2) := by
      simp only [SkipList.insertSkip, hfind, extend]
      by_cases hs : stop = (pci.range e).1 - 1
      · simp [hs]
      · simp [hs]
    refine ⟨_, hset, Or.inl ⟨cs.map pci.range, pci.range e, ds.map pci.range, by simp, he, ?_,
      hr.setRange _ _⟩⟩
    simpa using hds
  · refine ⟨pci.appendSip start stop, by simp [SkipList.insertSkip, hfind], Or.inr ⟨?_, ?_⟩⟩
    · simpa using hno
    · exact hr.appendSip start stop

theorem Holds.checkCurrentSkips (hi : pci.Holds ivs) (seq : UInt64) :
    ((∀ q ∈ ivs, inSkip seq q = false) ∧ pci.checkCurrentSkips seq = some (pci, 0)) ∨
      ∃ cs r ds pci', ivs = cs ++ r :: ds ∧ inSkip seq r = true ∧
        pci.checkCurrentSkips seq = some (pci', 1) ∧
        ((r.1 = seq ∨ r.2 = seq) ∧ pci'.Holds (cs ++ trim seq r ++ ds) ∨
          (r.1 ≠ seq ∧ r.2 ≠ seq) ∧ ∃ pci₁ : SkipList, pci₁.Holds (cs ++ (r.1, seq - 1) :: ds) ∧
            pci₁.insertSkip (seq + 1) (seq - 1) = some pci') := by
  obtain ⟨ns, hr, rfl⟩ := hi
  rcases hr.findBack_tail (p := inSkip seq) with ⟨cs, e, ds, rfl, he, hds, hfind⟩ | ⟨hno, hfind⟩
  · right
    refine ⟨cs.map pci.range, pci.range e, ds.map pci.range, ?_⟩
    by_cases h₁ : (pci.range e).1 = seq
    · by_cases h₂ : (pci.range e).2 = seq
      · refine ⟨pci.removeSip e, by simp, he, by simp [SkipList.checkCurrentSkips, hfind, h₁, h₂],
          Or.inl ⟨Or.inl h₁, ?_⟩⟩
        simpa [trim, h₁, h₂] using hr.removeSip
      · refine ⟨pci.setRange e ((pci.range e).1 + 1) (pci.range e).2, by simp, he,
          by simp [SkipList.checkCurrentSkips, hfind, h₁, h₂], Or.inl ⟨Or.inl h₁, ?_⟩⟩
        simpa [trim, h₁, h₂] using hr.setRange ((pci.range e).1 + 1) (pci.range e).2
    · by_cases h₂ : (pci.range e).2 = seq
      · refine ⟨pci.setRange e (pci.range e).1 ((pci.range e).2 - 1), by simp, he,
          by simp [SkipList.checkCurrentSkips, hfind, h₁, h₂], Or.inl ⟨Or.inr h₂, ?_⟩⟩
        simpa [trim, h₁, h₂] using hr.setRange (pci.range e).1 ((pci.range e).2 - 1)
      · have hset := hr.setRange (pci.range e).1 (seq - 1)
        obtain ⟨pci', hins, -⟩ := hset.insertSkip (seq + 1) (seq - 1)
        refine ⟨pci', by simp, he, ?_, Or.inr ⟨⟨h₁, h₂⟩, _, hset, hins⟩⟩
        simp [SkipList.checkCurrentSkips, hfind, h₁, h₂, hins]
  · left
    exact ⟨by simpa using hno, by simp [SkipList.checkCurrentSkips, hfind]⟩

theorem collectFrom_eq {b : Option ℕ} {start : Option ℕ} {acc : UInt64 × UInt64}
    (hs : Seg pci.next pci.prev b start none tail ns) :
    pci.collectFrom start acc = some (acc.1 + UInt64.ofNat ns.length,
      acc.2 + ((ns.map pci.range).map (fun r => r.2 - r.1 + 1)).sum) := by
  induction ns generalizing b start acc with
  | nil =>
    rw [hs.1, collectFrom]
    simp
  | cons e ns ih =>
    obtain ⟨rfl, -, hns⟩ := hs
    rw [collectFrom, ih hns]
    simp [add_assoc, add_comm]

theorem Holds.collectPdiSkips (hi : pci.Holds ivs) :
    collectPdiSkips [pci] = some (UInt64.ofNat ivs.length,
      (ivs.map (fun r => r.2 - r.1 + 1)).sum) := by
  obtain ⟨ns, hr, rfl⟩ := hi
  have hseg : Seg pci.next pci.prev none pci.skipsHead none pci.skipsTail ns := hr.rep.seg
  simp [SBlktrace.collectPdiSkips, collectFrom_eq hseg]

end SkipList

end SBlktrace
