import Mathlib.Data.List.Nodup
import Mathlib.Logic.Function.Basic
import Mathlib.Tactic.Common

namespace DoublyLinked

open Function

variable {P : Type} {next prev : P → Option P}

def Seg (next prev : P → Option P) : Option P → Option P → Option P → Option P → List P → Prop
  | b, h, e, l, [] => h = e ∧ l = b
  | b, h, e, l, x :: xs => h = some x ∧ prev x = b ∧ Seg next prev (some x) (next x) e l xs

@[simp] theorem seg_nil {b h e l : Option P} : Seg next prev b h e l [] ↔ h = e ∧ l = b := Iff.rfl

@[simp] theorem seg_cons {b h e l : Option P} {x : P} {xs : List P} :
    Seg next prev b h e l (x :: xs) ↔
      h = some x ∧ prev x = b ∧ Seg next prev (some x) (next x) e l xs := Iff.rfl

theorem seg_append {b h e l : Option P} {xs ys : List P} :
    Seg next prev b h e l (xs ++ ys) ↔
      ∃ m k, Seg next prev b h m k xs ∧ Seg next prev k m e l ys := by
  induction xs generalizing b h with
  | nil =>
    constructor
    · intro hs
      exact ⟨h, b, ⟨rfl, rfl⟩, hs⟩
    · rintro ⟨m, k, ⟨rfl, rfl⟩, hs⟩
      exact hs
  | cons x xs ih =>
    simp only [List.cons_append, seg_cons, ih]
    constructor
    · rintro ⟨hx, hb, m, k, hxs, hys⟩
      exact ⟨m, k, ⟨hx, hb, hxs⟩, hys⟩
    · rintro ⟨m, k, ⟨hx, hb, hxs⟩, hys⟩
      exact ⟨hx, hb, m, k, hxs, hys⟩

theorem seg_congr {next' prev' : P → Option P} {b h e l : Option P} {xs : List P}
    (hn : ∀ x ∈ xs, next' x = next x) (hp : ∀ x ∈ xs, prev' x = prev x)
    (hs : Seg next prev b h e l xs) : Seg next' prev' b h e l xs := by
  induction xs generalizing b h with
  | nil => exact hs
  | cons x xs ih =>
    obtain ⟨hx, hb, hxs⟩ := hs
    refine ⟨hx, (hp x (by simp)).trans hb, ?_⟩
    rw [hn x (by simp)]
    exact ih (fun y hy => hn y (by simp [hy])) (fun y hy => hp y (by simp [hy])) hxs

theorem seg_head {b h e l : Option P} {xs : List P} (hs : Seg next prev b h e l xs) :
    h = (xs.head?).or e := by
  cases xs with
  | nil => simpa using hs.1
  | cons x xs => simpa using hs.1

theorem seg_last {b h e l : Option P} {xs : List P} (hs : Seg next prev b h e l xs) :
    l = (xs.getLast?).or b := by
  induction xs generalizing b h with
  | nil => simpa using hs.2
  | cons x xs ih =>
    rw [ih hs.2.2]
    cases xs with
    | nil => simp
    | cons y ys => cases hg : (y :: ys).getLast? <;> simp_all [List.getLast?_cons_cons]

theorem seg_null {b h l : Option P} {xs : List P} (hs : Seg next prev b h none l xs) :
    h = none ↔ xs = [] := by
  rw [seg_head hs]
  cases xs <;> simp

structure DList (P : Type) where
  next : P → Option P
  prev : P → Option P
  head : Option P
  tail : Option P

namespace DList

structure Rep (d : DList P) (xs : List P) : Prop where
  seg : Seg d.next d.prev none d.head none d.tail xs
  nodup : xs.Nodup

variable {d : DList P}

theorem Rep.congr {d' : DList P} {xs : List P} (hr : d.Rep xs)
    (hn : ∀ x ∈ xs, d'.next x = d.next x) (hp : ∀ x ∈ xs, d'.prev x = d.prev x)
    (hh : d'.head = d.head) (ht : d'.tail = d.tail) : d'.Rep xs :=
  ⟨by rw [hh, ht]; exact seg_congr hn hp hr.seg, hr.nodup⟩

theorem Rep.head_eq {xs : List P} (hr : d.Rep xs) : d.head = xs.head? := by
  simpa using seg_head hr.seg

theorem Rep.tail_eq {xs : List P} (hr : d.Rep xs) : d.tail = xs.getLast? := by
  simpa using seg_last hr.seg

theorem Rep.prev_eq {as bs : List P} {x : P} (hr : d.Rep (as ++ x :: bs)) :
    d.prev x = as.getLast? := by
  obtain ⟨m, k, has, -, hx, -⟩ := seg_append.mp hr.seg
  rw [hx]
  simpa using seg_last has

theorem Rep.next_eq {as bs : List P} {x : P} (hr : d.Rep (as ++ x :: bs)) :
    d.next x = bs.head? := by
  obtain ⟨m, k, -, -, -, hbs⟩ := seg_append.mp hr.seg
  simpa using seg_head hbs

theorem Rep.unique {xs ys : List P} (hx : d.Rep xs) (hy : d.Rep ys) : xs = ys := by
  have key : ∀ (xs ys : List P) (b b' h : Option P), Seg d.next d.prev b h none d.tail xs →
      Seg d.next d.prev b' h none d.tail ys → xs = ys := by
    intro xs
    induction xs with
    | nil =>
      intro ys b b' h hx hy
      exact ((seg_null hy).mp hx.1).symm
    | cons x xs ih =>
      intro ys b b' h hx hy
      cases ys with
      | nil => exact absurd (hx.1.symm.trans hy.1) (by simp)
      | cons y ys =>
        obtain rfl : x = y := Option.some.inj (hx.1.symm.trans hy.1)
        rw [ih ys _ _ _ hx.2.2 hy.2.2]
  exact key xs ys none none d.head hx.seg hy.seg

end DList

variable [DecidableEq P]

theorem seg_update_next {b h e l v : Option P} {p : P} {xs : List P} (hp : p ∉ xs) :
    Seg (update next p v) prev b h e l xs ↔ Seg next prev b h e l xs := by
  have hne : ∀ x ∈ xs, x ≠ p := fun x hx he => hp (he ▸ hx)
  constructor
  · exact seg_congr (fun x hx => (update_of_ne (hne x hx) _ _).symm) (fun _ _ => rfl)
  · exact seg_congr (fun x hx => update_of_ne (hne x hx) _ _) (fun _ _ => rfl)

theorem seg_update_prev {b h e l v : Option P} {p : P} {xs : List P} (hp : p ∉ xs) :
    Seg next (update prev p v) b h e l xs ↔ Seg next prev b h e l xs := by
  have hne : ∀ x ∈ xs, x ≠ p := fun x hx he => hp (he ▸ hx)
  constructor
  · exact seg_congr (fun _ _ => rfl) (fun x hx => (update_of_ne (hne x hx) _ _).symm)
  · exact seg_congr (fun _ _ => rfl) (fun x hx => update_of_ne (hne x hx) _ _)

theorem seg_set_end {b h e e' : Option P} {p : P} {xs : List P} (hne : xs ≠ [])
    (hnd : xs.Nodup) (hs : Seg next prev b h e (some p) xs) :
    Seg (update next p e') prev b h e' (some p) xs := by
  induction xs generalizing b h with
  | nil => exact absurd rfl hne
  | cons x xs ih =>
    obtain ⟨hx, hb, hxs⟩ := hs
    have hnd' := List.nodup_cons.mp hnd
    cases xs with
    | nil =>
      obtain ⟨-, hl⟩ := hxs
      obtain rfl : p = x := Option.some.inj hl
      simp [hx, hb]
    | cons y ys =>
      have hmem : p ∈ y :: ys := by
        have hl := seg_last hxs
        cases hg : (y :: ys).getLast? with
        | none => simp at hg
        | some q =>
          rw [hg] at hl
          obtain rfl : p = q := by simpa using hl
          exact List.mem_of_getLast? hg
      have hxp : x ≠ p := fun he => hnd'.1 (he ▸ hmem)
      refine ⟨hx, hb, ?_⟩
      rw [update_of_ne hxp]
      exact ih (by simp) hnd'.2 hxs

theorem seg_set_before {b b' h e l : Option P} {q : P} {xs : List P} (hnd : (q :: xs).Nodup)
    (hs : Seg next prev b h e l (q :: xs)) :
    Seg next (update prev q b') b' h e l (q :: xs) := by
  obtain ⟨hh, -, hxs⟩ := hs
  refine ⟨hh, by simp, ?_⟩
  rw [seg_update_prev (List.nodup_cons.mp hnd).1]
  exact hxs

namespace DList

def unlink (d : DList P) (x : P) : DList P where
  next := match d.prev x with
    | some p => update d.next p (d.next x)
    | none => d.next
  prev := match d.next x with
    | some q => update d.prev q (d.prev x)
    | none => d.prev
  head := match d.prev x with
    | some _ => d.head
    | none => d.next x
  tail := match d.next x with
    | some _ => d.tail
    | none => d.prev x

def pushFront (d : DList P) (x : P) : DList P where
  next := update d.next x d.head
  prev := update (match d.head with
    | some q => update d.prev q (some x)
    | none => d.prev) x none
  head := some x
  tail := match d.head with
    | some _ => d.tail
    | none => some x

def pushBack (d : DList P) (x : P) : DList P where
  next := update (match d.tail with
    | some p => update d.next p (some x)
    | none => d.next) x none
  prev := update d.prev x d.tail
  head := match d.tail with
    | some _ => d.head
    | none => some x
  tail := some x

variable {d : DList P}

theorem Rep.unlink {as bs : List P} {x : P} (hr : d.Rep (as ++ x :: bs)) :
    (d.unlink x).Rep (as ++ bs) := by
  have hprev := hr.prev_eq
  have hnext := hr.next_eq
  obtain ⟨m, k, has, -, hk, hbs⟩ := seg_append.mp hr.seg
  have hnd := hr.nodup
  have hnd' := List.nodup_append.mp hnd
  have hxbs := List.nodup_cons.mp hnd'.2.1
  have hdis : ∀ p ∈ as, p ∉ bs := fun p hp hq => hnd'.2.2 p hp p (by simp [hq]) rfl
  refine ⟨seg_append.mpr ⟨d.next x, d.prev x, ?_, ?_⟩, ?_⟩
  · -- the cells before x: the last one, if any, now points past x
    have hleft : Seg (d.unlink x).next d.prev none (d.unlink x).head (d.next x) (d.prev x) as := by
      cases hp : d.prev x with
      | none =>
        have : as = [] := List.getLast?_eq_none_iff.mp (hprev.symm.trans hp)
        subst this
        simp [DList.unlink, hp]
      | some p =>
        have hne : as ≠ [] := by rintro rfl; simp [hp] at hprev
        have hk' : k = some p := hk.symm.trans hp
        simp only [DList.unlink, hp]
        exact seg_set_end hne hnd'.1 (hk' ▸ has)
    refine seg_congr (fun _ _ => rfl) (fun y hy => ?_) hleft
    cases hq : d.next x with
    | none => simp [DList.unlink, hq]
    | some q =>
      have hqm : q ∈ bs := List.mem_of_head? (hnext.symm.trans hq)
      have : y ≠ q := fun he => hdis y hy (he ▸ hqm)
      simp [DList.unlink, hq, update_of_ne this]
  · have hright : Seg d.next (d.unlink x).prev (d.prev x) (d.next x) none (d.unlink x).tail bs := by
      cases bs with
      | nil =>
        simp only [List.head?_nil] at hnext
        simp [DList.unlink, hnext]
      | cons q bs =>
        simp only [List.head?_cons] at hnext
        simp only [DList.unlink, hnext]
        exact seg_set_before hxbs.2 (hnext ▸ hbs)
    refine seg_congr (fun y hy => ?_) (fun _ _ => rfl) hright
    cases hp : d.prev x with
    | none => simp [DList.unlink, hp]
    | some p =>
      have hpm : p ∈ as := List.mem_of_getLast? (hprev.symm.trans hp)
      have : y ≠ p := fun he => hdis p hpm (he ▸ hy)
      simp [DList.unlink, hp, update_of_ne this]
  · exact (hnd.sublist (by simp))

theorem Rep.pushFront {xs : List P} {x : P} (hr : d.Rep xs) (hx : x ∉ xs) :
    (d.pushFront x).Rep (x :: xs) := by
  have hhead := hr.head_eq
  refine ⟨⟨rfl, by simp [DList.pushFront], ?_⟩, List.nodup_cons.mpr ⟨hx, hr.nodup⟩⟩
  simp only [DList.pushFront, update_self]
  rw [seg_update_next hx, seg_update_prev hx]
  cases xs with
  | nil =>
    simp only [List.head?_nil] at hhead
    simp [hhead]
  | cons q xs =>
    simp only [List.head?_cons] at hhead
    simp only [hhead]
    exact seg_set_before hr.nodup (hhead ▸ hr.seg)

theorem Rep.pushBack {xs : List P} {x : P} (hr : d.Rep xs) (hx : x ∉ xs) :
    (d.pushBack x).Rep (xs ++ [x]) := by
  have htail := hr.tail_eq
  refine ⟨seg_append.mpr ⟨some x, d.tail, ?_, ?_⟩, ?_⟩
  · simp only [DList.pushBack]
    rw [seg_update_next hx, seg_update_prev hx]
    cases ht : d.tail with
    | none =>
      have : xs = [] := List.getLast?_eq_none_iff.mp (htail.symm.trans ht)
      simp [this]
    | some p =>
      have hne : xs ≠ [] := by rintro rfl; simp [ht] at htail
      exact seg_set_end hne hr.nodup (ht ▸ hr.seg)
  · simp [DList.pushBack]
  · rw [List.nodup_append]
    refine ⟨hr.nodup, List.nodup_singleton x, ?_⟩
    intro a ha b hb
    obtain rfl := List.mem_singleton.mp hb
    exact fun he => hx (he ▸ ha)

end DList

end DoublyLinked
