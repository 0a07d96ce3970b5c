import SBlktrace.CacheModel
import Mathlib.Tactic.Common

namespace SBlktrace

open Function DoublyLinked

namespace CacheHeader

def usedList (h : CacheHeader) : DList ℕ := ⟨h.next, h.prev, h.chUsed, h.chTail⟩

def freeList (h : CacheHeader) (t : Option ℕ) : DList ℕ := ⟨h.next, h.prev, h.chFree, t⟩

section fields

variable (h : CacheHeader) (e : ℕ) (v : Option ℕ) (i : UInt32)

@[simp] theorem setNext_next : (h.setNext e v).next = update h.next e v := by
  funext j
  by_cases hj : j = e <;> simp [next, setNext, hj]

@[simp] theorem setNext_prev : (h.setNext e v).prev = h.prev := by
  funext j
  by_cases hj : j = e <;> simp [prev, setNext, hj]

@[simp] theorem setPrev_next : (h.setPrev e v).next = h.next := by
  funext j
  by_cases hj : j = e <;> simp [next, setPrev, hj]

@[simp] theorem setPrev_prev : (h.setPrev e v).prev = update h.prev e v := by
  funext j
  by_cases hj : j = e <;> simp [prev, setPrev, hj]

@[simp] theorem setIdx_next : (h.setIdx e i).next = h.next := by
  funext j
  by_cases hj : j = e <;> simp [next, setIdx, hj]

@[simp] theorem setIdx_prev : (h.setIdx e i).prev = h.prev := by
  funext j
  by_cases hj : j = e <;> simp [prev, setIdx, hj]

@[simp] theorem setNext_idx : (h.setNext e v).idx = h.idx := by
  funext j
  by_cases hj : j = e <;> simp [idx, setNext, hj]

@[simp] theorem setPrev_idx : (h.setPrev e v).idx = h.idx := by
  funext j
  by_cases hj : j = e <;> simp [idx, setPrev, hj]

@[simp] theorem setIdx_idx : (h.setIdx e i).idx = update h.idx e i := by
  funext j
  by_cases hj : j = e <;> simp [idx, setIdx, hj]

@[simp] theorem setNext_data : (h.setNext e v).data = h.data := by
  funext j
  by_cases hj : j = e <;> simp [data, setNext, hj]

@[simp] theorem setPrev_data : (h.setPrev e v).data = h.data := by
  funext j
  by_cases hj : j = e <;> simp [data, setPrev, hj]

@[simp] theorem setIdx_data : (h.setIdx e i).data = h.data := by
  funext j
  by_cases hj : j = e <;> simp [data, setIdx, hj]

@[simp] theorem setUsed_next : (h.setUsed v).next = h.next := rfl
@[simp] theorem setUsed_prev : (h.setUsed v).prev = h.prev := rfl
@[simp] theorem setUsed_idx : (h.setUsed v).idx = h.idx := rfl
@[simp] theorem setUsed_data : (h.setUsed v).data = h.data := rfl
@[simp] theorem setTail_next : (h.setTail v).next = h.next := rfl
@[simp] theorem setTail_prev : (h.setTail v).prev = h.prev := rfl
@[simp] theorem setTail_idx : (h.setTail v).idx = h.idx := rfl
@[simp] theorem setTail_data : (h.setTail v).data = h.data := rfl
@[simp] theorem setFree_next : (h.setFree v).next = h.next := rfl
@[simp] theorem setFree_prev : (h.setFree v).prev = h.prev := rfl
@[simp] theorem setFree_idx : (h.setFree v).idx = h.idx := rfl
@[simp] theorem setFree_data : (h.setFree v).data = h.data := rfl

@[simp] theorem setNext_chUsed : (h.setNext e v).chUsed = h.chUsed := rfl
@[simp] theorem setNext_chTail : (h.setNext e v).chTail = h.chTail := rfl
@[simp] theorem setNext_chFree : (h.setNext e v).chFree = h.chFree := rfl
@[simp] theorem setPrev_chUsed : (h.setPrev e v).chUsed = h.chUsed := rfl
@[simp] theorem setPrev_chTail : (h.setPrev e v).chTail = h.chTail := rfl
@[simp] theorem setPrev_chFree : (h.setPrev e v).chFree = h.chFree := rfl
@[simp] theorem setIdx_chUsed : (h.setIdx e i).chUsed = h.chUsed := rfl
@[simp] theorem setIdx_chTail : (h.setIdx e i).chTail = h.chTail := rfl
@[simp] theorem setIdx_chFree : (h.setIdx e i).chFree = h.chFree := rfl
@[simp] theorem setUsed_chUsed : (h.setUsed v).chUsed = v := rfl
@[simp] theorem setUsed_chTail : (h.setUsed v).chTail = h.chTail := rfl
@[simp] theorem setUsed_chFree : (h.setUsed v).chFree = h.chFree := rfl
@[simp] theorem setTail_chUsed : (h.setTail v).chUsed = h.chUsed := rfl
@[simp] theorem setTail_chTail : (h.setTail v).chTail = v := rfl
@[simp] theorem setTail_chFree : (h.setTail v).chFree = h.chFree := rfl
@[simp] theorem setFree_chUsed : (h.setFree v).chUsed = h.chUsed := rfl
@[simp] theorem setFree_chTail : (h.setFree v).chTail = h.chTail := rfl
@[simp] theorem setFree_chFree : (h.setFree v).chFree = v := rfl

end fields

structure Bucket (h : CacheHeader) (link : ℕ) (used free : List ℕ) : Prop where
  usedRep : h.usedList.Rep used
  freeRep : ∃ t, (h.freeList t).Rep free
  perm : (used ++ free).Perm (List.range link)

variable {h : CacheHeader} {link : ℕ} {used free as bs : List ℕ} {e : ℕ}

theorem Bucket.nodup (hb : h.Bucket link used free) : (used ++ free).Nodup :=
  hb.perm.nodup_iff.mpr List.nodup_range

theorem Bucket.disjoint (hb : h.Bucket link used free) {x : ℕ} (hx : x ∈ used) : x ∉ free :=
  fun hf => (List.nodup_append.mp hb.nodup).2.2 x hx x hf rfl

theorem Bucket.lt (hb : h.Bucket link used free) {x : ℕ} (hx : x ∈ used ++ free) : x < link :=
  List.mem_range.mp (hb.perm.subset hx)

theorem Bucket.length (hb : h.Bucket link used free) : used.length + free.length = link := by
  simpa using hb.perm.length_eq

theorem Bucket.chFree_eq (hb : h.Bucket link used free) : h.chFree = free.head? := by
  obtain ⟨t, ht⟩ := hb.freeRep
  exact ht.head_eq

theorem Bucket.chTail_eq (hb : h.Bucket link used free) : h.chTail = used.getLast? :=
  hb.usedRep.tail_eq

def unlinkEntry (h : CacheHeader) (e : ℕ) : CacheHeader :=
  let h := match h.prev e with
    | some p => h.setNext p (h.next e)
    | none => h.setUsed (h.next e)
  match h.next e with
  | some q => h.setPrev q (h.prev e)
  | none => h.setTail (h.prev e)

def pushFree (h : CacheHeader) (e : ℕ) : CacheHeader :=
  let h := match h.chFree with
    | some f => h.setPrev f (some e)
    | none => h
  let h := h.setNext e h.chFree
  let h := h.setFree (some e)
  h.setPrev e none

theorem unlinkEntry_usedList : (h.unlinkEntry e).usedList = h.usedList.unlink e := by
  cases hp : h.prev e <;> cases hn : h.next e <;>
    simp [unlinkEntry, usedList, DList.unlink, hp, hn, update_apply]

theorem unlinkEntry_chFree : (h.unlinkEntry e).chFree = h.chFree := by
  cases hp : h.prev e <;> cases hn : h.next e <;> simp [unlinkEntry, hp, hn, update_apply]

theorem unlinkEntry_idx : (h.unlinkEntry e).idx = h.idx := by
  cases hp : h.prev e <;> cases hn : h.next e <;> simp [unlinkEntry, hp, hn, update_apply]

theorem unlinkEntry_data : (h.unlinkEntry e).data = h.data := by
  cases hp : h.prev e <;> cases hn : h.next e <;> simp [unlinkEntry, hp, hn, update_apply]

theorem unlinkEntry_frame {x : ℕ} (hp : h.prev e ≠ some x) (hn : h.next e ≠ some x) :
    (h.unlinkEntry e).next x = h.next x ∧ (h.unlinkEntry e).prev x = h.prev x := by
  have hu := unlinkEntry_usedList (h := h) (e := e)
  have h1 : (h.unlinkEntry e).next = (h.usedList.unlink e).next := congrArg DList.next hu
  have h2 : (h.unlinkEntry e).prev = (h.usedList.unlink e).prev := congrArg DList.prev hu
  rw [h1, h2]
  constructor
  · cases hp' : h.prev e with
    | none => simp [DList.unlink, usedList, hp']
    | some p =>
      have : x ≠ p := fun he => hp (he ▸ hp')
      simp [DList.unlink, usedList, hp', update_of_ne this]
  · cases hn' : h.next e with
    | none => simp [DList.unlink, usedList, hn']
    | some q =>
      have : x ≠ q := fun he => hn (he ▸ hn')
      simp [DList.unlink, usedList, hn', update_of_ne this]

theorem pushFree_freeList {t : Option ℕ} :
    ∃ t', (h.pushFree e).freeList t' = (h.freeList t).pushFront e := by
  refine ⟨((h.freeList t).pushFront e).tail, ?_⟩
  cases hf : h.chFree <;> simp [pushFree, freeList, DList.pushFront, hf]

theorem pushFree_usedList {x : ℕ} (hx : x ≠ e) (hf : h.chFree ≠ some x) :
    (h.pushFree e).next x = h.next x ∧ (h.pushFree e).prev x = h.prev x := by
  cases hf' : h.chFree with
  | none => simp [pushFree, hf', hx]
  | some f =>
    have : x ≠ f := fun he => hf (he ▸ hf')
    simp [pushFree, hf', hx, this]

theorem pushFree_chUsed : (h.pushFree e).chUsed = h.chUsed := by
  cases hf : h.chFree <;> simp [pushFree, hf]

theorem pushFree_chTail : (h.pushFree e).chTail = h.chTail := by
  cases hf : h.chFree <;> simp [pushFree, hf]

theorem pushFree_idx : (h.pushFree e).idx = h.idx := by
  cases hf : h.chFree <;> simp [pushFree, hf]

theorem pushFree_data : (h.pushFree e).data = h.data := by
  cases hf : h.chFree <;> simp [pushFree, hf]

def popFree (h : CacheHeader) (f : ℕ) : CacheHeader :=
  let h := h.setFree (h.next f)
  match h.chFree with
  | some q => h.setPrev q none
  | none => h

def pushUsed (h : CacheHeader) (e : ℕ) : CacheHeader :=
  let h := h.setNext e h.chUsed
  let h := match h.chUsed with
    | some u => h.setPrev u (some e)
    | none => h.setTail (some e)
  h.setUsed (some e)

theorem popFree_freeList {t : Option ℕ} (hp : h.prev e = none) :
    ∃ t', (h.popFree e).freeList t' = (h.freeList t).unlink e := by
  refine ⟨((h.freeList t).unlink e).tail, ?_⟩
  cases hn : h.next e <;> simp [popFree, freeList, DList.unlink, hn, hp]

theorem popFree_frame {x : ℕ} (hx : h.next e ≠ some x) :
    (h.popFree e).next x = h.next x ∧ (h.popFree e).prev x = h.prev x := by
  cases hn : h.next e with
  | none => simp [popFree, hn]
  | some q =>
    have : x ≠ q := fun he => hx (he ▸ hn)
    simp [popFree, hn, this]

theorem popFree_chUsed : (h.popFree e).chUsed = h.chUsed := by
  cases hn : h.next e <;> simp [popFree, hn]

theorem popFree_chTail : (h.popFree e).chTail = h.chTail := by
  cases hn : h.next e <;> simp [popFree, hn]

theorem popFree_idx : (h.popFree e).idx = h.idx := by
  cases hn : h.next e <;> simp [popFree, hn]

theorem popFree_data : (h.popFree e).data = h.data := by
  cases hn : h.next e <;> simp [popFree, hn]

theorem pushUsed_usedList (hp : h.prev e = none) (hu : h.chUsed ≠ some e) :
    (h.pushUsed e).usedList = h.usedList.pushFront e := by
  cases hc : h.chUsed with
  | none =>
    have : update h.prev e none = h.prev := by rw [update_eq_self_iff, hp]
    simp [pushUsed, usedList, DList.pushFront, hc, this]
  | some u =>
    have hue : e ≠ u := fun he => hu (he ▸ hc)
    have : update (update h.prev u (some e)) e none = update h.prev u (some e) := by
      rw [update_eq_self_iff, update_of_ne hue, hp]
    simp [pushUsed, usedList, DList.pushFront, hc, this]

theorem pushUsed_frame {x : ℕ} (hx : x ≠ e) (hu : h.chUsed ≠ some x) :
    (h.pushUsed e).next x = h.next x ∧ (h.pushUsed e).prev x = h.prev x := by
  cases hc : h.chUsed with
  | none => simp [pushUsed, hc, hx]
  | some u =>
    have : x ≠ u := fun he => hu (he ▸ hc)
    simp [pushUsed, hc, hx, this]

theorem pushUsed_chFree : (h.pushUsed e).chFree = h.chFree := by
  cases hc : h.chUsed <;> simp [pushUsed, hc]

theorem pushUsed_idx : (h.pushUsed e).idx = h.idx := by
  cases hc : h.chUsed <;> simp [pushUsed, hc]

theorem pushUsed_data : (h.pushUsed e).data = h.data := by
  cases hc : h.chUsed <;> simp [pushUsed, hc]

end CacheHeader

open CacheHeader

variable {h : CacheHeader} {link : ℕ} {used free as bs : List ℕ} {e : ℕ} {idx : UInt32}

theorem removeCacheEntry_eq : removeCacheEntry h e = (h.unlinkEntry e).pushFree e := rfl

theorem removeCacheEntry_idx : (removeCacheEntry h e).idx = h.idx := by
  rw [removeCacheEntry_eq, pushFree_idx, unlinkEntry_idx]

theorem removeCacheEntry_data : (removeCacheEntry h e).data = h.data := by
  rw [removeCacheEntry_eq, pushFree_data, unlinkEntry_data]

theorem removeCacheEntry_bucket (hb : h.Bucket link (as ++ e :: bs) free) :
    (removeCacheEntry h e).Bucket link (as ++ bs) (e :: free) := by
  have hu := hb.usedRep
  have hprev : h.prev e = as.getLast? := hu.prev_eq
  have hnext : h.next e = bs.head? := hu.next_eq
  obtain ⟨t, hf⟩ := hb.freeRep
  have hmem : ∀ x, x ∈ as ++ bs → x ∈ as ++ e :: bs := by
    intro x hx
    simp only [List.mem_append, List.mem_cons] at hx ⊢
    tauto
  have he : e ∉ as ++ bs := by
    have := (List.nodup_middle.mp hu.nodup)
    exact (List.nodup_cons.mp this).1
  have hef : e ∉ free := hb.disjoint (by simp)
  constructor
  · have hrep : (h.unlinkEntry e).usedList.Rep (as ++ bs) := by
      rw [unlinkEntry_usedList]
      exact hu.unlink
    have hframe : ∀ x ∈ as ++ bs, ((h.unlinkEntry e).pushFree e).next x = (h.unlinkEntry e).next x ∧
        ((h.unlinkEntry e).pushFree e).prev x = (h.unlinkEntry e).prev x := by
      intro x hx
      apply pushFree_usedList
      · exact fun hxe => he (hxe ▸ hx)
      · rw [unlinkEntry_chFree, hb.chFree_eq]
        exact fun hfx => hb.disjoint (hmem x hx) (List.mem_of_head? hfx)
    refine hrep.congr (fun x hx => (hframe x hx).1) (fun x hx => (hframe x hx).2) ?_ ?_
    · exact pushFree_chUsed
    · exact pushFree_chTail
  · have hrep : ((h.unlinkEntry e).freeList t).Rep free := by
      have hframe : ∀ x ∈ free, (h.unlinkEntry e).next x = h.next x ∧
          (h.unlinkEntry e).prev x = h.prev x := by
        intro x hx
        apply unlinkEntry_frame
        · rw [hprev]
          intro hp
          exact hb.disjoint (by simp [List.mem_of_getLast? hp]) hx
        · rw [hnext]
          intro hn
          exact hb.disjoint (by simp [List.mem_of_head? hn]) hx
      refine hf.congr (fun x hx => (hframe x hx).1) (fun x hx => (hframe x hx).2) ?_ rfl
      exact unlinkEntry_chFree
    obtain ⟨t', ht'⟩ := pushFree_freeList (h := h.unlinkEntry e) (e := e) (t := t)
    exact ⟨t', by rw [removeCacheEntry_eq, ht']; exact hrep.pushFront hef⟩
  · refine List.Perm.trans ?_ hb.perm
    simp only [List.append_assoc, List.cons_append]
    exact (List.perm_append_left_iff as).mpr List.perm_middle

theorem insertCacheEntry_eq (hf : h.chFree = some e) :
    insertCacheEntry h idx = (((h.popFree e).pushUsed e).setIdx e idx, some e) := by
  simp only [insertCacheEntry, hf]
  rfl

theorem Bucket.setIdx (hb : h.Bucket link used free) : (h.setIdx e idx).Bucket link used free := by
  refine ⟨hb.usedRep.congr ?_ ?_ rfl rfl, ?_, hb.perm⟩
  · simp [usedList]
  · simp [usedList]
  · obtain ⟨t, ht⟩ := hb.freeRep
    exact ⟨t, ht.congr (by simp [freeList]) (by simp [freeList]) rfl rfl⟩

theorem insertCacheEntry_bucket {f : ℕ} (idx : UInt32) (hb : h.Bucket link used (f :: free)) :
    ∃ h', insertCacheEntry h idx = (h', some f) ∧ h'.Bucket link (f :: used) free ∧
      h'.idx = update h.idx f idx ∧ h'.data = h.data := by
  obtain ⟨t, hf⟩ := hb.freeRep
  have hprev : h.prev f = none := (show (h.freeList t).Rep ([] ++ f :: free) from hf).prev_eq
  have hnext : h.next f = free.head? := (show (h.freeList t).Rep ([] ++ f :: free) from hf).next_eq
  have hfu : f ∉ used := fun hm => hb.disjoint hm (by simp)
  have hff : f ∉ free := (List.nodup_cons.mp hf.nodup).1
  refine ⟨_, insertCacheEntry_eq (by simpa using hb.chFree_eq), Bucket.setIdx ?_, ?_, ?_⟩
  · have hpop : (h.popFree f).usedList.Rep used := by
      have hframe : ∀ x ∈ used, (h.popFree f).next x = h.next x ∧
          (h.popFree f).prev x = h.prev x := by
        intro x hx
        apply popFree_frame
        rw [hnext]
        exact fun hm => hb.disjoint hx (by simp [List.mem_of_head? hm])
      exact hb.usedRep.congr (fun x hx => (hframe x hx).1) (fun x hx => (hframe x hx).2)
        popFree_chUsed popFree_chTail
    have hself : (h.popFree f).prev f = none := by
      rw [(popFree_frame (by rw [hnext]; exact fun hm => hff (List.mem_of_head? hm))).2, hprev]
    have hused : (h.popFree f).chUsed = used.head? := hpop.head_eq
    constructor
    · rw [pushUsed_usedList hself (by rw [hused]; exact fun hm => hfu (List.mem_of_head? hm))]
      exact hpop.pushFront hfu
    · obtain ⟨t', ht'⟩ := popFree_freeList (h := h) (e := f) (t := t) hprev
      have hfree : ((h.popFree f).freeList t').Rep free := by
        rw [ht']
        exact (show (h.freeList t).Rep ([] ++ f :: free) from hf).unlink
      have hframe : ∀ x ∈ free, ((h.popFree f).pushUsed f).next x = (h.popFree f).next x ∧
          ((h.popFree f).pushUsed f).prev x = (h.popFree f).prev x := by
        intro x hx
        apply pushUsed_frame
        · exact fun hxf => hff (hxf ▸ hx)
        · rw [hused]
          exact fun hm => hb.disjoint (List.mem_of_head? hm) (by simp [hx])
      exact ⟨t', hfree.congr (fun x hx => (hframe x hx).1) (fun x hx => (hframe x hx).2)
        pushUsed_chFree rfl⟩
    · refine List.Perm.trans ?_ hb.perm
      exact List.perm_middle.symm
  · rw [setIdx_idx, pushUsed_idx, popFree_idx]
  · rw [setIdx_data, pushUsed_data, popFree_data]

theorem moveToFront_usedList {p u : ℕ} (hp : h.prev e = some p) (hu : h.chUsed = some u) :
    (moveToFront h e).usedList = (h.unlinkEntry e).usedList.pushFront e := by
  cases hn : h.next e <;>
    simp [moveToFront, unlinkEntry, usedList, DList.pushFront, hp, hn, hu, update_apply]

theorem moveToFront_chFree : (moveToFront h e).chFree = h.chFree := by
  cases hp : h.prev e <;> cases hn : h.next e <;> cases hu : h.chUsed <;>
    simp [moveToFront, hp, hn, hu, update_apply]

theorem moveToFront_idx : (moveToFront h e).idx = h.idx := by
  cases hp : h.prev e <;> cases hn : h.next e <;> cases hu : h.chUsed <;>
    simp [moveToFront, hp, hn, hu, update_apply]

theorem moveToFront_data : (moveToFront h e).data = h.data := by
  cases hp : h.prev e <;> cases hn : h.next e <;> cases hu : h.chUsed <;>
    simp [moveToFront, hp, hn, hu, update_apply]

theorem moveToFront_frame {x : ℕ} (hx : x ≠ e) (hp : h.prev e ≠ some x) (hn : h.next e ≠ some x)
    (hu : h.chUsed ≠ some x) :
    (moveToFront h e).next x = h.next x ∧ (moveToFront h e).prev x = h.prev x := by
  cases hp' : h.prev e with
  | none => simp [moveToFront, hp']
  | some p =>
    have hxp : x ≠ p := fun he => hp (he ▸ hp')
    have hxq : ∀ q, h.next e = some q → x ≠ q := fun q hq he => hn (he ▸ hq)
    have hxu : ∀ u, h.chUsed = some u → x ≠ u := fun u hq he => hu (he ▸ hq)
    cases hn' : h.next e with
    | none =>
      cases hu' : h.chUsed with
      | none => simp [moveToFront, hp', hn', hu', update_apply, hx, hxp]
      | some u => simp [moveToFront, hp', hn', hu', update_apply, hx, hxp, hxu u hu']
    | some q =>
      cases hu' : h.chUsed with
      | none => simp [moveToFront, hp', hn', hu', update_apply, hx, hxp, hxq q hn']
      | some u => simp [moveToFront, hp', hn', hu', update_apply, hx, hxp, hxq q hn', hxu u hu']

theorem moveToFront_bucket (hb : h.Bucket link (as ++ e :: bs) free) :
    (moveToFront h e).Bucket link (e :: (as ++ bs)) free := by
  have hu := hb.usedRep
  have hprev : h.prev e = as.getLast? := hu.prev_eq
  have hnext : h.next e = bs.head? := hu.next_eq
  have hhead : h.chUsed = (as ++ e :: bs).head? := hu.head_eq
  have he : e ∉ as ++ bs := (List.nodup_cons.mp (List.nodup_middle.mp hu.nodup)).1
  have hperm : (e :: (as ++ bs) ++ free).Perm (List.range link) := by
    refine List.Perm.trans ?_ hb.perm
    exact (List.perm_append_right_iff free).mpr List.perm_middle.symm
  refine ⟨?_, ?_, hperm⟩
  · cases hp : h.prev e with
    | none =>
      have has : as = [] := List.getLast?_eq_none_iff.mp (hprev.symm.trans hp)
      subst has
      simpa [moveToFront, hp] using hu
    | some p =>
      obtain ⟨u, hu'⟩ : ∃ u, h.chUsed = some u := by
        rw [hhead]
        cases as <;> simp
      rw [moveToFront_usedList hp hu', unlinkEntry_usedList]
      exact hu.unlink.pushFront he
  · obtain ⟨t, hf⟩ := hb.freeRep
    have hframe : ∀ x ∈ free, (moveToFront h e).next x = h.next x ∧
        (moveToFront h e).prev x = h.prev x := by
      intro x hx
      have hout : ∀ y ∈ as ++ e :: bs, y ≠ x := fun y hy hyx => hb.disjoint hy (hyx ▸ hx)
      apply moveToFront_frame
      · exact (hout e (by simp)).symm
      · rw [hprev]
        exact fun hm => hout x (by simp [List.mem_of_getLast? hm]) rfl
      · rw [hnext]
        exact fun hm => hout x (by simp [List.mem_of_head? hm]) rfl
      · rw [hhead]
        exact fun hm => hout x (List.mem_of_head? hm) rfl
    exact ⟨t, hf.congr (fun x hx => (hframe x hx).1) (fun x hx => (hframe x hx).2)
      moveToFront_chFree rfl⟩

theorem lookupFrom_eq {b t : Option ℕ} {start : Option ℕ}
    (hs : Seg h.next h.prev b start none t used) :
    lookupFrom h idx start = some (used.find? (fun e => h.idx e = idx)) := by
  induction used generalizing b start with
  | nil =>
    rw [hs.1, lookupFrom]
    rfl
  | cons e used ih =>
    obtain ⟨rfl, -, hrest⟩ := hs
    rw [lookupFrom]
    by_cases he : h.idx e = idx
    · simp [he]
    · simp only [he, ↓reduceIte, ih hrest, List.find?_cons, decide_false]

section init

variable {raw : ℕ → CacheEntry} {base i : ℕ}

theorem initCacheHeader_next (hi : i < link) :
    (initCacheHeader raw base link).next i = if i + 1 = link then none else some (i + 1) := by
  simp only [initCacheHeader, CacheHeader.next]
  split_ifs <;> first | rfl | omega | (simp only [Option.some.injEq]; omega)

theorem initCacheHeader_prev (hl : 2 ≤ link) (hi : i < link) :
    (initCacheHeader raw base link).prev i = if i = 0 then none else some (i - 1) := by
  simp only [initCacheHeader, CacheHeader.prev]
  split_ifs <;> first | rfl | omega | (simp only [Option.some.injEq]; omega)

theorem initCacheHeader_data (hi : i < link) :
    (initCacheHeader raw base link).data i = base + i := by
  simp only [initCacheHeader, CacheHeader.data]
  split_ifs <;> first | rfl | omega

theorem initCacheHeader_seg (raw : ℕ → CacheEntry) (base : ℕ) (hl : 2 ≤ link) {k : ℕ} (hk : i + k = link) :
    Seg (initCacheHeader raw base link).next (initCacheHeader raw base link).prev
      (if i = 0 then none else some (i - 1)) (if i = link then none else some i) none
      (some (link - 1)) (List.range' i k) := by
  induction k generalizing i with
  | zero =>
    have hi : i = link := by omega
    simp [hi, show link ≠ 0 by omega]
  | succ k ih =>
    rw [List.range'_succ]
    refine ⟨if_neg (by omega), initCacheHeader_prev hl (by omega), ?_⟩
    rw [initCacheHeader_next (by omega)]
    simpa using ih (i := i + 1) (by omega)

theorem initCacheHeader_bucket (hl : 2 ≤ link) :
    (initCacheHeader raw base link).Bucket link [] (List.range link) := by
  refine ⟨⟨⟨rfl, rfl⟩, List.nodup_nil⟩, ⟨some (link - 1), ?_, List.nodup_range⟩, by simp⟩
  have hseg := initCacheHeader_seg raw base hl (Nat.zero_add link)
  rw [if_pos rfl, if_neg (by omega)] at hseg
  rw [List.range_eq_range']
  exact hseg

end init

end SBlktrace
