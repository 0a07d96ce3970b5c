import SBlktrace.CacheBuckets
import Mathlib.Tactic.Common

namespace SBlktrace

open Function DoublyLinked CacheHeader

variable {δ : Type}

/-- What the cache is for: in each bucket the most recently cached pairs, newest first, and the
number of pairs pushed out so far. -/
structure RecencyMap (δ : Type) where
  buckets : ℕ → List (UInt32 × δ)
  dropped : ℕ

namespace RecencyMap

def touch (idx : UInt32) (d : δ) (l : List (UInt32 × δ)) : List (UInt32 × δ) :=
  (idx, d) :: l.filter (fun p => p.1 ≠ idx)

def encache (ncache link : ℕ) (m : RecencyMap δ) (idx : UInt32) (d : δ) : RecencyMap δ :=
  let k := idx.toNat % ncache
  let l := touch idx d (m.buckets k)
  if link < l.length then ⟨update m.buckets k l.dropLast, m.dropped + 1⟩
  else ⟨update m.buckets k l, m.dropped⟩

def decache (ncache : ℕ) (m : RecencyMap δ) (idx : UInt32) : RecencyMap δ :=
  let k := idx.toNat % ncache
  ⟨update m.buckets k ((m.buckets k).filter (fun p => p.1 ≠ idx)), m.dropped⟩

def lookup (ncache : ℕ) (m : RecencyMap δ) (idx : UInt32) : Option δ :=
  ((m.buckets (idx.toNat % ncache)).find? (fun p => p.1 = idx)).map Prod.snd

end RecencyMap

def CacheHeader.view (h : CacheHeader) (heap : ℕ → δ) (e : ℕ) : UInt32 × δ :=
  (h.idx e, heap (h.data e))

structure BucketSim (h : CacheHeader) (heap : ℕ → δ) (ncache link k : ℕ)
    (l : List (UInt32 × δ)) (used free : List ℕ) : Prop where
  bucket : h.Bucket link used free
  view : l = used.map (h.view heap)
  distinct : (used.map h.idx).Nodup
  home : ∀ e ∈ used, (h.idx e).toNat % ncache = k

structure CacheSim (ncache link : ℕ) (c : Cache δ) (m : RecencyMap δ) : Prop where
  ncacheEq : c.cNcache = ncache
  buckets : ∀ k < ncache, ∃ used free, BucketSim (c.cCh k) c.heap ncache link k (m.buckets k) used free
  unshared : ∀ k < ncache, ∀ k' < ncache, ∀ e < link, ∀ e' < link,
    (c.cCh k).data e = (c.cCh k').data e' → k = k' ∧ e = e'
  thrash : c.cThrashCount = UInt32.ofNat m.dropped

variable {h h' : CacheHeader} {heap heap' : ℕ → δ} {ncache link k : ℕ} {l : List (UInt32 × δ)}
  {used free as bs : List ℕ} {e : ℕ} {idx : UInt32} {buf : δ}

theorem find_view : (used.map (h.view heap)).find? (fun p => p.1 = idx) =
    (used.find? (fun e => h.idx e = idx)).map (h.view heap) := by
  induction used with
  | nil => rfl
  | cons e used ih =>
    by_cases he : h.idx e = idx
    · simp [view, he]
    · simp only [List.map_cons, List.find?_cons, view, he, decide_false]
      exact ih

theorem filter_view (hnd : ((as ++ e :: bs).map h.idx).Nodup) (he : h.idx e = idx) :
    ((as ++ e :: bs).map (h.view heap)).filter (fun p => p.1 ≠ idx) =
      (as ++ bs).map (h.view heap) := by
  have hne : ∀ x ∈ as ++ bs, h.idx x ≠ idx := by
    intro x hx hxi
    simp only [List.map_append, List.map_cons] at hnd
    have := (List.nodup_cons.mp (List.nodup_middle.mp hnd)).1
    rw [← List.map_append, he, ← hxi] at this
    exact this (List.mem_map_of_mem hx)
  simp only [List.map_append, List.map_cons, List.filter_append, List.filter_cons, view, he]
  simp only [ne_eq, not_true_eq_false, decide_false, Bool.false_eq_true, ↓reduceIte]
  congr 1
  · apply List.filter_eq_self.mpr
    simp only [List.mem_map, decide_eq_true_eq]
    rintro _ ⟨x, hx, rfl⟩
    exact hne x (by simp [hx])
  · apply List.filter_eq_self.mpr
    simp only [List.mem_map, decide_eq_true_eq]
    rintro _ ⟨x, hx, rfl⟩
    exact hne x (by simp [hx])

theorem filter_view_absent (hno : used.find? (fun e => h.idx e = idx) = none) :
    (used.map (h.view heap)).filter (fun p => p.1 ≠ idx) = used.map (h.view heap) := by
  apply List.filter_eq_self.mpr
  simp only [List.mem_map, decide_eq_true_eq]
  rintro _ ⟨x, hx, rfl⟩
  simpa [view] using List.find?_eq_none.mp hno x hx

theorem find_split (hs : used.find? (fun e => h.idx e = idx) = some e) :
    h.idx e = idx ∧ ∃ as bs, used = as ++ e :: bs := by
  obtain ⟨he, as, bs, hab, -⟩ := List.find?_eq_some_iff_append.mp hs
  exact ⟨by simpa using he, as, bs, hab⟩

namespace BucketSim

theorem lookup (hb : BucketSim h heap ncache link k l used free) :
    lookupFrom h idx h.chUsed = some (used.find? (fun e => h.idx e = idx)) :=
  lookupFrom_eq hb.bucket.usedRep.seg

theorem congr_heap (hb : BucketSim h heap ncache link k l used free)
    (hh : ∀ e < link, heap' (h.data e) = heap (h.data e)) :
    BucketSim h heap' ncache link k l used free := by
  refine ⟨hb.bucket, ?_, hb.distinct, hb.home⟩
  rw [hb.view]
  apply List.map_congr_left
  intro e he
  simp only [CacheHeader.view, hh e (hb.bucket.lt (by simp [he]))]

theorem remove (hb : BucketSim h heap ncache link k l (as ++ e :: bs) free) :
    BucketSim (removeCacheEntry h e) heap ncache link k (l.filter (fun p => p.1 ≠ h.idx e))
      (as ++ bs) (e :: free) := by
  refine ⟨removeCacheEntry_bucket hb.bucket, ?_, ?_, ?_⟩
  · rw [hb.view, filter_view hb.distinct rfl]
    apply List.map_congr_left
    intro x _
    simp only [CacheHeader.view, removeCacheEntry_idx, removeCacheEntry_data]
  · rw [removeCacheEntry_idx]
    exact hb.distinct.sublist (List.Sublist.map _ (by simp))
  · intro x hx
    rw [removeCacheEntry_idx]
    exact hb.home x (by simp only [List.mem_append, List.mem_cons] at hx ⊢; tauto)

theorem insert {f : ℕ} (buf : δ) (hb : BucketSim h heap ncache link k l used (f :: free))
    (hno : used.find? (fun e => h.idx e = idx) = none) (hk : idx.toNat % ncache = k)
    (hun : ∀ e < link, ∀ e' < link, h.data e = h.data e' → e = e') :
    ∃ h', insertCacheEntry h idx = (h', some f) ∧ h'.data = h.data ∧
      BucketSim h' (update heap (h.data f) buf) ncache link k (RecencyMap.touch idx buf l)
        (f :: used) free := by
  obtain ⟨h', hins, hb', hidx, hdata⟩ := insertCacheEntry_bucket idx hb.bucket
  have hfu : f ∉ used := fun hm => hb.bucket.disjoint hm (by simp)
  have hne : ∀ x ∈ used, x ≠ f := fun x hx hxf => hfu (hxf ▸ hx)
  have hidx' : ∀ x ∈ used, h'.idx x = h.idx x := fun x hx => by
    rw [hidx, update_of_ne (hne x hx)]
  have hmap : used.map h'.idx = used.map h.idx := List.map_congr_left hidx'
  refine ⟨h', hins, hdata, hb', ?_, ?_, ?_⟩
  · rw [RecencyMap.touch, hb.view, filter_view_absent hno, List.map_cons]
    congr 1
    · simp [CacheHeader.view, hidx, hdata]
    · apply List.map_congr_left
      intro x hx
      have hdx : h.data x ≠ h.data f := fun he =>
        hne x hx (hun x (hb.bucket.lt (by simp [hx])) f (hb.bucket.lt (by simp)) he)
      simp only [CacheHeader.view, hidx' x hx, hdata, update_of_ne hdx]
  · rw [List.map_cons, hmap, List.nodup_cons]
    refine ⟨?_, hb.distinct⟩
    rw [hidx, update_self, List.mem_map]
    rintro ⟨x, hx, hxi⟩
    exact absurd hxi (by simpa using List.find?_eq_none.mp hno x hx)
  · intro x hx
    rcases List.mem_cons.mp hx with rfl | hx
    · rw [hidx, update_self, hk]
    · rw [hidx' x hx, hb.home x hx]

theorem front (buf : δ) (hb : BucketSim h heap ncache link k l (as ++ e :: bs) free) (he : h.idx e = idx)
    (hun : ∀ e < link, ∀ e' < link, h.data e = h.data e' → e = e') :
    BucketSim (moveToFront h e) (update heap (h.data e) buf) ncache link k
      (RecencyMap.touch idx buf l) (e :: (as ++ bs)) free := by
  have hnd := hb.bucket.usedRep.nodup
  have hne : ∀ x ∈ as ++ bs, x ≠ e := fun x hx hxe =>
    (List.nodup_cons.mp (List.nodup_middle.mp hnd)).1 (hxe ▸ hx)
  have hsub : ∀ x ∈ as ++ bs, x ∈ as ++ e :: bs := by
    intro x hx
    simp only [List.mem_append, List.mem_cons] at hx ⊢
    tauto
  refine ⟨moveToFront_bucket hb.bucket, ?_, ?_, ?_⟩
  · rw [RecencyMap.touch, hb.view, filter_view hb.distinct he, List.map_cons]
    congr 1
    · simp [CacheHeader.view, moveToFront_idx, moveToFront_data, he]
    · apply List.map_congr_left
      intro x hx
      have hdx : h.data x ≠ h.data e := fun hd =>
        hne x hx (hun x (hb.bucket.lt (List.mem_append_left _ (hsub x hx))) e (hb.bucket.lt (by simp)) hd)
      simp only [CacheHeader.view, moveToFront_idx, moveToFront_data, update_of_ne hdx]
  · rw [moveToFront_idx]
    have := hb.distinct
    simp only [List.map_append, List.map_cons] at this ⊢
    exact List.nodup_middle.mp this
  · intro x hx
    rw [moveToFront_idx]
    rcases List.mem_cons.mp hx with rfl | hx
    · exact hb.home x (by simp)
    · exact hb.home x (hsub x hx)

end BucketSim

namespace CacheSim

variable {c c' : Cache δ} {m : RecencyMap δ}

theorem bucket_lt (hs : CacheSim ncache link c m) (hn : 1 ≤ ncache) (idx : UInt32) :
    c.bucket idx < ncache := by
  rw [Cache.bucket, hs.ncacheEq]
  exact Nat.mod_lt _ hn

theorem set_bucket (hs : CacheSim ncache link c m) {n : ℕ} (used free : List ℕ) (hk : k < ncache)
    (hcNcache : c'.cNcache = c.cNcache) (hcCh : c'.cCh = update c.cCh k h)
    (hheap : ∀ k' < ncache, k' ≠ k → ∀ e < link,
      c'.heap ((c.cCh k').data e) = c.heap ((c.cCh k').data e))
    (hdata : h.data = (c.cCh k).data)
    (hb : BucketSim h c'.heap ncache link k l used free)
    (ht : c'.cThrashCount = UInt32.ofNat n) :
    CacheSim ncache link c' ⟨update m.buckets k l, n⟩ := by
  have hdata' : ∀ j, (c'.cCh j).data = (c.cCh j).data := by
    intro j
    rw [hcCh]
    by_cases hj : j = k
    · subst hj
      rw [update_self, hdata]
    · rw [update_of_ne hj]
  refine ⟨hcNcache.trans hs.ncacheEq, ?_, ?_, ht⟩
  · intro j hj
    by_cases hjk : j = k
    · subst hjk
      refine ⟨used, free, ?_⟩
      simp only [hcCh, update_self]
      exact hb
    · obtain ⟨used', free', hb'⟩ := hs.buckets j hj
      refine ⟨used', free', ?_⟩
      simp only [hcCh, update_of_ne hjk]
      exact hb'.congr_heap (hheap j hj hjk)
  · intro j hj j' hj' e he e' he' hd
    rw [hdata', hdata'] at hd
    exact hs.unshared j hj j' hj' e he e' he' hd

theorem memcpy_frame (hs : CacheSim ncache link c m) (hk : k < ncache) (he : e < link) :
    ∀ k' < ncache, k' ≠ k → ∀ e' < link,
      update c.heap ((c.cCh k).data e) buf ((c.cCh k').data e') = c.heap ((c.cCh k').data e') := by
  intro k' hk' hne e' he'
  apply update_of_ne
  intro hd
  exact hne (hs.unshared k' hk' k hk e' he' e he hd).1

theorem data_inj (hs : CacheSim ncache link c m) (hk : k < ncache) :
    ∀ e < link, ∀ e' < link, (c.cCh k).data e = (c.cCh k).data e' → e = e' :=
  fun e he e' he' hd => (hs.unshared k hk k hk e he e' he' hd).2

theorem lookupCache (idx : UInt32) (hs : CacheSim ncache link c m) (hn : 1 ≤ ncache) :
    ∃ entry, c.lookupCache idx = some entry ∧ entry.map (c.ceData idx) = m.lookup ncache idx := by
  obtain ⟨used, free, hb⟩ := hs.buckets _ (hs.bucket_lt hn idx)
  refine ⟨_, hb.lookup, ?_⟩
  have hk : idx.toNat % ncache = c.bucket idx := by rw [Cache.bucket, hs.ncacheEq]
  rw [RecencyMap.lookup, hk, hb.view, find_view, Option.map_map]
  rfl

theorem decache (idx : UInt32) (hs : CacheSim ncache link c m) (hn : 1 ≤ ncache) :
    ∃ c' entry, c.decache idx = some (c', entry) ∧
      CacheSim ncache link c' (m.decache ncache idx) ∧
      entry.map (c.ceData idx) = m.lookup ncache idx := by
  have hlt := hs.bucket_lt hn idx
  obtain ⟨used, free, hb⟩ := hs.buckets _ hlt
  have hk : idx.toNat % ncache = c.bucket idx := by rw [Cache.bucket, hs.ncacheEq]
  have hlook : c.lookupCache idx =
      some (used.find? (fun e => (c.cCh (c.bucket idx)).idx e = idx)) := hb.lookup
  have hn0 : c.cNcache ≠ 0 := by rw [hs.ncacheEq]; omega
  have hval : (used.find? (fun e => (c.cCh (c.bucket idx)).idx e = idx)).map (c.ceData idx) =
      m.lookup ncache idx := by
    rw [RecencyMap.lookup, hk, hb.view, find_view, Option.map_map]
    rfl
  cases hf : used.find? (fun e => (c.cCh (c.bucket idx)).idx e = idx) with
  | none =>
    refine ⟨c, none, by simp [Cache.decache, hlook, hf], ?_, by rw [← hval, hf]⟩
    have hsame : m.decache ncache idx = m := by
      rw [RecencyMap.decache, hk, hb.view, filter_view_absent hf, ← hb.view, update_eq_self]
    rw [hsame]
    exact hs
  | some e =>
    obtain ⟨hidx, as, bs, rfl⟩ := find_split hf
    refine ⟨_, some e, by simp only [Cache.decache, hlook, hf, Option.bind_eq_bind,
      Option.bind_some, if_neg hn0]; rfl, ?_, by rw [← hval, hf]⟩
    rw [RecencyMap.decache, hk]
    refine hs.set_bucket (as ++ bs) (e :: free) hlt rfl rfl (fun _ _ _ _ _ => rfl)
      removeCacheEntry_data ?_ hs.thrash
    have := hb.remove
    rwa [hidx] at this

theorem insertAndCopy {f : ℕ} (buf : δ) (hs : CacheSim ncache link c m) (hn : 1 ≤ ncache)
    (hb : BucketSim (c.cCh (c.bucket idx)) c.heap ncache link (c.bucket idx) l used (f :: free))
    (hno : used.find? (fun e => (c.cCh (c.bucket idx)).idx e = idx) = none) :
    ∃ c' entry, c.insertAndCopy (c.bucket idx) idx buf = (c', some entry) ∧
      CacheSim ncache link c'
        ⟨update m.buckets (c.bucket idx) (RecencyMap.touch idx buf l), m.dropped⟩ ∧
      c'.ceData idx entry = buf := by
  have hlt := hs.bucket_lt hn idx
  have hk : idx.toNat % ncache = c.bucket idx := by rw [Cache.bucket, hs.ncacheEq]
  have hf : f < link := hb.bucket.lt (by simp)
  obtain ⟨h', hins, hdata, hb'⟩ := hb.insert buf hno hk (hs.data_inj hlt)
  refine ⟨((c.setHeader (c.bucket idx) h').memcpy (c.bucket idx) f buf), f, ?_, ?_, ?_⟩
  · simp only [Cache.insertAndCopy, hins]
  · have haddr : ((c.setHeader (c.bucket idx) h').cCh (c.bucket idx)).data f =
        (c.cCh (c.bucket idx)).data f := by
      simp [Cache.setHeader, hdata]
    refine hs.set_bucket (f :: used) free hlt rfl rfl ?_ hdata ?_ hs.thrash
    · simp only [Cache.memcpy, haddr]
      exact hs.memcpy_frame hlt hf
    · simp only [Cache.memcpy, haddr]
      exact hb'
  · simp [Cache.ceData, Cache.memcpy, Cache.setHeader, Cache.bucket]

theorem encache_found (idx : UInt32) (buf : δ) (hs : CacheSim ncache link c m) (hn : 1 ≤ ncache)
    (hb : BucketSim (c.cCh (c.bucket idx)) c.heap ncache link (c.bucket idx)
      (m.buckets (c.bucket idx)) used free)
    (hf : used.find? (fun e => (c.cCh (c.bucket idx)).idx e = idx) = some e) :
    ∃ c' entry, c.encache idx buf = some (c', some entry) ∧
      CacheSim ncache link c' (m.encache ncache link idx buf) ∧ c'.ceData idx entry = buf := by
  have hlt := hs.bucket_lt hn idx
  have hk : idx.toNat % ncache = c.bucket idx := by rw [Cache.bucket, hs.ncacheEq]
  have hlook : c.lookupCache idx =
      some (used.find? (fun e => (c.cCh (c.bucket idx)).idx e = idx)) := hb.lookup
  have hn0 : c.cNcache ≠ 0 := by rw [hs.ncacheEq]; omega
  have hlen := hb.bucket.length
  obtain ⟨hidx, as, bs, rfl⟩ := find_split hf
  have hb' := hb.front buf hidx (hs.data_inj hlt)
  have hshort : ¬ link < (RecencyMap.touch idx buf (m.buckets (c.bucket idx))).length := by
    rw [RecencyMap.touch, hb.view, filter_view hb.distinct hidx]
    simp only [List.length_append, List.length_cons, List.length_map] at hlen ⊢
    omega
  have haddr : ((c.setHeader (c.bucket idx) (moveToFront (c.cCh (c.bucket idx)) e)).cCh
      (c.bucket idx)).data e = (c.cCh (c.bucket idx)).data e := by
    simp [Cache.setHeader, moveToFront_data]
  refine ⟨_, e, by simp only [Cache.encache, hlook, hf, if_neg hn0, Option.bind_eq_bind,
    Option.bind_some]; rfl, ?_, ?_⟩
  · simp only [RecencyMap.encache, hk, if_neg hshort]
    refine hs.set_bucket (e :: (as ++ bs)) free hlt rfl rfl ?_ moveToFront_data ?_ hs.thrash
    · simp only [Cache.memcpy, haddr]
      exact hs.memcpy_frame hlt (hb.bucket.lt (by simp))
    · simp only [Cache.memcpy, haddr]
      exact hb'
  · simp [Cache.ceData, Cache.memcpy, Cache.setHeader, Cache.bucket]

theorem encache_free {f : ℕ} (idx : UInt32) (buf : δ) (hs : CacheSim ncache link c m)
    (hn : 1 ≤ ncache)
    (hb : BucketSim (c.cCh (c.bucket idx)) c.heap ncache link (c.bucket idx)
      (m.buckets (c.bucket idx)) used (f :: free))
    (hf : used.find? (fun e => (c.cCh (c.bucket idx)).idx e = idx) = none) :
    ∃ c' entry, c.encache idx buf = some (c', some entry) ∧
      CacheSim ncache link c' (m.encache ncache link idx buf) ∧ c'.ceData idx entry = buf := by
  have hk : idx.toNat % ncache = c.bucket idx := by rw [Cache.bucket, hs.ncacheEq]
  have hlook : c.lookupCache idx =
      some (used.find? (fun e => (c.cCh (c.bucket idx)).idx e = idx)) := hb.lookup
  have hn0 : c.cNcache ≠ 0 := by rw [hs.ncacheEq]; omega
  have hlen := hb.bucket.length
  have hchf : (c.cCh (c.bucket idx)).chFree = some f := by simpa using hb.bucket.chFree_eq
  obtain ⟨c', entry, hins, hs', hval⟩ := hs.insertAndCopy buf hn hb hf
  refine ⟨c', entry, ?_, ?_, hval⟩
  · simp only [Cache.encache, hlook, hf, if_neg hn0, Option.bind_eq_bind, Option.bind_some,
      hchf, hins]
  · have hshort : ¬ link < (RecencyMap.touch idx buf (m.buckets (c.bucket idx))).length := by
      rw [RecencyMap.touch, hb.view, filter_view_absent hf]
      simp only [List.length_cons, List.length_map] at hlen ⊢
      omega
    simp only [RecencyMap.encache, hk, if_neg hshort]
    exact hs'

-- the bucket is full: its tail is freed first, and the new pair takes the tail's entry
theorem encache_full {t : ℕ} (idx : UInt32) (buf : δ) (hs : CacheSim ncache link c m)
    (hn : 1 ≤ ncache)
    (hb : BucketSim (c.cCh (c.bucket idx)) c.heap ncache link (c.bucket idx)
      (m.buckets (c.bucket idx)) (as ++ [t]) [])
    (hf : (as ++ [t]).find? (fun e => (c.cCh (c.bucket idx)).idx e = idx) = none) :
    ∃ c' entry, c.encache idx buf = some (c', some entry) ∧
      CacheSim ncache link c' (m.encache ncache link idx buf) ∧ c'.ceData idx entry = buf := by
  have hlt := hs.bucket_lt hn idx
  have hk : idx.toNat % ncache = c.bucket idx := by rw [Cache.bucket, hs.ncacheEq]
  have hlook : c.lookupCache idx =
      some ((as ++ [t]).find? (fun e => (c.cCh (c.bucket idx)).idx e = idx)) := hb.lookup
  have hn0 : c.cNcache ≠ 0 := by rw [hs.ncacheEq]; omega
  have hlen := hb.bucket.length
  have htouch : RecencyMap.touch idx buf (m.buckets (c.bucket idx)) =
      (idx, buf) :: (as ++ [t]).map ((c.cCh (c.bucket idx)).view c.heap) := by
    rw [RecencyMap.touch, hb.view, filter_view_absent hf]
  have habs : as.find? (fun e => (c.cCh (c.bucket idx)).idx e = idx) = none :=
    (List.find?_append.symm.trans hf |> Option.or_eq_none_iff.mp).1
  have hchf : (c.cCh (c.bucket idx)).chFree = none := by simpa using hb.bucket.chFree_eq
  have hcht : (c.cCh (c.bucket idx)).chTail = some t := by simpa using hb.bucket.chTail_eq
  have hb' := hb.remove
  simp only [List.append_nil] at hb'
  let c₁ : Cache δ :=
    { c.setHeader (c.bucket idx) (removeCacheEntry (c.cCh (c.bucket idx)) t) with
      cThrashCount := c.cThrashCount + 1 }
  have hs₁ : CacheSim ncache link c₁ ⟨update m.buckets (c.bucket idx)
      ((m.buckets (c.bucket idx)).filter
        (fun p => p.1 ≠ (c.cCh (c.bucket idx)).idx t)), m.dropped + 1⟩ := by
    refine hs.set_bucket as [t] hlt rfl rfl (fun _ _ _ _ _ => rfl) removeCacheEntry_data hb' ?_
    change c.cThrashCount + 1 = _
    rw [hs.thrash, UInt32.ofNat_add]
    rfl
  have hno : as.find? (fun e => (c₁.cCh (c.bucket idx)).idx e = idx) = none := by
    simp only [c₁, Cache.setHeader, update_self, removeCacheEntry_idx]
    exact habs
  have hb₁ : BucketSim (c₁.cCh (c.bucket idx)) c₁.heap ncache link (c.bucket idx)
      ((m.buckets (c.bucket idx)).filter (fun p => p.1 ≠ (c.cCh (c.bucket idx)).idx t))
      as [t] := by
    simpa only [c₁, Cache.setHeader, update_self] using hb'
  obtain ⟨c', entry, hins, hs', hval⟩ := hs₁.insertAndCopy buf hn hb₁ hno
  refine ⟨c', entry, ?_, ?_, hval⟩
  · simp only [Cache.encache, hlook, hf, if_neg hn0, Option.bind_eq_bind, Option.bind_some,
      hchf, hcht]
    exact congrArg some hins
  · have hlong : link < (RecencyMap.touch idx buf (m.buckets (c.bucket idx))).length := by
      rw [htouch]
      simp only [List.length_cons, List.length_map, List.length_nil] at hlen ⊢
      omega
    have hview : RecencyMap.touch idx buf ((m.buckets (c.bucket idx)).filter
        (fun p => p.1 ≠ (c.cCh (c.bucket idx)).idx t)) =
        (RecencyMap.touch idx buf (m.buckets (c.bucket idx))).dropLast := by
      rw [htouch, hb.view, filter_view hb.distinct rfl, List.append_nil]
      rw [RecencyMap.touch, filter_view_absent habs, List.map_append, List.map_cons,
        List.map_nil, ← List.cons_append, List.dropLast_concat]
    simp only [RecencyMap.encache, hk, if_pos hlong]
    have hbk : c₁.bucket idx = c.bucket idx := rfl
    simpa only [hbk, hview, update_idem] using hs'

theorem encache (idx : UInt32) (buf : δ) (hs : CacheSim ncache link c m) (hn : 1 ≤ ncache) (hl : 2 ≤ link) :
    ∃ c' entry, c.encache idx buf = some (c', some entry) ∧
      CacheSim ncache link c' (m.encache ncache link idx buf) ∧ c'.ceData idx entry = buf := by
  obtain ⟨used, free, hb⟩ := hs.buckets _ (hs.bucket_lt hn idx)
  cases hf : used.find? (fun e => (c.cCh (c.bucket idx)).idx e = idx) with
  | some e => exact hs.encache_found idx buf hn hb hf
  | none =>
    cases free with
    | cons f free => exact hs.encache_free idx buf hn hb hf
    | nil =>
      have hne : used ≠ [] := by
        rintro rfl
        have hlen := hb.bucket.length
        simp at hlen
        omega
      obtain ⟨as, t, rfl⟩ : ∃ as t, used = as ++ [t] :=
        ⟨_, _, (List.dropLast_append_getLast hne).symm⟩
      exact hs.encache_full idx buf hn hb hf

end CacheSim

end SBlktrace
