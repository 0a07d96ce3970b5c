import SBlktrace.CacheRefinement
import Mathlib.Tactic.Common

namespace SBlktrace

open Function DoublyLinked CacheHeader

variable {δ : Type}

inductive CacheOp (δ : Type) where
  | encache (idx : UInt32) (buf : δ)
  | decache (idx : UInt32)
  | lookup (idx : UInt32)

/-- One call, with the data of the entry it returns (`none` for `NULL`). For `decache` this is
what the freed entry still holds. -/
def Cache.step (c : Cache δ) : CacheOp δ → Option (Cache δ × Option δ)
  | .encache idx buf => (c.encache idx buf).map (fun r => (r.1, r.2.map (r.1.ceData idx)))
  | .decache idx => (c.decache idx).map (fun r => (r.1, r.2.map (c.ceData idx)))
  | .lookup idx => (c.lookupCache idx).map (fun r => (c, r.map (c.ceData idx)))

def Cache.run (c : Cache δ) : List (CacheOp δ) → Option (Cache δ × List (Option δ))
  | [] => some (c, [])
  | op :: ops => do
    let (c, out) ← c.step op
    let (c, outs) ← Cache.run c ops
    some (c, out :: outs)

namespace RecencyMap

def step (ncache link : ℕ) (m : RecencyMap δ) : CacheOp δ → RecencyMap δ × Option δ
  | .encache idx buf => (m.encache ncache link idx buf, some buf)
  | .decache idx => (m.decache ncache idx, m.lookup ncache idx)
  | .lookup idx => (m, m.lookup ncache idx)

def run (ncache link : ℕ) (m : RecencyMap δ) : List (CacheOp δ) → RecencyMap δ × List (Option δ)
  | [] => (m, [])
  | op :: ops =>
    let (m, out) := m.step ncache link op
    let (m, outs) := run ncache link m ops
    (m, out :: outs)

def empty : RecencyMap δ := ⟨fun _ => [], 0⟩

theorem run_append (ncache link : ℕ) (m : RecencyMap δ) (ops ops' : List (CacheOp δ)) :
    (run ncache link m (ops ++ ops')).1 =
      (run ncache link (run ncache link m ops).1 ops').1 := by
  induction ops generalizing m with
  | nil => rfl
  | cons op ops ih => simp only [List.cons_append, run, ih]

end RecencyMap

variable {ncache link : ℕ} {c : Cache δ} {m : RecencyMap δ}

theorem CacheSim.step (hs : CacheSim ncache link c m) (hn : 1 ≤ ncache) (hl : 2 ≤ link)
    (op : CacheOp δ) :
    ∃ c', c.step op = some (c', (m.step ncache link op).2) ∧
      CacheSim ncache link c' (m.step ncache link op).1 := by
  cases op with
  | encache idx buf =>
    obtain ⟨c', entry, hrun, hs', hval⟩ := hs.encache idx buf hn hl
    exact ⟨c', by simp [Cache.step, hrun, hval, RecencyMap.step], hs'⟩
  | decache idx =>
    obtain ⟨c', entry, hrun, hs', hval⟩ := hs.decache idx hn
    exact ⟨c', by simp [Cache.step, hrun, hval, RecencyMap.step], hs'⟩
  | lookup idx =>
    obtain ⟨entry, hrun, hval⟩ := hs.lookupCache idx hn
    exact ⟨c, by simp [Cache.step, hrun, hval, RecencyMap.step], hs⟩

theorem CacheSim.run (hs : CacheSim ncache link c m) (hn : 1 ≤ ncache) (hl : 2 ≤ link)
    (ops : List (CacheOp δ)) :
    ∃ c', c.run ops = some (c', (m.run ncache link ops).2) ∧
      CacheSim ncache link c' (m.run ncache link ops).1 := by
  induction ops generalizing c m with
  | nil => exact ⟨c, rfl, hs⟩
  | cons op ops ih =>
    obtain ⟨c₁, hstep, hs₁⟩ := hs.step hn hl op
    obtain ⟨c₂, hrun, hs₂⟩ := ih hs₁
    exact ⟨c₂, by simp [Cache.run, hstep, hrun, RecencyMap.run], hs₂⟩

theorem initCache_sim (raw : ℕ → ℕ → CacheEntry) (heap : ℕ → δ) (hl : 2 ≤ link) :
    CacheSim ncache link (initCache raw heap ncache link) RecencyMap.empty := by
  refine ⟨rfl, ?_, ?_, rfl⟩
  · intro k _
    refine ⟨[], List.range link, initCacheHeader_bucket hl, rfl, List.nodup_nil, ?_⟩
    simp
  · intro k _ k' _ e he e' he' hd
    simp only [initCache, initCacheHeader_data he, initCacheHeader_data he'] at hd
    have hkk : k = k' := by
      have h₁ : (k * link + e) / link = k := by
        rw [Nat.mul_comm, Nat.mul_add_div (by omega), Nat.div_eq_of_lt he, Nat.add_zero]
      have h₂ : (k' * link + e') / link = k' := by
        rw [Nat.mul_comm, Nat.mul_add_div (by omega), Nat.div_eq_of_lt he', Nat.add_zero]
      rw [← h₁, hd, h₂]
    subst hkk
    exact ⟨rfl, by omega⟩

/-- Every run of the cache after `init_cache` returns, answers as the recency map does, and ends
in a state that represents it; the eviction counter is the number of dropped pairs in the 32 bits
of `c_thrash_count`. -/
theorem cache_refines_recencyMap (ncache link : ℕ) (raw : ℕ → ℕ → CacheEntry) (heap : ℕ → δ)
    (hn : 1 ≤ ncache) (hl : 2 ≤ link) (ops : List (CacheOp δ)) :
    ∃ c, (initCache raw heap ncache link).run ops =
        some (c, (RecencyMap.empty.run ncache link ops).2) ∧
      CacheSim ncache link c (RecencyMap.empty.run ncache link ops).1 :=
  (initCache_sim raw heap hl).run hn hl ops

theorem cache_refines_recencyMap_small :
    1 ≤ 1 ∧ 2 ≤ 2 ∧ ∃ c, (initCache (fun _ _ => ⟨0, none, none, 0⟩) (fun _ => 0) 1 2).run
        [.encache 1 10, .encache 2 20, .encache 3 30, .lookup 1, .lookup 3, .decache 2] =
      some (c, [some 10, some 20, some 30, none, some 30, some 20]) ∧
      CacheSim 1 2 c (RecencyMap.empty.run 1 2
        [.encache 1 10, .encache 2 20, .encache 3 30, .lookup 1, .lookup 3, .decache 2]).1 :=
  ⟨by decide, by decide,
    cache_refines_recencyMap 1 2 _ _ (by decide) (by decide) _⟩

def cyclingRun (n : ℕ) : List (CacheOp Unit) :=
  (List.range n).map (fun i => .encache (UInt32.ofNat (i % 3)) ())

theorem cyclingRun_succ (n : ℕ) :
    (RecencyMap.empty.run 1 2 (cyclingRun (n + 1))).1 =
      (RecencyMap.empty.run 1 2 (cyclingRun n)).1.encache 1 2 (UInt32.ofNat (n % 3)) () := by
  simp only [cyclingRun, List.range_succ, List.map_append, RecencyMap.run_append]
  rfl

theorem RecencyMap.encache_third {a b idx : UInt32} (m : RecencyMap Unit)
    (hm : m.buckets 0 = [(a, ()), (b, ())]) (ha : a ≠ idx) (hb : b ≠ idx) :
    (m.encache 1 2 idx ()).buckets 0 = [(idx, ()), (a, ())] ∧
      (m.encache 1 2 idx ()).dropped = m.dropped + 1 := by
  simp [RecencyMap.encache, RecencyMap.touch, Nat.mod_one, hm, ha, hb, List.dropLast]

theorem cyclingRun_dropped (n : ℕ) :
    (RecencyMap.empty.run 1 2 (cyclingRun (n + 2))).1.buckets 0 =
        [(UInt32.ofNat ((n + 1) % 3), ()), (UInt32.ofNat (n % 3), ())] ∧
      (RecencyMap.empty.run 1 2 (cyclingRun (n + 2))).1.dropped = n := by
  induction n with
  | zero => decide
  | succ n ih =>
    have hlt : ∀ k, UInt32.ofNat (k % 3) ≠ UInt32.ofNat ((n + 2) % 3) ∨ k % 3 = (n + 2) % 3 := by
      intro k
      by_cases hk : k % 3 = (n + 2) % 3
      · exact Or.inr hk
      · refine Or.inl fun h => hk ?_
        have := congrArg UInt32.toNat h
        simp only [UInt32.toNat_ofNat'] at this
        omega
    obtain ⟨hb, hd⟩ := RecencyMap.encache_third _ ih.1
      ((hlt (n + 1)).resolve_right (by omega)) ((hlt n).resolve_right (by omega))
    rw [cyclingRun_succ (n + 2), hd, ih.2]
    exact ⟨hb, rfl⟩

/-- A bucket cycled through until `c_thrash_count` is back at zero. -/
theorem thrashCount_wraps :
    ¬∀ (ncache link : ℕ) (raw : ℕ → ℕ → CacheEntry) (heap : ℕ → Unit) (ops : List (CacheOp Unit)),
      1 ≤ ncache → 2 ≤ link →
      ∀ r, (initCache raw heap ncache link).run ops = some r →
        r.1.cThrashCount.toNat = (RecencyMap.empty.run ncache link ops).1.dropped := by
  intro hall
  have hinit : CacheSim 1 2 (initCache (fun _ _ => ⟨0, none, none, 0⟩) (fun _ => ()) 1 2)
      RecencyMap.empty := initCache_sim _ _ le_rfl
  obtain ⟨c, hrun, hs⟩ := hinit.run le_rfl le_rfl (cyclingRun (2 ^ 32 + 2))
  have heq := hall 1 2 _ _ _ le_rfl le_rfl _ hrun
  have hthrash := hs.thrash
  rw [(cyclingRun_dropped (2 ^ 32)).2] at heq hthrash
  rw [hthrash, UInt32.toNat_ofNat'] at heq
  simp at heq

end SBlktrace
