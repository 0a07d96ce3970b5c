import SBlktrace.RbWalk

/-!
The way that the trees are used throughout: nodes that lie in structures with a key, each key at
most once.
-/

namespace SBlktrace

open RBTree Function

variable {κ : Type} [LinearOrder κ]

inductive KeyedOp (κ : Type) where
  | insert (node : UInt64) (k : κ)
  | erase (node : UInt64)

namespace KeyedOp

def apply (m : κ → Option UInt64) : KeyedOp κ → (κ → Option UInt64) × UInt64
  | insert node k =>
    match m k with
    | some found => (m, found)
    | none => (update m k (some node), 0)
  | erase node => (fun k => if m k = some node then none else m k, 0)

theorem apply_insert_some {m : κ → Option UInt64} {node found : UInt64} {k : κ}
    (h : m k = some found) : (insert node k).apply m = (m, found) := by rw [apply, h]

theorem apply_insert_none {m : κ → Option UInt64} {node : UInt64} {k : κ} (h : m k = none) :
    (insert node k).apply m = (update m k (some node), 0) := by rw [apply, h]

/-- A node is put in with memory that is not in use, and taken out while it is in. -/
def Valid (m : κ → Option UInt64) : KeyedOp κ → Prop
  | insert node _ => node ≠ 0 ∧ Aligned node ∧ ∀ k, m k ≠ some node
  | erase node => ∃ k, m k = some node

def applyAll : (κ → Option UInt64) → List (KeyedOp κ) → (κ → Option UInt64) × List UInt64
  | m, [] => (m, [])
  | m, op :: ops => ((applyAll (op.apply m).1 ops).1, (op.apply m).2 :: (applyAll (op.apply m).1 ops).2)

def ValidAll : (κ → Option UInt64) → List (KeyedOp κ) → Prop
  | _, [] => True
  | m, op :: ops => op.Valid m ∧ ValidAll (op.apply m).1 ops

end KeyedOp

structure KeyedTree (κ : Type) where
  rb : RbState
  key : UInt64 → κ

namespace KeyedTree

def compareKey (s : KeyedTree κ) (k : κ) (n : UInt64) : Ordering := compare k (s.key n)

def step (fuel : ℕ) (s : KeyedTree κ) : KeyedOp κ → Option (KeyedTree κ × UInt64)
  | .insert node k => do
    let s := { s with key := update s.key node k }
    let (rb, found) ← s.rb.rbInsertBy (s.compareKey k) fuel node
    return ({ s with rb := rb }, found)
  | .erase node => do
    let rb ← s.rb.rbErase fuel node
    return ({ s with rb := rb }, 0)

def run (fuel : ℕ) : KeyedTree κ → List (KeyedOp κ) → Option (KeyedTree κ × List UInt64)
  | s, [] => some (s, [])
  | s, op :: ops => do
    let (s, found) ← s.step fuel op
    let (s, rest) ← s.run fuel ops
    return (s, found :: rest)

/-- A red-black tree whose nodes are those of a map, in the order of their keys. -/
structure Refines (s : KeyedTree κ) (t : RBNode UInt64) (m : κ → Option UInt64) : Prop where
  tree : s.rb.IsRbTree t
  sorted : t.toList.Pairwise fun a b => s.key a < s.key b
  map : ∀ k a, m k = some a ↔ a ∈ t.toList ∧ s.key a = k

variable {s s' : KeyedTree κ} {t t' : RBNode UInt64} {m : κ → Option UInt64} {fuel : ℕ} {k : κ}
  {node a b : UInt64}

theorem Refines.sorted_compareKey (h : s.Refines t m) (k : κ) :
    RbState.Sorted (s.compareKey k) t.toList := by
  refine h.sorted.imp fun {a b} hlt => ⟨fun ha => ?_, fun hb => ?_⟩
  · exact compare_lt_iff_lt.mpr ((compare_lt_iff_lt.mp ha).trans hlt)
  · exact compare_gt_iff_gt.mpr (hlt.trans (compare_gt_iff_gt.mp hb))

theorem Refines.lookup (h : s.Refines t m) (k : κ)
    (hfuel : 2 * (t.toList.length + 1).log2 < fuel) :
    s.rb.rbFind (s.compareKey k) fuel = some ((m k).getD 0) := by
  obtain ⟨a, ha, heq, hfind⟩ | ⟨hfind, hne⟩ :=
    RbState.rbFind_log h.tree (h.sorted_compareKey k) hfuel
  · have hkey : s.key a = k := (compare_eq_iff_eq.mp heq).symm
    rw [hfind, (h.map k a).mpr ⟨ha, hkey⟩]
    rfl
  · cases hk : m k with
    | none => exact hfind
    | some a =>
      obtain ⟨ha, hkey⟩ := (h.map k a).mp hk
      exact absurd (compare_eq_iff_eq.mpr hkey.symm) (hne a ha)

theorem Refines.setKey (h : s.Refines t m) (hnode : node ∉ t.toList) (k : κ) :
    Refines { s with key := update s.key node k } t m where
  tree := h.tree
  sorted := by
    refine h.sorted.imp_of_mem fun {a b} ha hb hlt => ?_
    have hane : a ≠ node := fun heq => hnode (heq ▸ ha)
    have hbne : b ≠ node := fun heq => hnode (heq ▸ hb)
    simpa only [update_of_ne hane, update_of_ne hbne] using hlt
  map k' a := by
    rw [h.map]
    refine and_congr_right fun ha => ?_
    have hane : a ≠ node := fun heq => hnode (heq ▸ ha)
    simp only [update_of_ne hane]

theorem Refines.step_insert (h : s.Refines t m) (hvalid : (KeyedOp.insert node k).Valid m)
    (hfuel : t.toList.length < fuel) :
    ∃ s' t', s.step fuel (.insert node k) = some (s', ((KeyedOp.insert node k).apply m).2) ∧
      s'.Refines t' ((KeyedOp.insert node k).apply m).1 ∧
      t'.toList.length ≤ t.toList.length + 1 := by
  obtain ⟨hne, hal, hfresh⟩ := hvalid
  have hnode : node ∉ t.toList := fun hmem => hfresh _ ((h.map _ _).mpr ⟨hmem, rfl⟩)
  obtain ⟨s₁, hs₁⟩ : ∃ s₁ : KeyedTree κ, s₁ = { s with key := update s.key node k } := ⟨_, rfl⟩
  have h₁ : s₁.Refines t m := hs₁ ▸ h.setKey hnode k
  have hself : s₁.key node = k := by rw [hs₁]; exact update_self _ _ _
  have hins := RbState.rbInsertBy_spec h₁.tree (h₁.sorted_compareKey k) hnode hne hal hfuel
  have hstep : ∀ rb found, s₁.rb.rbInsertBy (s₁.compareKey k) fuel node = some (rb, found) →
      s.step fuel (.insert node k) = some ({ s₁ with rb := rb }, found) := by
    intro rb found heq
    rw [hs₁] at heq ⊢
    rw [step, Option.bind_eq_bind, heq]
    rfl
  cases hk : m k with
  | some found =>
    rw [KeyedOp.apply_insert_some hk]
    obtain ⟨hfound, hkey⟩ := (h₁.map k found).mp hk
    obtain ⟨y, hy, heq, hres⟩ | ⟨before, after, rb, t', hlist, hgt, hlt, -⟩ := hins
    · have hyk := (h₁.map k y).mpr ⟨hy, (compare_eq_iff_eq.mp heq).symm⟩
      obtain rfl : found = y := Option.some.inj (hk.symm.trans hyk)
      exact ⟨s₁, t, hstep _ _ hres, h₁, Nat.le_succ _⟩
    · have heq : s₁.compareKey k found = .eq := compare_eq_iff_eq.mpr hkey.symm
      rw [hlist, List.mem_append] at hfound
      obtain hfound | hfound := hfound
      · cases (hgt _ hfound).symm.trans heq
      · cases (hlt _ hfound).symm.trans heq
  | none =>
    rw [KeyedOp.apply_insert_none hk]
    obtain ⟨y, hy, heq, hres⟩ | ⟨before, after, rb, t', hlist, hgt, hlt, hres, htree, hlist', -⟩ :=
      hins
    · have hyk := (h₁.map k y).mpr ⟨hy, (compare_eq_iff_eq.mp heq).symm⟩
      rw [hk] at hyk
      cases hyk
    · refine ⟨{ s₁ with rb := rb }, t', hstep _ _ hres, ⟨htree, ?_, fun k' a => ?_⟩, ?_⟩
      · have hsorted := h₁.sorted
        rw [hlist] at hsorted
        obtain ⟨hbefore, hafter, hcross⟩ := List.pairwise_append.mp hsorted
        have hltnode : ∀ a ∈ after, s₁.key node < s₁.key a := fun a ha =>
          hself.trans_lt (compare_lt_iff_lt.mp (hlt a ha))
        have hgtnode : ∀ a ∈ before, s₁.key a < s₁.key node := fun a ha =>
          (compare_gt_iff_gt.mp (hgt a ha)).trans_eq hself.symm
        rw [hlist']
        refine List.pairwise_append.mpr ⟨hbefore, List.pairwise_cons.mpr ⟨hltnode, hafter⟩,
          fun a ha b hb => ?_⟩
        obtain rfl | hb := List.mem_cons.mp hb
        · exact hgtnode a ha
        · exact hcross a ha b hb
      · have hmem : a ∈ t'.toList ↔ a = node ∨ a ∈ t.toList := by
          rw [hlist', hlist]
          simp only [List.mem_append, List.mem_cons]
          tauto
        rw [hmem]
        dsimp only
        by_cases hkk : k' = k
        · rw [hkk, update_self, Option.some_inj]
          constructor
          · rintro rfl
            exact ⟨.inl rfl, hself⟩
          · rintro ⟨rfl | ha, hkey⟩
            · rfl
            · have hmap := (h₁.map k a).mpr ⟨ha, hkey⟩
              rw [hk] at hmap
              cases hmap
        · rw [update_of_ne hkk, h₁.map]
          constructor
          · rintro ⟨ha, hkey⟩
            exact ⟨.inr ha, hkey⟩
          · rintro ⟨rfl | ha, hkey⟩
            · exact absurd (hkey.symm.trans hself) hkk
            · exact ⟨ha, hkey⟩
      · rw [hlist', hlist]
        simp only [List.length_append, List.length_cons]
        omega

theorem Refines.step_erase (h : s.Refines t m) (hvalid : (KeyedOp.erase node).Valid m)
    (hfuel : t.toList.length < fuel) :
    ∃ s' t', s.step fuel (.erase node) = some (s', 0) ∧
      s'.Refines t' ((KeyedOp.erase node).apply m).1 ∧ t'.toList.length ≤ t.toList.length := by
  obtain ⟨k₀, hk₀⟩ := hvalid
  obtain ⟨hmem, hkey⟩ := (h.map k₀ node).mp hk₀
  obtain ⟨rb, t', hrb, htree, hlist, -⟩ := RbState.rbErase_spec h.tree hmem hfuel
  refine ⟨{ s with rb := rb }, t', ?_, ⟨htree, ?_, fun k a => ?_⟩, ?_⟩
  · rw [step, hrb]
    rfl
  · rw [hlist]
    exact h.sorted.sublist List.erase_sublist
  · rw [hlist, h.tree.nodup.mem_erase_iff]
    have hmap := h.map k a
    unfold KeyedOp.apply
    dsimp only
    split_ifs with hk
    · refine iff_of_false nofun fun hand => hand.1.1 ?_
      exact Option.some.inj ((hmap.mpr ⟨hand.1.2, hand.2⟩).symm.trans hk)
    · rw [hmap]
      refine ⟨fun hand => ⟨⟨?_, hand.1⟩, hand.2⟩, fun hand => ⟨hand.1.2, hand.2⟩⟩
      rintro rfl
      exact hk (hmap.mpr hand)
  · rw [hlist]
    exact List.length_erase_le

theorem Refines.step (h : s.Refines t m) (op : KeyedOp κ) (hvalid : op.Valid m)
    (hfuel : t.toList.length < fuel) :
    ∃ s' t', s.step fuel op = some (s', (op.apply m).2) ∧ s'.Refines t' (op.apply m).1 ∧
      t'.toList.length ≤ t.toList.length + 1 := by
  cases op with
  | insert node k => exact h.step_insert hvalid hfuel
  | erase node =>
    obtain ⟨s', t', hs', h', hlen⟩ := h.step_erase hvalid hfuel
    exact ⟨s', t', hs', h', hlen.trans (Nat.le_succ _)⟩

theorem Refines.run (h : s.Refines t m) (ops : List (KeyedOp κ)) (hvalid : KeyedOp.ValidAll m ops)
    (hfuel : t.toList.length + ops.length < fuel) :
    ∃ s' t', s.run fuel ops = some (s', (KeyedOp.applyAll m ops).2) ∧
      s'.Refines t' (KeyedOp.applyAll m ops).1 ∧
      t'.toList.length ≤ t.toList.length + ops.length := by
  induction ops generalizing s t m with
  | nil => exact ⟨s, t, rfl, h, Nat.le_refl _⟩
  | cons op ops ih =>
    rw [List.length_cons] at hfuel ⊢
    obtain ⟨s₁, t₁, hs₁, h₁, hlen₁⟩ := h.step op hvalid.1 (show _ < fuel by omega)
    obtain ⟨s₂, t₂, hs₂, h₂, hlen₂⟩ := ih h₁ hvalid.2 (by omega)
    refine ⟨s₂, t₂, ?_, h₂, by omega⟩
    rw [KeyedTree.run, hs₁, Option.bind_eq_bind, Option.bind_some]
    dsimp only
    rw [hs₂]
    rfl

/-- From an empty tree on, insertions and erasures never fail, and are those of a map: a lookup
finds what the map has, after a number of nodes that is logarithmic in how many there are, and the
walks from either end meet the nodes once each in the order of the keys. -/
theorem keyed_runs (mem : UInt64 → RbNode) (key : UInt64 → κ) (ops : List (KeyedOp κ))
    (hvalid : KeyedOp.ValidAll (fun _ => none) ops) (hfuel : ops.length < fuel) :
    ∃ s t, (KeyedTree.mk ⟨mem, 0⟩ key).run fuel ops =
        some (s, (KeyedOp.applyAll (fun _ => none) ops).2) ∧ s.rb.IsRbTree t ∧
      (t.toList.Pairwise fun a b => s.key a < s.key b) ∧
      (∀ k a, (KeyedOp.applyAll (fun _ => none) ops).1 k = some a ↔ a ∈ t.toList ∧ s.key a = k) ∧
      (∀ k, s.rb.rbFind (s.compareKey k) (2 * (t.toList.length + 1).log2 + 1) =
        some (((KeyedOp.applyAll (fun _ => none) ops).1 k).getD 0)) ∧
      ((s.rb.rbFirst fuel).bind fun n => s.rb.walkFrom .left fuel fuel n) = some t.toList ∧
      ((s.rb.rbLast fuel).bind fun n => s.rb.walkFrom .right fuel fuel n) =
        some t.toList.reverse := by
  have hempty : Refines (KeyedTree.mk ⟨mem, 0⟩ key) .nil fun _ => none :=
    ⟨⟨⟨rfl, trivial, List.nodup_nil⟩, 0, .nil⟩, List.Pairwise.nil,
      fun _ _ => iff_of_false nofun fun h => List.not_mem_nil h.1⟩
  obtain ⟨s, t, hs, h, hlen⟩ := hempty.run ops hvalid
    (show _ < fuel by rwa [RBNode.toList_nil, List.length_nil, Nat.zero_add])
  rw [RBNode.toList_nil, List.length_nil, Nat.zero_add] at hlen
  have hlen' := hlen.trans_lt hfuel
  exact ⟨s, t, hs, h.tree, h.sorted, h.map, fun k => h.lookup k (Nat.lt_succ_self _),
    RbState.walk_spec h.tree.toIsTree hlen', RbState.walk_spec h.tree.toIsTree hlen'⟩

def threeNodes : List (KeyedOp ℕ) := [.insert 4 10, .insert 8 20, .insert 12 10, .erase 4]

theorem keyed_runs_three :
    ∃ s t, (KeyedTree.mk ⟨fun _ => ⟨0, 0, 0⟩, 0⟩ fun _ => 0).run 5 threeNodes =
        some (s, (KeyedOp.applyAll (fun _ => none) threeNodes).2) ∧ s.rb.IsRbTree t ∧
      t.toList.Pairwise fun a b => s.key a < s.key b := by
  have hvalid : KeyedOp.ValidAll (fun _ => none) threeNodes := by
    refine ⟨⟨by decide, by unfold Aligned; decide, fun k => nofun⟩, ⟨by decide,
      by unfold Aligned; decide, fun k => ?_⟩, ⟨by decide, by unfold Aligned; decide, fun k => ?_⟩,
      ⟨10, ?_⟩, trivial⟩
    · by_cases hk : k = 10 <;> simp [KeyedOp.apply, update, hk]
    · by_cases hk : k = 10 <;> by_cases hk' : k = 20 <;> simp [KeyedOp.apply, update, hk, hk']
    · simp [KeyedOp.apply, update]
  obtain ⟨s, t, hs, htree, hsorted, -⟩ :=
    keyed_runs (fun _ => ⟨0, 0, 0⟩) (fun _ => 0) threeNodes hvalid (show 4 < 5 by decide)
  exact ⟨s, t, hs, htree, hsorted⟩

end KeyedTree

end SBlktrace
