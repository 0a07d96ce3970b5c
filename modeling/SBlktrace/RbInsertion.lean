import SBlktrace.RbNodes

namespace SBlktrace

open RBTree Function

namespace RbState

/-- What the loop of `rb_insert_color` does below a grandparent whose child on the side `d` is the
parent; the node to go on from. -/
def insertRound (d : Side) (node parent gparent : UInt64) (s : RbState) :
    Option (UInt64 × RbState) := do
  let uncle := (← s.read gparent).child d.flip
  if uncle ≠ 0 ∧ (s.mem uncle).color = 0 then
    let s ← s.write uncle RbNode.setBlack
    let s ← s.write parent RbNode.setBlack
    let s ← s.write gparent RbNode.setRed
    return (gparent, s)
  else
    let inner := (← s.read parent).child d.flip = node
    let s ← if inner then s.rotate d parent else some s
    let (node, parent) := if inner then (parent, node) else (node, parent)
    let s ← s.write parent RbNode.setBlack
    let s ← s.write gparent RbNode.setRed
    let s ← s.rotate d.flip gparent
    return (node, s)

def insertLoop : ℕ → UInt64 → RbState → Option RbState
  | 0, _, _ => none
  | fuel + 1, node, s => do
    let parent := (← s.read node).parent
    if parent = 0 then return s
    if (← s.read parent).color ≠ 0 then return s
    let gparent := (← s.read parent).parent
    let d := if parent = (← s.read gparent).left then .left else .right
    let (node, s) ← s.insertRound d node parent gparent
    s.insertLoop fuel node

def rbInsertColor (fuel : ℕ) (node : UInt64) (s : RbState) : Option RbState := do
  let s ← s.insertLoop fuel node
  s.write s.root RbNode.setBlack

variable {s s' : RbState} {d e : Side} {c c' : RBColor} {x y g u v : UInt64} {n n₀ : ℕ}
  {a b m sib t : RBNode UInt64} {path : RBNode.Path UInt64} {fuel : ℕ}

theorem insertLoop_root (hx : x ≠ 0) (hparent : (s.mem x).parent = 0) :
    s.insertLoop (fuel + 1) x = some s := by
  rw [insertLoop, read_of_ne hx, Option.bind_eq_bind, Option.bind_some, if_pos hparent]
  rfl

theorem insertLoop_black (hx : x ≠ 0) (hparent : (s.mem x).parent = v) (hv : v ≠ 0)
    (hcolor : (s.mem v).color ≠ 0) : s.insertLoop (fuel + 1) x = some s := by
  rw [insertLoop, read_of_ne hx, Option.bind_eq_bind, Option.bind_some, hparent, if_neg hv,
    read_of_ne hv, Option.bind_eq_bind, Option.bind_some, if_pos hcolor]
  rfl

theorem insertLoop_red (hx : x ≠ 0) (hparent : (s.mem x).parent = v) (hv : v ≠ 0)
    (hcolor : (s.mem v).color = 0) (hgparent : (s.mem v).parent = g) (hg : g ≠ 0)
    (hside : (if v = (s.mem g).left then Side.left else .right) = d) :
    s.insertLoop (fuel + 1) x =
      (s.insertRound d x v g).bind fun r => r.2.insertLoop fuel r.1 := by
  rw [insertLoop, read_of_ne hx, Option.bind_eq_bind, Option.bind_some, hparent, if_neg hv,
    read_of_ne hv, Option.bind_eq_bind, Option.bind_some, if_neg (not_not_intro hcolor),
    Option.bind_some, hgparent]
  simp only [read_of_ne hg, Option.bind_some, hside]

theorem insertLoop_done (h : IsTree s (path.fill (.branch e c a x b)))
    (hpath : path = .root ∨ ∃ d q v sib, path = .under d .black q v sib) :
    s.insertLoop (fuel + 1) x = some s := by
  have hx := h.nodeAt
  obtain rfl | ⟨d, q, v, sib, rfl⟩ := hpath
  · exact insertLoop_root hx.ne_zero hx.parent
  · rw [RBNode.Path.fill_under] at h
    have hv := h.nodeAt
    rw [top_under] at hx
    refine insertLoop_black hx.ne_zero hx.parent hv.ne_zero ?_
    rw [hv.color]
    decide

theorem insertRound_recolor (h : IsTree s (path.fill
      (.branch d .black (.branch e .red t v sib) g (.branch d .red a u b)))) :
    ∃ s', s.insertRound d x v g = some (g, s') ∧ Reshaped s (path.fill
      (.branch d .black (.branch e .red t v sib) g (.branch d .red a u b))) s' (path.fill
      (.branch d .red (.branch e .black t v sib) g (.branch d .black a u b))) := by
  have hg := h.nodeAt
  rw [addr_branch, addr_branch] at hg
  have hu := isTree_far.mp h
  obtain ⟨s₁, hs₁, h₁⟩ := setBlack_spec hu
  obtain ⟨s₂, hs₂, h₂⟩ := setBlack_spec (isTree_near.mp (isTree_far.mpr h₁.tree))
  simp only [RBNode.Path.fill_under, RBNode.branch_flip] at h₁ h₂
  obtain ⟨s₃, hs₃, h₃⟩ := setRed_spec h₂.tree
  refine ⟨s₃, ?_, h₁.trans (h₂.trans h₃)⟩
  rw [insertRound, read_of_ne hg.ne_zero]
  simp only [Option.bind_eq_bind, Option.bind_some]
  rw [hg.far, if_pos ⟨hu.nodeAt.ne_zero, hu.nodeAt.color⟩, hs₁, Option.bind_some, hs₂, Option.bind_some, hs₃]
  rfl

theorem insertRound_raise (h : IsTree s (path.fill
      (.branch d .black (.branch d .red t v sib) g m))) :
    ∃ s₁ s₂ s₃, s.write v RbNode.setBlack = some s₁ ∧ s₁.write g RbNode.setRed = some s₂ ∧
      s₂.rotate d.flip g = some s₃ ∧ Reshaped s (path.fill
      (.branch d .black (.branch d .red t v sib) g m)) s₃ (path.fill
      (.branch d .black t v (.branch d .red sib g m))) := by
  obtain ⟨s₁, hs₁, h₁⟩ := setBlack_spec (isTree_near.mp h)
  rw [RBNode.Path.fill_under, RBNode.Path.fill_under] at h₁
  obtain ⟨s₂, hs₂, h₂⟩ := setRed_spec h₁.tree
  have hg := h₂.tree
  rw [← RBNode.branch_flip d .red, ← RBNode.branch_flip d .black] at hg
  obtain ⟨s₃, hs₃, h₃⟩ := rotate_spec hg
  rw [RBNode.branch_flip, RBNode.branch_flip, RBNode.branch_flip, RBNode.branch_flip] at h₃
  exact ⟨s₁, s₂, s₃, hs₁, hs₂, hs₃, h₁.trans (h₂.trans h₃)⟩

theorem insertRound_outer (h : IsTree s (path.fill
      (.branch d .black (.branch d .red (.branch e .red a x b) v sib) g m)))
    (hm : m.Balanced .black n) :
    ∃ s', s.insertRound d x v g = some (x, s') ∧ Reshaped s (path.fill
      (.branch d .black (.branch d .red (.branch e .red a x b) v sib) g m)) s' (path.fill
      (.branch d .black (.branch e .red a x b) v (.branch d .red sib g m))) := by
  have hg := h.nodeAt
  have hv := isTree_near.mp h
  have hinner : (s.mem v).child d.flip ≠ x := by
    have hne := hv.addr_ne ((addr_branch ..).trans_ne (isTree_near.mp hv).nodeAt.ne_zero)
    rw [addr_branch] at hne
    rw [hv.nodeAt.far]
    exact hne.symm
  obtain ⟨s₁, s₂, s₃, hs₁, hs₂, hs₃, h₃⟩ := insertRound_raise h
  refine ⟨s₃, ?_, h₃⟩
  rw [insertRound, read_of_ne hg.ne_zero]
  simp only [Option.bind_eq_bind, Option.bind_some]
  rw [hg.far, if_neg ((rep_branch.mp (isTree_fill.mp h).2.1).2.2.not_red hm),
    read_of_ne hv.nodeAt.ne_zero, Option.bind_some]
  simp only [hinner, if_false, Option.bind_some, hs₁, hs₂, hs₃]
  rfl

theorem insertRound_inner (h : IsTree s (path.fill
      (.branch d .black (.branch d .red sib v (.branch d .red a x b)) g m)))
    (hm : m.Balanced .black n) :
    ∃ s', s.insertRound d x v g = some (v, s') ∧ Reshaped s (path.fill
      (.branch d .black (.branch d .red sib v (.branch d .red a x b)) g m)) s' (path.fill
      (.branch d .black (.branch d .red sib v a) x (.branch d .red b g m))) := by
  have hg := h.nodeAt
  have hv := isTree_near.mp h
  have hinner : (s.mem v).child d.flip = x := hv.nodeAt.far.trans (addr_branch ..)
  obtain ⟨s₀, hs₀, h₀⟩ := rotate_spec hv
  simp only [RBNode.Path.fill_under] at h₀
  obtain ⟨s₁, s₂, s₃, hs₁, hs₂, hs₃, h₃⟩ := insertRound_raise h₀.tree
  refine ⟨s₃, ?_, h₀.trans h₃⟩
  rw [insertRound, read_of_ne hg.ne_zero]
  simp only [Option.bind_eq_bind, Option.bind_some]
  rw [hg.far, if_neg ((rep_branch.mp (isTree_fill.mp h).2.1).2.2.not_red hm),
    read_of_ne hv.nodeAt.ne_zero, Option.bind_some]
  simp only [hinner, if_true, Option.bind_some, hs₀, hs₁, hs₂, hs₃]
  rfl

theorem insertLoop_spec (h : IsTree s (path.fill (.branch e .red a x b)))
    (ha : a.Balanced .black n) (hb : b.Balanced .black n)
    (hpath : RBNode.Path.Balanced .black n₀ path .black n) (hfuel : path.others.length < fuel) :
    ∃ s' t', s.insertLoop fuel x = some s' ∧
      Reshaped s (path.fill (.branch e .red a x b)) s' t' ∧
      ∃ k, t'.setBlack.Balanced .black k := by
  induction fuel generalizing s path e a x b n with
  | zero => exact absurd hfuel (Nat.not_lt_zero _)
  | succ fuel ih =>
    have hx := h.nodeAt
    obtain rfl | ⟨d, c, q, v, sib, rfl⟩ := path.root_or_under
    · refine ⟨s, _, insertLoop_done h (.inl rfl), .refl h, n + 1, ?_⟩
      rw [RBNode.Path.fill, RBNode.setBlack_branch]
      exact ha.branch_black hb
    cases c with
    | black =>
      refine ⟨s, _, insertLoop_done h (.inr ⟨d, q, v, sib, rfl⟩), .refl h, n₀, ?_⟩
      obtain ⟨⟨_, hsib⟩, hq⟩ := RBNode.Path.balanced_under_black.mp hpath
      rw [RBNode.Path.fill_under]
      exact (hq.fill ((ha.branch_red hb).branch_black hsib)).black_setBlack
    | red =>
      obtain ⟨-, hsib, hq⟩ := RBNode.Path.balanced_under_red.mp hpath
      -- A red parent is not the root, and the grandparent is black.
      obtain rfl | ⟨d', c', q', g, m, rfl⟩ := q.root_or_under
      · cases hq
      cases c' with
      | red => cases (RBNode.Path.balanced_under_red.mp hq).1
      | black =>
        obtain ⟨⟨cm, hm⟩, hq'⟩ := RBNode.Path.balanced_under_black.mp hq
        rw [RBNode.Path.length_others_under, RBNode.Path.length_others_under] at hfuel
        simp only [RBNode.Path.fill_under, top_under] at h hx ⊢
        have hg := h.nodeAt
        have hv := (isTree_near.mp h).nodeAt
        have hside := hg.side (h.addr_ne ((addr_branch ..).trans_ne hv.ne_zero))
        rw [addr_branch] at hside
        rw [top_under] at hv
        rw [insertLoop_red hx.ne_zero hx.parent hv.ne_zero hv.color hv.parent hg.ne_zero hside]
        obtain hm | ⟨mnear, w, mfar, rfl, hmnear, hmfar⟩ := hm.black_or_red d'
        · obtain ⟨k, rfl⟩ : ∃ k, fuel = k + 1 := ⟨fuel - 1, by omega⟩
          obtain rfl | rfl := Side.eq_or_eq_flip d' d
          · obtain ⟨s₁, hs₁, h₁⟩ := insertRound_outer h hm
            refine ⟨s₁, _, ?_, h₁, n₀, ?_⟩
            · rw [hs₁, Option.bind_some]
              exact insertLoop_done (isTree_near.mp h₁.tree) (.inr ⟨_, _, _, _, rfl⟩)
            · exact (hq'.fill ((ha.branch_red hb).branch_black (hsib.branch_red hm))).black_setBlack
          · obtain ⟨near, far, heq, hnear, hfar⟩ : ∃ near far,
                RBNode.branch e .red a x b = .branch d' .red near x far ∧
                  near.Balanced .black n ∧ far.Balanced .black n := by
              obtain rfl | rfl := Side.eq_or_eq_flip d' e
              · exact ⟨a, b, rfl, ha, hb⟩
              · exact ⟨b, a, RBNode.branch_flip .., hb, ha⟩
            rw [heq, RBNode.branch_flip] at h ⊢
            obtain ⟨s₁, hs₁, h₁⟩ := insertRound_inner h hm
            refine ⟨s₁, _, ?_, h₁, n₀, ?_⟩
            · rw [hs₁, Option.bind_some]
              exact insertLoop_done (isTree_near.mp h₁.tree) (.inr ⟨_, _, _, _, rfl⟩)
            · exact (hq'.fill
                ((hsib.branch_red hnear).branch_black (hfar.branch_red hm))).black_setBlack
        · obtain ⟨s₁, hs₁, h₁⟩ := insertRound_recolor h
          obtain ⟨s₂, t, hs₂, h₂, ht⟩ := ih h₁.tree ((ha.branch_red hb).branch_black hsib)
            (hmnear.branch_black hmfar) hq' (by omega)
          exact ⟨s₂, t, by rw [hs₁, Option.bind_some, hs₂], h₁.trans h₂, ht⟩

theorem setBlack_root (h : IsTree s t) (ht : t ≠ .nil) :
    ∃ s', s.write s.root RbNode.setBlack = some s' ∧ Reshaped s t s' t.setBlack := by
  cases t with
  | nil => exact absurd rfl ht
  | node c l y r =>
    obtain ⟨s', hs', h'⟩ := @setBlack_spec _ .left _ _ _ _ .root h
    exact ⟨s', by rw [h.root]; exact hs', h'⟩

/-- `rb_insert_color` never fails, and makes a balanced tree of one whose only fault is that the
parent of a red node may be red. -/
theorem rbInsertColor_spec (h : IsTree s (path.fill (.branch e .red a x b)))
    (ha : a.Balanced .black n) (hb : b.Balanced .black n)
    (hpath : RBNode.Path.Balanced .black n₀ path .black n) (hfuel : path.others.length < fuel) :
    ∃ s' t' k, s.rbInsertColor fuel x = some s' ∧
      Reshaped s (path.fill (.branch e .red a x b)) s' t' ∧ t'.Balanced .black k := by
  obtain ⟨s₁, t₁, hs₁, h₁, k, ht₁⟩ := insertLoop_spec h ha hb hpath hfuel
  have hne : t₁ ≠ .nil := by
    rintro rfl
    have hmem : x ∈ (path.fill (.branch e .red a x b)).toList :=
      (path.fill_perm _).mem_iff.mpr (List.mem_append_left _ (RBNode.mem_branch.mpr (.inl rfl)))
    rw [← h₁.order] at hmem
    cases hmem
  obtain ⟨s₂, hs₂, h₂⟩ := setBlack_root h₁.tree hne
  refine ⟨s₂, _, k, ?_, h₁.trans h₂, ht₁⟩
  rw [rbInsertColor, hs₁, Option.bind_eq_bind, Option.bind_some, hs₂]

end RbState

end SBlktrace
