import SBlktrace.RbErasure

namespace SBlktrace

open RBTree Function

namespace RbState

def outermost (d : Side) : ℕ → UInt64 → RbState → Option UInt64
  | 0, _, _ => none
  | fuel + 1, node, s => do
    let near := (← s.read node).child d
    if near = 0 then return node else s.outermost d fuel near

def rbErase (fuel : ℕ) (node : UInt64) (s : RbState) : Option RbState := do
  let r ← s.read node
  if r.left = 0 ∨ r.right = 0 then
    let child := if r.left = 0 then r.right else r.left
    let parent := r.parent
    let color := r.color
    let s ← s.reparent child parent
    let s ← s.relink .left parent node child
    if color = 1 then s.rbEraseColor fuel child parent else return s
  else
    let old := node
    let node ← s.outermost .left fuel r.right
    let child := (← s.read node).right
    let parent := (← s.read node).parent
    let color := (← s.read node).color
    let s ← s.reparent child parent
    let s ← s.write parent (·.setChild (if parent = old then .right else .left) child)
    let parent := if parent = old then node else parent
    let r ← s.read old
    let s ← s.write node fun _ => r
    let s ← s.relink .left r.parent old node
    let s ← s.write (← s.read old).left (·.setParent node)
    let s ← s.reparent (← s.read old).right node
    if color = 1 then s.rbEraseColor fuel child parent else return s

variable {s s' : RbState} {d e : Side} {c c' : RBColor} {x y u p : UInt64} {n n₀ fuel : ℕ}
  {a b l r t : RBNode UInt64} {path : RBNode.Path UInt64}

theorem outermost_spec (h : IsTree s (path.fill (.branch d c a x b)))
    (hfuel : a.toList.length < fuel) :
    ∃ spine c' y far, s.outermost d fuel x = some y ∧ ∀ q : RBNode.Path UInt64,
      (q.descend d spine).fill (.branch d c' .nil y far) = q.fill (.branch d c a x b) := by
  induction fuel generalizing path c a x b with
  | zero => exact absurd hfuel (Nat.not_lt_zero _)
  | succ fuel ih =>
    have hx := h.nodeAt
    obtain rfl | ⟨c', y, a', b', rfl⟩ : a = .nil ∨ ∃ c' y a' b', a = .branch d c' a' y b' := by
      cases a with
      | nil => exact .inl rfl
      | node c' l y r =>
        obtain ⟨near, far, heq⟩ := RBNode.eq_branch d c' l y r
        exact .inr ⟨c', y, near, far, heq⟩
    · refine ⟨[], c, x, b, ?_, fun _ => rfl⟩
      rw [outermost, read_of_ne hx.ne_zero, Option.bind_eq_bind, Option.bind_some, hx.near,
        addr_nil, if_pos rfl]
      rfl
    · have hy := (isTree_near.mp h).nodeAt
      obtain ⟨spine, c'', z, far, hz, hfill⟩ := ih (isTree_near.mp h) (by
        rw [RBNode.toList_branch_perm.length_eq, List.length_cons, List.length_append] at hfuel
        omega)
      refine ⟨(c, x, b) :: spine, c'', z, far, ?_, fun q => (hfill _).trans ?_⟩
      · rw [outermost, read_of_ne hx.ne_zero, Option.bind_eq_bind, Option.bind_some, hx.near,
          addr_branch, if_neg hy.ne_zero, hz]
      · rw [RBNode.Path.fill_under]

theorem unlink_reparent (h : IsTree s (path.fill (.branch d c .nil x b))) :
    ∃ s₁, s.reparent (addr b) (top path) = some s₁ ∧ Holds s₁ path x ∧ x ∉ path.others ∧
      path.others.Nodup ∧ (∀ z ∉ b.toList, s₁.mem z = s.mem z) ∧
      ∀ s₂, Holds s₂ path (addr b) → (∀ z ∉ path.others, s₂.mem z = s₁.mem z) →
        IsTree s₂ (path.fill b) := by
  obtain ⟨hholds, hrep, hnodup⟩ := isTree_fill.mp h
  obtain ⟨hx, -, hb⟩ := rep_branch.mp hrep
  obtain ⟨⟨-, hxb, hxo⟩, hrest⟩ := RBNode.nodup_branch_append.mp hnodup
  rw [RBNode.toList_nil, List.nil_append] at hrest
  obtain ⟨hbnodup, honodup, hdisj⟩ := List.nodup_append'.mp hrest
  rw [addr_branch] at hholds
  obtain ⟨s₁, hs₁, hb₁, hroot₁, hoff₁⟩ := hb.setParent hbnodup hholds.aligned_top
  refine ⟨s₁, hs₁, hholds.congr hroot₁ fun z hz => hoff₁ z fun h => hdisj h hz, hxo, honodup,
    hoff₁, fun s₂ hholds₂ hoff₂ => isTree_fill.mpr ⟨hholds₂, hb₁.congr fun z hz => ?_, hrest⟩⟩
  exact hoff₂ z fun h => hdisj hz h

theorem IsTree.renamed (h : IsTree s (path.fill (.branch d c a x b)))
    (hy : y ∉ (path.fill (.branch d c a x b)).toList) (hne : y ≠ 0) (hal : Aligned y)
    (hholds : Holds s' path y) (hself : s'.mem y = s.mem x) (ha : Rep s'.mem y a)
    (hb : Rep s'.mem y b) : IsTree s' (path.fill (.branch d c a y b)) := by
  obtain ⟨-, hrep, hnodup⟩ := isTree_fill.mp h
  obtain ⟨hx, -, -⟩ := rep_branch.mp hrep
  obtain ⟨-, hrest⟩ := RBNode.nodup_branch_append.mp hnodup
  simp only [(path.fill_perm _).mem_iff, List.mem_append, RBNode.mem_branch, not_or] at hy
  refine isTree_fill.mpr ⟨(addr_branch ..).symm ▸ hholds, rep_branch.mpr ⟨⟨hne, hal, ?_, ?_, ?_,
    ?_⟩, ha, hb⟩, RBNode.nodup_branch_append.mpr ⟨⟨hy.1.2.1, hy.1.2.2, hy.2⟩, hrest⟩⟩
  · rw [hself, hx.parent]
  · rw [hself, hx.color]
  · rw [hself, hx.near]
  · rw [hself, hx.far]

theorem Rep.adopt (ha : Rep s.mem p a) (hb : Rep s.mem u b) (hnodup : (a.toList ++ b.toList).Nodup)
    (hal : Aligned y) :
    ∃ s₁ s₂, s.reparent (addr a) y = some s₁ ∧ s₁.reparent (addr b) y = some s₂ ∧
      Rep s₂.mem y a ∧ Rep s₂.mem y b ∧ s₂.root = s.root ∧
      (∀ z ∉ a.toList, s₁.mem z = s.mem z) ∧
      ∀ z ∉ a.toList ++ b.toList, s₂.mem z = s.mem z := by
  obtain ⟨hanodup, hbnodup, hdisj⟩ := List.nodup_append'.mp hnodup
  obtain ⟨s₁, hs₁, ha₁, hroot₁, hoff₁⟩ := ha.setParent hanodup hal
  have hb₁ : Rep s₁.mem u b := hb.congr fun z hz => hoff₁ z fun h => hdisj h hz
  obtain ⟨s₂, hs₂, hb₂, hroot₂, hoff₂⟩ := hb₁.setParent hbnodup hal
  refine ⟨s₁, s₂, hs₁, hs₂, ha₁.congr fun z hz => hoff₂ z fun h => hdisj hz h, hb₂,
    hroot₂.trans hroot₁, hoff₁, fun z hz => ?_⟩
  rw [List.mem_append, not_or] at hz
  rw [hoff₂ z hz.2, hoff₁ z hz.1]

theorem rbReplaceNode_spec (h : IsTree s (path.fill (.branch .left c a x b)))
    (hy : y ∉ (path.fill (.branch .left c a x b)).toList) (hne : y ≠ 0) (hal : Aligned y) :
    ∃ s', s.rbReplaceNode x y = some s' ∧ IsTree s' (path.fill (.branch .left c a y b)) ∧
      ∀ z ∉ (path.fill (.branch .left c a x b)).toList, z ≠ y → s'.mem z = s.mem z := by
  have hy' := hy
  obtain ⟨hholds, hrep, hnodup⟩ := isTree_fill.mp h
  obtain ⟨hx, ha, hb⟩ := rep_branch.mp hrep
  obtain ⟨⟨hxa, hxb, hxo⟩, hrest⟩ := RBNode.nodup_branch_append.mp hnodup
  rw [← List.append_assoc] at hrest
  obtain ⟨habnodup, honodup, hdisj⟩ := List.nodup_append'.mp hrest
  simp only [(path.fill_perm _).mem_iff, List.mem_append, RBNode.mem_branch, not_or] at hy'
  obtain ⟨⟨hyx, hya, hyb⟩, hyo⟩ := hy'
  rw [addr_branch] at hholds
  obtain ⟨s₁, hs₁, hholds₁, hoff₁⟩ := hholds.relink .left y hx.ne_zero hxo honodup
  have hleft : (s₁.mem x).left = addr a := (hx.congr (hoff₁ x hxo)).near
  obtain ⟨s₂, s₃, hs₂, hs₃, ha₃, hb₃, hroot₃, hoff₂, hoff₃⟩ := Rep.adopt
    (ha.congr fun z hz => hoff₁ z fun h => hdisj (List.mem_append_left _ hz) h)
    (hb.congr fun z hz => hoff₁ z fun h => hdisj (List.mem_append_right _ hz) h) habnodup hal
  have hright : (s₂.mem x).right = addr b := (hx.congr ((hoff₂ x hxa).trans (hoff₁ x hxo))).far
  have hx₃ : s₃.mem x = s.mem x := by
    rw [hoff₃ x (by rw [List.mem_append, not_or]; exact ⟨hxa, hxb⟩), hoff₁ x hxo]
  obtain ⟨s₄, hs₄, hroot₄, hself₄, hoff₄⟩ : ∃ s₄, s₃.write y (fun _ => s₃.mem x) = some s₄ ∧
      s₄.root = s₃.root ∧ s₄.mem y = s.mem x ∧ ∀ z, z ≠ y → s₄.mem z = s₃.mem z :=
    ⟨_, write_of_ne hne, rfl, (update_self _ _ _).trans hx₃, fun z hz => update_of_ne hz _ _⟩
  refine ⟨s₄, ?_, h.renamed hy hne hal ?_ hself₄ ?_ ?_, fun z hz hzy => ?_⟩
  · rw [rbReplaceNode, read_of_ne hx.ne_zero]
    simp only [Option.bind_eq_bind, Option.bind_some]
    rw [hx.parent, hs₁, Option.bind_some, read_of_ne hx.ne_zero, Option.bind_some, hleft, hs₂,
      Option.bind_some, read_of_ne hx.ne_zero, Option.bind_some, hright, hs₃, Option.bind_some,
      read_of_ne hx.ne_zero, Option.bind_some, hs₄]
  · refine hholds₁.congr (hroot₄.trans hroot₃) fun z hz => ?_
    rw [hoff₄ z fun h => hyo (h ▸ hz), hoff₃ z fun h => hdisj h hz]
  · exact ha₃.congr fun z hz => hoff₄ z fun h => hya (h ▸ hz)
  · exact hb₃.congr fun z hz => hoff₄ z fun h => hyb (h ▸ hz)
  · simp only [(path.fill_perm _).mem_iff, List.mem_append, RBNode.mem_branch, not_or] at hz
    rw [hoff₄ z hzy, hoff₃ z (by rw [List.mem_append, not_or]; exact hz.1.2), hoff₁ z hz.2]

theorem eraseColor_spec {k : ℕ} {ck : RBColor} (h : IsTree s (path.fill b))
    (hbal : (RBNode.branch d c .nil x b).Balanced ck k)
    (hpath : RBNode.Path.Balanced .black n₀ path ck k) (hfuel : path.others.length < fuel) :
    ∃ s' t' m, (if rbColorWord c = 1 then s.rbEraseColor fuel (addr b) (top path) else some s) =
      some s' ∧ Reshaped s (path.fill b) s' t' ∧ t'.Balanced .black m := by
  cases c with
  | red =>
    obtain ⟨rfl, -, hb⟩ := RBNode.balanced_red_iff.mp hbal
    exact ⟨s, _, n₀, if_neg (by decide), .refl h, hpath.of_red.fill hb⟩
  | black =>
    obtain ⟨rfl, j, rfl, -, cb, hb⟩ := RBNode.balanced_black_iff.mp hbal
    rw [rbColorWord, if_pos rfl]
    exact rbEraseColor_spec h hb hpath hfuel

theorem rbErase_unlink (h : IsTree s (path.fill (.branch d c .nil x b)))
    (hbal : (path.fill (.branch d c .nil x b)).Balanced .black n)
    (hfuel : path.others.length < fuel) :
    ∃ s' t' k, s.rbErase fuel x = some s' ∧ IsTree s' t' ∧ t'.Balanced .black k ∧
      t'.toList = (path.fill b).toList ∧
      ∀ z ∉ (path.fill (.branch d c .nil x b)).toList, s'.mem z = s.mem z := by
  have hx := h.nodeAt
  obtain ⟨s₁, hs₁, hholds₁, hxo, honodup, hoff₁, hunlink⟩ := unlink_reparent h
  obtain ⟨s₂, hs₂, hholds₂, hoff₂⟩ := hholds₁.relink .left (addr b) hx.ne_zero hxo honodup
  have h₂ := hunlink s₂ hholds₂ hoff₂
  obtain ⟨ck, k, hnode, hpath⟩ := RBNode.Path.Balanced.of_fill hbal
  obtain ⟨s₃, t₃, m, hs₃, h₃, hm⟩ := eraseColor_spec h₂ hnode hpath hfuel
  have hchild : ((s.mem x).left = 0 ∨ (s.mem x).right = 0) ∧
      (if (s.mem x).left = 0 then (s.mem x).right else (s.mem x).left) = addr b := by
    cases d with
    | left => exact ⟨.inl hx.near, (if_pos hx.near).trans hx.far⟩
    | right =>
      refine ⟨.inr hx.near, ?_⟩
      split_ifs with hleft
      · exact hx.near.trans (hleft.symm.trans hx.far)
      · exact hx.far
  refine ⟨s₃, t₃, m, ?_, h₃.tree, hm, h₃.order, fun z hz => ?_⟩
  · rw [rbErase, read_of_ne hx.ne_zero]
    simp only [Option.bind_eq_bind, Option.bind_some]
    rw [if_pos hchild.1, hchild.2, hx.parent, hs₁, Option.bind_some, hs₂, Option.bind_some,
      hx.color]
    exact hs₃
  · simp only [(path.fill_perm _).mem_iff, List.mem_append, RBNode.mem_branch, not_or] at hz
    rw [h₃.frame z, hoff₂ z hz.2, hoff₁ z hz.1.2.2]
    rw [(path.fill_perm _).mem_iff, List.mem_append, not_or]
    exact ⟨hz.1.2.2, hz.2⟩

theorem link_outermost {spine : List (RBColor × UInt64 × RBNode UInt64)}
    (h : Holds s ((RBNode.Path.under .right c path x l).descend .left spine) u)
    (hnodup : ((RBNode.Path.under .right c path x l).descend .left spine).others.Nodup)
    (v : UInt64) :
    ∃ s', s.write (top ((RBNode.Path.under .right c path x l).descend .left spine))
        (·.setChild (if top ((RBNode.Path.under .right c path x l).descend .left spine) = x
          then .right else .left) v) = some s' ∧
      Holds s' ((RBNode.Path.under .right c path x l).descend .left spine) v ∧
      (∀ z ∉ ((RBNode.Path.under .right c path x l).descend .left spine).others,
        s'.mem z = s.mem z) ∧
      ∀ y, (if top ((RBNode.Path.under .right c path x l).descend .left spine) = x then y
          else top ((RBNode.Path.under .right c path x l).descend .left spine)) =
        top ((RBNode.Path.under .right c path y l).descend .left spine) := by
  induction spine using List.reverseRecOn with
  | nil =>
    change Holds s (.under .right c path x l) u at h
    obtain ⟨s', hs', h', hoff⟩ := h.setChild v hnodup
    have hperm : (RBNode.Path.under .right c path x l).others.Perm (x :: (l.toList ++ path.others)) :=
      RBNode.Path.others_under_perm
    refine ⟨s', ?_, h', fun z hz => hoff z ?_, fun y => ?_⟩
    · rw [RBNode.Path.descend, List.foldl_nil, top_under, if_pos rfl, hs']
    · rintro rfl
      exact hz (hperm.mem_iff.mpr List.mem_cons_self)
    · rw [RBNode.Path.descend, List.foldl_nil, top_under, if_pos rfl]
      rfl
  | append_singleton spine frame ih =>
    simp only [RBNode.Path.descend_concat] at h hnodup ⊢
    have hperm : ∀ p : RBNode.Path UInt64,
        (RBNode.Path.under .left frame.1 p frame.2.1 frame.2.2).others.Perm
          (frame.2.1 :: (frame.2.2.toList ++ p.others)) :=
      fun p => RBNode.Path.others_under_perm
    -- The node `x` lies further up.
    have hne : frame.2.1 ≠ x := by
      rintro rfl
      refine (List.nodup_cons.mp ((hperm _).nodup_iff.mp hnodup)).1 (List.mem_append_right _ ?_)
      exact RBNode.Path.mem_others_descend
        (RBNode.Path.others_under_perm.mem_iff.mpr List.mem_cons_self)
    obtain ⟨s', hs', h', hoff⟩ := h.setChild v hnodup
    refine ⟨s', ?_, h', fun z hz => hoff z ?_, fun y => ?_⟩
    · rw [top_under, if_neg hne, hs']
    · rintro rfl
      exact hz ((hperm _).mem_iff.mpr List.mem_cons_self)
    · rw [top_under, top_under, if_neg hne]

theorem takePlace (h : IsTree s (path.fill (.branch .left c l x r))) (hl : l ≠ .nil)
    (hy : y ∉ (path.fill (.branch .left c l x r)).toList) (hne : y ≠ 0) (hal : Aligned y) :
    ∃ s₁ s₂ s₃ s₄, s.write y (fun _ => s.mem x) = some s₁ ∧
      s₁.relink .left (s.mem x).parent x y = some s₂ ∧
      s₂.write (s₂.mem x).left (·.setParent y) = some s₃ ∧
      s₃.reparent (s₃.mem x).right y = some s₄ ∧
      IsTree s₄ (path.fill (.branch .left c l y r)) ∧
      ∀ z ∉ (path.fill (.branch .left c l x r)).toList, z ≠ y → s₄.mem z = s.mem z := by
  have hy' := hy
  obtain ⟨hholds, hrep, hnodup⟩ := isTree_fill.mp h
  obtain ⟨hx, hrl, hrr⟩ := rep_branch.mp hrep
  obtain ⟨⟨hxl, hxr, hxo⟩, hrest⟩ := RBNode.nodup_branch_append.mp hnodup
  rw [← List.append_assoc] at hrest
  obtain ⟨hlrnodup, honodup, hdisj⟩ := List.nodup_append'.mp hrest
  simp only [(path.fill_perm _).mem_iff, List.mem_append, RBNode.mem_branch, not_or] at hy'
  obtain ⟨⟨hyx, hyl, hyr⟩, hyo⟩ := hy'
  rw [addr_branch] at hholds
  obtain ⟨s₁, hs₁, hroot₁, hself₁, hoff₁⟩ : ∃ s₁, s.write y (fun _ => s.mem x) = some s₁ ∧
      s₁.root = s.root ∧ s₁.mem y = s.mem x ∧ ∀ z, z ≠ y → s₁.mem z = s.mem z :=
    ⟨_, write_of_ne hne, rfl, update_self _ _ _, fun z hz => update_of_ne hz _ _⟩
  have hholds₁ : Holds s₁ path x := hholds.congr hroot₁ fun z hz => hoff₁ z fun h => hyo (h ▸ hz)
  obtain ⟨s₂, hs₂, hholds₂, hoff₂⟩ := hholds₁.relink .left y hx.ne_zero hxo honodup
  have hsame₂ : ∀ z, z ≠ y → z ∉ path.others → s₂.mem z = s.mem z := fun z hzy hzo => by
    rw [hoff₂ z hzo, hoff₁ z hzy]
  have hleft : (s₂.mem x).left = addr l := (hx.congr (hsame₂ x (Ne.symm hyx) hxo)).near
  obtain ⟨s₃, s₄, hs₃, hs₄, hl₄, hr₄, hroot₄, hoff₃, hoff₄⟩ := Rep.adopt
    (hrl.congr fun z hz => hsame₂ z (fun h => hyl (h ▸ hz))
      fun h => hdisj (List.mem_append_left _ hz) h)
    (hrr.congr fun z hz => hsame₂ z (fun h => hyr (h ▸ hz))
      fun h => hdisj (List.mem_append_right _ hz) h) hlrnodup hal
  have hright : (s₃.mem x).right = addr r :=
    (hx.congr ((hoff₃ x hxl).trans (hsame₂ x (Ne.symm hyx) hxo))).far
  rw [reparent, if_neg (mt hrl.addr_eq_zero_iff.mp hl)] at hs₃
  refine ⟨s₁, s₂, s₃, s₄, hs₁, hx.parent.symm ▸ hs₂, hleft.symm ▸ hs₃, hright.symm ▸ hs₄,
    h.renamed hy hne hal (hholds₂.congr hroot₄ fun z hz => hoff₄ z fun h => hdisj h hz) ?_ hl₄ hr₄,
    fun z hz hzy => ?_⟩
  · rw [hoff₄ y (by rw [List.mem_append, not_or]; exact ⟨hyl, hyr⟩), hoff₂ y hyo, hself₁]
  · simp only [(path.fill_perm _).mem_iff, List.mem_append, RBNode.mem_branch, not_or] at hz
    rw [hoff₄ z (by rw [List.mem_append, not_or]; exact hz.1.2), hsame₂ z hzy hz.2]

theorem rbErase_swap (h : IsTree s (path.fill (.branch .left c l x r))) (hl : l ≠ .nil)
    (hr : r ≠ .nil) (hbal : (path.fill (.branch .left c l x r)).Balanced .black n)
    (hfuel : (path.fill (.branch .left c l x r)).toList.length < fuel) :
    ∃ s' t' k, s.rbErase fuel x = some s' ∧ IsTree s' t' ∧ t'.Balanced .black k ∧
      t'.toList = path.listL ++ (l.toList ++ r.toList) ++ path.listR ∧
      ∀ z ∉ (path.fill (.branch .left c l x r)).toList, s'.mem z = s.mem z := by
  have hx := h.nodeAt
  obtain ⟨hxl, hxr, hxo, hlr, hdisj⟩ := h.apart
  obtain ⟨-, hrepl, hrepr⟩ := rep_branch.mp (isTree_fill.mp h).2.1
  obtain ⟨cr, a, xr, b, rfl⟩ : ∃ cr a xr b, r = .branch .left cr a xr b := by
    cases r with
    | nil => exact absurd rfl hr
    | node cr a xr b => exact ⟨cr, a, xr, b, rfl⟩
  have hlen := (path.fill_perm (.branch .left c l x (.branch .left cr a xr b))).length_eq
  simp only [RBNode.toList_branch_perm.length_eq, List.length_append, List.length_cons] at hlen
  obtain ⟨spine, c', y, far, hy, hfill⟩ := outermost_spec (isTree_far.mp h)
    (show a.toList.length < fuel by omega)
  have hT : path.fill (.branch .left c l x (.branch .left cr a xr b)) =
      ((RBNode.Path.under .right c path x l).descend .left spine).fill
        (.branch .left c' .nil y far) := by
    rw [hfill, RBNode.Path.fill_under]
    rfl
  -- The left-most node of the right subtree is taken out.
  have hQ := hT ▸ h
  have hyQ := hQ.nodeAt
  obtain ⟨s₁, hs₁, hholds₁, hyo, honodup, hoff₁, hunlink⟩ := unlink_reparent hQ
  obtain ⟨s₂, hs₂, hholds₂, hoff₂, htop⟩ := link_outermost hholds₁ honodup (addr far)
  have h₂ := hunlink s₂ hholds₂ hoff₂
  obtain ⟨r', hr'⟩ : ∃ r', (RBNode.Path.descend .left .root spine).fill far = r' := ⟨_, rfl⟩
  have hfill₂ : ∀ z, ((RBNode.Path.under .right c path z l).descend .left spine).fill far =
      path.fill (.branch .left c l z r') := fun z => by
    rw [RBNode.Path.fill_descend, RBNode.Path.fill_under, hr']
    rfl
  rw [hfill₂] at h₂
  have hrlist : (RBNode.branch .left cr a xr b).toList = y :: r'.toList := by
    have hlist := congrArg RBNode.toList (hfill .root)
    rw [← hr', RBNode.Path.fill_toList, RBNode.Path.withList, RBNode.Path.listL_descend]
    rw [RBNode.Path.fill_toList, RBNode.Path.withList, RBNode.Path.listL_descend] at hlist
    exact hlist.symm
  have hlist : ∀ z r, (path.fill (.branch .left c l z r)).toList =
      path.listL ++ (l.toList ++ z :: r.toList) ++ path.listR := fun z r => by
    rw [RBNode.Path.fill_toList, RBNode.Path.withList, RBNode.branch, RBNode.toList_node]
  have hperm : (path.fill (.branch .left c l x (.branch .left cr a xr b))).toList.Perm
      (y :: (path.fill (.branch .left c l x r')).toList) := by
    rw [hlist, hlist, hrlist]
    simpa using @List.perm_middle _ y (path.listL ++ (l.toList ++ [x])) (r'.toList ++ path.listR)
  have hynot := (List.nodup_cons.mp (hperm.nodup_iff.mp h.nodup)).1
  obtain ⟨s₃, s₄, s₅, s₆, hs₃, hs₄, hs₅, hs₆, h₆, hoff₆⟩ :=
    takePlace h₂ hl hynot hyQ.ne_zero hyQ.aligned
  -- Its child is where the black height may be missing.
  rw [← hfill₂] at h₆
  rw [hT] at hbal
  obtain ⟨ck, k, hnode, hpath⟩ := RBNode.Path.Balanced.of_fill hbal
  have hlen₆ := (RBNode.Path.fill_perm
    ((RBNode.Path.under .right c path y l).descend .left spine) far).length_eq
  have hlen₂ := hperm.length_eq
  simp only [hfill₂, hlist, List.length_append, List.length_cons] at hlen₆ hlen₂ hfuel
  obtain ⟨s₇, t₇, m, hs₇, h₇, hm⟩ := eraseColor_spec h₆ hnode
    (hpath.descend fun _ _ h => h.under_congr y) (show _ < fuel by omega)
  have horder : t₇.toList = path.listL ++ (l.toList ++ y :: r'.toList) ++ path.listR := by
    rw [h₇.order, hfill₂, hlist]
  have hleft : (s.mem x).left ≠ 0 := hx.near.trans_ne (mt hrepl.addr_eq_zero_iff.mp hl)
  have hright : (s.mem x).right = xr := hx.far.trans (addr_branch ..)
  have hchild : (s.mem y).right = addr far := hyQ.far
  refine ⟨s₇, t₇, m, ?_, h₇.tree, hm, ?_, fun z hz => ?_⟩
  · rw [rbErase, read_of_ne hx.ne_zero]
    simp only [Option.bind_eq_bind, Option.bind_some]
    rw [if_neg (not_or_intro hleft (hright ▸ (isTree_far.mp h).nodeAt.ne_zero)), hright, hy]
    simp only [Option.bind_some, read_of_ne hyQ.ne_zero, hchild, hyQ.parent, hyQ.color, hs₁, hs₂,
      read_of_ne hx.ne_zero, hs₃, hs₄, hs₅, hs₆, htop]
    exact hs₇
  · rw [horder, hrlist]
  · have hzQ := hT ▸ hz
    rw [hperm.mem_iff, List.mem_cons, not_or] at hz
    simp only [(RBNode.Path.fill_perm _ _).mem_iff, List.mem_append, RBNode.mem_branch, not_or]
      at hzQ
    rw [h₇.frame z, hoff₆ z hz.2 hz.1, hoff₂ z hzQ.2, hoff₁ z hzQ.1.2.2]
    rw [hfill₂, hlist]
    rw [hlist] at hz
    simp only [List.mem_append, List.mem_cons, not_or] at hz ⊢
    tauto

structure IsRbTree (s : RbState) (t : RBNode UInt64) : Prop extends IsTree s t where
  balanced : ∃ n, t.Balanced .black n

theorem IsRbTree.congr (h : IsRbTree s t) (hroot : s'.root = s.root)
    (hmem : ∀ z ∈ t.toList, s'.mem z = s.mem z) : IsRbTree s' t :=
  ⟨⟨hroot.trans h.root, h.rep.congr hmem, h.nodup⟩, h.balanced⟩

theorem rbErase_spec (h : IsRbTree s t) (hx : x ∈ t.toList) (hfuel : t.toList.length < fuel) :
    ∃ s' t', s.rbErase fuel x = some s' ∧ IsRbTree s' t' ∧ t'.toList = t.toList.erase x ∧
      ∀ z ∉ t.toList, s'.mem z = s.mem z := by
  obtain ⟨htree, n, hbal⟩ := h
  obtain ⟨path, c, l, r, heq⟩ := RBNode.Path.exists_fill_of_mem .root hx
  rw [show t = path.fill (.branch .left c l x r) from heq] at htree hbal hfuel ⊢
  have hlen := (path.fill_perm (.branch .left c l x r)).length_eq
  rw [List.length_append] at hlen
  have herase : (path.fill (.branch .left c l x r)).toList.erase x =
      path.listL ++ (l.toList ++ r.toList) ++ path.listR := by
    have hnodup := htree.nodup
    rw [RBNode.Path.fill_toList, RBNode.Path.withList, RBNode.branch, RBNode.toList_node] at hnodup ⊢
    rw [show path.listL ++ (l.toList ++ x :: r.toList) ++ path.listR =
      (path.listL ++ l.toList) ++ x :: (r.toList ++ path.listR) by simp] at hnodup ⊢
    have hx : x ∉ path.listL ++ l.toList := fun h =>
      (List.nodup_append'.mp hnodup).2.2 h List.mem_cons_self
    rw [List.erase_append_right _ hx, List.erase_cons_head]
    simp
  rw [herase]
  by_cases hl : l = .nil
  · subst hl
    obtain ⟨s', t', k, hs', htree', hk, hlist, hoff⟩ := rbErase_unlink htree hbal
      (show _ < fuel by omega)
    refine ⟨s', t', hs', ⟨htree', k, hk⟩, ?_, hoff⟩
    rw [hlist, RBNode.Path.fill_toList]
    rfl
  by_cases hr : r = .nil
  · subst hr
    rw [show RBNode.branch .left c l x .nil = .branch .right c .nil x l from rfl] at *
    obtain ⟨s', t', k, hs', htree', hk, hlist, hoff⟩ := rbErase_unlink htree hbal
      (show _ < fuel by omega)
    refine ⟨s', t', hs', ⟨htree', k, hk⟩, ?_, hoff⟩
    rw [hlist, RBNode.Path.fill_toList, RBNode.toList_nil, List.append_nil]
  · obtain ⟨s', t', k, hs', htree', hk, hlist, hoff⟩ := rbErase_swap htree hl hr hbal hfuel
    exact ⟨s', t', hs', ⟨htree', k, hk⟩, hlist, hoff⟩

end RbState

end SBlktrace
