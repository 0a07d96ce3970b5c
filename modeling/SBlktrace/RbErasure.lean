import SBlktrace.RbInsertion

namespace SBlktrace

open RBTree Function

namespace RbState

def BlackAt (s : RbState) (node : UInt64) : Prop := node = 0 ∨ (s.mem node).color ≠ 0

instance (s : RbState) (node : UInt64) : Decidable (s.BlackAt node) :=
  inferInstanceAs (Decidable (_ ∨ _))

def eraseRotate (d : Side) (parent : UInt64) (s : RbState) : Option (UInt64 × RbState) := do
  let other := (← s.read parent).child d.flip
  if (← s.read other).color = 0 then
    let s ← s.write other RbNode.setBlack
    let s ← s.write parent RbNode.setRed
    let s ← s.rotate d parent
    return ((← s.read parent).child d.flip, s)
  else
    return (other, s)

/-- The rest of a round of `__rb_erase_color`; whether the loop goes on, and the node of the next
round, or that the loop is left with. -/
def eraseSibling (d : Side) (parent other : UInt64) (s : RbState) :
    Option (Bool × UInt64 × RbState) := do
  let node ← s.read other
  if s.BlackAt node.left ∧ s.BlackAt node.right then
    let s ← s.write other RbNode.setRed
    return (true, parent, s)
  else
    let (other, s) ←
      if s.BlackAt (node.child d.flip) then do
        let inner := node.child d
        let s ← if inner = 0 then some s else s.write inner RbNode.setBlack
        let s ← s.write other RbNode.setRed
        let s ← s.rotate d.flip other
        pure ((← s.read parent).child d.flip, s)
      else pure (other, s)
    let color := (← s.read parent).color
    let s ← s.write other (RbNode.setColor · color)
    let s ← s.write parent RbNode.setBlack
    let outer := (← s.read other).child d.flip
    let s ← if outer = 0 then some s else s.write outer RbNode.setBlack
    let s ← s.rotate d parent
    return (false, s.root, s)

def eraseLoop : ℕ → UInt64 → UInt64 → RbState → Option (UInt64 × RbState)
  | 0, _, _, _ => none
  | fuel + 1, node, parent, s => do
    if s.BlackAt node ∧ node ≠ s.root then
      let d := if (← s.read parent).left = node then .left else .right
      let (other, s) ← s.eraseRotate d parent
      let (again, node, s) ← s.eraseSibling d parent other
      if again then s.eraseLoop fuel node (← s.read node).parent
      else return (node, s)
    else
      return (node, s)

def rbEraseColor (fuel : ℕ) (node parent : UInt64) (s : RbState) : Option RbState := do
  let (node, s) ← s.eraseLoop fuel node parent
  if node = 0 then return s else s.write node RbNode.setBlack

variable {s s' : RbState} {d e : Side} {c c' ct cn cf : RBColor} {v w x y z p : UInt64}
  {n n₀ fuel : ℕ} {a b f t : RBNode UInt64} {q path : RBNode.Path UInt64}

theorem Rep.blackAt (h : Rep s.mem p t) (ht : t.Balanced .black n) : s.BlackAt (addr t) := by
  have hred := h.not_red ht
  rwa [not_and_or, not_not] at hred

theorem Rep.not_blackAt (h : Rep s.mem p (.branch d .red a x b)) : ¬ s.BlackAt x := by
  obtain ⟨hx, -, -⟩ := rep_branch.mp h
  rintro (hzero | hcolor)
  · exact hx.ne_zero hzero
  · exact hcolor hx.color

theorem blackAt_children (d : Side) (r : RbNode) :
    s.BlackAt r.left ∧ s.BlackAt r.right ↔ s.BlackAt (r.child d) ∧ s.BlackAt (r.child d.flip) := by
  cases d with
  | left => exact Iff.rfl
  | right => exact and_comm

theorem eraseRotate_black (h : IsTree s (path.fill (.branch d c t v (.branch d .black a w b)))) :
    s.eraseRotate d v = some (w, s) := by
  have hv := h.nodeAt
  have hw := (isTree_far.mp h).nodeAt
  rw [addr_branch] at hv
  rw [eraseRotate, read_of_ne hv.ne_zero]
  simp only [Option.bind_eq_bind, Option.bind_some]
  rw [hv.far, read_of_ne hw.ne_zero, Option.bind_some, hw.color, if_neg (by decide)]
  rfl

theorem eraseRotate_red (h : IsTree s (path.fill (.branch d c t v (.branch d .red a w b)))) :
    ∃ s', s.eraseRotate d v = some (addr a, s') ∧
      Reshaped s (path.fill (.branch d c t v (.branch d .red a w b))) s'
        (path.fill (.branch d .black (.branch d .red t v a) w b)) := by
  have hv := h.nodeAt
  have hw := (isTree_far.mp h).nodeAt
  rw [addr_branch] at hv
  obtain ⟨s₁, hs₁, h₁⟩ := setBlack_spec (isTree_far.mp h)
  simp only [RBNode.Path.fill_under, RBNode.branch_flip] at h₁
  obtain ⟨s₂, hs₂, h₂⟩ := setRed_spec h₁.tree
  obtain ⟨s₃, hs₃, h₃⟩ := rotate_spec h₂.tree
  refine ⟨s₃, ?_, h₁.trans (h₂.trans h₃)⟩
  have hv₃ := (isTree_near.mp h₃.tree).nodeAt
  rw [eraseRotate, read_of_ne hv.ne_zero]
  simp only [Option.bind_eq_bind, Option.bind_some]
  rw [hv.far, read_of_ne hw.ne_zero, Option.bind_some, hw.color, rbColorWord, if_pos rfl, hs₁,
    Option.bind_some, hs₂, Option.bind_some, hs₃, Option.bind_some, read_of_ne hv.ne_zero,
    Option.bind_some, hv₃.far]
  rfl

theorem eraseSibling_recolor (h : IsTree s (path.fill (.branch d c t v (.branch d .black a w b))))
    (ha : a.Balanced .black n) (hb : b.Balanced .black n) :
    ∃ s', s.eraseSibling d v w = some (true, v, s') ∧
      Reshaped s (path.fill (.branch d c t v (.branch d .black a w b))) s'
        (path.fill (.branch d c t v (.branch d .red a w b))) := by
  have hw := (isTree_far.mp h).nodeAt
  obtain ⟨-, hra, hrb⟩ := rep_branch.mp (isTree_fill.mp (isTree_far.mp h)).2.1
  obtain ⟨s₁, hs₁, h₁⟩ := setRed_spec (isTree_far.mp h)
  simp only [RBNode.Path.fill_under, RBNode.branch_flip] at h₁
  refine ⟨s₁, ?_, h₁⟩
  rw [eraseSibling, read_of_ne hw.ne_zero]
  simp only [Option.bind_eq_bind, Option.bind_some]
  rw [if_pos ((blackAt_children d _).mpr ⟨hw.near ▸ hra.blackAt ha, hw.far ▸ hrb.blackAt hb⟩),
    hs₁, Option.bind_some]
  rfl

theorem eraseSibling_raise (h : IsTree s (path.fill
      (.branch d c t v (.branch d .black a w (.branch e .red b z f))))) :
    ∃ s₁ s₂ s₃ s₄, s.write w (RbNode.setColor · (rbColorWord c)) = some s₁ ∧
      s₁.write v RbNode.setBlack = some s₂ ∧ (s₂.mem w).child d.flip = z ∧
      s₂.write z RbNode.setBlack = some s₃ ∧ s₃.rotate d v = some s₄ ∧ Reshaped s (path.fill
      (.branch d c t v (.branch d .black a w (.branch e .red b z f)))) s₄ (path.fill
      (.branch d c (.branch d .black t v a) w (.branch e .black b z f))) := by
  obtain ⟨s₁, hs₁, h₁⟩ := setColor_spec c (isTree_far.mp h)
  simp only [RBNode.Path.fill_under, RBNode.branch_flip] at h₁
  obtain ⟨s₂, hs₂, h₂⟩ := setBlack_spec h₁.tree
  have hw := (isTree_far.mp h₂.tree).nodeAt
  obtain ⟨s₃, hs₃, h₃⟩ := setBlack_spec (isTree_far.mp (isTree_far.mp h₂.tree))
  simp only [RBNode.Path.fill_under, RBNode.branch_flip] at h₃
  obtain ⟨s₄, hs₄, h₄⟩ := rotate_spec h₃.tree
  exact ⟨s₁, s₂, s₃, s₄, hs₁, hs₂, hw.far.trans (addr_branch ..), hs₃, hs₄,
    h₁.trans (h₂.trans (h₃.trans h₄))⟩

theorem eraseSibling_outer (h : IsTree s (path.fill
      (.branch d c t v (.branch d .black a w (.branch e .red b z f))))) :
    ∃ s', s.eraseSibling d v w = some (false, s'.root, s') ∧ Reshaped s (path.fill
      (.branch d c t v (.branch d .black a w (.branch e .red b z f)))) s' (path.fill
      (.branch d c (.branch d .black t v a) w (.branch e .black b z f))) := by
  have hv := h.nodeAt
  have hw := (isTree_far.mp h).nodeAt
  have hz := isTree_far.mp (isTree_far.mp h)
  have hred : ¬ s.BlackAt ((s.mem w).child d.flip) := by
    rw [hw.far, addr_branch]
    exact (isTree_fill.mp hz).2.1.not_blackAt
  obtain ⟨s₁, s₂, s₃, s₄, hs₁, hs₂, houter, hs₃, hs₄, h₄⟩ := eraseSibling_raise h
  refine ⟨s₄, ?_, h₄⟩
  rw [eraseSibling, read_of_ne hw.ne_zero]
  simp only [Option.bind_eq_bind, Option.bind_some]
  rw [if_neg fun hboth => hred ((blackAt_children d _).mp hboth).2, if_neg hred]
  simp only [Option.pure_def, Option.bind_some]
  rw [read_of_ne hv.ne_zero, Option.bind_some, hv.color, hs₁, Option.bind_some, hs₂,
    Option.bind_some, read_of_ne hw.ne_zero, Option.bind_some, houter,
    if_neg hz.nodeAt.ne_zero, hs₃, Option.bind_some, hs₄, Option.bind_some]

theorem eraseSibling_inner (h : IsTree s (path.fill
      (.branch d c t v (.branch d .black (.branch d .red a z b) w f))))
    (hf : f.Balanced .black n) :
    ∃ s', s.eraseSibling d v w = some (false, s'.root, s') ∧ Reshaped s (path.fill
      (.branch d c t v (.branch d .black (.branch d .red a z b) w f))) s' (path.fill
      (.branch d c (.branch d .black t v a) z (.branch d .black b w f))) := by
  have hv := h.nodeAt
  have hw := (isTree_far.mp h).nodeAt
  have hz := isTree_near.mp (isTree_far.mp h)
  obtain ⟨-, -, hrf⟩ := rep_branch.mp (isTree_fill.mp (isTree_far.mp h)).2.1
  have hred : ¬ s.BlackAt ((s.mem w).child d) := by
    rw [hw.near, addr_branch]
    exact (isTree_fill.mp hz).2.1.not_blackAt
  have hblack : s.BlackAt ((s.mem w).child d.flip) := by
    rw [hw.far]
    exact hrf.blackAt hf
  obtain ⟨s₁, hs₁, h₁⟩ := setBlack_spec hz
  simp only [RBNode.Path.fill_under, RBNode.branch_flip] at h₁
  obtain ⟨s₂, hs₂, h₂⟩ := setRed_spec (isTree_far.mp h₁.tree)
  have hw₂ := h₂.tree
  rw [← RBNode.branch_flip d .red, ← RBNode.branch_flip d .black] at hw₂
  obtain ⟨s₃, hs₃, h₃⟩ := rotate_spec hw₂
  simp only [RBNode.Path.fill_under, RBNode.branch_flip] at h₂ h₃
  have hv₃ := h₃.tree.nodeAt
  obtain ⟨s₄, s₅, s₆, s₇, hs₄, hs₅, houter, hs₆, hs₇, h₇⟩ := eraseSibling_raise h₃.tree
  refine ⟨s₇, ?_, h₁.trans (h₂.trans (h₃.trans h₇))⟩
  rw [eraseSibling, read_of_ne hw.ne_zero]
  simp only [Option.bind_eq_bind, Option.bind_some]
  rw [if_neg fun hboth => hred ((blackAt_children d _).mp hboth).1, if_pos hblack, hw.near,
    addr_branch, if_neg hz.nodeAt.ne_zero, hs₁, Option.bind_some, hs₂, Option.bind_some, hs₃,
    Option.bind_some, read_of_ne hv.ne_zero]
  simp only [Option.pure_def, Option.bind_some]
  rw [hv₃.far, addr_branch, read_of_ne hv.ne_zero, Option.bind_some, hv₃.color, hs₄,
    Option.bind_some, hs₅, Option.bind_some, read_of_ne hz.nodeAt.ne_zero, Option.bind_some,
    houter, if_neg hw.ne_zero, hs₆, Option.bind_some, hs₇, Option.bind_some]

def Leaves (r : Option (UInt64 × RbState)) (s : RbState) (t : RBNode UInt64) : Prop :=
  ∃ s' q u k, r = some (addr u, s') ∧ Reshaped s t s' (RBNode.Path.fill q u) ∧
    (RBNode.Path.fill q u.setBlack).Balanced .black k

theorem Leaves.after {r : Option (UInt64 × RbState)} {t' : RBNode UInt64} (h : Leaves r s' t')
    (hstep : Reshaped s t s' t') : Leaves r s t := by
  obtain ⟨s'', q, u, k, hr, hlast, hk⟩ := h
  exact ⟨s'', q, u, k, hr, hstep.trans hlast, hk⟩

theorem eraseLoop_done (h : ¬ (s.BlackAt x ∧ x ≠ s.root)) :
    s.eraseLoop (fuel + 1) x p = some (x, s) := by
  rw [eraseLoop, if_neg h]
  rfl

theorem eraseLoop_step (hblack : s.BlackAt x) (hroot : x ≠ s.root) (hp : p ≠ 0)
    (hside : (if (s.mem p).left = x then Side.left else .right) = d) :
    s.eraseLoop (fuel + 1) x p = (s.eraseRotate d p).bind fun r =>
      (r.2.eraseSibling d p r.1).bind fun r =>
        if r.1 then (r.2.2.read r.2.1).bind fun node => r.2.2.eraseLoop fuel r.2.1 node.parent
        else some r.2 := by
  rw [eraseLoop, if_pos ⟨hblack, hroot⟩, read_of_ne hp]
  simp only [Option.bind_eq_bind, Option.bind_some, hside]
  rfl

theorem leaves_red (h : IsTree s (q.fill (.branch d .red a x b))) (ha : a.Balanced ct n)
    (hb : b.Balanced cn n) (hq : RBNode.Path.Balanced .black n₀ q .black (n + 1)) :
    Leaves (s.eraseLoop (fuel + 1) x p) s (q.fill (.branch d .red a x b)) := by
  refine ⟨s, q, .branch d .red a x b, n₀, ?_, .refl h, ?_⟩
  · rw [addr_branch]
    exact eraseLoop_done fun hloop => (isTree_fill.mp h).2.1.not_blackAt hloop.1
  · rw [RBNode.setBlack_branch]
    exact hq.fill (ha.branch_black hb)

theorem leaves_sibling (h : IsTree s (q.fill (.branch d c t v (.branch d .black a w b))))
    (ht : t.Balanced .black n) (ha : a.Balanced cn n) (hb : b.Balanced cf n)
    (hq : RBNode.Path.Balanced .black n₀ q c (RBNode.heightAbove c (n + 1)))
    (hnext : c = .black → ∀ s₁ u, IsTree s₁ (q.fill (.branch d .black t v u)) →
      u.Balanced .red n →
      Leaves (s₁.eraseLoop (fuel + 1) v (top q)) s₁ (q.fill (.branch d .black t v u))) :
    Leaves ((s.eraseSibling d v w).bind fun r =>
      if r.1 then (r.2.2.read r.2.1).bind fun node =>
        r.2.2.eraseLoop (fuel + 1) r.2.1 node.parent
      else some r.2) s (q.fill (.branch d c t v (.branch d .black a w b))) := by
  -- The loop is left with the whole tree balanced.
  have hleave : ∀ s' t', s.eraseSibling d v w = some (false, s'.root, s') →
      Reshaped s (q.fill (.branch d c t v (.branch d .black a w b))) s' (q.fill t') →
      t'.Balanced c (RBNode.heightAbove c (n + 1)) → Leaves ((s.eraseSibling d v w).bind fun r =>
        if r.1 then (r.2.2.read r.2.1).bind fun node =>
          r.2.2.eraseLoop (fuel + 1) r.2.1 node.parent
        else some r.2) s (q.fill (.branch d c t v (.branch d .black a w b))) := by
    intro s' t' hs' h' ht'
    refine ⟨s', .root, q.fill t', n₀, ?_, h', (hq.fill ht').black_setBlack⟩
    rw [hs', Option.bind_some, ← h'.tree.root]
    rfl
  obtain hbb | ⟨b₁, z, b₂, rfl, hb₁, hb₂⟩ := hb.black_or_red d
  · obtain hab | ⟨a₁, z, a₂, rfl, ha₁, ha₂⟩ := ha.black_or_red d
    · obtain ⟨s₁, hs₁, h₁⟩ := eraseSibling_recolor h hab hbb
      have hv₁ := h₁.tree.nodeAt
      rw [hs₁, Option.bind_some, if_pos rfl, read_of_ne hv₁.ne_zero, Option.bind_some, hv₁.parent]
      refine Leaves.after ?_ h₁
      cases c with
      | red => exact leaves_red h₁.tree ht (hab.branch_red hbb) hq.of_red
      | black => exact hnext rfl s₁ _ h₁.tree (hab.branch_red hbb)
    · obtain ⟨s₁, hs₁, h₁⟩ := eraseSibling_inner h hbb
      exact hleave s₁ _ hs₁ h₁ ((ht.branch_black ha₁).branch_any (ha₂.branch_black hbb))
  · obtain ⟨s₁, hs₁, h₁⟩ := eraseSibling_outer h
    exact hleave s₁ _ hs₁ h₁ ((ht.branch_black ha).branch_any (hb₁.branch_black hb₂))

theorem eraseLoop_spec (h : IsTree s (path.fill t)) (ht : t.Balanced ct n)
    (hpath : RBNode.Path.Balanced .black n₀ path .black (n + 1))
    (hfuel : path.others.length < fuel) :
    Leaves (s.eraseLoop fuel (addr t) (top path)) s (path.fill t) := by
  induction fuel generalizing s path t ct n with
  | zero => exact absurd hfuel (Nat.not_lt_zero _)
  | succ fuel ih =>
    obtain ht | ⟨near, x, far, rfl, hnear, hfar⟩ := ht.black_or_red .left
    · have hblack := (isTree_fill.mp h).2.1.blackAt ht
      obtain rfl | ⟨d, c, q, v, sib, rfl⟩ := path.root_or_under
      · refine ⟨s, .root, t, n, eraseLoop_done fun hloop => hloop.2 h.root.symm, .refl h, ?_⟩
        exact ht.black_setBlack
      have hroot : addr t ≠ s.root := h.addr_ne_root (by cases d <;> nofun)
      have hq := hpath.above
      rw [RBNode.Path.length_others_under] at hfuel
      simp only [RBNode.Path.fill_under, top_under] at h ⊢
      have hv := h.nodeAt
      -- The sibling is not empty, so that there is fuel for another round.
      have hsib : ∃ cs, sib.Balanced cs (n + 1) ∧ (c = .red → cs = .black) := by
        cases c with
        | red => exact ⟨_, (RBNode.Path.balanced_under_red.mp hpath).2.1, fun _ => rfl⟩
        | black =>
          obtain ⟨cs, hsib⟩ := (RBNode.Path.balanced_under_black.mp hpath).1
          exact ⟨cs, hsib, nofun⟩
      obtain ⟨cs, hsib, hcs⟩ := hsib
      obtain ⟨a, w, b, rfl, rfl, ha, hb⟩ | ⟨a, w, b, ca, cb, rfl, rfl, ha, hb⟩ :=
        hsib.exists_branch d
      · obtain rfl : c = .black := by cases c with
          | red => cases hcs rfl
          | black => rfl
        obtain ⟨k, rfl⟩ : ∃ k, fuel = k + 1 := ⟨fuel - 1, by
          rw [RBNode.toList_branch_perm.length_eq, List.length_cons] at hfuel
          omega⟩
        have hw := (isTree_far.mp h).nodeAt
        have hside := h.side ((addr_branch ..).trans_ne hw.ne_zero)
        obtain ⟨s₁, hs₁, h₁⟩ := eraseRotate_red h
        obtain ⟨-, -, -, -, hc, -⟩ | ⟨a₁, z, a₂, c₁, c₂, rfl, -, ha₁, ha₂⟩ :=
          ha.exists_branch d
        · cases hc
        have hq₁ : RBNode.Path.Balanced .black n₀ (.under d .black q w b) .red (n + 1) :=
          RBNode.Path.balanced_under_black.mpr ⟨⟨_, hb⟩, hq⟩
        rw [eraseLoop_step hblack hroot hv.ne_zero hside, hs₁, Option.bind_some, addr_branch]
        refine Leaves.after ?_ h₁
        rw [← RBNode.Path.fill_under]
        refine leaves_sibling (isTree_near.mp h₁.tree) ht ha₁ ha₂ hq₁ nofun
      · have hw := (isTree_far.mp h).nodeAt
        have hside := h.side ((addr_branch ..).trans_ne hw.ne_zero)
        obtain ⟨k, rfl⟩ : ∃ k, fuel = k + 1 := ⟨fuel - 1, by
          rw [RBNode.toList_branch_perm.length_eq, List.length_cons] at hfuel
          omega⟩
        rw [eraseLoop_step hblack hroot hv.ne_zero hside, eraseRotate_black h, Option.bind_some]
        refine leaves_sibling h ht ha hb hq fun hc s₁ u h₁ hu => ?_
        subst hc
        have hloop := ih h₁ (ht.branch_black hu) hq (by omega)
        rwa [addr_branch] at hloop
    · rw [addr_branch]
      exact leaves_red h hnear hfar hpath

theorem rbEraseColor_spec (h : IsTree s (path.fill t)) (ht : t.Balanced ct n)
    (hpath : RBNode.Path.Balanced .black n₀ path .black (n + 1))
    (hfuel : path.others.length < fuel) :
    ∃ s' t' k, s.rbEraseColor fuel (addr t) (top path) = some s' ∧
      Reshaped s (path.fill t) s' t' ∧ t'.Balanced .black k := by
  obtain ⟨s₁, q, u, k, hs₁, h₁, hk⟩ := eraseLoop_spec h ht hpath hfuel
  rw [rbEraseColor, hs₁, Option.bind_eq_bind, Option.bind_some]
  cases u with
  | nil => exact ⟨s₁, _, k, rfl, h₁, hk⟩
  | node c l x r =>
    have hx := @IsTree.nodeAt _ .left _ _ _ _ q h₁.tree
    obtain ⟨s₂, hs₂, h₂⟩ := @setBlack_spec _ .left _ _ _ _ q h₁.tree
    exact ⟨s₂, _, k, (if_neg hx.ne_zero).trans hs₂, h₁.trans h₂, hk⟩

end RbState

end SBlktrace
