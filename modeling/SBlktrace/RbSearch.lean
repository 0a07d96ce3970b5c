import SBlktrace.RbRemoval

namespace SBlktrace

open RBTree Function

namespace RbState

/-- The loop that looks for a key from the link on the side `d` of `parent`, which leads to `n`:
the link that it ends at, and the node that has the key, or `NULL`. `cmp` is the comparison of the
key with that of a node. -/
def search (cmp : UInt64 → Ordering) :
    ℕ → Side → UInt64 → UInt64 → RbState → Option (Side × UInt64 × UInt64)
  | 0, _, _, _, _ => none
  | fuel + 1, d, parent, n, s =>
    if n = 0 then some (d, parent, 0)
    else match cmp n with
      | .lt => s.search cmp fuel .left n (s.mem n).left
      | .gt => s.search cmp fuel .right n (s.mem n).right
      | .eq => some (d, parent, n)

/-- A lookup: the node that has the key, or `NULL`. -/
def rbFind (cmp : UInt64 → Ordering) (fuel : ℕ) (s : RbState) : Option UInt64 :=
  (s.search cmp fuel .left 0 s.root).map fun r => r.2.2

def rbInsertBy (cmp : UInt64 → Ordering) (fuel : ℕ) (node : UInt64) (s : RbState) :
    Option (RbState × UInt64) := do
  let (d, parent, found) ← s.search cmp fuel .left 0 s.root
  if found ≠ 0 then return (s, found)
  else
    let s ← s.rbLinkNode d node parent
    let s ← s.rbInsertColor fuel node
    return (s, 0)

def Sorted (cmp : UInt64 → Ordering) (l : List UInt64) : Prop :=
  l.Pairwise fun x y => (cmp x = .lt → cmp y = .lt) ∧ (cmp y = .gt → cmp x = .gt)

variable {s s' : RbState} {cmp : UInt64 → Ordering} {fuel n : ℕ} {x y : UInt64}
  {t u : RBNode UInt64} {path : RBNode.Path UInt64}

theorem search_spec (h : IsTree s (path.fill u)) (hsorted : Sorted cmp u.toList)
    (hfuel : u.depth < fuel) :
    (∃ q : RBNode.Path UInt64, s.search cmp fuel path.side (top path) (addr u) =
        some (q.side, top q, 0) ∧ q.fill .nil = path.fill u ∧
      ∃ before after, u.toList = before ++ after ∧ q.listL = path.listL ++ before ∧
        q.listR = after ++ path.listR ∧ (∀ a ∈ before, cmp a = .gt) ∧ ∀ a ∈ after, cmp a = .lt) ∨
    ∃ r, s.search cmp fuel path.side (top path) (addr u) = some r ∧ r.2.2 ∈ u.toList ∧
      cmp r.2.2 = .eq := by
  induction fuel generalizing path u with
  | zero => exact absurd hfuel (Nat.not_lt_zero _)
  | succ fuel ih =>
    cases u with
    | nil =>
      refine .inl ⟨path, if_pos rfl, rfl, [], [], rfl, (List.append_nil _).symm, rfl, ?_, ?_⟩
      · exact List.forall_mem_nil _
      · exact List.forall_mem_nil _
    | node c l x r =>
      have hx := @IsTree.nodeAt _ .left _ _ _ _ path h
      rw [RBNode.depth] at hfuel
      rw [RBNode.toList_node] at hsorted ⊢
      obtain ⟨hl, hr, hcross⟩ := List.pairwise_append.mp hsorted
      obtain ⟨hxr, hr⟩ := List.pairwise_cons.mp hr
      rw [addr, search, if_neg hx.ne_zero]
      cases hcmp : cmp x with
      | eq => exact .inr ⟨_, rfl, List.mem_append_right _ List.mem_cons_self, hcmp⟩
      | lt =>
        have h' : IsTree s ((RBNode.Path.under .left c path x r).fill l) := h
        have hleft := ih h' hl (by omega)
        rw [RBNode.Path.side_under, top_under] at hleft
        have hnear : (s.mem x).left = addr l := hx.near
        simp only [hnear]
        obtain ⟨q, hq, hfill, before, after, hlist, hL, hR, hgt, hlt⟩ | ⟨res, hres, hmem, heq⟩ :=
          hleft
        · refine .inl ⟨q, hq, hfill, before, after ++ x :: r.toList, ?_, hL, ?_, hgt, ?_⟩
          · rw [hlist, List.append_assoc]
          · rw [hR, List.append_assoc]
            rfl
          · intro a ha
            rw [List.mem_append, List.mem_cons] at ha
            obtain ha | rfl | ha := ha
            · exact hlt a ha
            · exact hcmp
            · exact (hxr a ha).1 hcmp
        · exact .inr ⟨res, hres, List.mem_append_left _ hmem, heq⟩
      | gt =>
        have h' : IsTree s ((RBNode.Path.under .right c path x l).fill r) := h
        have hright := ih h' hr (by omega)
        rw [RBNode.Path.side_under, top_under] at hright
        have hfar : (s.mem x).right = addr r := hx.far
        simp only [hfar]
        obtain ⟨q, hq, hfill, before, after, hlist, hL, hR, hgt, hlt⟩ | ⟨res, hres, hmem, heq⟩ :=
          hright
        · refine .inl ⟨q, hq, hfill, l.toList ++ x :: before, after, ?_, ?_, hR, ?_, hlt⟩
          · rw [hlist, List.append_assoc]
            rfl
          · rw [hL]
            simp [RBNode.Path.under]
          · intro a ha
            rw [List.mem_append, List.mem_cons] at ha
            obtain ha | rfl | ha := ha
            · exact (hcross a ha x List.mem_cons_self).2 hcmp
            · exact hcmp
            · exact hgt a ha
        · exact .inr ⟨res, hres, List.mem_append_right _ (.tail _ hmem), heq⟩

theorem rbLinkNode_spec (h : IsTree s (path.fill .nil)) (hx : x ∉ (path.fill .nil).toList)
    (hne : x ≠ 0) (hal : Aligned x) :
    ∃ s', s.rbLinkNode path.side x (top path) = some s' ∧
      IsTree s' (path.fill (.branch .left .red .nil x .nil)) ∧
      ∀ z ∉ (path.fill .nil).toList, z ≠ x → s'.mem z = s.mem z := by
  obtain ⟨hholds, -, honodup⟩ := isTree_fill.mp h
  rw [(path.fill_perm _).mem_iff, RBNode.toList_nil, List.nil_append] at hx
  rw [RBNode.toList_nil, List.nil_append] at honodup
  obtain ⟨s₁, hs₁, hroot₁, hself₁, hoff₁⟩ :
      ∃ s₁, s.write x (fun _ => ⟨top path, 0, 0⟩) = some s₁ ∧ s₁.root = s.root ∧
        s₁.mem x = ⟨top path, 0, 0⟩ ∧ ∀ z, z ≠ x → s₁.mem z = s.mem z :=
    ⟨_, write_of_ne hne, rfl, update_self _ _ _, fun z hz => update_of_ne hz _ _⟩
  have hholds₁ : Holds s₁ path 0 := hholds.congr hroot₁ fun z hz => hoff₁ z fun h => hx (h ▸ hz)
  obtain ⟨s₂, hs₂, hholds₂, hoff₂⟩ : ∃ s₂, (if top path = 0 then some { s₁ with root := x }
      else s₁.write (top path) (·.setChild path.side x)) = some s₂ ∧ Holds s₂ path x ∧
        ∀ z ∉ path.others, s₂.mem z = s₁.mem z := by
    obtain rfl | ⟨d, c, q, v, sib, rfl⟩ := path.root_or_under
    · exact ⟨_, rfl, rfl, fun _ _ => rfl⟩
    · obtain ⟨s₂, hs₂, hholds₂, hoff₂⟩ := hholds₁.setChild x honodup
      have hv := (holds_under.mp hholds₁).1.ne_zero
      rw [top_under, RBNode.Path.side_under, if_neg hv]
      refine ⟨s₂, hs₂, hholds₂, fun z hz => hoff₂ z ?_⟩
      rintro rfl
      exact hz (RBNode.Path.others_under_perm.mem_iff.mpr List.mem_cons_self)
  have hself₂ : s₂.mem x = ⟨top path, 0, 0⟩ := by rw [hoff₂ x hx, hself₁]
  refine ⟨s₂, ?_, isTree_fill.mpr ⟨hholds₂, rep_branch.mpr ⟨⟨hne, hal, ?_, ?_, ?_, ?_⟩,
    trivial, trivial⟩, List.nodup_cons.mpr ⟨hx, honodup⟩⟩, fun z hz hzx => ?_⟩
  · rw [rbLinkNode, hs₁, Option.bind_eq_bind, Option.bind_some]
    exact hs₂
  · rw [hself₂]
    exact hholds.aligned_top
  · rw [hself₂]
    exact hholds.aligned_top.and_one
  · rw [hself₂]
    rfl
  · rw [hself₂]
    rfl
  · rw [(path.fill_perm _).mem_iff, RBNode.toList_nil, List.nil_append] at hz
    rw [hoff₂ z hz, hoff₁ z hzx]

/-- An insertion finds a node that has the key, or puts the new node where its key belongs; the
tree is red-black as before, and nothing else is written to. -/
theorem rbInsertBy_spec (h : IsRbTree s t) (hsorted : Sorted cmp t.toList) (hx : x ∉ t.toList)
    (hne : x ≠ 0) (hal : Aligned x) (hfuel : t.toList.length < fuel) :
    (∃ y ∈ t.toList, cmp y = .eq ∧ s.rbInsertBy cmp fuel x = some (s, y)) ∨
    ∃ before after s' t', t.toList = before ++ after ∧ (∀ a ∈ before, cmp a = .gt) ∧
      (∀ a ∈ after, cmp a = .lt) ∧ s.rbInsertBy cmp fuel x = some (s', 0) ∧ IsRbTree s' t' ∧
      t'.toList = before ++ x :: after ∧ ∀ z ∉ t.toList, z ≠ x → s'.mem z = s.mem z := by
  obtain ⟨htree, n, hbal⟩ := h
  have hroot : IsTree s (RBNode.Path.fill .root t) := htree
  have hsearch := search_spec hroot hsorted (t.depth_le_length.trans_lt hfuel)
  rw [← htree.root] at hsearch
  obtain ⟨q, hq, hfill, before, after, hlist, hL, hR, hgt, hlt⟩ | ⟨r, hr, hmem, heq⟩ := hsearch
  · replace hfill : q.fill .nil = t := hfill
    rw [← hfill] at htree hbal hfuel hx
    obtain ⟨s₁, hs₁, h₁, hoff₁⟩ := rbLinkNode_spec htree hx hne hal
    obtain ⟨c, k, hnil, hpath⟩ := RBNode.Path.Balanced.of_fill hbal
    cases hnil
    rw [(q.fill_perm _).length_eq, RBNode.toList_nil, List.nil_append] at hfuel
    obtain ⟨s₂, t₂, m, hs₂, h₂, hm⟩ := rbInsertColor_spec h₁ .nil .nil hpath hfuel
    refine .inr ⟨before, after, s₂, t₂, hlist, hgt, hlt, ?_, ⟨h₂.tree, m, hm⟩, ?_,
      fun z hz hzx => ?_⟩
    · rw [rbInsertBy]
      change s.search cmp fuel .left 0 s.root = _ at hq
      simp only [hq, Option.bind_eq_bind, Option.bind_some, ne_eq, not_true_eq_false, if_false, hs₁,
        hs₂]
      rfl
    · rw [h₂.order, RBNode.Path.fill_toList, RBNode.Path.withList, hL, hR]
      simp [RBNode.branch]
    · rw [← hfill] at hz
      rw [h₂.frame z, hoff₁ z hz hzx]
      rw [(q.fill_perm _).mem_iff] at hz ⊢
      rw [List.mem_append, RBNode.mem_branch, not_or]
      exact ⟨by simpa using hzx, by simpa using hz⟩
  · refine .inl ⟨r.2.2, hmem, heq, ?_⟩
    rw [rbInsertBy]
    change s.search cmp fuel .left 0 s.root = _ at hr
    simp only [hr, Option.bind_eq_bind, Option.bind_some]
    exact if_pos (htree.rep.ne_zero hmem)

theorem rbFind_eq (h : IsTree s t) (hsorted : Sorted cmp t.toList) (hfuel : t.depth < fuel) :
    (∃ y ∈ t.toList, cmp y = .eq ∧ s.rbFind cmp fuel = some y) ∨
      s.rbFind cmp fuel = some 0 ∧ ∀ y ∈ t.toList, cmp y ≠ .eq := by
  have hroot : IsTree s (RBNode.Path.fill .root t) := h
  have hsearch := search_spec hroot hsorted hfuel
  rw [← h.root] at hsearch
  obtain ⟨q, hq, hfill, before, after, hlist, hL, hR, hgt, hlt⟩ | ⟨r, hr, hmem, heq⟩ := hsearch
  · refine .inr ⟨?_, fun y hy heq => ?_⟩
    · change s.search cmp fuel .left 0 s.root = _ at hq
      rw [rbFind, hq]
      rfl
    · rw [hlist, List.mem_append] at hy
      obtain hy | hy := hy
      · cases (hgt y hy).symm.trans heq
      · cases (hlt y hy).symm.trans heq
  · refine .inl ⟨r.2.2, hmem, heq, ?_⟩
    change s.search cmp fuel .left 0 s.root = _ at hr
    rw [rbFind, hr]
    rfl

theorem rbFind_log (h : IsRbTree s t) (hsorted : Sorted cmp t.toList)
    (hfuel : 2 * (t.toList.length + 1).log2 < fuel) :
    (∃ y ∈ t.toList, cmp y = .eq ∧ s.rbFind cmp fuel = some y) ∨
      s.rbFind cmp fuel = some 0 ∧ ∀ y ∈ t.toList, cmp y ≠ .eq := by
  obtain ⟨htree, n, hbal⟩ := h
  have hdepth := hbal.depth_bound
  rw [RBNode.size_eq] at hdepth
  exact rbFind_eq htree hsorted (hdepth.trans_lt hfuel)

end RbState

end SBlktrace
