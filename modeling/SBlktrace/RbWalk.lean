import SBlktrace.RbSearch

namespace SBlktrace

open RBTree Function

namespace RbState

def firstFrom (d : Side) (fuel : ℕ) (s : RbState) : Option UInt64 :=
  if s.root = 0 then some 0 else s.outermost d fuel s.root

def rbFirst : ℕ → RbState → Option UInt64 := firstFrom .left

def rbLast : ℕ → RbState → Option UInt64 := firstFrom .right

/-- Up to the first ancestor that is not the child on the side `d` of its parent; that parent. -/
def climb (d : Side) : ℕ → UInt64 → RbState → Option UInt64
  | 0, _, _ => none
  | fuel + 1, node, s => do
    let parent := (← s.read node).parent
    if parent ≠ 0 ∧ node = (s.mem parent).child d then s.climb d fuel parent
    else return parent

def nextFrom (d : Side) (fuel : ℕ) (node : UInt64) (s : RbState) : Option UInt64 := do
  let r ← s.read node
  if r.parent = node then return 0
  else if r.child d.flip ≠ 0 then s.outermost d fuel (r.child d.flip)
  else s.climb d.flip fuel node

def rbNext : ℕ → UInt64 → RbState → Option UInt64 := nextFrom .left

def rbPrev : ℕ → UInt64 → RbState → Option UInt64 := nextFrom .right

def walkFrom (d : Side) (fuel : ℕ) : ℕ → UInt64 → RbState → Option (List UInt64)
  | 0, _, _ => none
  | steps + 1, node, s => do
    if node = 0 then return []
    else return node :: (← s.walkFrom d fuel steps (← s.nextFrom d fuel node))

variable {s : RbState} {d : Side} {c : RBColor} {x : UInt64} {fuel : ℕ}
  {a b t : RBNode UInt64} {path : RBNode.Path UInt64}

theorem outermost_head (h : IsTree s (path.fill (.branch d c a x b)))
    (hfuel : a.toList.length < fuel) :
    s.outermost d fuel x = some ((RBNode.listFrom d (.branch d c a x b)).headD 0) := by
  obtain ⟨spine, c', y, far, hy, hfill⟩ := outermost_spec h hfuel
  have hlist := congrArg (RBNode.listFrom d) (hfill .root)
  rw [RBNode.Path.listFrom_fill, RBNode.Path.before_descend, RBNode.listFrom_branch,
    RBNode.listFrom_nil] at hlist
  rw [hy, show RBNode.listFrom d (.branch d c a x b) = _ from hlist.symm]
  cases d <;> rfl

theorem climb_spec (h : IsTree s (path.fill t)) (ht : t ≠ .nil)
    (hfuel : path.others.length < fuel) :
    s.climb d.flip fuel (addr t) = some ((path.after d).headD 0) := by
  induction path using RBNode.Path.sidedInduction generalizing t fuel with
  | root =>
    obtain ⟨fuel, rfl⟩ := Nat.exists_eq_add_one_of_ne_zero (Nat.ne_zero_of_lt hfuel)
    obtain ⟨hne, hparent⟩ := h.addr_spec ht
    rw [climb, read_of_ne hne, Option.bind_eq_bind, Option.bind_some, hparent,
      if_neg fun hand => hand.1 rfl, RBNode.Path.after_root]
    rfl
  | under e c q v sib ih =>
    obtain ⟨fuel, rfl⟩ := Nat.exists_eq_add_one_of_ne_zero (Nat.ne_zero_of_lt hfuel)
    obtain ⟨hne, hparent⟩ := h.addr_spec ht
    rw [RBNode.Path.length_others_under] at hfuel
    rw [RBNode.Path.fill_under] at h
    have hv := h.nodeAt
    rw [top_under] at hparent
    rw [climb, read_of_ne hne, Option.bind_eq_bind, Option.bind_some, hparent]
    obtain rfl | rfl := Side.eq_or_eq_flip d e
    · rw [if_neg fun hand => h.addr_ne hne (hand.2.trans hv.far), RBNode.Path.after_under]
      rfl
    · rw [if_pos ⟨hv.ne_zero, hv.near.symm⟩, RBNode.Path.after_under_flip]
      have hclimb := ih h (by cases d <;> nofun) (show q.others.length < fuel by omega)
      rwa [addr_branch] at hclimb

theorem firstFrom_spec (h : IsTree s t) (hfuel : t.toList.length < fuel) :
    s.firstFrom d fuel = some ((RBNode.listFrom d t).headD 0) := by
  cases t with
  | nil =>
    rw [firstFrom, show s.root = 0 from h.root, if_pos rfl, RBNode.listFrom_nil]
    rfl
  | node c l x r =>
    obtain ⟨near, far, heq⟩ := RBNode.eq_branch d c l x r
    rw [heq] at h hfuel ⊢
    have htree : IsTree s (RBNode.Path.fill .root (.branch d c near x far)) := h
    rw [RBNode.toList_branch_perm.length_eq, List.length_cons, List.length_append] at hfuel
    rw [firstFrom, h.root, addr_branch, if_neg htree.nodeAt.ne_zero,
      outermost_head htree (by omega)]

theorem nextFrom_spec (h : IsTree s (path.fill (.branch d c a x b)))
    (hfuel : (path.fill (.branch d c a x b)).toList.length < fuel) :
    s.nextFrom d fuel x = some ((RBNode.listFrom d b ++ path.after d).headD 0) := by
  have hx := h.nodeAt
  obtain ⟨-, -, hxo, -, -⟩ := h.apart
  have hparent : (s.mem x).parent ≠ x := by
    rw [hx.parent]
    intro htop
    have hmem := (isTree_fill.mp h).1.top_mem (htop ▸ hx.ne_zero)
    exact hxo (htop ▸ hmem)
  rw [(path.fill_perm _).length_eq, List.length_append, RBNode.toList_branch_perm.length_eq,
    List.length_cons, List.length_append] at hfuel
  rw [nextFrom, read_of_ne hx.ne_zero, Option.bind_eq_bind, Option.bind_some, if_neg hparent, hx.far]
  cases b with
  | nil =>
    rw [addr_nil, if_neg (not_not_intro rfl), RBNode.listFrom_nil, List.nil_append]
    have hclimb : s.climb d.flip fuel (addr (.branch d c a x .nil)) = _ :=
      climb_spec h (by cases d <;> nofun) (by omega)
    rwa [addr_branch] at hclimb
  | node c' l y r =>
    obtain ⟨near, far, heq⟩ := RBNode.eq_branch d c' l y r
    rw [heq] at h hfuel ⊢
    have hy := (isTree_far.mp h).nodeAt
    rw [RBNode.toList_branch_perm.length_eq, List.length_cons, List.length_append] at hfuel
    rw [addr_branch, if_pos hy.ne_zero, outermost_head (isTree_far.mp h) (by omega),
      RBNode.listFrom_branch]
    cases RBNode.listFrom d near <;> rfl

theorem nextFrom_cons {before after : List UInt64} (h : IsTree s t)
    (hlist : RBNode.listFrom d t = before ++ x :: after) (hfuel : t.toList.length < fuel) :
    s.nextFrom d fuel x = some (after.headD 0) := by
  have hmem : x ∈ t.toList := by
    rw [← RBNode.mem_listFrom d, hlist]
    exact List.mem_append_right _ List.mem_cons_self
  obtain ⟨path, c, l, r, heq⟩ := RBNode.Path.exists_fill_of_mem .root hmem
  obtain ⟨a, b, hnode⟩ := RBNode.eq_branch d c l x r
  obtain rfl : t = path.fill (.branch d c a x b) := heq.trans (hnode ▸ rfl)
  rw [nextFrom_spec h hfuel]
  obtain ⟨hxa, hxb, hxo, -, -⟩ := h.apart
  rw [RBNode.Path.others, List.mem_append, not_or] at hxo
  rw [RBNode.Path.listFrom_fill, RBNode.listFrom_branch, List.append_assoc, List.append_assoc,
    List.cons_append, ← List.append_assoc] at hlist
  -- The node occurs once.
  have hside : ∀ e, x ∉ path.before e ∧ x ∉ path.after e := by
    rintro (_ | _)
    · exact hxo
    · exact ⟨mt List.mem_reverse.mp hxo.2, mt List.mem_reverse.mp hxo.1⟩
  have hbefore : x ∉ path.before d ++ RBNode.listFrom d a := by
    rw [List.mem_append, RBNode.mem_listFrom, not_or]
    exact ⟨(hside d).1, hxa⟩
  have hafter : x ∉ RBNode.listFrom d b ++ path.after d := by
    rw [List.mem_append, RBNode.mem_listFrom, not_or]
    exact ⟨hxb, (hside d).2⟩
  rw [((List.append_cons_inj_of_notMem hbefore hafter).mp hlist).2.2]

theorem walkFrom_spec {before after : List UInt64} {steps : ℕ} (h : IsTree s t)
    (hlist : RBNode.listFrom d t = before ++ after) (hfuel : t.toList.length < fuel)
    (hsteps : after.length < steps) : s.walkFrom d fuel steps (after.headD 0) = some after := by
  induction after generalizing before steps with
  | nil =>
    obtain ⟨steps, rfl⟩ := Nat.exists_eq_add_one_of_ne_zero (Nat.ne_zero_of_lt hsteps)
    exact if_pos rfl
  | cons x after ih =>
    obtain ⟨steps, rfl⟩ := Nat.exists_eq_add_one_of_ne_zero (Nat.ne_zero_of_lt hsteps)
    have hx : x ≠ 0 := by
      refine h.rep.ne_zero ((RBNode.mem_listFrom d).mp ?_)
      rw [hlist]
      exact List.mem_append_right _ List.mem_cons_self
    have hrest := @ih (before ++ [x]) steps (by rw [hlist, List.append_assoc]; rfl)
      (Nat.lt_of_succ_lt_succ hsteps)
    rw [List.headD_cons, walkFrom, if_neg hx, nextFrom_cons h hlist hfuel, Option.bind_eq_bind,
      Option.bind_some, Option.bind_eq_bind, hrest]
    rfl

/-- A walk from the first node on that goes on to the next until there is none meets each node of
the tree once, and in order. -/
theorem walk_spec (h : IsTree s t) (hfuel : t.toList.length < fuel) :
    ((s.firstFrom d fuel).bind fun node => s.walkFrom d fuel fuel node) =
      some (RBNode.listFrom d t) := by
  have hlength : (RBNode.listFrom d t).length < fuel := by
    cases d with
    | left => exact hfuel
    | right => rwa [RBNode.listFrom, List.length_reverse]
  rw [firstFrom_spec h hfuel, Option.bind_some]
  exact walkFrom_spec h (List.nil_append _).symm hfuel hlength

def addresses (s : RbState) (limit : ℕ) : List UInt64 :=
  ((s.firstFrom .left limit).bind fun node => s.walkFrom .left limit limit node).getD []

theorem addresses_eq {limit : ℕ} (h : IsTree s t) (hlimit : t.toList.length < limit) :
    s.addresses limit = t.toList := by
  rw [addresses, walk_spec h hlimit]
  rfl

end RbState

def places : List UInt64 := [4, 8, 12, 16, 20, 24, 28, 32]

theorem place_valid : ∀ a ∈ places, a ≠ 0 ∧ Aligned a := by
  intro a ha
  unfold Aligned
  simp only [places, List.mem_cons, List.not_mem_nil, or_false] at ha
  obtain rfl | rfl | rfl | rfl | rfl | rfl | rfl | rfl := ha <;> decide

theorem exists_free_place {used : List UInt64} (h : used.length < 8) : ∃ a ∈ places, a ∉ used := by
  by_contra hall
  push Not at hall
  have hle := (List.subperm_of_subset (by decide : places.Nodup) hall).length_le
  exact absurd hle (Nat.not_le_of_lt h)

def freePlace (used : List UInt64) : UInt64 := (places.find? (· ∉ used)).getD 4

theorem freePlace_spec {used : List UInt64} (h : used.length < 8) :
    freePlace used ∉ used ∧ freePlace used ≠ 0 ∧ Aligned (freePlace used) := by
  obtain ⟨a, ha, hnot⟩ := exists_free_place h
  cases hfind : places.find? (· ∉ used) with
  | none =>
    rw [List.find?_eq_none] at hfind
    exact absurd hnot (by simpa using hfind a ha)
  | some b =>
    have hb : freePlace used = b := by rw [freePlace, hfind, Option.getD_some]
    rw [hb]
    exact ⟨by simpa using List.find?_some hfind, place_valid b (List.mem_of_find?_eq_some hfind)⟩

end SBlktrace
