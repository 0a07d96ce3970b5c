import SBlktrace.RedBlack

namespace SBlktrace

open RBTree Function

structure RbNode where
  parentColor : UInt64
  right : UInt64
  left : UInt64

theorem or_and_distrib (a b c : UInt64) : (a ||| b) &&& c = a &&& c ||| b &&& c := by
  apply UInt64.toBitVec_inj.mp
  ext i hi
  simp [Bool.and_or_distrib_right]

def Aligned (a : UInt64) : Prop := a &&& ~~~3 = a

theorem aligned_zero : Aligned 0 := UInt64.zero_and

theorem Aligned.and_one {a : UInt64} (h : Aligned a) : a &&& 1 = 0 := by
  rw [← h, UInt64.and_assoc, show (~~~3 &&& 1 : UInt64) = 0 by decide, UInt64.and_zero]

def rbColorWord : RBColor → UInt64
  | .red => 0
  | .black => 1

namespace RbNode

variable (r : RbNode) (d : Side) (a p c : UInt64)

def parent : UInt64 := r.parentColor &&& ~~~3

def color : UInt64 := r.parentColor &&& 1

def setRed : RbNode := { r with parentColor := r.parentColor &&& ~~~1 }

def setBlack : RbNode := { r with parentColor := r.parentColor ||| 1 }

def setParent : RbNode := { r with parentColor := r.parentColor &&& 3 ||| p }

def setColor : RbNode := { r with parentColor := r.parentColor &&& ~~~1 ||| c }

def child : UInt64 :=
  match d with
  | .left => r.left
  | .right => r.right

def setChild : RbNode :=
  match d with
  | .left => { r with left := a }
  | .right => { r with right := a }

@[simp] theorem child_setRed : r.setRed.child d = r.child d := by cases d <;> rfl

@[simp] theorem child_setBlack : r.setBlack.child d = r.child d := by cases d <;> rfl

@[simp] theorem child_setParent : (r.setParent p).child d = r.child d := by cases d <;> rfl

@[simp] theorem child_setColor : (r.setColor c).child d = r.child d := by cases d <;> rfl

@[simp] theorem child_setChild : (r.setChild d a).child d = a := by cases d <;> rfl

@[simp] theorem child_flip_setChild : (r.setChild d a).child d.flip = r.child d.flip := by
  cases d <;> rfl

@[simp] theorem child_setChild_flip : (r.setChild d.flip a).child d = r.child d := by
  cases d <;> rfl

@[simp] theorem parent_setChild : (r.setChild d a).parent = r.parent := by cases d <;> rfl

@[simp] theorem color_setChild : (r.setChild d a).color = r.color := by cases d <;> rfl

@[simp] theorem color_setRed : r.setRed.color = 0 := by
  rw [setRed, color, UInt64.and_assoc, show (~~~1 &&& 1 : UInt64) = 0 by decide, UInt64.and_zero]

@[simp] theorem color_setBlack : r.setBlack.color = 1 := by
  rw [setBlack, color, or_and_distrib, UInt64.and_self, UInt64.or_comm]
  apply UInt64.toBitVec_inj.mp
  ext i hi
  simp +contextual

@[simp] theorem parent_setRed : r.setRed.parent = r.parent := by
  rw [setRed, parent, parent, UInt64.and_assoc, show (~~~1 &&& ~~~3 : UInt64) = ~~~3 by decide]

@[simp] theorem parent_setBlack : r.setBlack.parent = r.parent := by
  rw [setBlack, parent, parent, or_and_distrib, show (1 &&& ~~~3 : UInt64) = 0 by decide,
    UInt64.or_zero]

theorem color_setColor (h : c = 0 ∨ c = 1) : (r.setColor c).color = c := by
  rw [setColor, color, or_and_distrib, UInt64.and_assoc,
    show (~~~1 &&& 1 : UInt64) = 0 by decide, UInt64.and_zero, UInt64.zero_or]
  obtain rfl | rfl := h <;> decide

theorem parent_setColor (h : c = 0 ∨ c = 1) : (r.setColor c).parent = r.parent := by
  rw [setColor, parent, parent, or_and_distrib, UInt64.and_assoc,
    show (~~~1 &&& ~~~3 : UInt64) = ~~~3 by decide]
  obtain rfl | rfl := h
  · rw [UInt64.zero_and, UInt64.or_zero]
  · rw [show (1 &&& ~~~3 : UInt64) = 0 by decide, UInt64.or_zero]

variable {p}

theorem parent_setParent (h : Aligned p) : (r.setParent p).parent = p := by
  rw [setParent, parent, or_and_distrib, UInt64.and_assoc,
    show (3 &&& ~~~3 : UInt64) = 0 by decide, UInt64.and_zero, h, UInt64.zero_or]

theorem color_setParent (h : Aligned p) : (r.setParent p).color = r.color := by
  rw [setParent, color, color, or_and_distrib, UInt64.and_assoc, h.and_one,
    show (3 &&& 1 : UInt64) = 1 by decide, UInt64.or_zero]

end RbNode

structure RbState where
  mem : UInt64 → RbNode
  root : UInt64

namespace RbState

def read (s : RbState) (a : UInt64) : Option RbNode := if a = 0 then none else some (s.mem a)

def write (s : RbState) (a : UInt64) (f : RbNode → RbNode) : Option RbState :=
  if a = 0 then none else some { s with mem := update s.mem a (f (s.mem a)) }

/-- Puts `new` in the place of `old` below `parent`, which is looked for on the side `d` first. -/
def relink (s : RbState) (d : Side) (parent old new : UInt64) : Option RbState :=
  if parent = 0 then some { s with root := new }
  else if (s.mem parent).child d = old then s.write parent (·.setChild d new)
  else s.write parent (·.setChild d.flip new)

def reparent (s : RbState) (child parent : UInt64) : Option RbState :=
  if child = 0 then some s else s.write child (·.setParent parent)

/-- `__rb_rotate_left` for the side `left`, `__rb_rotate_right` for the side `right`. -/
def rotate (d : Side) (node : UInt64) (s : RbState) : Option RbState := do
  let right := (← s.read node).child d.flip
  let parent := (← s.read node).parent
  let inner := (← s.read right).child d
  let s ← s.write node (·.setChild d.flip inner)
  let s ← s.reparent inner node
  let s ← s.write right (·.setChild d node)
  let s ← s.write right (·.setParent parent)
  let s ← s.relink d parent node right
  s.write node (·.setParent right)

def rbRotateLeft : UInt64 → RbState → Option RbState := rotate .left

def rbRotateRight : UInt64 → RbState → Option RbState := rotate .right

def rbLinkNode (d : Side) (node parent : UInt64) (s : RbState) : Option RbState := do
  let s ← s.write node fun _ => ⟨parent, 0, 0⟩
  if parent = 0 then some { s with root := node } else s.write parent (·.setChild d node)

def rbReplaceNode (victim new : UInt64) (s : RbState) : Option RbState := do
  let parent := (← s.read victim).parent
  let s ← s.relink .left parent victim new
  let s ← s.reparent (← s.read victim).left new
  let s ← s.reparent (← s.read victim).right new
  let r ← s.read victim
  s.write new fun _ => r

section

variable {s s' : RbState} {a b x : UInt64} {f : RbNode → RbNode}

theorem read_of_ne (h : a ≠ 0) : s.read a = some (s.mem a) := if_neg h

theorem write_of_ne (h : a ≠ 0) :
    s.write a f = some { s with mem := update s.mem a (f (s.mem a)) } := if_neg h

end

def addr : RBNode UInt64 → UInt64
  | .nil => 0
  | .node _ _ x _ => x

@[simp] theorem addr_nil : addr .nil = 0 := rfl

@[simp] theorem addr_branch (d : Side) (c : RBColor) (a : RBNode UInt64) (x : UInt64)
    (b : RBNode UInt64) : addr (RBNode.branch d c a x b) = x := by cases d <;> rfl

def top : RBNode.Path UInt64 → UInt64
  | .root => 0
  | .left _ _ x _ => x
  | .right _ _ x _ => x

@[simp] theorem top_root : top .root = 0 := rfl

@[simp] theorem top_under (d : Side) (c : RBColor) (p : RBNode.Path UInt64) (x : UInt64)
    (sib : RBNode UInt64) : top (.under d c p x sib) = x := by cases d <;> rfl

/-- What a node holds: its parent, its colour, and its child on the side `d` and on the other. -/
structure NodeAt (mem : UInt64 → RbNode) (d : Side) (x p : UInt64) (c : RBColor)
    (near far : UInt64) : Prop where
  ne_zero : x ≠ 0
  aligned : Aligned x
  parent : (mem x).parent = p
  color : (mem x).color = rbColorWord c
  near : (mem x).child d = near
  far : (mem x).child d.flip = far

theorem nodeAt_flip {mem : UInt64 → RbNode} {d : Side} {x p : UInt64} {c : RBColor}
    {near far : UInt64} : NodeAt mem d.flip x p c near far ↔ NodeAt mem d x p c far near := by
  constructor
  · rintro ⟨hne, hal, hp, hc, hnear, hfar⟩
    exact ⟨hne, hal, hp, hc, by rwa [Side.flip_flip] at hfar, hnear⟩
  · rintro ⟨hne, hal, hp, hc, hnear, hfar⟩
    exact ⟨hne, hal, hp, hc, hfar, by rwa [Side.flip_flip]⟩

theorem NodeAt.side {mem : UInt64 → RbNode} {d : Side} {x p : UInt64} {c : RBColor}
    {near far : UInt64} (h : NodeAt mem d x p c near far) (hne : near ≠ far) :
    (if near = (mem x).left then Side.left else .right) = d := by
  cases d with
  | left => exact if_pos h.near.symm
  | right => exact if_neg fun heq => hne (heq.trans h.far)

def Rep (mem : UInt64 → RbNode) (p : UInt64) : RBNode UInt64 → Prop
  | .nil => True
  | .node c l x r => NodeAt mem .left x p c (addr l) (addr r) ∧ Rep mem x l ∧ Rep mem x r

def Holds (s : RbState) : RBNode.Path UInt64 → UInt64 → Prop
  | .root, a => s.root = a
  | .left c q x r, a => NodeAt s.mem .left x (top q) c a (addr r) ∧ Rep s.mem x r ∧ Holds s q x
  | .right c l x q, a => NodeAt s.mem .left x (top q) c (addr l) a ∧ Rep s.mem x l ∧ Holds s q x

/-- The nodes that can be reached from the root are those of the tree `t`, each in one place. -/
structure IsTree (s : RbState) (t : RBNode UInt64) : Prop where
  root : s.root = addr t
  rep : Rep s.mem 0 t
  nodup : t.toList.Nodup

section

variable {mem mem' : UInt64 → RbNode} {s s' : RbState} {d e : Side} {c c' : RBColor}
  {x y p q u v : UInt64} {a b m t t' : RBNode UInt64} {path : RBNode.Path UInt64}

theorem rep_branch : Rep mem p (.branch d c a x b) ↔
    NodeAt mem d x p c (addr a) (addr b) ∧ Rep mem x a ∧ Rep mem x b := by
  cases d with
  | left => exact Iff.rfl
  | right =>
    rw [RBNode.branch, Rep, show Side.right = Side.left.flip from rfl, nodeAt_flip]
    exact and_congr_right fun _ => and_comm

theorem holds_under : Holds s (.under d c path x b) u ↔
    NodeAt s.mem d x (top path) c u (addr b) ∧ Rep s.mem x b ∧ Holds s path x := by
  cases d with
  | left => exact Iff.rfl
  | right =>
    rw [RBNode.Path.under, Holds, show Side.right = Side.left.flip from rfl, nodeAt_flip]

theorem NodeAt.congr (h : NodeAt mem d x p c u v) (heq : mem' x = mem x) :
    NodeAt mem' d x p c u v := by
  obtain ⟨hne, hal, hp, hc, hnear, hfar⟩ := h
  rw [← heq] at hp hc hnear hfar
  exact ⟨hne, hal, hp, hc, hnear, hfar⟩

theorem Rep.congr (h : Rep mem p t) (heq : ∀ x ∈ t.toList, mem' x = mem x) : Rep mem' p t := by
  induction t generalizing p with
  | nil => trivial
  | node c l x r ihl ihr =>
    obtain ⟨hx, hl, hr⟩ := h
    simp only [RBNode.toList_node, List.mem_append, List.mem_cons] at heq
    exact ⟨hx.congr (heq x (.inr (.inl rfl))), ihl hl fun y hy => heq y (.inl hy),
      ihr hr fun y hy => heq y (.inr (.inr hy))⟩

theorem Rep.valid (h : Rep mem p t) (hx : x ∈ t.toList) : x ≠ 0 ∧ Aligned x := by
  induction t generalizing p with
  | nil => cases hx
  | node c l y r ihl ihr =>
    obtain ⟨hy, hl, hr⟩ := h
    rw [RBNode.toList_node, List.mem_append, List.mem_cons] at hx
    obtain hx | rfl | hx := hx
    · exact ihl hl hx
    · exact ⟨hy.ne_zero, hy.aligned⟩
    · exact ihr hr hx

theorem Rep.ne_zero (h : Rep mem p t) (hx : x ∈ t.toList) : x ≠ 0 := (h.valid hx).1

theorem Rep.reparent (h : Rep mem p t) (hnodup : t.toList.Nodup) (hq : Aligned q)
    (heq : ∀ x ∈ t.toList, x ≠ addr t → mem' x = mem x)
    (haddr : t ≠ .nil → mem' (addr t) = (mem (addr t)).setParent q) : Rep mem' q t := by
  cases t with
  | nil => trivial
  | node c l x r =>
    obtain ⟨hx, hl, hr⟩ := h
    replace haddr : mem' x = (mem x).setParent q := haddr nofun
    rw [RBNode.toList_node] at hnodup heq
    obtain ⟨hxmem, -⟩ := List.nodup_cons.mp ((List.perm_middle.nodup_iff).mp hnodup)
    rw [List.mem_append, not_or] at hxmem
    refine ⟨⟨hx.ne_zero, hx.aligned, ?_, ?_, ?_, ?_⟩, hl.congr fun y hy => ?_,
      hr.congr fun y hy => ?_⟩
    · rw [haddr, RbNode.parent_setParent _ hq]
    · rw [haddr, RbNode.color_setParent _ hq, hx.color]
    · rw [haddr, RbNode.child_setParent, hx.near]
    · rw [haddr, RbNode.child_setParent, hx.far]
    · exact heq y (List.mem_append_left _ hy) fun h : y = x => hxmem.1 (h ▸ hy)
    · exact heq y (List.mem_append_right _ (.tail _ hy)) fun h : y = x => hxmem.2 (h ▸ hy)

theorem addr_mem (h : t ≠ .nil) : addr t ∈ t.toList := by
  cases t with
  | nil => exact absurd rfl h
  | node c l x r => rw [RBNode.toList_node]; exact List.mem_append_right _ List.mem_cons_self

theorem Rep.addr_eq_zero_iff (h : Rep mem p t) : addr t = 0 ↔ t = .nil := by
  cases t with
  | nil => exact iff_of_true rfl rfl
  | node c l x r => exact iff_of_false h.1.ne_zero nofun

theorem Rep.not_red {n : ℕ} (h : Rep mem p t) (ht : t.Balanced .black n) :
    ¬ (addr t ≠ 0 ∧ (mem (addr t)).color = 0) := by
  rintro ⟨hne, hcolor⟩
  cases ht with
  | nil => exact hne rfl
  | black hl hr =>
    have hx := h.1.color
    rw [addr, hx] at hcolor
    exact absurd hcolor (by decide)

theorem Holds.congr (h : Holds s path u) (hroot : s'.root = s.root)
    (heq : ∀ x ∈ path.others, s'.mem x = s.mem x) : Holds s' path u := by
  induction path using RBNode.Path.sidedInduction generalizing u with
  | root => exact hroot.trans h
  | under d c q x sib ih =>
    obtain ⟨hx, hsib, hq⟩ := holds_under.mp h
    simp only [RBNode.Path.others_under_perm.mem_iff, List.mem_cons, List.mem_append] at heq
    exact holds_under.mpr ⟨hx.congr (heq x (.inl rfl)),
      hsib.congr fun y hy => heq y (.inr (.inl hy)), ih hq fun y hy => heq y (.inr (.inr hy))⟩

theorem Holds.top_mem (h : Holds s path u) (htop : top path ≠ 0) : top path ∈ path.others := by
  obtain rfl | ⟨d, c, q, x, sib, rfl⟩ := path.root_or_under
  · exact absurd rfl htop
  · rw [top_under]
    exact RBNode.Path.others_under_perm.mem_iff.mpr List.mem_cons_self

theorem Holds.aligned_top (h : Holds s path u) : Aligned (top path) := by
  obtain rfl | ⟨d, c, q, x, sib, rfl⟩ := path.root_or_under
  · exact aligned_zero
  · rw [top_under]
    exact (holds_under.mp h).1.aligned

theorem Holds.root_mem (h : Holds s path u) (hne : path ≠ .root) : s.root ∈ path.others := by
  induction path using RBNode.Path.sidedInduction generalizing u with
  | root => exact absurd rfl hne
  | under d c q x sib ih =>
    obtain ⟨-, -, hq⟩ := holds_under.mp h
    rw [RBNode.Path.others_under_perm.mem_iff]
    by_cases hroot : q = .root
    · subst hroot
      exact List.mem_cons.mpr (.inl hq)
    · exact .tail _ (List.mem_append_right _ (ih hq hroot))

theorem Holds.others_ne_zero (h : Holds s path u) (hx : x ∈ path.others) : x ≠ 0 := by
  induction path using RBNode.Path.sidedInduction generalizing u with
  | root => cases hx
  | under d c q y sib ih =>
    obtain ⟨hy, hsib, hq⟩ := holds_under.mp h
    rw [RBNode.Path.others_under_perm.mem_iff, List.mem_cons, List.mem_append] at hx
    obtain rfl | hx | hx := hx
    · exact hy.ne_zero
    · exact hsib.ne_zero hx
    · exact ih hq hx

theorem Holds.setChild (h : Holds s (.under d c path x b) u) (v : UInt64)
    (hnodup : (RBNode.Path.under d c path x b).others.Nodup) :
    ∃ s', s.write x (·.setChild d v) = some s' ∧ Holds s' (.under d c path x b) v ∧
      ∀ z, z ≠ x → s'.mem z = s.mem z := by
  obtain ⟨hx, hb, hpath⟩ := holds_under.mp h
  obtain ⟨s', hs', hself, hoff, hroot⟩ : ∃ s', s.write x (·.setChild d v) = some s' ∧
      s'.mem x = (s.mem x).setChild d v ∧ (∀ z, z ≠ x → s'.mem z = s.mem z) ∧
      s'.root = s.root :=
    ⟨_, write_of_ne hx.ne_zero, update_self _ _ _, fun z hz => update_of_ne hz _ _, rfl⟩
  obtain ⟨hxo, -⟩ := List.nodup_cons.mp (RBNode.Path.others_under_perm.nodup_iff.mp hnodup)
  rw [List.mem_append, not_or] at hxo
  refine ⟨s', hs', holds_under.mpr ⟨⟨hx.ne_zero, hx.aligned, ?_, ?_, ?_, ?_⟩,
    hb.congr fun z hz => hoff z fun h => hxo.1 (h ▸ hz),
    hpath.congr hroot fun z hz => hoff z fun h => hxo.2 (h ▸ hz)⟩, hoff⟩
  · rw [hself, RbNode.parent_setChild, hx.parent]
  · rw [hself, RbNode.color_setChild, hx.color]
  · rw [hself, RbNode.child_setChild]
  · rw [hself, RbNode.child_flip_setChild, hx.far]

theorem Holds.relink (h : Holds s path u) (e : Side) (v : UInt64) (hu : u ≠ 0)
    (hmem : u ∉ path.others) (hnodup : path.others.Nodup) : ∃ s', s.relink e (top path) u v = some s' ∧ Holds s' path v ∧
      ∀ x ∉ path.others, s'.mem x = s.mem x := by
  obtain rfl | ⟨d, c, q, x, sib, rfl⟩ := path.root_or_under
  · exact ⟨{ s with root := v }, rfl, rfl, fun x _ => rfl⟩
  · obtain ⟨hx, hsib, hq⟩ := holds_under.mp h
    have hperm : (RBNode.Path.under d c q x sib).others.Perm (x :: (sib.toList ++ q.others)) :=
      RBNode.Path.others_under_perm
    have hchild : (s.mem x).child e = u ↔ e = d := by
      obtain rfl | rfl := Side.eq_or_eq_flip d e
      · exact iff_of_true hx.near rfl
      · refine iff_of_false (fun heq => ?_) (Side.flip_ne d)
        rw [hx.far] at heq
        have hsibne : sib ≠ .nil := by rintro rfl; exact hu heq.symm
        exact hmem (hperm.mem_iff.mpr (.tail _ (List.mem_append_left _ (heq ▸ addr_mem hsibne))))
    have hwrite : s.relink e x u v = s.write x (·.setChild d v) := by
      rw [RbState.relink, if_neg hx.ne_zero]
      obtain rfl | rfl := Side.eq_or_eq_flip d e
      · rw [if_pos (hchild.mpr rfl)]
      · rw [if_neg (mt hchild.mp (Side.flip_ne d)), Side.flip_flip]
    obtain ⟨s', hs', h', hoff⟩ := h.setChild v hnodup
    refine ⟨s', by rw [top_under, hwrite, hs'], h', fun y hy => hoff y ?_⟩
    rintro rfl
    exact hy (hperm.mem_iff.mpr List.mem_cons_self)

theorem Rep.setParent (h : Rep s.mem p t) (hnodup : t.toList.Nodup) (hq : Aligned q) :
    ∃ s', s.reparent (addr t) q = some s' ∧ Rep s'.mem q t ∧
       s'.root = s.root ∧ ∀ z ∉ t.toList, s'.mem z = s.mem z := by
  by_cases ht : addr t = 0
  · obtain rfl := h.addr_eq_zero_iff.mp ht
    exact ⟨s, if_pos rfl, trivial, rfl, fun _ _ => rfl⟩
  · refine ⟨_, (if_neg ht).trans (write_of_ne ht), h.reparent hnodup hq
      (fun x _ hx => update_of_ne hx _ _) fun _ => update_self _ _ _, rfl, fun z hz => ?_⟩
    refine update_of_ne ?_ _ _
    rintro rfl
    exact hz (addr_mem (mt h.addr_eq_zero_iff.mpr ht))

theorem isTree_fill : IsTree s (path.fill t) ↔
    Holds s path (addr t) ∧ Rep s.mem (top path) t ∧ (t.toList ++ path.others).Nodup := by
  have hfill : (s.root = addr (path.fill t) ∧ Rep s.mem 0 (path.fill t)) ↔
      Holds s path (addr t) ∧ Rep s.mem (top path) t := by
    induction path using RBNode.Path.sidedInduction generalizing t with
    | root => exact Iff.rfl
    | under d c q x sib ih =>
      rw [RBNode.Path.fill_under, ih, rep_branch, holds_under, addr_branch, top_under]
      tauto
  constructor
  · rintro ⟨hroot, hrep, hnodup⟩
    obtain ⟨hholds, hrep⟩ := hfill.mp ⟨hroot, hrep⟩
    exact ⟨hholds, hrep, (path.fill_perm t).nodup_iff.mp hnodup⟩
  · rintro ⟨hholds, hrep, hnodup⟩
    obtain ⟨hroot, hrep⟩ := hfill.mpr ⟨hholds, hrep⟩
    exact ⟨hroot, hrep, (path.fill_perm t).nodup_iff.mpr hnodup⟩

theorem isTree_near : IsTree s (path.fill (.branch d c a x b)) ↔
    IsTree s ((RBNode.Path.under d c path x b).fill a) := by rw [RBNode.Path.fill_under]

theorem isTree_far : IsTree s (path.fill (.branch d c a x b)) ↔
    IsTree s ((RBNode.Path.under d.flip c path x a).fill b) := by
  rw [RBNode.Path.fill_under, RBNode.branch_flip]

/-- The state and the tree after operations that move and colour nodes and leave their order, and
all other memory, as it was. -/
structure Reshaped (s : RbState) (t : RBNode UInt64) (s' : RbState) (t' : RBNode UInt64) :
    Prop where
  tree : IsTree s' t'
  order : t'.toList = t.toList
  frame : ∀ x ∉ t.toList, s'.mem x = s.mem x

theorem Reshaped.refl (h : IsTree s t) : Reshaped s t s t := ⟨h, rfl, fun _ _ => rfl⟩

theorem Reshaped.trans {s'' : RbState} {t'' : RBNode UInt64} (h : Reshaped s t s' t')
    (h' : Reshaped s' t' s'' t'') : Reshaped s t s'' t'' := by
  refine ⟨h'.tree, h'.order.trans h.order, fun x hx => ?_⟩
  rw [h'.frame x (h.order ▸ hx), h.frame x hx]

theorem IsTree.nodeAt (h : IsTree s (path.fill (.branch d c a x b))) :
    NodeAt s.mem d x (top path) c (addr a) (addr b) :=
  (rep_branch.mp (isTree_fill.mp h).2.1).1

theorem recolor {f : RbNode → RbNode} (h : IsTree s (path.fill (.branch d c a x b)))
    (hparent : ∀ r, (f r).parent = r.parent) (hcolor : ∀ r, (f r).color = rbColorWord c')
    (hchild : ∀ r e, (f r).child e = r.child e) :
    ∃ s', s.write x f = some s' ∧
      Reshaped s (path.fill (.branch d c a x b)) s' (path.fill (.branch d c' a x b)) := by
  obtain ⟨hholds, hrep, hnodup⟩ := isTree_fill.mp h
  obtain ⟨hx, ha, hb⟩ := rep_branch.mp hrep
  obtain ⟨⟨hxa, hxb, hxo⟩, -⟩ := RBNode.nodup_branch_append.mp hnodup
  have hoff : ∀ y, y ≠ x → update s.mem x (f (s.mem x)) y = s.mem y :=
    fun y hy => update_of_ne hy _ _
  refine ⟨_, write_of_ne hx.ne_zero, isTree_fill.mpr ⟨?_, rep_branch.mpr ⟨⟨hx.ne_zero,
    hx.aligned, ?_, ?_, ?_, ?_⟩, ha.congr fun y hy => hoff y fun h => hxa (h ▸ hy),
    hb.congr fun y hy => hoff y fun h => hxb (h ▸ hy)⟩, ?_⟩,
    RBNode.Path.fill_congr (RBNode.toList_recolor c), fun y hy => hoff y ?_⟩
  · rw [addr_branch] at hholds ⊢
    exact hholds.congr rfl fun y hy => hoff y fun h => hxo (h ▸ hy)
  · simp only [update_self, hparent, hx.parent]
  · simp only [update_self, hcolor]
  · simp only [update_self, hchild, hx.near]
  · simp only [update_self, hchild, hx.far]
  · rwa [RBNode.toList_recolor c]
  · rintro rfl
    refine hy (((path.fill_perm _).mem_iff).mpr (List.mem_append_left _ ?_))
    exact RBNode.toList_branch_perm.mem_iff.mpr List.mem_cons_self

theorem setBlack_spec (h : IsTree s (path.fill (.branch d c a x b))) :
    ∃ s', s.write x RbNode.setBlack = some s' ∧
      Reshaped s (path.fill (.branch d c a x b)) s' (path.fill (.branch d .black a x b)) :=
  recolor h RbNode.parent_setBlack RbNode.color_setBlack RbNode.child_setBlack

theorem setRed_spec (h : IsTree s (path.fill (.branch d c a x b))) :
    ∃ s', s.write x RbNode.setRed = some s' ∧
      Reshaped s (path.fill (.branch d c a x b)) s' (path.fill (.branch d .red a x b)) :=
  recolor h RbNode.parent_setRed RbNode.color_setRed RbNode.child_setRed

theorem rbColorWord_cases (c : RBColor) : rbColorWord c = 0 ∨ rbColorWord c = 1 := by
  cases c
  · exact .inl rfl
  · exact .inr rfl

theorem setColor_spec (c' : RBColor) (h : IsTree s (path.fill (.branch d c a x b))) :
    ∃ s', s.write x (RbNode.setColor · (rbColorWord c')) = some s' ∧
      Reshaped s (path.fill (.branch d c a x b)) s' (path.fill (.branch d c' a x b)) :=
  recolor h (fun r => r.parent_setColor _ (rbColorWord_cases c'))
    (fun r => r.color_setColor _ (rbColorWord_cases c')) fun r e => r.child_setColor e _

theorem rotate_eq (hx : NodeAt s.mem d x p c u y) (hy : NodeAt s.mem d y x c' (addr m) v)
    (hm : addr m ≠ x ∧ addr m ≠ y) (hxy : x ≠ y) :
    ∃ s' : RbState, s.rotate d x = (s'.relink d p x y).bind (·.write x (·.setParent y)) ∧
      s'.root = s.root ∧ s'.mem x = (s.mem x).setChild d.flip (addr m) ∧
      s'.mem y = ((s.mem y).setChild d x).setParent p ∧
      (addr m ≠ 0 → s'.mem (addr m) = (s.mem (addr m)).setParent x) ∧
      ∀ z, z ≠ x → z ≠ y → (z = addr m → z = 0) → s'.mem z = s.mem z := by
  rw [rotate, read_of_ne hx.ne_zero]
  simp only [Option.bind_eq_bind, Option.bind_some]
  rw [hx.far, hx.parent, read_of_ne hy.ne_zero, Option.bind_some, hy.near,
    write_of_ne hx.ne_zero, Option.bind_some, reparent]
  by_cases hm0 : addr m = 0
  · rw [if_pos hm0, Option.bind_some, write_of_ne hy.ne_zero, Option.bind_some,
      write_of_ne hy.ne_zero, Option.bind_some]
    refine ⟨_, rfl, rfl, ?_, ?_, fun h => absurd hm0 h, fun z hzx hzy _ => ?_⟩
    · simp only [update_of_ne hxy, update_self]
    · simp only [update_of_ne hxy.symm, update_self]
    · simp only [update_of_ne hzx, update_of_ne hzy]
  · rw [if_neg hm0, write_of_ne hm0, Option.bind_some, write_of_ne hy.ne_zero,
      Option.bind_some, write_of_ne hy.ne_zero, Option.bind_some]
    refine ⟨_, rfl, rfl, ?_, ?_, fun _ => ?_, fun z hzx hzy hz => ?_⟩
    · simp only [update_of_ne hxy, update_of_ne hm.1.symm, update_self]
    · simp only [update_of_ne hxy.symm, update_of_ne hm.2.symm, update_self]
    · simp only [update_of_ne hm.1, update_of_ne hm.2, update_self]
    · have hzm : z ≠ addr m := fun h => hm0 (h ▸ hz h)
      simp only [update_of_ne hzx, update_of_ne hzy, update_of_ne hzm]

theorem IsTree.apart (h : IsTree s (path.fill (.branch d c a x b))) :
    x ∉ a.toList ∧ x ∉ b.toList ∧ x ∉ path.others ∧ a.toList.Disjoint b.toList ∧
      (a.toList ++ b.toList).Disjoint path.others := by
  obtain ⟨-, -, hnodup⟩ := isTree_fill.mp h
  obtain ⟨⟨hxa, hxb, hxo⟩, hrest⟩ := RBNode.nodup_branch_append.mp hnodup
  rw [← List.append_assoc, List.nodup_append', List.nodup_append'] at hrest
  exact ⟨hxa, hxb, hxo, hrest.1.2.2, hrest.2.2⟩

theorem IsTree.addr_ne (h : IsTree s (path.fill (.branch d c a x b))) (hne : addr a ≠ 0) :
    addr a ≠ addr b := by
  obtain ⟨-, -, -, hab, -⟩ := h.apart
  obtain ⟨-, ha, hb⟩ := rep_branch.mp (isTree_fill.mp h).2.1
  intro heq
  exact hab (addr_mem (mt ha.addr_eq_zero_iff.mpr hne))
    (heq ▸ addr_mem (mt hb.addr_eq_zero_iff.mpr (heq ▸ hne)))

theorem IsTree.addr_spec (h : IsTree s (path.fill t)) (ht : t ≠ .nil) :
    addr t ≠ 0 ∧ (s.mem (addr t)).parent = top path := by
  cases t with
  | nil => exact absurd rfl ht
  | node c l x r =>
    have hx := (isTree_fill.mp h).2.1.1
    exact ⟨hx.ne_zero, hx.parent⟩

theorem IsTree.side (h : IsTree s (path.fill (.branch d c a x b))) (hne : addr b ≠ 0) :
    (if (s.mem x).left = addr a then Side.left else .right) = d := by
  have hab : addr a ≠ addr b := by
    by_cases ha : addr a = 0
    · rw [ha]
      exact hne.symm
    · exact h.addr_ne ha
  simpa only [eq_comm] using h.nodeAt.side hab

theorem IsTree.addr_ne_root (h : IsTree s (path.fill t)) (hne : path ≠ .root) :
    addr t ≠ s.root := by
  obtain ⟨hholds, hrep, hnodup⟩ := isTree_fill.mp h
  have hmem := hholds.root_mem hne
  intro heq
  rw [← heq] at hmem
  have ht : t ≠ .nil := mt hrep.addr_eq_zero_iff.mpr (hholds.others_ne_zero hmem)
  exact (List.nodup_append'.mp hnodup).2.2 (addr_mem ht) hmem

theorem rotate_spec (h : IsTree s (path.fill (.branch d c a x (.branch d c' m y b)))) :
    ∃ s', s.rotate d x = some s' ∧
      Reshaped s (path.fill (.branch d c a x (.branch d c' m y b))) s'
        (path.fill (.branch d c' (.branch d c a x m) y b)) := by
  obtain ⟨hholds, hrep, hnodup⟩ := isTree_fill.mp h
  obtain ⟨hx, ha, hrepy⟩ := rep_branch.mp hrep
  obtain ⟨hy, hm, hb⟩ := rep_branch.mp hrepy
  obtain ⟨⟨hxa, hxb, hxo⟩, hrest⟩ := RBNode.nodup_branch_append.mp hnodup
  obtain ⟨-, hrest, hda⟩ := List.nodup_append'.mp hrest
  obtain ⟨⟨hym, hyb, hyo⟩, hmb⟩ := RBNode.nodup_branch_append.mp hrest
  obtain ⟨hmnodup, hbo, hdm⟩ := List.nodup_append'.mp hmb
  obtain ⟨-, honodup, hdb⟩ := List.nodup_append'.mp hbo
  simp only [List.disjoint_append_right, RBNode.disjoint_branch_right] at hda hdm
  obtain ⟨⟨hya, ham, hab⟩, hao⟩ := hda
  obtain ⟨hmb, hmo⟩ := hdm
  simp only [RBNode.mem_branch, not_or] at hxb
  obtain ⟨hxy, hxm, hxb⟩ := hxb
  have haddr : ∀ z, z ∉ m.toList → z = addr m → z = 0 := by
    rintro z hz rfl
    by_contra hne
    exact hz (addr_mem (mt hm.addr_eq_zero_iff.mpr hne))
  rw [addr_branch] at hx hholds
  obtain ⟨s₁, heq, hroot₁, hx₁, hy₁, hm₁, hoff₁⟩ :=
    rotate_eq hx hy ⟨fun h => hx.ne_zero (haddr x hxm h.symm),
      fun h => hy.ne_zero (haddr y hym h.symm)⟩ hxy
  have hholds₁ : Holds s₁ path x := hholds.congr hroot₁ fun z hz =>
    hoff₁ z (fun h => hxo (h ▸ hz)) (fun h => hyo (h ▸ hz)) (haddr z fun h => hmo h hz)
  obtain ⟨s₂, hs₂, hholds₂, hoff₂⟩ := hholds₁.relink d y hx.ne_zero hxo honodup
  obtain ⟨s₃, hs₃, hroot₃, hx₃, hoff₃⟩ : ∃ s₃, s₂.write x (·.setParent y) = some s₃ ∧
      s₃.root = s₂.root ∧ s₃.mem x = (s₂.mem x).setParent y ∧ ∀ z, z ≠ x → s₃.mem z = s₂.mem z :=
    ⟨_, write_of_ne hx.ne_zero, rfl, update_self _ _ _, fun z hz => update_of_ne hz _ _⟩
  rw [hoff₂ x hxo, hx₁] at hx₃
  have hy₃ : s₃.mem y = ((s.mem y).setChild d x).setParent (top path) := by
    rw [hoff₃ y (Ne.symm hxy), hoff₂ y hyo, hy₁]
  have hsame : ∀ z, z ≠ x → z ≠ y → (z = addr m → z = 0) → z ∉ path.others →
      s₃.mem z = s.mem z := fun z hzx hzy hzm hzo => by
    rw [hoff₃ z hzx, hoff₂ z hzo, hoff₁ z hzx hzy hzm]
  refine ⟨s₃, by rw [heq, hs₂, Option.bind_some, hs₃], isTree_fill.mpr ⟨?_, ?_, ?_⟩,
    RBNode.Path.fill_congr RBNode.toList_rotate.symm, fun z hz => ?_⟩
  · rw [addr_branch]
    exact hholds₂.congr hroot₃ fun z hz => hoff₃ z fun h => hxo (h ▸ hz)
  · refine rep_branch.mpr ⟨⟨hy.ne_zero, hy.aligned, ?_, ?_, ?_, ?_⟩, rep_branch.mpr
      ⟨⟨hx.ne_zero, hx.aligned, ?_, ?_, ?_, ?_⟩, ha.congr fun z hz => ?_,
        hm.reparent hmnodup hx.aligned (fun z hz hne => ?_) fun hne => ?_⟩, hb.congr fun z hz => ?_⟩
    · rw [hy₃, RbNode.parent_setParent _ hholds.aligned_top]
    · rw [hy₃, RbNode.color_setParent _ hholds.aligned_top, RbNode.color_setChild, hy.color]
    · rw [hy₃, RbNode.child_setParent, RbNode.child_setChild, addr_branch]
    · rw [hy₃, RbNode.child_setParent, RbNode.child_flip_setChild, hy.far]
    · rw [hx₃, RbNode.parent_setParent _ hy.aligned]
    · rw [hx₃, RbNode.color_setParent _ hy.aligned, RbNode.color_setChild, hx.color]
    · rw [hx₃, RbNode.child_setParent, RbNode.child_setChild_flip, hx.near]
    · rw [hx₃, RbNode.child_setParent, RbNode.child_setChild]
    · exact hsame z (fun h => hxa (h ▸ hz)) (fun h => hya (h ▸ hz)) (haddr z fun h => ham hz h)
        fun h => hao hz h
    · exact hsame z (fun h => hxm (h ▸ hz)) (fun h => hym (h ▸ hz)) (fun h => absurd h hne)
        fun h => hmo hz h
    · have hmem := addr_mem hne
      rw [hoff₃ _ fun h => hxm (h ▸ hmem), hoff₂ _ fun h => hmo hmem h,
        hm₁ (mt hm.addr_eq_zero_iff.mp hne)]
    · exact hsame z (fun h => hxb (h ▸ hz)) (fun h => hyb (h ▸ hz)) (haddr z fun h => hmb h hz)
        fun h => hdb hz h
  · rwa [← RBNode.toList_rotate]
  · simp only [(path.fill_perm _).mem_iff, List.mem_append, RBNode.mem_branch, not_or] at hz
    obtain ⟨⟨hzx, hza, hzy, hzm, hzb⟩, hzo⟩ := hz
    exact hsame z hzx hzy (haddr z hzm) hzo

end

end RbState

end SBlktrace
