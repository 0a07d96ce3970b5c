import Mathlib

/-!
The trees and paths of `RBTree.RBNode` seen from a side, so that what a tree and its mirror image
have in common is said once.
-/

inductive Side where
  | left
  | right
deriving DecidableEq

namespace Side

def flip : Side → Side
  | left => right
  | right => left

@[simp] theorem flip_flip (d : Side) : d.flip.flip = d := by cases d <;> rfl

@[simp] theorem flip_ne (d : Side) : d.flip ≠ d := by cases d <;> decide

theorem eq_or_eq_flip (d e : Side) : e = d ∨ e = d.flip := by cases d <;> cases e <;> decide

end Side

namespace RBTree.RBNode

open RBColor

universe u

variable {α : Type u} {c c' c₀ : RBColor} {n n₀ : ℕ} {x y : α} {a b m t : RBNode α} {d : Side}

def branch (d : Side) (c : RBColor) (near : RBNode α) (x : α) (far : RBNode α) : RBNode α :=
  match d with
  | .left => node c near x far
  | .right => node c far x near

theorem branch_flip (d : Side) (c : RBColor) (a : RBNode α) (x : α) (b : RBNode α) :
    branch d.flip c a x b = branch d c b x a := by cases d <;> rfl

theorem eq_branch (d : Side) (c : RBColor) (a : RBNode α) (x : α) (b : RBNode α) :
    ∃ near far, node c a x b = branch d c near x far := by
  cases d
  · exact ⟨a, b, rfl⟩
  · exact ⟨b, a, rfl⟩

theorem balanced_red_iff : (branch d red a x b).Balanced c n ↔
    c = red ∧ a.Balanced black n ∧ b.Balanced black n := by
  cases d <;> constructor
  · rintro (_ | ⟨ha, hb⟩ | _); exact ⟨rfl, ha, hb⟩
  · rintro ⟨rfl, ha, hb⟩; exact .red ha hb
  · rintro (_ | ⟨hb, ha⟩ | _); exact ⟨rfl, ha, hb⟩
  · rintro ⟨rfl, ha, hb⟩; exact .red hb ha

theorem balanced_black_iff : (branch d black a x b).Balanced c n ↔
    c = black ∧ ∃ k, n = k + 1 ∧ (∃ c, a.Balanced c k) ∧ ∃ c, b.Balanced c k := by
  cases d <;> constructor
  · rintro (_ | _ | ⟨ha, hb⟩); exact ⟨rfl, _, rfl, ⟨_, ha⟩, _, hb⟩
  · rintro ⟨rfl, k, rfl, ⟨_, ha⟩, _, hb⟩; exact .black ha hb
  · rintro (_ | _ | ⟨hb, ha⟩); exact ⟨rfl, _, rfl, ⟨_, ha⟩, _, hb⟩
  · rintro ⟨rfl, k, rfl, ⟨_, ha⟩, _, hb⟩; exact .black hb ha

theorem Balanced.branch_red (ha : a.Balanced black n) (hb : b.Balanced black n) :
    (branch d red a x b).Balanced red n := balanced_red_iff.mpr ⟨rfl, ha, hb⟩

theorem Balanced.branch_black {c₁ c₂ : RBColor} (ha : a.Balanced c₁ n) (hb : b.Balanced c₂ n) :
    (branch d black a x b).Balanced black (n + 1) :=
  balanced_black_iff.mpr ⟨rfl, n, rfl, ⟨c₁, ha⟩, c₂, hb⟩

def heightAbove : RBColor → ℕ → ℕ
  | red, n => n
  | black, n => n + 1

theorem Balanced.branch_any (ha : a.Balanced black n) (hb : b.Balanced black n) :
    (branch d c a x b).Balanced c (heightAbove c n) := by
  cases c with
  | red => exact ha.branch_red hb
  | black => exact ha.branch_black hb

theorem Balanced.exists_branch (d : Side) (h : t.Balanced c (n + 1)) :
    (∃ near x far, t = branch d red near x far ∧ c = red ∧ near.Balanced black (n + 1) ∧
      far.Balanced black (n + 1)) ∨
    ∃ near x far c₁ c₂, t = branch d black near x far ∧ c = black ∧ near.Balanced c₁ n ∧
      far.Balanced c₂ n := by
  cases t with
  | nil => cases h
  | node color l x r =>
    obtain ⟨near, far, heq⟩ := eq_branch d color l x r
    rw [heq] at h ⊢
    cases color with
    | red =>
      obtain ⟨hc, hnear, hfar⟩ := balanced_red_iff.mp h
      exact .inl ⟨near, x, far, rfl, hc, hnear, hfar⟩
    | black =>
      obtain ⟨hc, k, hk, ⟨c₁, hnear⟩, c₂, hfar⟩ := balanced_black_iff.mp h
      obtain rfl : n = k := Nat.succ.inj hk
      exact .inr ⟨near, x, far, c₁, c₂, rfl, hc, hnear, hfar⟩

theorem Balanced.black_or_red (d : Side) (h : t.Balanced c n) :
    t.Balanced black n ∨ ∃ near x far, t = branch d red near x far ∧ near.Balanced black n ∧
      far.Balanced black n := by
  cases t with
  | nil => cases h; exact .inl .nil
  | node color l x r =>
    obtain ⟨near, far, heq⟩ := eq_branch d color l x r
    rw [heq] at h ⊢
    cases color with
    | red =>
      obtain ⟨-, hnear, hfar⟩ := balanced_red_iff.mp h
      exact .inr ⟨near, x, far, rfl, hnear, hfar⟩
    | black =>
      obtain ⟨-, k, rfl, ⟨c₁, hnear⟩, c₂, hfar⟩ := balanced_black_iff.mp h
      exact .inl (hnear.branch_black hfar)

theorem toList_branch_perm : (branch d c a x b).toList.Perm (x :: (a.toList ++ b.toList)) := by
  cases d with
  | left => rw [branch, toList_node]; exact List.perm_middle
  | right =>
    rw [branch, toList_node]
    exact List.perm_middle.trans (List.perm_append_comm.cons x)

theorem mem_branch {z : α} :
    z ∈ (branch d c a x b).toList ↔ z = x ∨ z ∈ a.toList ∨ z ∈ b.toList := by
  rw [toList_branch_perm.mem_iff, List.mem_cons, List.mem_append]

theorem disjoint_branch_right {l : List α} : l.Disjoint (branch d c a x b).toList ↔
    x ∉ l ∧ l.Disjoint a.toList ∧ l.Disjoint b.toList := by
  rw [toList_branch_perm.disjoint_right, List.disjoint_cons_right, List.disjoint_append_right]

theorem nodup_branch_append {l : List α} : ((branch d c a x b).toList ++ l).Nodup ↔
    (x ∉ a.toList ∧ x ∉ b.toList ∧ x ∉ l) ∧ (a.toList ++ (b.toList ++ l)).Nodup := by
  rw [(toList_branch_perm.append_right l).nodup_iff, List.cons_append, List.nodup_cons,
    List.append_assoc]
  simp only [List.mem_append, not_or]

theorem toList_recolor (c' : RBColor) : (branch d c a x b).toList = (branch d c' a x b).toList := by
  cases d <;> rw [branch, branch, toList_node, toList_node]

theorem toList_rotate : (branch d c a x (branch d c' m y b)).toList =
    (branch d c' (branch d c a x m) y b).toList := by
  cases d <;> simp only [branch, toList_node, List.append_assoc, List.cons_append]

theorem setBlack_branch : (branch d c a x b).setBlack = branch d black a x b := by cases d <;> rfl

theorem Balanced.setBlack_eq (h : t.Balanced black n) : t.setBlack = t := by
  cases h <;> rfl

theorem depth_le_length (t : RBNode α) : t.depth ≤ t.toList.length := by
  induction t with
  | nil => exact Nat.le_refl 0
  | node c l x r ihl ihr =>
    rw [depth, toList_node, List.length_append, List.length_cons]
    omega

theorem Balanced.black_setBlack (h : t.Balanced black n) : t.setBlack.Balanced black n := by
  rwa [h.setBlack_eq]

def listFrom (d : Side) (t : RBNode α) : List α :=
  match d with
  | .left => t.toList
  | .right => t.toList.reverse

@[simp] theorem listFrom_nil : listFrom d (nil : RBNode α) = [] := by cases d <;> rfl

theorem listFrom_branch : listFrom d (branch d c a x b) = listFrom d a ++ x :: listFrom d b := by
  cases d with
  | left => rw [branch, listFrom, toList_node]; rfl
  | right =>
    rw [branch, listFrom, toList_node, List.reverse_append, List.reverse_cons, List.append_assoc]
    rfl

theorem mem_listFrom (d : Side) : x ∈ listFrom d t ↔ x ∈ t.toList := by
  cases d with
  | left => exact Iff.rfl
  | right => exact List.mem_reverse

namespace Path

variable {p q : Path α} {sib : RBNode α}

def under (d : Side) (c : RBColor) (p : Path α) (x : α) (sib : RBNode α) : Path α :=
  match d with
  | .left => left c p x sib
  | .right => right c sib x p

@[elab_as_elim] theorem sidedInduction {motive : Path α → Prop} (root : motive root)
    (under : ∀ d c q x sib, motive q → motive (under d c q x sib)) (p : Path α) : motive p := by
  induction p with
  | root => exact root
  | left c q x sib ih => exact under .left c q x sib ih
  | right c sib x q ih => exact under .right c q x sib ih

@[simp] theorem fill_under : (under d c p x sib).fill t = p.fill (branch d c t x sib) := by
  cases d <;> rfl

theorem root_or_under (p : Path α) : p = root ∨ ∃ d c q x sib, p = under d c q x sib := by
  induction p using sidedInduction with
  | root => exact .inl rfl
  | under d c q x sib => exact .inr ⟨d, c, q, x, sib, rfl⟩

theorem balanced_under_red : Path.Balanced c₀ n₀ (under d red p x sib) c n ↔
    c = black ∧ sib.Balanced black n ∧ Path.Balanced c₀ n₀ p red n := by
  cases d <;> constructor
  · rintro (_ | ⟨hsib, hp⟩ | _ | _ | _); exact ⟨rfl, hsib, hp⟩
  · rintro ⟨rfl, hsib, hp⟩; exact .redL hsib hp
  · rintro (_ | _ | ⟨hsib, hp⟩ | _ | _); exact ⟨rfl, hsib, hp⟩
  · rintro ⟨rfl, hsib, hp⟩; exact .redR hsib hp

theorem balanced_under_black : Path.Balanced c₀ n₀ (under d black p x sib) c n ↔
    (∃ c, sib.Balanced c n) ∧ Path.Balanced c₀ n₀ p black (n + 1) := by
  cases d <;> constructor
  · rintro (_ | _ | _ | ⟨hsib, hp⟩ | _); exact ⟨⟨_, hsib⟩, hp⟩
  · rintro ⟨⟨_, hsib⟩, hp⟩; exact .blackL hsib hp
  · rintro (_ | _ | _ | _ | ⟨hsib, hp⟩); exact ⟨⟨_, hsib⟩, hp⟩
  · rintro ⟨⟨_, hsib⟩, hp⟩; exact .blackR hsib hp

theorem Balanced.of_fill (h : (p.fill t).Balanced c₀ n₀) :
    ∃ c n, t.Balanced c n ∧ Path.Balanced c₀ n₀ p c n := by
  induction p using sidedInduction generalizing t with
  | root => exact ⟨c₀, n₀, h, .root⟩
  | under d c q x sib ih =>
    rw [fill_under] at h
    obtain ⟨c', n, ht, hq⟩ := ih h
    cases c with
    | red =>
      obtain ⟨rfl, ht, hsib⟩ := balanced_red_iff.mp ht
      exact ⟨black, n, ht, balanced_under_red.mpr ⟨rfl, hsib, hq⟩⟩
    | black =>
      obtain ⟨rfl, k, rfl, ⟨c, ht⟩, hsib⟩ := balanced_black_iff.mp ht
      exact ⟨c, k, ht, balanced_under_black.mpr ⟨hsib, hq⟩⟩

theorem Balanced.above (h : Path.Balanced c₀ n₀ (under d c p x sib) c' n) :
    Path.Balanced c₀ n₀ p c (heightAbove c n) := by
  cases c with
  | red => exact (balanced_under_red.mp h).2.2
  | black => exact (balanced_under_black.mp h).2

theorem Balanced.of_red (h : Path.Balanced black n₀ p red n) : Path.Balanced black n₀ p black n := by
  obtain rfl | ⟨d, c, q, x, sib, rfl⟩ := p.root_or_under
  · cases h
  · cases c with
    | red => cases (balanced_under_red.mp h).1
    | black => exact balanced_under_black.mpr (balanced_under_black.mp h)

def others (p : Path α) : List α := p.listL ++ p.listR

@[simp] theorem others_root : (root : Path α).others = [] := rfl

theorem others_under_perm :
    (under d c p x sib).others.Perm (x :: (sib.toList ++ p.others)) := by
  cases d with
  | left =>
    rw [others, others, under, listL, listR, List.cons_append]
    refine List.perm_middle.trans (.cons x ?_)
    rw [← List.append_assoc, ← List.append_assoc]
    exact List.perm_append_comm.append_right _
  | right =>
    rw [others, others, under, listL, listR, List.append_assoc, List.append_assoc,
      List.singleton_append, ← List.append_assoc]
    refine List.perm_middle.trans (.cons x ?_)
    rw [← List.append_assoc]
    exact List.perm_append_comm.append_right _

theorem length_others_under :
    (under d c p x sib).others.length = sib.toList.length + p.others.length + 1 := by
  rw [others_under_perm.length_eq, List.length_cons, List.length_append]

theorem fill_perm (p : Path α) (t : RBNode α) : (p.fill t).toList.Perm (t.toList ++ p.others) := by
  rw [fill_toList, withList, others, ← List.append_assoc]
  exact List.perm_append_comm.append_right _

theorem fill_congr (h : a.toList = b.toList) : (p.fill a).toList = (p.fill b).toList := by
  rw [fill_toList, fill_toList, h]

def descend (d : Side) (p : Path α) (spine : List (RBColor × α × RBNode α)) : Path α :=
  spine.foldl (fun p (c, x, sib) => under d c p x sib) p

theorem Balanced.under_congr (y : α) (h : Path.Balanced c₀ n₀ (under d c p x sib) c' n) :
    Path.Balanced c₀ n₀ (under d c p y sib) c' n := by
  cases c with
  | red => exact balanced_under_red.mpr (balanced_under_red.mp h)
  | black => exact balanced_under_black.mpr (balanced_under_black.mp h)

variable {spine : List (RBColor × α × RBNode α)}

theorem descend_concat (frame : RBColor × α × RBNode α) :
    p.descend d (spine ++ [frame]) = under d frame.1 (p.descend d spine) frame.2.1 frame.2.2 := by
  rw [descend, List.foldl_append]
  rfl

theorem mem_others_descend (h : x ∈ p.others) : x ∈ (p.descend d spine).others := by
  induction spine using List.reverseRecOn with
  | nil => exact h
  | append_singleton spine frame ih =>
    rw [descend_concat, others_under_perm.mem_iff]
    exact .tail _ (List.mem_append_right _ ih)

theorem fill_descend (p : Path α) (d : Side) (spine : List (RBColor × α × RBNode α))
    (t : RBNode α) : (p.descend d spine).fill t = p.fill ((root.descend d spine).fill t) := by
  induction spine using List.reverseRecOn generalizing t with
  | nil => rfl
  | append_singleton spine frame ih =>
    rw [descend_concat, descend_concat, fill_under, fill_under]
    exact ih _

theorem listL_descend : (p.descend .left spine).listL = p.listL := by
  induction spine generalizing p with
  | nil => rfl
  | cons frame spine ih => exact ih

theorem listR_descend : (p.descend .right spine).listR = p.listR := by
  induction spine generalizing p with
  | nil => rfl
  | cons frame spine ih => exact ih

theorem Balanced.descend (h : Path.Balanced c₀ n₀ (p.descend d spine) c n)
    (hq : ∀ c n, Path.Balanced c₀ n₀ p c n → Path.Balanced c₀ n₀ q c n) :
    Path.Balanced c₀ n₀ (q.descend d spine) c n := by
  induction spine generalizing p q with
  | nil => exact hq c n h
  | cons frame spine ih =>
    refine ih h fun c n h => ?_
    obtain ⟨c', x, sib⟩ := frame
    cases c' with
    | red =>
      obtain ⟨hc, hsib, hp⟩ := balanced_under_red.mp h
      exact balanced_under_red.mpr ⟨hc, hsib, hq _ _ hp⟩
    | black =>
      obtain ⟨hsib, hp⟩ := balanced_under_black.mp h
      exact balanced_under_black.mpr ⟨hsib, hq _ _ hp⟩

def before (d : Side) (p : Path α) : List α :=
  match d with
  | .left => p.listL
  | .right => p.listR.reverse

def after (d : Side) (p : Path α) : List α :=
  match d with
  | .left => p.listR
  | .right => p.listL.reverse

theorem listFrom_fill : listFrom d (p.fill t) = p.before d ++ listFrom d t ++ p.after d := by
  cases d with
  | left => exact fill_toList
  | right =>
    rw [listFrom, fill_toList, withList, List.reverse_append, List.reverse_append,
      ← List.append_assoc]
    rfl

@[simp] theorem after_root : after d (root : Path α) = [] := by cases d <;> rfl

theorem after_under : after d (under d c p x sib) = x :: (listFrom d sib ++ p.after d) := by
  cases d with
  | left => rfl
  | right =>
    rw [after, under, listL, List.reverse_append, List.reverse_append]
    rfl

theorem after_under_flip : after d (under d.flip c p x sib) = p.after d := by cases d <;> rfl

theorem before_descend (spine : List (RBColor × α × RBNode α)) :
    before d (p.descend d spine) = p.before d := by
  cases d with
  | left => exact listL_descend
  | right => rw [before, listR_descend]; rfl

def side : Path α → Side
  | root => .left
  | left .. => .left
  | right .. => .right

@[simp] theorem side_under : side (under d c p x sib) = d := by cases d <;> rfl

theorem exists_fill_of_mem (q : Path α) (h : x ∈ t.toList) :
    ∃ p c l r, q.fill t = fill p (node c l x r) := by
  induction t generalizing q with
  | nil => cases h
  | node c l y r ihl ihr =>
    rw [toList_node, List.mem_append, List.mem_cons] at h
    obtain h | rfl | h := h
    · exact ihl (left c q y r) h
    · exact ⟨q, c, l, r, rfl⟩
    · exact ihr (right c l y q) h

end Path

end RBTree.RBNode
