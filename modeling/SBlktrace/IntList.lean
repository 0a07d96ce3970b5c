import Mathlib

namespace SBlktrace

open Function

structure IntListNode where
  value : Int32
  next : Option ℕ

/-- A list, with the nodes that `malloc` has given out and `free` not taken back. -/
structure IntList where
  firstNode : Option ℕ
  lastNode : Option ℕ
  size : ℕ
  nodes : ℕ → Option IntListNode

def intListInit (nodes : ℕ → Option IntListNode) : IntList := ⟨none, none, 0, nodes⟩

/-- `none` where a pointer that leads to no node is followed; a popped `none` is the result `-1`. -/
def intListPop (list : IntList) : Option (Option Int32 × IntList) :=
  if list.size = 0 then some (none, list)
  else do
    let tmp ← list.firstNode
    let node ← list.nodes tmp
    return (some node.value,
      { list with
        firstNode := node.next
        size := list.size - 1
        nodes := update list.nodes tmp none })

/-- `malloc` puts the new node at `node`, and leaves `junk` in its `next`. -/
def intListPush (list : IntList) (node : ℕ) (junk : Option ℕ) (value : Int32) : Option IntList :=
  if list.size = 0 then
    some
      { firstNode := some node
        lastNode := some node
        size := list.size + 1
        nodes := update list.nodes node (some ⟨value, none⟩) }
  else do
    let last ← list.lastNode
    let tail ← list.nodes last
    return { list with
      lastNode := some node
      size := list.size + 1
      nodes := update (update list.nodes node (some ⟨value, junk⟩)) last
        (some { tail with next := some node }) }

inductive Built : IntList → List Int32 → Prop
  | init (nodes : ℕ → Option IntListNode) : Built (intListInit nodes) []
  | push {list list' : IntList} {values : List Int32} {node : ℕ} {junk : Option ℕ}
      {value : Int32} (hlist : Built list values) (hnode : list.nodes node = none)
      (hpush : intListPush list node junk value = some list') : Built list' (values ++ [value])
  | pop {list list' : IntList} {values : List Int32} {value : Int32} (hlist : Built list values)
      (hpop : intListPop list = some (some value, list')) : Built list' values.tail

def LinkedCells (nodes : ℕ → Option IntListNode) : Option ℕ → List (ℕ × Int32) → Prop
  | _, [] => True
  | p, (node, value) :: cells =>
    p = some node ∧ ∃ next, nodes node = some ⟨value, next⟩ ∧ LinkedCells nodes next cells

namespace LinkedCells

variable {nodes nodes' : ℕ → Option IntListNode} {p : Option ℕ} {cells : List (ℕ × Int32)}
  {node last : ℕ} {value : Int32}

theorem allocated (h : LinkedCells nodes p cells) (hnode : nodes node = none) :
    node ∉ cells.map Prod.fst := by
  induction cells generalizing p with
  | nil => exact List.not_mem_nil
  | cons cell cells ih =>
    obtain ⟨-, next, hcell, hlinked⟩ := h
    rw [List.map_cons, List.mem_cons]
    rintro (rfl | hmem)
    · rw [hnode] at hcell
      cases hcell
    · exact ih hlinked hmem

theorem frame (h : LinkedCells nodes p cells)
    (hframe : ∀ node ∈ cells.map Prod.fst, nodes' node = nodes node) : LinkedCells nodes' p cells := by
  induction cells generalizing p with
  | nil => trivial
  | cons cell cells ih =>
    obtain ⟨hp, next, hcell, hlinked⟩ := h
    rw [List.map_cons, List.forall_mem_cons] at hframe
    refine ⟨hp, next, ?_, ih hlinked hframe.2⟩
    rw [hframe.1]
    exact hcell

theorem snoc (h : LinkedCells nodes p (cells ++ [(last, value)]))
    (hnodup : ((cells ++ [(last, value)]).map Prod.fst).Nodup)
    (hnode : node ∉ (cells ++ [(last, value)]).map Prod.fst) {tail new : IntListNode}
    (htail : nodes last = some tail) :
    LinkedCells (update (update nodes node (some new)) last (some { tail with next := some node })) p
      (cells ++ [(last, value)] ++ [(node, new.value)]) := by
  induction cells generalizing p with
  | nil =>
    obtain ⟨hp, next, hlast, -⟩ := h
    rw [htail] at hlast
    cases hlast
    have hne : node ≠ last := by
      rintro rfl
      exact hnode (by simp)
    refine ⟨hp, some node, by rw [update_self], rfl, new.next, ?_, trivial⟩
    rw [update_of_ne hne, update_self]
  | cons cell cells ih =>
    obtain ⟨hp, next, hcell, hlinked⟩ := h
    simp only [List.cons_append, List.map_cons, List.nodup_cons, List.mem_cons, not_or]
      at hnodup hnode
    have hlast : cell.1 ≠ last := by
      rintro rfl
      exact hnodup.1 (by simp)
    refine ⟨hp, next, ?_, ih hlinked hnodup.2 hnode.2⟩
    rw [update_of_ne hlast, update_of_ne (Ne.symm hnode.1)]
    exact hcell

end LinkedCells

structure Holds (list : IntList) (cells : List (ℕ × Int32)) : Prop where
  linked : LinkedCells list.nodes list.firstNode cells
  nodup : (cells.map Prod.fst).Nodup
  last : ∀ cell ∈ cells.getLast?, list.lastNode = some cell.1
  size : list.size = cells.length

namespace Holds

variable {list list' : IntList} {cells : List (ℕ × Int32)} {node : ℕ} {junk : Option ℕ}
  {value : Int32}

theorem init (nodes : ℕ → Option IntListNode) : Holds (intListInit nodes) [] :=
  ⟨trivial, List.nodup_nil, by simp, rfl⟩

theorem pop_nil (h : Holds list []) : intListPop list = some (none, list) := by
  have hsize : list.size = 0 := h.size
  rw [intListPop, if_pos hsize]

theorem pop_cons (h : Holds list ((node, value) :: cells)) :
    ∃ list', intListPop list = some (some value, list') ∧ Holds list' cells := by
  obtain ⟨hfirst, next, hnode, hlinked⟩ := h.linked
  have hsize : list.size = cells.length + 1 := h.size
  have hnodup := h.nodup
  rw [List.map_cons, List.nodup_cons] at hnodup
  refine ⟨{ list with
    firstNode := next
    size := list.size - 1
    nodes := update list.nodes node none }, ?_, ?_, hnodup.2, ?_, ?_⟩
  · rw [intListPop, if_neg (by omega), hfirst]
    simp only [Option.bind_eq_bind, Option.bind_some, hnode]
    rfl
  · refine hlinked.frame fun other hother => ?_
    apply update_of_ne
    rintro rfl
    exact hnodup.1 hother
  · intro cell hcell
    apply h.last
    rw [List.getLast?_cons, hcell]
    rfl
  · rw [hsize]
    rfl

theorem push (h : Holds list cells) (hnode : list.nodes node = none) (junk : Option ℕ)
    (value : Int32) :
    ∃ list', intListPush list node junk value = some list' ∧
      Holds list' (cells ++ [(node, value)]) := by
  have hfresh := h.linked.allocated hnode
  have hnodup : ((cells ++ [(node, value)]).map Prod.fst).Nodup := by
    rw [List.map_append, List.nodup_append]
    refine ⟨h.nodup, by simp, ?_⟩
    intro a ha b hb
    rw [List.map_singleton, List.mem_singleton] at hb
    rintro rfl
    rw [hb] at ha
    exact hfresh ha
  cases cells using List.reverseRecOn with
  | nil =>
    have hsize : list.size = 0 := h.size
    refine ⟨_, by rw [intListPush, if_pos hsize], ⟨rfl, none, ?_, trivial⟩, hnodup, ?_, ?_⟩
    · exact update_self node _ list.nodes
    · simp
    · rw [hsize]
      rfl
  | append_singleton cells cell =>
    have hsize : list.size = (cells ++ [cell]).length := h.size
    have hlast : list.lastNode = some cell.1 := h.last cell (by simp)
    obtain ⟨tail, htail⟩ : ∃ tail, list.nodes cell.1 = some tail := by
      by_contra hnone
      have hnone : list.nodes cell.1 = none := by
        apply Option.eq_none_iff_forall_ne_some.mpr
        exact fun tail htail => hnone ⟨tail, htail⟩
      exact h.linked.allocated hnone (by simp)
    refine ⟨{ list with
      lastNode := some node
      size := list.size + 1
      nodes := update (update list.nodes node (some ⟨value, junk⟩)) cell.1
        (some { tail with next := some node }) }, ?_, ?_, hnodup, ?_, ?_⟩
    · rw [intListPush, if_neg (by rw [hsize]; simp), hlast]
      simp only [Option.bind_eq_bind, Option.bind_some, htail]
      rfl
    · exact h.linked.snoc h.nodup hfresh htail
    · simp
    · simp [hsize]

end Holds

theorem Built.holds {list : IntList} {values : List Int32} (h : Built list values) :
    ∃ cells, Holds list cells ∧ cells.map Prod.snd = values := by
  induction h with
  | init nodes => exact ⟨[], Holds.init nodes, rfl⟩
  | @push list list' values node junk value hlist hnode hpush ih =>
    obtain ⟨cells, hcells, rfl⟩ := ih
    obtain ⟨new, hnew, hholds⟩ := hcells.push hnode junk value
    rw [hpush] at hnew
    obtain rfl := Option.some.inj hnew
    exact ⟨_, hholds, by simp⟩
  | @pop list list' values value hlist hpop ih =>
    obtain ⟨cells, hcells, rfl⟩ := ih
    cases cells with
    | nil =>
      rw [hcells.pop_nil] at hpop
      cases hpop
    | cons cell cells =>
      obtain ⟨left, hleft, hholds⟩ := hcells.pop_cons
      rw [hpop] at hleft
      cases hleft
      exact ⟨cells, hholds, rfl⟩

theorem intListPush_free {list list' : IntList} {node other : ℕ} {junk : Option ℕ} {value : Int32}
    (hpush : intListPush list node junk value = some list') (hne : other ≠ node)
    (hfree : list.nodes other = none) : list'.nodes other = none := by
  unfold intListPush at hpush
  split at hpush
  · cases hpush
    exact (update_of_ne hne _ _).trans hfree
  · obtain ⟨last, -, hpush⟩ := Option.bind_eq_some_iff.mp hpush
    obtain ⟨tail, htail, hpush⟩ := Option.bind_eq_some_iff.mp hpush
    cases hpush
    have hlast : other ≠ last := by
      rintro rfl
      rw [hfree] at htail
      cases htail
    exact (update_of_ne hlast _ _).trans ((update_of_ne hne _ _).trans hfree)

theorem exists_built (values : List Int32) :
    ∃ list, Built list values ∧ ∀ node, values.length ≤ node → list.nodes node = none := by
  induction values using List.reverseRecOn with
  | nil => exact ⟨_, .init fun _ => none, fun _ _ => rfl⟩
  | append_singleton values value ih =>
    obtain ⟨list, hlist, hfree⟩ := ih
    obtain ⟨cells, hcells, -⟩ := hlist.holds
    have hnode := hfree values.length le_rfl
    obtain ⟨list', hpush, -⟩ := hcells.push hnode none value
    refine ⟨list', hlist.push hnode hpush, fun node hle => ?_⟩
    rw [List.length_append, List.length_singleton] at hle
    exact intListPush_free hpush (by omega) (hfree node (by omega))

def walkNodes (nodes : ℕ → Option IntListNode) : ℕ → Option ℕ → List Int32
  | 0, _ => []
  | fuel + 1, p =>
    match p.bind nodes with
    | none => []
    | some node => node.value :: walkNodes nodes fuel node.next

def IntList.values (list : IntList) : List Int32 :=
  walkNodes list.nodes list.size list.firstNode

theorem LinkedCells.walk {nodes : ℕ → Option IntListNode} {p : Option ℕ} {cells : List (ℕ × Int32)}
    (h : LinkedCells nodes p cells) : walkNodes nodes cells.length p = cells.map Prod.snd := by
  induction cells generalizing p with
  | nil => rfl
  | cons cell cells ih =>
    obtain ⟨rfl, next, hcell, hlinked⟩ := h
    rw [List.length_cons, walkNodes, Option.bind_some, hcell, List.map_cons, ← ih hlinked]

theorem Holds.values_eq {list : IntList} {cells : List (ℕ × Int32)} (h : Holds list cells) :
    list.values = cells.map Prod.snd := by
  rw [IntList.values, h.size]
  exact h.linked.walk

end SBlktrace
