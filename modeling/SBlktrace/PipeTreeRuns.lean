import SBlktrace.PipeTrees

namespace SBlktrace

open RBTree Function

/-- What happens to the trees: a trace that is read is sorted in, the first one is shown, and a
trace of a file is kept without being sorted in. -/
inductive PipeOp where
  | sort (tr : Trace)
  | put
  | last (device : UInt32) (tr : Trace)

namespace PipeOp

def apply (trim : UInt32 → List Trace → List Trace) (L : Option Pci → List Trace) :
    PipeOp → Option Pci → List Trace
  | sort tr => update L none (rbInsert tr (L none))
  | put =>
    match L none with
    | [] => L
    | tr :: l => PipeTrees.putLast (trim tr.bit.device) tr.bit.device tr (update L none l)
  | last device tr => PipeTrees.putLast (trim device) device tr L

def applyAll (trim : UInt32 → List Trace → List Trace) :
    (Option Pci → List Trace) → List PipeOp → Option Pci → List Trace :=
  List.foldl (apply trim)

variable {trim : UInt32 → List Trace → List Trace} {L : Option Pci → List Trace}

theorem apply_put_nil (h : L none = []) : put.apply trim L = L := by rw [apply, h]

theorem apply_put_cons {tr : Trace} {l : List Trace} (h : L none = tr :: l) :
    put.apply trim L =
      PipeTrees.putLast (trim tr.bit.device) tr.bit.device tr (update L none l) := by rw [apply, h]

end PipeOp

namespace PipeTrees

/-- The address of a new trace. It is in use by none of the traces of the trees, as long as these
are fewer than `limit`. -/
def FreshTrace (malloc : PipeTrees → UInt64) (limit : ℕ) : Prop :=
  ∀ s t (nodes : List UInt64), Holding s t → (∀ k, (t k).toList ⊆ nodes) → nodes.length < limit →
    (∀ k, malloc s ∉ (t k).toList) ∧ malloc s ≠ 0 ∧ Aligned (malloc s)

def newTrace (s : PipeTrees) (a : UInt64) (tr : Trace) : PipeTrees :=
  { s with trace := update s.trace a tr }

theorem newTrace_self (s : PipeTrees) (a : UInt64) (tr : Trace) :
    (s.newTrace a tr).trace a = tr := update_self _ _ _

/-- `nfiles` of each device gives how many traces its trees `rb_last` may have. -/
def step (fuel : ℕ) (malloc : PipeTrees → UInt64) (limit : UInt32 → ℕ) (s : PipeTrees) :
    PipeOp → Option PipeTrees
  | .sort tr => (s.newTrace (malloc s) tr).traceRbInsert fuel none (malloc s)
  | .put => do
    let n ← (s.tree none).rbFirst fuel
    if n = 0 then return s
    else s.putTrace fuel (limit (s.trace n).bit.device) (s.trace n).bit.device n
  | .last device tr =>
    (s.newTrace (malloc s) tr).traceRbInsertLast fuel (limit device) device (malloc s)

def run (fuel : ℕ) (malloc : PipeTrees → UInt64) (limit : UInt32 → ℕ) :
    PipeTrees → List PipeOp → Option PipeTrees :=
  List.foldlM (step fuel malloc limit)

/-- The lists that are kept are the ends of those of all that was put into them. -/
structure KeepsNewest (limit : UInt32 → ℕ) (L all : Option Pci → List Trace) : Prop where
  sort : L none = all none
  last : ∀ k : Pci, L (some k) = newest (limit k.1) (all (some k))
  sorted : ∀ k, KeySorted (all k)

variable {s s' : PipeTrees} {t : Option Pci → RBNode UInt64} {L all : Option Pci → List Trace}
  {fuel : ℕ} {malloc : PipeTrees → UInt64} {limit : UInt32 → ℕ}

theorem KeepsNewest.insert (h : KeepsNewest limit L all) (tr : Trace) :
    KeepsNewest limit (update L none (rbInsert tr (L none)))
      (update all none (rbInsert tr (all none))) where
  sort := by rw [update_self, update_self, h.sort]
  last k := by
    rw [update_of_ne (Option.some_ne_none k), update_of_ne (Option.some_ne_none k), h.last]
  sorted k := by
    by_cases hk : k = none
    · subst hk
      rw [update_self]
      exact (h.sorted none).rbInsert
    · rw [update_of_ne hk]
      exact h.sorted k

theorem KeepsNewest.remove (h : KeepsNewest limit L all) {tr : Trace} {l : List Trace}
    (hall : all none = tr :: l) : KeepsNewest limit (update L none l) (update all none l) where
  sort := by rw [update_self, update_self]
  last k := by
    rw [update_of_ne (Option.some_ne_none k), update_of_ne (Option.some_ne_none k), h.last]
  sorted k := by
    by_cases hk : k = none
    · subst hk
      rw [update_self]
      exact (List.pairwise_cons.mp (hall ▸ h.sorted none)).2
    · rw [update_of_ne hk]
      exact h.sorted k

theorem KeepsNewest.putLast (h : KeepsNewest limit L all) (device : UInt32) (tr : Trace) :
    KeepsNewest limit (putLast (trimFirst (limit device)) device tr L)
      (PipeTrees.putLast id device tr all) where
  sort := by
    rw [PipeTrees.putLast, PipeTrees.putLast, update_of_ne (Option.some_ne_none _).symm,
      update_of_ne (Option.some_ne_none _).symm, h.sort]
  last k := by
    unfold PipeTrees.putLast
    by_cases hk : k = (device, tr.bit.cpu)
    · subst hk
      rw [update_self, update_self, h.last, id_eq]
      exact (h.sorted _).trimFirst_newest _ _
    · rw [update_of_ne (mt Option.some.inj hk), update_of_ne (mt Option.some.inj hk), h.last]
  sorted k := by
    unfold PipeTrees.putLast
    by_cases hk : k = some (device, tr.bit.cpu)
    · subst hk
      rw [update_self, id_eq]
      exact (h.sorted _).rbInsert
    · rw [update_of_ne hk]
      exact h.sorted k

theorem KeepsNewest.step (h : KeepsNewest limit L all) (op : PipeOp) :
    KeepsNewest limit (op.apply (fun device => trimFirst (limit device)) L)
      (op.apply (fun _ => id) all) := by
  cases op with
  | sort tr => exact h.insert tr
  | put =>
    cases hL : L none with
    | nil =>
      rw [PipeOp.apply_put_nil hL, PipeOp.apply_put_nil (h.sort ▸ hL)]
      exact h
    | cons tr l =>
      have hall : all none = tr :: l := h.sort ▸ hL
      rw [PipeOp.apply_put_cons hL, PipeOp.apply_put_cons hall]
      exact (h.remove hall).putLast _ _
  | last device tr => exact h.putLast device tr

theorem KeepsNewest.run (h : KeepsNewest limit L all) (ops : List PipeOp) :
    KeepsNewest limit (PipeOp.applyAll (fun device => trimFirst (limit device)) L ops)
      (PipeOp.applyAll (fun _ => id) all ops) := by
  induction ops generalizing L all with
  | nil => exact h
  | cons op ops ih => exact ih (h.step op)

theorem Mirrors.newTrace {a : UInt64} (h : Mirrors s t L) (ha : ∀ k, a ∉ (t k).toList)
    (tr : Trace) : Mirrors (s.newTrace a tr) t L :=
  h.setTrace ha tr

variable {nodes : List UInt64}

theorem Mirrors.length_le (h : Mirrors s t L) (hnodes : ∀ k, (t k).toList ⊆ nodes)
    (k : Option Pci) : (L k).length ≤ nodes.length := by
  rw [← h.length]
  exact (List.subperm_of_subset (h.tree k).nodup (hnodes k)).length_le

theorem Mirrors.step (h : Mirrors s t L) (hnodes : ∀ k, (t k).toList ⊆ nodes)
    (hfresh : FreshTrace malloc fuel) (hfuel : nodes.length + 1 < fuel) (op : PipeOp) :
    ∃ s' t' nodes', s.step fuel malloc limit op = some s' ∧
      Mirrors s' t' (op.apply (fun device => trimFirst (limit device)) L) ∧
      (∀ k, (t' k).toList ⊆ nodes') ∧ nodes'.length ≤ nodes.length + 1 := by
  have hlen : ∀ k, (L k).length + 1 < fuel := fun k =>
    (Nat.succ_le_succ (h.length_le hnodes k)).trans_lt hfuel
  obtain ⟨hnot, hne, hal⟩ := hfresh s t nodes h.toHolding hnodes (Nat.lt_of_succ_lt hfuel)
  have hadd : ∀ {t' : Option Pci → RBNode UInt64},
      (∀ k z, z ∈ (t' k).toList → z = malloc s ∨ z ∈ (t k).toList) →
      ∀ k, (t' k).toList ⊆ malloc s :: nodes := by
    intro t' ht' k z hz
    obtain rfl | hz := ht' k z hz
    · exact List.mem_cons_self
    · exact .tail _ (hnodes k hz)
  cases op with
  | sort tr =>
    obtain ⟨s', t', hs', -, h', ht'⟩ := (h.newTrace hnot tr).traceRbInsert hnot hne hal
      (Nat.lt_of_succ_lt (hlen none)) nofun
    rw [newTrace_self] at h'
    exact ⟨s', t', malloc s :: nodes, hs', h', hadd ht', Nat.le_refl _⟩
  | put =>
    cases hL : L none with
    | nil =>
      have hfirst := h.rbFirst ((h.length none).trans_lt (Nat.lt_of_succ_lt (hlen none)))
      have hnil : (t none).toList = [] := List.map_eq_nil_iff.mp ((h.list none).trans hL)
      rw [hnil] at hfirst
      rw [PipeOp.apply_put_nil hL]
      refine ⟨s, t, nodes, ?_, h, hnodes, Nat.le_succ _⟩
      rw [PipeTrees.step, hfirst]
      rfl
    | cons tr l =>
      obtain ⟨n, s', t', hfirst, hn, htr, hs', -, h', ht'⟩ :=
        h.put hL hlen (limit tr.bit.device) tr.bit.device
      rw [PipeOp.apply_put_cons hL]
      refine ⟨s', t', nodes, ?_, h', fun k z hz => ?_, Nat.le_succ _⟩
      · rw [PipeTrees.step, hfirst, Option.bind_eq_bind, Option.bind_some, if_neg hn, htr, hs']
      · obtain ⟨k', hz⟩ := ht' k z hz
        exact hnodes k' hz
  | last device tr =>
    obtain ⟨s', t', hs', -, h', ht'⟩ := (h.newTrace hnot tr).insertLast hnot hne hal hlen
      (limit device) device
    rw [newTrace_self] at h'
    exact ⟨s', t', malloc s :: nodes, hs', h', hadd ht', Nat.le_refl _⟩

theorem Mirrors.run (h : Mirrors s t L) (hnodes : ∀ k, (t k).toList ⊆ nodes)
    (hfresh : FreshTrace malloc fuel) (ops : List PipeOp)
    (hfuel : nodes.length + ops.length < fuel) :
    ∃ s' t', s.run fuel malloc limit ops = some s' ∧
      Mirrors s' t' (PipeOp.applyAll (fun device => trimFirst (limit device)) L ops) := by
  induction ops generalizing s t L nodes with
  | nil => exact ⟨s, t, rfl, h⟩
  | cons op ops ih =>
    rw [List.length_cons] at hfuel
    obtain ⟨s₁, t₁, nodes₁, hs₁, h₁, hnodes₁, hlen₁⟩ :=
      h.step hnodes hfresh (show nodes.length + 1 < fuel by omega) op
    obtain ⟨s₂, t₂, hs₂, h₂⟩ := ih h₁ hnodes₁ (by omega)
    refine ⟨s₂, t₂, ?_, h₂⟩
    rw [PipeTrees.run, List.foldlM_cons, hs₁]
    exact hs₂

def noTraces (mem : UInt64 → RbNode) (trace : UInt64 → Trace) : PipeTrees :=
  ⟨mem, trace, fun _ => 0, fun _ => 0⟩

theorem noTraces_mirrors (mem : UInt64 → RbNode) (trace : UInt64 → Trace) :
    Mirrors (noTraces mem trace) (fun _ => .nil) fun _ => [] where
  tree _ := ⟨⟨rfl, trivial, List.nodup_nil⟩, 0, .nil⟩
  apart _ _ _ := List.disjoint_nil_left _
  sorted _ := List.Pairwise.nil
  list _ := rfl
  entries _ := rfl
  own _ := List.forall_mem_nil _

/-- Over any run, all trees stay red-black and apart though their nodes lie in one memory; the
sorted tree has the traces that were read and not shown yet, in order, and each `rb_last` has those
of its CPU that were put there last in this order, as many as its device may have and no more. -/
theorem pipe_trees_run (mem : UInt64 → RbNode) (trace : UInt64 → Trace) (ops : List PipeOp)
    (hfresh : FreshTrace malloc fuel) (hfuel : ops.length < fuel) :
    ∃ (s : PipeTrees) (t : Option Pci → RBNode UInt64),
      (noTraces mem trace).run fuel malloc limit ops = some s ∧
      (∀ k, (s.tree k).IsRbTree (t k)) ∧
      (Pairwise fun k k' => (t k).toList.Disjoint (t k').toList) ∧
      (t none).toList.map s.trace = PipeOp.applyAll (fun _ => id) (fun _ => []) ops none ∧
      (∀ k : Pci, (t (some k)).toList.map s.trace =
        newest (limit k.1) (PipeOp.applyAll (fun _ => id) (fun _ => []) ops (some k)) ∧
        s.entries (some k) = (t (some k)).toList.length) ∧
      ∀ k, KeySorted (PipeOp.applyAll (fun _ => id) (fun _ => []) ops k) := by
  obtain ⟨s, t, hs, h⟩ := (noTraces_mirrors mem trace).run (fun _ => List.nil_subset []) hfresh ops
    (by rwa [List.length_nil, Nat.zero_add])
  have hnil : KeepsNewest limit (fun _ => []) fun _ => [] :=
    ⟨rfl, fun _ => (newest_of_le (Nat.zero_le _)).symm, fun _ => List.Pairwise.nil⟩
  have hkeeps := hnil.run ops
  refine ⟨s, t, hs, h.tree, h.apart, (h.list none).trans hkeeps.sort, fun k => ⟨?_, ?_⟩,
    hkeeps.sorted⟩
  · rw [h.list, hkeeps.last]
  · rw [h.entries, h.length]

open Classical in
noncomputable def eightTraces (s : PipeTrees) : UInt64 :=
  (places.find? fun a => decide (∀ k, a ∉ (s.tree k).addresses 8)).getD 4

theorem eightTraces_fresh : FreshTrace eightTraces 8 := by
  intro s t nodes h hnodes hlen
  have huse : ∀ k, (s.tree k).addresses 8 = (t k).toList := by
    intro k
    refine RbState.addresses_eq (h.tree k).toIsTree (lt_of_le_of_lt ?_ hlen)
    exact (List.subperm_of_subset (h.tree k).nodup (hnodes k)).length_le
  obtain ⟨a, ha, hnot⟩ := exists_free_place hlen
  have hfree : ∀ k, a ∉ (s.tree k).addresses 8 := by
    intro k
    rw [huse]
    exact fun hin => hnot (hnodes k hin)
  cases hfind : places.find? fun a => decide (∀ k, a ∉ (s.tree k).addresses 8) with
  | none =>
    rw [List.find?_eq_none] at hfind
    exact absurd (decide_eq_true hfree) (hfind a ha)
  | some b =>
    have hb : eightTraces s = b := by rw [eightTraces, hfind, Option.getD_some]
    rw [hb]
    refine ⟨fun k => ?_, place_valid b (List.mem_of_find?_eq_some hfind)⟩
    have hout := List.find?_some hfind
    rw [decide_eq_true_iff] at hout
    rw [← huse]
    exact hout k

def traceAt (time : UInt64) (sequence : UInt32) : Trace := ⟨⟨0, sequence, time, 0, 8, 3⟩, 0⟩

def threeTraces : List PipeOp :=
  [.sort (traceAt 7 2), .sort (traceAt 9 3), .sort (traceAt 5 1), .put, .put]

theorem threeTraces_lists :
    PipeOp.applyAll (fun _ => id) (fun _ => []) threeTraces none = [traceAt 9 3] ∧
      PipeOp.applyAll (fun _ => id) (fun _ => []) threeTraces (some (8, 3)) = [traceAt 5 1, traceAt 7 2] := by
  simp [threeTraces, PipeOp.applyAll, PipeOp.apply, rbInsert, rbLeft, traceAt, putLast, update]

theorem pipe_trees_run_shown :
    ∃ (s : PipeTrees) (t : Option Pci → RBNode UInt64),
      (noTraces (fun _ => ⟨0, 0, 0⟩) fun _ => ⟨⟨0, 0, 0, 0, 0, 0⟩, 0⟩).run 8 eightTraces (fun _ => 1)
        threeTraces = some s ∧
      (t none).toList.map s.trace = [traceAt 9 3] ∧
      (t (some (8, 3))).toList.map s.trace = [traceAt 7 2] := by
  obtain ⟨s, t, hs, -, -, hsort, hlast, -⟩ := @pipe_trees_run 8 eightTraces (fun _ => 1) (fun _ => ⟨0, 0, 0⟩)
    (fun _ => ⟨⟨0, 0, 0, 0, 0, 0⟩, 0⟩) threeTraces eightTraces_fresh (by decide)
  rw [threeTraces_lists.1] at hsort
  have hnewest := (hlast (8, 3)).1
  rw [threeTraces_lists.2] at hnewest
  exact ⟨s, t, hs, hsort, hnewest⟩

end PipeTrees

end SBlktrace
