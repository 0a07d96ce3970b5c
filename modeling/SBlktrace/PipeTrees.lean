import SBlktrace.PipeBatches
import SBlktrace.RbWalk

namespace SBlktrace

open RBTree Function

def rbKey (t : Trace) : ℕ ×ₗ ℕ ×ₗ ℕ :=
  toLex (t.bit.time.toNat, toLex (t.bit.device.toNat, t.bit.sequence.toNat))

theorem rbLeft_iff {t u : Trace} : rbLeft t u = true ↔ rbKey t < rbKey u := by
  simp only [rbLeft, rbKey, Prod.Lex.toLex_lt_toLex, Bool.or_eq_true, Bool.and_eq_true,
    decide_eq_true_iff, UInt64.lt_iff_toNat_lt, UInt32.lt_iff_toNat_lt, UInt64.toNat_inj,
    UInt32.toNat_inj]

def KeySorted (l : List Trace) : Prop := l.Pairwise fun t u => rbKey t ≤ rbKey u

theorem rbInsert_append {t : Trace} {before after : List Trace}
    (hbefore : ∀ u ∈ before, ¬ rbLeft t u) (hafter : ∀ u ∈ after, rbLeft t u) :
    rbInsert t (before ++ after) = before ++ t :: after := by
  induction before with
  | nil =>
    cases after with
    | nil => rfl
    | cons u after => exact if_pos (hafter u List.mem_cons_self)
  | cons u before ih =>
    rw [List.cons_append, rbInsert, if_neg (hbefore u List.mem_cons_self),
      ih fun v hv => hbefore v (.tail _ hv)]
    rfl

theorem KeySorted.rbInsert {t : Trace} {l : List Trace} (h : KeySorted l) :
    KeySorted (rbInsert t l) := by
  induction l with
  | nil => exact List.pairwise_singleton _ _
  | cons u l ih =>
    obtain ⟨hu, hl⟩ := List.pairwise_cons.mp h
    rw [SBlktrace.rbInsert]
    split_ifs with hleft
    · refine List.pairwise_cons.mpr ⟨fun v hv => ?_, h⟩
      have hlt := rbLeft_iff.mp hleft
      obtain rfl | hv := List.mem_cons.mp hv
      · exact le_of_lt hlt
      · exact le_trans (le_of_lt hlt) (hu v hv)
    · refine List.pairwise_cons.mpr ⟨fun v hv => ?_, ih hl⟩
      obtain rfl | hv := List.mem_cons.mp ((PipeMode.rbInsert_perm t l).mem_iff.mp hv)
      · exact le_of_not_gt (mt rbLeft_iff.mpr hleft)
      · exact hu v hv

theorem rbInsert_left {t : Trace} {l : List Trace} (h : ∀ u ∈ l, rbLeft t u) :
    rbInsert t l = t :: l :=
  @rbInsert_append t [] l (List.forall_mem_nil _) h

theorem rbInsert_length (t : Trace) (l : List Trace) :
    (rbInsert t l).length = l.length + 1 := (PipeMode.rbInsert_perm t l).length_eq

theorem KeySorted.exists_cut {l : List Trace} (h : KeySorted l) (t : Trace) :
    ∃ before after, l = before ++ after ∧ (∀ u ∈ before, ¬ rbLeft t u) ∧
      ∀ u ∈ after, rbLeft t u := by
  induction l with
  | nil => exact ⟨[], [], rfl, List.forall_mem_nil _, List.forall_mem_nil _⟩
  | cons u l ih =>
    obtain ⟨hu, hl⟩ := List.pairwise_cons.mp h
    by_cases hleft : rbLeft t u
    · refine ⟨[], u :: l, rfl, List.forall_mem_nil _, fun v hv => ?_⟩
      obtain rfl | hv := List.mem_cons.mp hv
      · exact hleft
      · exact rbLeft_iff.mpr ((rbLeft_iff.mp hleft).trans_le (hu v hv))
    · obtain ⟨before, after, rfl, hbefore, hafter⟩ := ih hl
      refine ⟨u :: before, after, rfl, fun v hv => ?_, hafter⟩
      obtain rfl | hv := List.mem_cons.mp hv
      · exact hleft
      · exact hbefore v hv

def newest (limit : ℕ) (l : List Trace) : List Trace := l.drop (l.length - limit)

def trimFirst (limit : ℕ) (l : List Trace) : List Trace := if l.length > limit then l.tail else l

theorem newest_append {limit : ℕ} {l l' : List Trace} (h : l'.length = limit) :
    newest limit (l ++ l') = l' := by
  rw [newest, List.length_append, h, Nat.add_sub_cancel, List.drop_left]

theorem newest_of_le {limit : ℕ} {l : List Trace} (h : l.length ≤ limit) : newest limit l = l := by
  rw [newest, Nat.sub_eq_zero_of_le h, List.drop_zero]

theorem KeySorted.trimFirst_newest {l : List Trace} (h : KeySorted l) (limit : ℕ) (t : Trace) :
    trimFirst limit (SBlktrace.rbInsert t (newest limit l)) =
      newest limit (SBlktrace.rbInsert t l) := by
  by_cases hlen : l.length ≤ limit
  · rw [newest_of_le hlen, trimFirst]
    have hins := rbInsert_length t l
    split_ifs with hmore
    · rw [newest, show (SBlktrace.rbInsert t l).length - limit = 1 by omega, List.drop_one]
    · rw [newest_of_le (not_lt.mp hmore)]
  · obtain ⟨l₁, l₂, rfl, hl₂⟩ : ∃ l₁ l₂, l = l₁ ++ l₂ ∧ l₂.length = limit := by
      refine ⟨l.take (l.length - limit), newest limit l, (List.take_append_drop _ _).symm, ?_⟩
      rw [newest, List.length_drop]
      omega
    rw [newest_append hl₂, trimFirst, rbInsert_length, hl₂, if_pos (Nat.lt_succ_self _)]
    obtain ⟨before, after, hcut, hbefore, hafter⟩ := h.exists_cut t
    rw [hcut, rbInsert_append hbefore hafter]
    obtain ⟨mid, rfl, rfl⟩ | ⟨mid, rfl, rfl⟩ := List.append_eq_append_iff.mp hcut
    · rw [rbInsert_append (fun u hu => hbefore u (List.mem_append_right _ hu)) hafter]
      cases mid with
      | nil =>
        rw [List.append_nil, List.append_cons l₁]
        exact (newest_append hl₂).symm
      | cons u mid =>
        have hback : l₁ ++ u :: mid ++ t :: after = (l₁ ++ [u]) ++ (mid ++ t :: after) := by simp
        rw [hback, newest_append]
        · rfl
        · rw [← hl₂]
          simp
          omega
    · rw [rbInsert_left fun u hu => hafter u (List.mem_append_right _ hu), List.tail_cons,
        List.append_cons, ← List.append_assoc, newest_append hl₂]

abbrev Pci := UInt32 × UInt32

/-- The nodes of all traces, with the roots and the numbers of entries of the trees: of
`rb_sort_root`, and of the `rb_last` of each CPU. -/
structure PipeTrees where
  mem : UInt64 → RbNode
  trace : UInt64 → Trace
  roots : Option Pci → UInt64
  entries : Option Pci → ℕ

namespace PipeTrees

section

variable (fuel : ℕ) (s : PipeTrees) (k : Option Pci)

def tree : RbState := ⟨s.mem, s.roots k⟩

def setTree (rb : RbState) : PipeTrees :=
  { s with mem := rb.mem, roots := update s.roots k rb.root }

def compareTrace (a n : UInt64) : Ordering :=
  if rbLeft (s.trace a) (s.trace n) then .lt else .gt

def setEntries (n : ℕ) : PipeTrees := { s with entries := update s.entries k n }

def traceRbInsert (a : UInt64) : Option PipeTrees := do
  let (rb, _) ← (s.tree k).rbInsertBy (s.compareTrace a) fuel a
  return (s.setTree k rb).setEntries k (s.entries k + 1)

def rbErase (a : UInt64) : Option PipeTrees := do
  let rb ← (s.tree k).rbErase fuel a
  return (s.setTree k rb).setEntries k (s.entries k - 1)

def dropTraceLast (device : UInt32) (a : UInt64) : Option PipeTrees :=
  s.rbErase fuel (some (device, (s.trace a).bit.cpu)) a

def traceRbInsertLast (limit : ℕ) (device : UInt32) (a : UInt64) : Option PipeTrees := do
  let k := some (device, (s.trace a).bit.cpu)
  let s ← s.traceRbInsert fuel k a
  if s.entries k > limit then
    let n ← (s.tree k).rbFirst fuel
    s.dropTraceLast fuel device n
  else return s

def putTrace (limit : ℕ) (device : UInt32) (a : UInt64) : Option PipeTrees := do
  let s ← s.rbErase fuel none a
  s.traceRbInsertLast fuel limit device a

def compareSequence (device : UInt32) (sequence : UInt64) (n : UInt64) : Ordering :=
  let bit := (s.trace n).bit
  if device < bit.device then .lt
  else if device > bit.device then .gt
  else if sequence < bit.sequence.toUInt64 then .lt
  else if sequence > bit.sequence.toUInt64 then .gt
  else .eq

def traceRbFindLast (k : Pci) (sequence : UInt64) : Option UInt64 :=
  (s.tree (some k)).rbFind (s.compareSequence k.1 sequence) fuel

end

structure Holding (s : PipeTrees) (t : Option Pci → RBNode UInt64) : Prop where
  tree : ∀ k, (s.tree k).IsRbTree (t k)
  apart : Pairwise fun k k' => (t k).toList.Disjoint (t k').toList
  sorted : ∀ k, KeySorted ((t k).toList.map s.trace)

variable {s s' : PipeTrees} {t : Option Pci → RBNode UInt64} {t' : RBNode UInt64} {k : Option Pci}
  {a : UInt64} {fuel : ℕ} {rb : RbState}

theorem Holding.setTree (h : Holding s t) (hrb : rb.IsRbTree t')
    (hmem : ∀ z ∈ t'.toList, z ∈ (t k).toList ∨ ∀ k', z ∉ (t k').toList)
    (hoff : ∀ k' ≠ k, ∀ z ∈ (t k').toList, rb.mem z = s.mem z)
    (hsorted : KeySorted (t'.toList.map s.trace)) (n : ℕ) :
    Holding ((s.setTree k rb).setEntries k n) (update t k t') where
  tree k' := by
    by_cases hk : k' = k
    · subst hk
      rw [update_self, show ((s.setTree k' rb).setEntries k' n).tree k' = rb by
        simp [PipeTrees.setTree, PipeTrees.setEntries, PipeTrees.tree]]
      exact hrb
    · rw [update_of_ne hk]
      refine (h.tree k').congr ?_ (hoff k' hk)
      simp [PipeTrees.setTree, PipeTrees.setEntries, PipeTrees.tree, update_of_ne hk]
  apart := by
    intro k₁ k₂ hne
    have hside : ∀ k' ≠ k, t'.toList.Disjoint (t k').toList := fun k' hk z hz hz' => by
      obtain hz | hz := hmem z hz
      · exact h.apart hk hz' hz
      · exact hz k' hz'
    by_cases hk₁ : k₁ = k
    · subst hk₁
      rw [update_self, update_of_ne hne.symm]
      exact hside k₂ hne.symm
    · rw [update_of_ne hk₁]
      by_cases hk₂ : k₂ = k
      · subst hk₂
        rw [update_self]
        exact (hside k₁ hk₁).symm
      · rw [update_of_ne hk₂]
        exact h.apart hne
  sorted k' := by
    by_cases hk : k' = k
    · subst hk
      rw [update_self]
      exact hsorted
    · rw [update_of_ne hk]
      exact h.sorted k'

theorem Holding.sorted_compareTrace (h : Holding s t) (a : UInt64) (k : Option Pci) :
    RbState.Sorted (s.compareTrace a) (t k).toList := by
  refine (List.pairwise_map.mp (h.sorted k)).imp fun {x y} hle => ?_
  have hlt : rbLeft (s.trace a) (s.trace x) → rbLeft (s.trace a) (s.trace y) := fun hx =>
    rbLeft_iff.mpr ((rbLeft_iff.mp hx).trans_le hle)
  unfold compareTrace
  split_ifs with hx hy hy
  · exact ⟨id, nofun⟩
  · exact absurd (hlt hx) hy
  · exact ⟨nofun, nofun⟩
  · exact ⟨nofun, fun _ => rfl⟩

theorem Holding.rbFirst (h : Holding s t) (hfuel : (t k).toList.length < fuel) :
    (s.tree k).rbFirst fuel = some ((t k).toList.headD 0) :=
  RbState.firstFrom_spec (h.tree k).toIsTree hfuel

structure Mirrors (s : PipeTrees) (t : Option Pci → RBNode UInt64) (L : Option Pci → List Trace) :
    Prop extends Holding s t where
  list : ∀ k, (t k).toList.map s.trace = L k
  entries : ∀ k, s.entries k = (L k).length
  own : ∀ k : Pci, ∀ tr ∈ L (some k), tr.bit.cpu = k.2

variable {L : Option Pci → List Trace} {l : List Trace} {tr : Trace} {device : UInt32}

theorem Mirrors.length (h : Mirrors s t L) (k : Option Pci) :
    (t k).toList.length = (L k).length := by rw [← h.list, List.length_map]

theorem Mirrors.cons (h : Mirrors s t L) (hL : L k = tr :: l) :
    ∃ n rest, (t k).toList = n :: rest ∧ s.trace n = tr ∧ rest.map s.trace = l := by
  have hlist := h.list k
  rw [hL] at hlist
  obtain ⟨n, rest, heq, hn, hrest⟩ := List.map_eq_cons_iff.mp hlist
  exact ⟨n, rest, heq, hn, hrest⟩

theorem Mirrors.setTree (h : Mirrors s t L) (hrb : rb.IsRbTree t')
    (hmem : ∀ z ∈ t'.toList, z ∈ (t k).toList ∨ ∀ k', z ∉ (t k').toList)
    (hoff : ∀ k' ≠ k, ∀ z ∈ (t k').toList, rb.mem z = s.mem z)
    (hlist : t'.toList.map s.trace = l) (hsorted : KeySorted l)
    (hown : ∀ k', k = some k' → ∀ tr ∈ l, tr.bit.cpu = k'.2) :
    Mirrors ((s.setTree k rb).setEntries k l.length) (update t k t') (update L k l) where
  toHolding := h.toHolding.setTree hrb hmem hoff (hlist ▸ hsorted) _
  list k' := by
    by_cases hk : k' = k
    · subst hk
      rwa [update_self, update_self]
    · rw [update_of_ne hk, update_of_ne hk, ← h.list]
      rfl
  entries k' := by
    by_cases hk : k' = k
    · subst hk
      rw [update_self]
      exact update_self _ _ _
    · rw [update_of_ne hk, ← h.entries]
      exact update_of_ne hk _ _
  own k' tr htr := by
    by_cases hk : some k' = k
    · subst hk
      rw [update_self] at htr
      exact hown k' rfl tr htr
    · rw [update_of_ne hk] at htr
      exact h.own k' tr htr

theorem mem_update {z : UInt64} (hz : ∀ z ∈ t'.toList, z = a ∨ z ∈ (t k).toList) (k' : Option Pci)
    (hmem : z ∈ (update t k t' k').toList) : z = a ∨ z ∈ (t k').toList := by
  by_cases hk : k' = k
  · subst hk
    rw [update_self] at hmem
    exact hz z hmem
  · rw [update_of_ne hk] at hmem
    exact .inr hmem

theorem Mirrors.traceRbInsert (h : Mirrors s t L) (ha : ∀ k', a ∉ (t k').toList) (hne : a ≠ 0)
    (hal : Aligned a) (hfuel : (L k).length < fuel)
    (hown : ∀ k', k = some k' → (s.trace a).bit.cpu = k'.2) :
    ∃ s' t', s.traceRbInsert fuel k a = some s' ∧ s'.trace = s.trace ∧
      Mirrors s' t' (update L k (SBlktrace.rbInsert (s.trace a) (L k))) ∧
      ∀ k z, z ∈ (t' k).toList → z = a ∨ z ∈ (t k).toList := by
  obtain ⟨y, -, heq, -⟩ | ⟨before, after, rb, t', hlist, hgt, hlt, hrb, htree, hlist', hoff⟩ :=
    RbState.rbInsertBy_spec (h.tree k) (h.sorted_compareTrace a k) (ha k) hne hal
      ((h.length k).trans_lt hfuel)
  · unfold compareTrace at heq
    split_ifs at heq
  have hbefore : ∀ u ∈ before.map s.trace, ¬ rbLeft (s.trace a) u := by
    intro u hu
    obtain ⟨x, hx, rfl⟩ := List.mem_map.mp hu
    intro hleft
    cases (hgt x hx).symm.trans (if_pos hleft)
  have hafter : ∀ u ∈ after.map s.trace, rbLeft (s.trace a) u := by
    intro u hu
    obtain ⟨x, hx, rfl⟩ := List.mem_map.mp hu
    by_contra hleft
    cases (hlt x hx).symm.trans (if_neg hleft)
  have hins : t'.toList.map s.trace = SBlktrace.rbInsert (s.trace a) (L k) := by
    rw [← h.list, hlist', hlist, List.map_append, List.map_append, List.map_cons,
      rbInsert_append hbefore hafter]
  have hmem : ∀ z ∈ t'.toList, z = a ∨ z ∈ (t k).toList := by
    intro z
    rw [hlist', hlist]
    simp only [List.mem_append, List.mem_cons]
    tauto
  refine ⟨_, _, ?_, ?_, h.setTree htree (fun z hz => ?_) (fun k' hk z hz => ?_) hins ?_
    fun k' hk tr htr => ?_, fun k' z hz => mem_update hmem k' hz⟩
  · rw [PipeTrees.traceRbInsert, hrb, rbInsert_length, ← h.entries]
    rfl
  · rfl
  · obtain rfl | hz := hmem z hz
    · exact .inr ha
    · exact .inl hz
  · exact hoff z (h.apart hk hz) (ne_of_mem_of_not_mem hz (ha k'))
  · rw [← h.list]
    exact (h.sorted k).rbInsert
  · subst hk
    obtain rfl | htr := List.mem_cons.mp ((PipeMode.rbInsert_perm _ _).mem_iff.mp htr)
    · exact hown k' rfl
    · exact h.own k' tr htr

theorem Mirrors.eraseFirst (h : Mirrors s t L) (hL : L k = tr :: l)
    (hfuel : (L k).length < fuel) :
    ∃ n s' t', (s.tree k).rbFirst fuel = some n ∧ s.trace n = tr ∧ n ∈ (t k).toList ∧
      s.rbErase fuel k n = some s' ∧ s'.trace = s.trace ∧ Mirrors s' t' (update L k l) ∧
      ∀ k' z, z ∈ (t' k').toList → z ≠ n ∧ z ∈ (t k').toList := by
  obtain ⟨n, rest, hnodes, hn, hrest⟩ := h.cons hL
  have hmem : n ∈ (t k).toList := by
    rw [hnodes]
    exact List.mem_cons_self
  have hnodup := (h.tree k).nodup
  have hsize := (h.length k).trans_lt hfuel
  have hfirst := h.rbFirst hsize
  obtain ⟨rb, t', hrb, htree, hlist, hoff⟩ := RbState.rbErase_spec (h.tree k) hmem hsize
  rw [hnodes] at hnodup hfirst
  rw [hnodes, List.erase_cons_head] at hlist
  have hsub : ∀ z ∈ t'.toList, z ∈ (t k).toList := by
    intro z hz
    rw [hlist] at hz
    rw [hnodes]
    exact .tail _ hz
  refine ⟨n, _, _, hfirst, hn, hmem, ?_, ?_, h.setTree htree (fun z hz => .inl (hsub z hz))
    (fun k' hk z hz => hoff z (h.apart hk hz)) (by rw [hlist, hrest]) ?_ fun k' hk tr' htr => ?_,
    fun k' z hz => ?_⟩
  · rw [PipeTrees.rbErase, hrb, h.entries, hL]
    rfl
  · rfl
  · have hsorted := h.sorted k
    rw [h.list, hL] at hsorted
    exact (List.pairwise_cons.mp hsorted).2
  · subst hk
    refine h.own k' tr' ?_
    rw [hL]
    exact .tail _ htr
  · by_cases hk : k' = k
    · subst hk
      rw [update_self] at hz
      refine ⟨?_, hsub z hz⟩
      rintro rfl
      rw [hlist] at hz
      exact (List.nodup_cons.mp hnodup).1 hz
    · rw [update_of_ne hk] at hz
      refine ⟨?_, hz⟩
      rintro rfl
      exact h.apart hk hz hmem

def putLast (trim : List Trace → List Trace) (device : UInt32) (tr : Trace)
    (L : Option Pci → List Trace) : Option Pci → List Trace :=
  update L (some (device, tr.bit.cpu)) (trim (SBlktrace.rbInsert tr (L (some (device, tr.bit.cpu)))))

theorem Mirrors.insertLast (h : Mirrors s t L) (ha : ∀ k', a ∉ (t k').toList) (hne : a ≠ 0)
    (hal : Aligned a) (hfuel : ∀ k, (L k).length + 1 < fuel) (limit : ℕ) (device : UInt32) :
    ∃ s' t', s.traceRbInsertLast fuel limit device a = some s' ∧ s'.trace = s.trace ∧
      Mirrors s' t' (putLast (trimFirst limit) device (s.trace a) L) ∧
      ∀ k z, z ∈ (t' k).toList → z = a ∨ z ∈ (t k).toList := by
  obtain ⟨k, hk⟩ : ∃ k : Pci, k = (device, (s.trace a).bit.cpu) := ⟨_, rfl⟩
  obtain ⟨s₁, t₁, hs₁, htrace₁, h₁, hnodes₁⟩ := h.traceRbInsert ha hne hal
    (Nat.lt_of_succ_lt (hfuel (some k))) fun k' hk' => by rw [← Option.some.inj hk', hk]
  obtain ⟨l, hl⟩ : ∃ l, l = SBlktrace.rbInsert (s.trace a) (L (some k)) := ⟨_, rfl⟩
  rw [← hl] at h₁
  have hlength : l.length = (L (some k)).length + 1 := by rw [hl, rbInsert_length]
  have hentries := h₁.entries (some k)
  rw [update_self] at hentries
  have hrun : s.traceRbInsertLast fuel limit device a = if l.length > limit then
      (s₁.tree (some k)).rbFirst fuel >>= s₁.dropTraceLast fuel device else some s₁ := by
    rw [PipeTrees.traceRbInsertLast, ← hk, hs₁, ← hentries]
    rfl
  rw [hrun, putLast, ← hk, ← hl, trimFirst]
  split_ifs with hmore
  · obtain ⟨tr, rest, hcons⟩ := List.exists_cons_of_ne_nil
      (show l ≠ [] from List.ne_nil_of_length_pos (by omega))
    obtain ⟨n, s₂, t₂, hfirst, hn, -, hs₂, htrace₂, h₂, hnodes₂⟩ := h₁.eraseFirst
      (show update L (some k) l (some k) = tr :: rest by rw [update_self, hcons])
      (show _ < fuel by rw [update_self, hlength]; exact hfuel _)
    have hcpu : (s₁.trace n).bit.cpu = k.2 := by
      rw [hn]
      refine h₁.own k tr ?_
      rw [update_self, hcons]
      exact List.mem_cons_self
    rw [update_idem] at h₂
    rw [hcons, List.tail_cons]
    refine ⟨s₂, t₂, ?_, htrace₂.trans htrace₁, h₂, fun k' z hz => hnodes₁ k' z (hnodes₂ k' z hz).2⟩
    rw [hfirst, Option.bind_eq_bind, Option.bind_some, dropTraceLast, hcpu, ← hs₂, hk]
  · exact ⟨s₁, t₁, rfl, htrace₁, h₁, hnodes₁⟩

theorem Mirrors.put (h : Mirrors s t L) (hL : L none = tr :: l)
    (hfuel : ∀ k, (L k).length + 1 < fuel) (limit : ℕ) (device : UInt32) :
    ∃ n s' t', (s.tree none).rbFirst fuel = some n ∧ n ≠ 0 ∧ s.trace n = tr ∧
      s.putTrace fuel limit device n = some s' ∧ s'.trace = s.trace ∧
      Mirrors s' t' (putLast (trimFirst limit) device tr (update L none l)) ∧
      ∀ k z, z ∈ (t' k).toList → ∃ k', z ∈ (t k').toList := by
  obtain ⟨n, s₁, t₁, hfirst, hn, hmem, hs₁, htrace₁, h₁, hnodes₁⟩ :=
    h.eraseFirst hL (Nat.lt_of_succ_lt (hfuel none))
  have hvalid := (h.tree none).rep.valid hmem
  have hfuel₁ : ∀ k, (update L none l k).length + 1 < fuel := by
    intro k
    by_cases hk : k = none
    · subst hk
      have hlen := hfuel none
      rw [hL, List.length_cons] at hlen
      rw [update_self]
      omega
    · rw [update_of_ne hk]
      exact hfuel k
  obtain ⟨s₂, t₂, hs₂, htrace₂, h₂, hnodes₂⟩ := h₁.insertLast
    (fun k hk => (hnodes₁ k n hk).1 rfl) hvalid.1 hvalid.2 hfuel₁ limit device
  rw [htrace₁, hn] at h₂
  refine ⟨n, s₂, t₂, hfirst, hvalid.1, hn, ?_, htrace₂.trans htrace₁, h₂, fun k z hz => ?_⟩
  · rw [putTrace, hs₁]
    exact hs₂
  · obtain rfl | hz := hnodes₂ k z hz
    · exact ⟨none, hmem⟩
    · exact ⟨k, (hnodes₁ k z hz).2⟩

theorem Mirrors.setTrace (h : Mirrors s t L) (ha : ∀ k, a ∉ (t k).toList) (tr : Trace) :
    Mirrors { s with trace := update s.trace a tr } t L := by
  have hmap : ∀ k, (t k).toList.map (update s.trace a tr) = (t k).toList.map s.trace :=
    fun k => List.map_congr_left fun z hz => update_of_ne (ne_of_mem_of_not_mem hz (ha k)) _ _
  exact ⟨⟨h.tree, h.apart, fun k => (hmap k).symm ▸ h.sorted k⟩, fun k => (hmap k).trans (h.list k),
    h.entries, h.own⟩

end PipeTrees

end SBlktrace
