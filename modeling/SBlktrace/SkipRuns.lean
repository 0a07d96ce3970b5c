import SBlktrace.SkipIntervals
import Mathlib

namespace SBlktrace

open SkipList

def span (r : UInt64 × UInt64) : Finset ℕ := Finset.Icc r.1.toNat r.2.toNat

def numbers (ivs : List (UInt64 × UInt64)) : Finset ℕ := ivs.foldr (fun r s => span r ∪ s) ∅

structure Denotes (ivs : List (UInt64 × UInt64)) (s : Finset ℕ) : Prop where
  nonempty : ∀ r ∈ ivs, r.1 ≤ r.2
  apart : ivs.Pairwise (fun r q => Disjoint (span r) (span q))
  union : numbers ivs = s

def SkipOp.onSet (s : Finset ℕ) : SkipOp → Finset ℕ × Option ℤ
  | .insert start stop => (s ∪ span (start, stop), none)
  | .check seq => (s.erase seq.toNat, some (if seq.toNat ∈ s then 1 else 0))

def runOnSet (s : Finset ℕ) : List SkipOp → Finset ℕ × List (Option ℤ)
  | [] => (s, [])
  | op :: ops =>
    let (s, out) := op.onSet s
    let (s, outs) := runOnSet s ops
    (s, out :: outs)

def SkipOp.Admissible (s : Finset ℕ) : SkipOp → Prop
  | .insert start stop => start ≤ stop ∧ Disjoint (span (start, stop)) s
  | .check _ => True

def AdmissibleRun (s : Finset ℕ) : List SkipOp → Prop
  | [] => True
  | op :: ops => op.Admissible s ∧ AdmissibleRun (op.onSet s).1 ops

def wraps (start stop : UInt64) (r : UInt64 × UInt64) : Prop :=
  (r.1 = 0 ∧ stop = r.1 - 1) ∨ (start = 0 ∧ start = r.2 + 1)

/-- The calls that keep the list a set: a check does not fall strictly inside an interval, and
an insertion neither extends an interval around the end of the numbers nor uses up all of them. -/
def SkipOp.Safe (ivs : List (UInt64 × UInt64)) : SkipOp → Prop
  | .check seq => ∀ r ∈ ivs, ¬(r.1 < seq ∧ seq < r.2)
  | .insert start stop =>
    (∀ r, ivs.reverse.find? (adjoins start stop) = some r → ¬wraps start stop r) ∧
      (numbers ivs ∪ span (start, stop)).card < 2 ^ 64

def SkipList.SafeRun (pci : SkipList) : List SkipOp → Prop
  | [] => True
  | op :: ops => (∀ ivs, pci.Holds ivs → op.Safe ivs) ∧
      ∀ r, pci.step op = some r → SafeRun r.1 ops

def SkipList.Denoted (pci : SkipList) (s : Finset ℕ) : Prop :=
  ∃ ivs, pci.Holds ivs ∧ Denotes ivs s ∧
    ∃ skips seqSkips, collectPdiSkips [pci] = some (skips, seqSkips) ∧ seqSkips.toNat = s.card

variable {ivs ivs' cs ds : List (UInt64 × UInt64)} {r : UInt64 × UInt64} {s : Finset ℕ}
  {start stop seq : UInt64} {pci pci' : SkipList}

theorem mem_span {n : ℕ} : n ∈ span r ↔ r.1.toNat ≤ n ∧ n ≤ r.2.toNat := Finset.mem_Icc

theorem mem_numbers {n : ℕ} : n ∈ numbers ivs ↔ ∃ r ∈ ivs, n ∈ span r := by
  induction ivs with
  | nil => simp [numbers]
  | cons r ivs ih =>
    have hcons : numbers (r :: ivs) = span r ∪ numbers ivs := rfl
    rw [hcons, Finset.mem_union, ih]
    simp

namespace Denotes

theorem perm (hd : Denotes ivs s) (hp : ivs.Perm ivs') : Denotes ivs' s := by
  refine ⟨fun r hr => hd.nonempty r (hp.mem_iff.mpr hr), ?_, ?_⟩
  · exact (hp.pairwise_iff (fun hrq => hrq.symm)).mp hd.apart
  · ext n
    rw [← hd.union, mem_numbers, mem_numbers]
    simp only [hp.mem_iff]

theorem cons_iff :
    Denotes (r :: ivs) s ↔ r.1 ≤ r.2 ∧ ∃ t, Denotes ivs t ∧ Disjoint (span r) t ∧ s = span r ∪ t := by
  constructor
  · rintro ⟨hne, hap, hun⟩
    have hap' := List.pairwise_cons.mp hap
    refine ⟨hne r (by simp), numbers ivs, ⟨fun q hq => hne q (by simp [hq]), hap'.2, rfl⟩, ?_,
      hun.symm⟩
    rw [Finset.disjoint_left]
    intro n hn hm
    obtain ⟨q, hq, hnq⟩ := mem_numbers.mp hm
    exact Finset.disjoint_left.mp (hap'.1 q hq) hn hnq
  · rintro ⟨hr, t, ht, hdis, rfl⟩
    refine ⟨?_, List.pairwise_cons.mpr ⟨?_, ht.apart⟩, ?_⟩
    · intro q hq
      rcases List.mem_cons.mp hq with rfl | hq
      · exact hr
      · exact ht.nonempty q hq
    · intro q hq
      apply hdis.mono_right
      intro n hn
      rw [← ht.union, mem_numbers]
      exact ⟨q, hq, hn⟩
    · rw [← ht.union]
      rfl

theorem middle_iff : Denotes (cs ++ r :: ds) s ↔ Denotes (r :: (cs ++ ds)) s :=
  ⟨fun hd => hd.perm List.perm_middle, fun hd => hd.perm List.perm_middle.symm⟩

theorem count (hd : Denotes ivs s) :
    (ivs.map (fun r : UInt64 × UInt64 => r.2 - r.1 + 1)).sum.toNat = s.card % 2 ^ 64 := by
  induction ivs generalizing s with
  | nil =>
    rw [← hd.union]
    rfl
  | cons r ivs ih =>
    obtain ⟨hr, t, ht, hdis, rfl⟩ := cons_iff.mp hd
    rw [List.map_cons, List.sum_cons, UInt64.toNat_add, ih ht, Finset.card_union_of_disjoint hdis,
      span, Nat.card_Icc, UInt64.toNat_add, UInt64.toNat_sub_of_le _ _ hr]
    have := UInt64.le_iff_toNat_le.mp hr
    have hone : (1 : UInt64).toNat = 1 := rfl
    omega

end Denotes

theorem Denotes.denoted (hd : Denotes ivs s) (hi : pci.Holds ivs) :
    pci.Denoted s ↔ s.card < 2 ^ 64 := by
  constructor
  · rintro ⟨ivs', -, -, skips, seqSkips, -, hcard⟩
    rw [← hcard]
    exact seqSkips.toNat_lt
  · intro hlt
    refine ⟨ivs, hi, hd, _, _, hi.collectPdiSkips, ?_⟩
    rw [hd.count, Nat.mod_eq_of_lt hlt]

theorem not_denoted (hi : pci.Holds ivs) (hr : r ∈ ivs) (hlt : r.2 < r.1) : ¬pci.Denoted s := by
  rintro ⟨ivs', hi', hd, -⟩
  obtain rfl := hi.unique hi'
  exact absurd (hd.nonempty r hr) (UInt64.not_le.mpr hlt)

theorem find_last {p : UInt64 × UInt64 → Bool} (hr : p r = true) (hds : ∀ q ∈ ds, p q = false) :
    (cs ++ r :: ds).reverse.find? p = some r := by
  have hnone : ds.reverse.find? p = none := by
    rw [List.find?_eq_none]
    intro q hq
    simp [hds q (List.mem_reverse.mp hq)]
  simp [List.find?_append, hnone, hr]

theorem extend_cases (hw : ¬wraps start stop r) (ha : adjoins start stop r = true) :
    (stop.toNat + 1 = r.1.toNat ∧ extend start stop r = (start, r.2)) ∨
      (r.2.toNat + 1 = start.toNat ∧ extend start stop r = (r.1, stop)) := by
  simp only [wraps, adjoins, Bool.or_eq_true, decide_eq_true_eq, not_or, not_and] at hw ha
  by_cases hs : stop = r.1 - 1
  · left
    refine ⟨?_, by simp [extend, hs]⟩
    have hz : r.1 ≠ 0 := fun hz => hw.1 hz hs
    subst hs
    have hz' : r.1.toNat ≠ 0 := fun h => hz (UInt64.toNat_inj.mp h)
    have hone : (1 : UInt64).toNat = 1 := rfl
    rw [UInt64.toNat_sub_of_le _ _ (by rw [UInt64.le_iff_toNat_le]; omega)]
    omega
  · right
    have hstart := ha.resolve_left hs
    refine ⟨?_, by simp [extend, hs]⟩
    have hz : start.toNat ≠ 0 := fun h => hw.2 (UInt64.toNat_inj.mp h) hstart
    have hlt := r.2.toNat_lt
    have hone : (1 : UInt64).toNat = 1 := rfl
    have hadd : start.toNat = (r.2.toNat + 1) % 2 ^ 64 := by
      rw [hstart, UInt64.toNat_add, hone]
    omega

theorem Denotes.insert_extend (hd : Denotes (cs ++ r :: ds) s) (hle : start ≤ stop)
    (hdis : Disjoint (span (start, stop)) s) (hw : ¬wraps start stop r)
    (ha : adjoins start stop r = true) :
    Denotes (cs ++ extend start stop r :: ds) (s ∪ span (start, stop)) := by
  obtain ⟨hr, t, ht, hrt, rfl⟩ := Denotes.cons_iff.mp (Denotes.middle_iff.mp hd)
  have hle' := UInt64.le_iff_toNat_le.mp hle
  have hr' := UInt64.le_iff_toNat_le.mp hr
  -- the new interval covers the old one and the new range, and nothing else
  have hspan : span (extend start stop r) = span r ∪ span (start, stop) ∧
      (extend start stop r).1 ≤ (extend start stop r).2 := by
    rcases extend_cases hw ha with ⟨heq, hext⟩ | ⟨heq, hext⟩
    · rw [hext]
      refine ⟨?_, UInt64.le_iff_toNat_le.mpr (by dsimp only; omega)⟩
      ext n
      simp only [Finset.mem_union, mem_span]
      omega
    · rw [hext]
      refine ⟨?_, UInt64.le_iff_toNat_le.mpr (by dsimp only; omega)⟩
      ext n
      simp only [Finset.mem_union, mem_span]
      omega
  rw [Denotes.middle_iff, Denotes.cons_iff]
  refine ⟨hspan.2, t, ht, ?_, ?_⟩
  · rw [hspan.1]
    exact Finset.disjoint_union_left.mpr
      ⟨hrt, hdis.mono_right Finset.subset_union_right⟩
  · rw [hspan.1, Finset.union_right_comm]

theorem extend_wraps (hd : Denotes (cs ++ r :: ds) s) (hle : start ≤ stop)
    (hdis : Disjoint (span (start, stop)) s) (hw : wraps start stop r) :
    (extend start stop r).2 < (extend start stop r).1 ∨
      2 ^ 64 ≤ (s ∪ span (start, stop)).card := by
  obtain ⟨hr, t, -, -, rfl⟩ := Denotes.cons_iff.mp (Denotes.middle_iff.mp hd)
  have hapart : ∀ n, start.toNat ≤ n → n ≤ stop.toNat → r.1.toNat ≤ n → ¬n ≤ r.2.toNat := by
    intro n h₁ h₂ h₃ h₄
    exact Finset.disjoint_left.mp hdis (mem_span.mpr ⟨h₁, h₂⟩)
      (Finset.mem_union_left _ (mem_span.mpr ⟨h₃, h₄⟩))
  have hle' := UInt64.le_iff_toNat_le.mp hle
  have hr' := UInt64.le_iff_toNat_le.mp hr
  have hzero : (0 : UInt64).toNat = 0 := rfl
  have hone : (1 : UInt64).toNat = 1 := rfl
  have hsub : (r.1 - 1).toNat = (2 ^ 64 - 1 + r.1.toNat) % 2 ^ 64 := by
    rw [UInt64.toNat_sub, hone]
  have hlt := r.1.toNat_lt
  have hstoplt := stop.toNat_lt
  rcases hw with ⟨hz, hs⟩ | ⟨hz, hs⟩
  · left
    rw [extend, if_pos hs, UInt64.lt_iff_toNat_lt]
    have := hapart start.toNat le_rfl hle'
    rw [hz, hzero] at this
    dsimp only
    omega
  · have hmax : (r.2.toNat + 1) % 2 ^ 64 = 0 := by
      rw [← hone, ← UInt64.toNat_add, ← hs, hz, hzero]
    have hrlt := r.2.toNat_lt
    have hs0 : start.toNat = 0 := by rw [hz, hzero]
    by_cases hsr : stop = r.1 - 1
    · right
      have hstop : stop.toNat = (r.1 - 1).toNat := by rw [hsr]
      have := hapart stop.toNat hle' le_rfl
      have hall : Finset.range (2 ^ 64) ⊆ span r ∪ t ∪ span (start, stop) := by
        intro n hn
        have hn' := Finset.mem_range.mp hn
        simp only [Finset.mem_union, mem_span]
        omega
      calc 2 ^ 64 = (Finset.range (2 ^ 64)).card := (Finset.card_range _).symm
        _ ≤ _ := Finset.card_le_card hall
    · left
      rw [extend, if_neg hsr, UInt64.lt_iff_toNat_lt]
      have := hapart stop.toNat hle' le_rfl
      dsimp only
      omega

theorem Denotes.insert_append (hd : Denotes ivs s) (hle : start ≤ stop)
    (hdis : Disjoint (span (start, stop)) s) :
    Denotes (ivs ++ [(start, stop)]) (s ∪ span (start, stop)) := by
  rw [Denotes.middle_iff, Denotes.cons_iff]
  exact ⟨hle, s, by simpa using hd, hdis, Finset.union_comm _ _⟩

theorem insertSkip_denoted_iff (hd : pci.Denoted s) (hle : start ≤ stop)
    (hdis : Disjoint (span (start, stop)) s) :
    ∃ pci', pci.insertSkip start stop = some pci' ∧
      (pci'.Denoted (s ∪ span (start, stop)) ↔
        ∀ ivs, pci.Holds ivs → (SkipOp.insert start stop).Safe ivs) := by
  obtain ⟨ivs, hi, hds, -⟩ := hd
  have hsafe : (∀ ivs, pci.Holds ivs → (SkipOp.insert start stop).Safe ivs) ↔
      (SkipOp.insert start stop).Safe ivs :=
    ⟨fun h => h ivs hi, fun h ivs' hi' => hi.unique hi' ▸ h⟩
  obtain ⟨pci', hrun, hcase⟩ := hi.insertSkip start stop
  refine ⟨pci', hrun, ?_⟩
  rw [hsafe, SkipOp.Safe, hds.union]
  rcases hcase with ⟨cs, r, es, rfl, ha, hno, hi'⟩ | ⟨hno, hi'⟩
  · have hlast : ∀ q, (cs ++ r :: es).reverse.find? (adjoins start stop) = some q ↔ r = q := by
      intro q
      rw [find_last ha hno, Option.some_inj]
    by_cases hw : wraps start stop r
    · refine iff_of_false ?_ (fun h => h.1 r ((hlast r).mpr rfl) hw)
      rcases extend_wraps hds hle hdis hw with hlt | hfull
      · exact not_denoted hi' (by simp) hlt
      · rintro ⟨-, -, -, -, n, -, hn⟩
        exact absurd (hn ▸ n.toNat_lt) (Nat.not_lt.mpr hfull)
    · rw [(hds.insert_extend hle hdis hw ha).denoted hi']
      refine ⟨fun h => ⟨?_, h⟩, And.right⟩
      intro q hq
      exact (hlast q).mp hq ▸ hw
  · have hnone : ivs.reverse.find? (adjoins start stop) = none := by
      rw [List.find?_eq_none]
      intro q hq
      simp [hno q (List.mem_reverse.mp hq)]
    rw [(hds.insert_append hle hdis).denoted hi', hnone]
    simp

theorem inSkip_iff : inSkip seq r = true ↔ seq.toNat ∈ span r := by
  simp [inSkip, mem_span, UInt64.le_iff_toNat_le]

theorem Denotes.check_trim (hd : Denotes (cs ++ r :: ds) s) (hr : inSkip seq r = true)
    (hend : r.1 = seq ∨ r.2 = seq) : Denotes (cs ++ trim seq r ++ ds) (s.erase seq.toNat) := by
  obtain ⟨hle, t, ht, hdis, rfl⟩ := Denotes.cons_iff.mp (Denotes.middle_iff.mp hd)
  have hseq : seq.toNat ∉ t := Finset.disjoint_left.mp hdis (inSkip_iff.mp hr)
  have hmem := mem_span.mp (inSkip_iff.mp hr)
  have hone : (1 : UInt64).toNat = 1 := rfl
  have herase : ∀ r' : UInt64 × UInt64, span r' = (span r).erase seq.toNat → r'.1 ≤ r'.2 →
      Denotes (cs ++ r' :: ds) ((span r ∪ t).erase seq.toNat) := by
    intro r' hs hle'
    rw [Denotes.middle_iff, Denotes.cons_iff]
    refine ⟨hle', t, ht, ?_, ?_⟩
    · rw [hs]
      exact hdis.mono_left (Finset.erase_subset _ _)
    · rw [hs, Finset.erase_union_distrib, Finset.erase_eq_of_notMem hseq]
  have hlt₁ := r.1.toNat_lt
  have hlt₂ := r.2.toNat_lt
  unfold trim
  by_cases h₁ : r.1 = seq
  · rw [if_pos h₁]
    have hn₁ : r.1.toNat = seq.toNat := by rw [h₁]
    by_cases h₂ : r.2 = seq
    · have hn₂ : r.2.toNat = seq.toNat := by rw [h₂]
      rw [if_pos h₂, List.append_nil]
      have hs : (span r ∪ t).erase seq.toNat = t := by
        ext n
        have hn : n = seq.toNat → n ∉ t := fun h => h ▸ hseq
        simp only [Finset.mem_erase, Finset.mem_union, mem_span]
        have : n ≠ seq.toNat ∧ (r.1.toNat ≤ n ∧ n ≤ r.2.toNat ∨ n ∈ t) ↔ n ∈ t := by
          constructor
          · rintro ⟨hne, h | h⟩
            · omega
            · exact h
          · intro h
            exact ⟨fun he => hn he h, Or.inr h⟩
        exact this
      rw [hs]
      exact ht
    · have hn₂ : r.2.toNat ≠ seq.toNat := fun h => h₂ (UInt64.toNat_inj.mp h)
      rw [if_neg h₂, List.append_assoc, List.singleton_append]
      have hadd : (r.1 + 1).toNat = r.1.toNat + 1 := by
        rw [UInt64.toNat_add, hone]
        omega
      apply herase
      · ext n
        simp only [Finset.mem_erase, mem_span, hadd]
        omega
      · rw [UInt64.le_iff_toNat_le]
        dsimp only
        omega
  · rw [if_neg h₁, List.append_assoc, List.singleton_append]
    have hn₁ : r.1.toNat ≠ seq.toNat := fun h => h₁ (UInt64.toNat_inj.mp h)
    have hn₂ : r.2.toNat = seq.toNat := by rw [hend.resolve_left h₁]
    have hsub : (r.2 - 1).toNat = r.2.toNat - 1 := by
      rw [UInt64.toNat_sub_of_le _ _ (by rw [UInt64.le_iff_toNat_le]; omega), hone]
    apply herase
    · ext n
      simp only [Finset.mem_erase, mem_span, hsub]
      omega
    · rw [UInt64.le_iff_toNat_le]
      dsimp only
      omega

theorem Denotes.mem_iff (hd : Denotes ivs s) :
    seq.toNat ∈ s ↔ ∃ r ∈ ivs, inSkip seq r = true := by
  rw [← hd.union, mem_numbers]
  simp only [inSkip_iff]

theorem check_interior {pci₁ : SkipList} (hd : Denotes (cs ++ r :: ds) s)
    (hr : inSkip seq r = true) (hne : r.1 ≠ seq ∧ r.2 ≠ seq)
    (hi : pci₁.Holds (cs ++ (r.1, seq - 1) :: ds))
    (hins : pci₁.insertSkip (seq + 1) (seq - 1) = some pci') :
    ∃ ivs, pci'.Holds ivs ∧ (seq + 1, seq - 1) ∈ ivs := by
  obtain ⟨hle, t, ht, hdis, rfl⟩ := Denotes.cons_iff.mp (Denotes.middle_iff.mp hd)
  have hseq : seq.toNat ∉ t := Finset.disjoint_left.mp hdis (inSkip_iff.mp hr)
  obtain ⟨pci'', hrun, hcase⟩ := hi.insertSkip (seq + 1) (seq - 1)
  obtain rfl : pci' = pci'' := Option.some.inj (hins.symm.trans hrun)
  rcases hcase with ⟨as, q, bs, heq, ha, -, -⟩ | ⟨-, hi'⟩
  · exfalso
    -- an interval next to `seq` on either side would contain `seq`
    have hq : q ∈ cs ++ (r.1, seq - 1) :: ds := by rw [heq]; simp
    have hedge : q.1 = seq ∨ q.2 = seq := by
      simp only [adjoins, Bool.or_eq_true, decide_eq_true_eq] at ha
      exact ha.imp (fun h => (sub_left_injective h).symm) (fun h => (add_left_injective 1 h).symm)
    have hmem : q ∈ cs ++ ds ∨ q = (r.1, seq - 1) := by
      simp only [List.mem_append, List.mem_cons] at hq ⊢
      tauto
    rcases hmem with hmem | rfl
    · have hqle := UInt64.le_iff_toNat_le.mp (ht.nonempty q hmem)
      apply hseq
      rw [ht.mem_iff]
      refine ⟨q, hmem, ?_⟩
      rw [inSkip_iff, mem_span]
      rcases hedge with rfl | rfl
      · exact ⟨le_rfl, hqle⟩
      · exact ⟨hqle, le_rfl⟩
    · rcases hedge with he | he
      · exact hne.1 he
      · exact absurd he (by simp)
  · exact ⟨_, hi', by simp⟩

theorem checkCurrentSkips_denoted_iff (hd : pci.Denoted s) (seq : UInt64) :
    ∃ pci', pci.checkCurrentSkips seq = some (pci', if seq.toNat ∈ s then 1 else 0) ∧
      (pci'.Denoted (s.erase seq.toNat) ↔
        ∀ ivs, pci.Holds ivs → (SkipOp.check seq).Safe ivs) := by
  obtain ⟨ivs, hi, hds, hcount⟩ := hd
  have hcard : s.card < 2 ^ 64 := (hds.denoted hi).mp ⟨ivs, hi, hds, hcount⟩
  have hsafe : (∀ ivs, pci.Holds ivs → (SkipOp.check seq).Safe ivs) ↔
      (SkipOp.check seq).Safe ivs :=
    ⟨fun h => h ivs hi, fun h ivs' hi' => hi.unique hi' ▸ h⟩
  have hinside : ∀ q : UInt64 × UInt64, q.1 < seq ∧ seq < q.2 → inSkip seq q = true := by
    intro q hq
    rw [inSkip_iff, mem_span]
    exact ⟨(UInt64.lt_iff_toNat_lt.mp hq.1).le, (UInt64.lt_iff_toNat_lt.mp hq.2).le⟩
  rw [hsafe, SkipOp.Safe]
  rcases hi.checkCurrentSkips seq with ⟨hno, hrun⟩ | ⟨cs, r, es, pci', rfl, hr, hrun, hcase⟩
  · have hnot : seq.toNat ∉ s := by
      rw [hds.mem_iff]
      rintro ⟨q, hq, hqs⟩
      rw [hno q hq] at hqs
      exact absurd hqs (by simp)
    refine ⟨pci, by rw [hrun, if_neg hnot], iff_of_true ?_ ?_⟩
    · rw [Finset.erase_eq_of_notMem hnot]
      exact ⟨ivs, hi, hds, hcount⟩
    · intro q hq hin
      have := hinside q hin
      rw [hno q hq] at this
      exact absurd this (by simp)
  · have hmem : seq.toNat ∈ s := hds.mem_iff.mpr ⟨r, by simp, hr⟩
    refine ⟨pci', by rw [hrun, if_pos hmem], ?_⟩
    rcases hcase with ⟨hend, hi'⟩ | ⟨hne, pci₁, hi₁, hins⟩
    · refine iff_of_true ?_ ?_
      · rw [(hds.check_trim hr hend).denoted hi']
        exact lt_of_le_of_lt (Finset.card_le_card (Finset.erase_subset _ _)) hcard
      · intro q hq hin
        obtain ⟨-, t, ht, hdis, rfl⟩ := Denotes.cons_iff.mp (Denotes.middle_iff.mp hds)
        have hsplit : q = r ∨ q ∈ cs ++ es := by
          simp only [List.mem_append, List.mem_cons] at hq ⊢
          tauto
        rcases hsplit with rfl | hq
        · rcases hend with rfl | rfl
          · exact UInt64.lt_irrefl _ hin.1
          · exact UInt64.lt_irrefl _ hin.2
        · exact Finset.disjoint_left.mp hdis (inSkip_iff.mp hr)
            (ht.mem_iff.mpr ⟨q, hq, hinside q hin⟩)
    · have hspan := mem_span.mp (inSkip_iff.mp hr)
      have hlt : r.1 < seq ∧ seq < r.2 := by
        rw [UInt64.lt_iff_toNat_lt, UInt64.lt_iff_toNat_lt]
        have h₁ : r.1.toNat ≠ seq.toNat := fun h => hne.1 (UInt64.toNat_inj.mp h)
        have h₂ : r.2.toNat ≠ seq.toNat := fun h => hne.2 (UInt64.toNat_inj.mp h)
        omega
      obtain ⟨ivs', hi', hcross⟩ := check_interior hds hr hne hi₁ hins
      refine iff_of_false (not_denoted hi' hcross ?_) (fun h => h r (by simp) hlt)
      have h₁ := UInt64.lt_iff_toNat_lt.mp hlt.1
      have h₂ := UInt64.lt_iff_toNat_lt.mp hlt.2
      have hmax := r.2.toNat_lt
      have hone : (1 : UInt64).toNat = 1 := rfl
      rw [UInt64.lt_iff_toNat_lt, UInt64.toNat_add, hone,
        UInt64.toNat_sub_of_le _ _ (by rw [UInt64.le_iff_toNat_le]; omega)]
      omega

theorem step_denoted_iff (hd : pci.Denoted s) (op : SkipOp) (hadm : op.Admissible s) :
    ∃ pci', pci.step op = some (pci', (op.onSet s).2) ∧
      (pci'.Denoted (op.onSet s).1 ↔ ∀ ivs, pci.Holds ivs → op.Safe ivs) := by
  cases op with
  | insert start stop =>
    obtain ⟨pci', hrun, hiff⟩ := insertSkip_denoted_iff hd hadm.1 hadm.2
    exact ⟨pci', by simp [SkipList.step, hrun, SkipOp.onSet], hiff⟩
  | check seq =>
    obtain ⟨pci', hrun, hiff⟩ := checkCurrentSkips_denoted_iff hd seq
    exact ⟨pci', by simp [SkipList.step, hrun, SkipOp.onSet], hiff⟩

/-- Along the run every call returns what it returns on the set, and every list reached stands
for the set reached. -/
def SkipList.DenotedRun (pci : SkipList) (s : Finset ℕ) (ops : List SkipOp) : Prop :=
  ∀ pre, pre <+: ops →
    ∃ pci', pci.run pre = some (pci', (runOnSet s pre).2) ∧ pci'.Denoted (runOnSet s pre).1

theorem denotedRun_cons (hd : pci.Denoted s) {op : SkipOp} {ops : List SkipOp}
    (hrun : pci.step op = some (pci', (op.onSet s).2)) :
    pci.DenotedRun s (op :: ops) ↔ pci'.DenotedRun (op.onSet s).1 ops := by
  constructor
  · intro h pre hpre
    obtain ⟨pci'', hrun', hd'⟩ := h (op :: pre) (List.cons_prefix_cons.mpr ⟨rfl, hpre⟩)
    simp only [SkipList.run, hrun, runOnSet, Option.bind_eq_bind, Option.bind_some,
      Option.bind_eq_some_iff] at hrun'
    obtain ⟨⟨pci₂, outs⟩, hr, heq⟩ := hrun'
    obtain ⟨rfl, hout⟩ := Prod.mk.inj (Option.some.inj heq)
    obtain rfl : outs = _ := (List.cons.inj hout).2
    exact ⟨pci₂, hr, hd'⟩
  · intro h pre hpre
    cases pre with
    | nil => exact ⟨pci, rfl, hd⟩
    | cons op' pre =>
      obtain ⟨rfl, htail⟩ := List.cons_prefix_cons.mp hpre
      obtain ⟨pci'', hrun', hd'⟩ := h pre htail
      exact ⟨pci'', by simp [SkipList.run, hrun, hrun', runOnSet], hd'⟩

theorem denotedRun_iff (hd : pci.Denoted s) (ops : List SkipOp) (hadm : AdmissibleRun s ops) :
    pci.DenotedRun s ops ↔ pci.SafeRun ops := by
  induction ops generalizing pci s with
  | nil =>
    refine iff_of_true ?_ trivial
    intro pre hpre
    obtain rfl := List.prefix_nil.mp hpre
    exact ⟨pci, rfl, hd⟩
  | cons op ops ih =>
    obtain ⟨pci', hrun, hiff⟩ := step_denoted_iff hd op hadm.1
    rw [denotedRun_cons hd hrun, SkipList.SafeRun, ← hiff]
    constructor
    · intro h
      obtain ⟨pci'', hnil, hd'⟩ := h [] List.nil_prefix
      obtain rfl : pci' = pci'' := (Prod.mk.inj (Option.some.inj hnil)).1
      refine ⟨hd', ?_⟩
      intro r hr
      obtain rfl : (pci', (op.onSet s).2) = r := Option.some.inj (hrun.symm.trans hr)
      exact (ih hd' hadm.2).mp h
    · rintro ⟨hd', h⟩
      exact (ih hd' hadm.2).mpr (h _ hrun)

theorem empty_denoted : SkipList.empty.Denoted ∅ := by
  have hd : Denotes [] ∅ := ⟨by simp, List.Pairwise.nil, rfl⟩
  exact (hd.denoted empty_holds).mpr (by simp)

/-- From the empty list, the list stands for the numbers inserted and not checked yet in every
state of a run exactly when every call of the run is safe where it is made. -/
theorem skipList_denotes_iff (ops : List SkipOp) (hadm : AdmissibleRun ∅ ops) :
    SkipList.empty.DenotedRun ∅ ops ↔ SkipList.empty.SafeRun ops :=
  denotedRun_iff empty_denoted ops hadm

theorem skipList_denotes_iff_small :
    AdmissibleRun ∅ [.insert 5 7, .check 5, .check 9, .insert 8 8] ∧
      (SkipList.empty.DenotedRun ∅ [.insert 5 7, .check 5, .check 9, .insert 8 8] ↔
        SkipList.empty.SafeRun [.insert 5 7, .check 5, .check 9, .insert 8 8]) := by
  have hadm : AdmissibleRun ∅ [.insert 5 7, .check 5, .check 9, .insert 8 8] :=
    ⟨⟨by decide, by decide⟩, trivial, trivial, ⟨by decide, by decide⟩, trivial⟩
  exact ⟨hadm, skipList_denotes_iff _ hadm⟩

/-- Checking the middle of `1..3` loses `3`. -/
theorem check_middle_loses_rest :
    ¬∀ ops, AdmissibleRun ∅ ops → SkipList.empty.DenotedRun ∅ ops := by
  intro hall
  have hadm : AdmissibleRun ∅ [.insert 1 3, .check 2] :=
    ⟨⟨by decide, by decide⟩, trivial, trivial⟩
  have hsafe := (denotedRun_iff empty_denoted _ hadm).mp (hall _ hadm)
  obtain ⟨pci', hrun, ⟨cs, r, ds, heq, -⟩ | ⟨-, hi⟩⟩ := empty_holds.insertSkip 1 3
  · simp at heq
  · have hcheck := (hsafe.2 (pci', none) (by simp [SkipList.step, hrun])).1 _ hi
    exact hcheck (1, 3) (by simp) (by decide)

end SBlktrace
