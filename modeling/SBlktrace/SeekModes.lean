import SBlktrace.SeekDistance
import Mathlib

namespace SBlktrace

open RangeTree

/-- `struct mode`: the array as the words of its memory, which hold nothing before they are written. -/
structure SeekMode where
  mostSeeks : Int32
  nmds : ℕ
  modes : Option (List (Option ℕ))

namespace SeekMode

def cleared : SeekMode := ⟨0, 0, none⟩

def realloc (modes : List (Option ℕ)) (n : ℕ) : List (Option ℕ) :=
  modes.take n ++ List.replicate (n - modes.length) none

/-- The last two assignments of `__mode`; nothing comes of a write beyond the memory. -/
def put (nmds : ℕ) (modes : List (Option ℕ)) (sbp : SeekBkt) : Option SeekMode :=
  if nmds < modes.length then some ⟨sbp.nseeks, nmds + 1, some (modes.set nmds (some sbp.sectors))⟩
  else none

def visit (mp : SeekMode) (sbp : SeekBkt) : Option SeekMode :=
  match mp.modes with
  | none => put 0 [none] sbp
  | some modes =>
    if sbp.nseeks > mp.mostSeeks then put 0 modes sbp
    else if sbp.nseeks = mp.mostSeeks then put mp.nmds (realloc modes (mp.nmds + 1)) sbp
    else some mp

def mode : RangeTree SeekBkt → SeekMode → Option SeekMode
  | .nil, mp => some mp
  | .node left sbp right, mp => do
    let mp ← mode left mp
    let mp ← mode right mp
    mp.visit sbp

def entries (mp : SeekMode) : List (Option ℕ) := (mp.modes.getD []).take mp.nmds

end SeekMode

def Seeki.seekiMode (sip : Seeki) : Option SeekMode := SeekMode.mode sip.root .cleared

namespace SeekMode

theorem mode_eq_foldlM (t : RangeTree SeekBkt) (mp : SeekMode) :
    mode t mp = t.postOrder.foldlM visit mp := by
  induction t generalizing mp with
  | nil => rfl
  | node left sbp right ihleft ihright =>
    rw [mode, postOrder, List.foldlM_append, ihleft]
    congr 1
    funext mp
    rw [List.foldlM_append, ihright]
    congr 1
    funext mp
    rw [List.foldlM_cons]
    cases mp.visit sbp with
    | none => rfl
    | some mp => rfl

structure Holds (seen : List SeekBkt) (mp : SeekMode) : Prop where
  bound : ∀ sbp ∈ seen, sbp.nseeks ≤ mp.mostSeeks
  most : ∃ sbp ∈ seen, sbp.nseeks = mp.mostSeeks
  allocated : ∃ modes, mp.modes = some modes ∧ mp.nmds ≤ modes.length
  entries_eq : mp.entries =
    (seen.filter fun sbp => sbp.nseeks = mp.mostSeeks).map fun sbp => some sbp.sectors
  nmds_eq : mp.nmds = (seen.filter fun sbp => sbp.nseeks = mp.mostSeeks).length

theorem put_entries {nmds : ℕ} {modes : List (Option ℕ)} (h : nmds < modes.length) (sbp : SeekBkt) :
    ∃ mp, put nmds modes sbp = some mp ∧ mp.mostSeeks = sbp.nseeks ∧ mp.nmds = nmds + 1 ∧
      (∃ modes, mp.modes = some modes ∧ mp.nmds ≤ modes.length) ∧
      mp.entries = modes.take nmds ++ [some sbp.sectors] := by
  refine ⟨_, if_pos h, rfl, rfl, ⟨_, rfl, ?_⟩, ?_⟩
  · rw [List.length_set]
    exact h
  · change (modes.set nmds (some sbp.sectors)).take (nmds + 1) = _
    rw [List.take_succ_eq_append_getElem (by rwa [List.length_set]), List.getElem_set_self,
      List.take_set_of_le le_rfl]

theorem take_realloc {modes : List (Option ℕ)} {n : ℕ} (h : n ≤ modes.length) :
    (realloc modes (n + 1)).take n = modes.take n ∧ n < (realloc modes (n + 1)).length := by
  constructor
  · rw [realloc, List.take_append_of_le_length (by rw [List.length_take]; omega), List.take_take]
    congr 1
    omega
  · rw [realloc, List.length_append, List.length_take, List.length_replicate]
    omega

section Visit

variable {seen : List SeekBkt} {mp : SeekMode}

theorem visit_first (sbp : SeekBkt) : ∃ mp, cleared.visit sbp = some mp ∧ Holds [sbp] mp := by
  obtain ⟨mp, hput, hmost, hnmds, halloc, hentries⟩ :=
    put_entries (show 0 < [(none : Option ℕ)].length from Nat.zero_lt_one) sbp
  have hself : [sbp].filter (fun sbp => sbp.nseeks = mp.mostSeeks) = [sbp] := by
    rw [List.filter_singleton, hmost, decide_eq_true rfl]
    rfl
  refine ⟨mp, hput, ?_, ⟨sbp, List.mem_cons_self, hmost.symm⟩, halloc, ?_, ?_⟩
  · intro sbp' hsbp'
    rw [List.mem_singleton.mp hsbp', hmost]
    exact Int32.le_refl _
  · rw [hself, hentries]
    rfl
  · rw [hself, hnmds]
    rfl

theorem visit_holds (h : Holds seen mp) (sbp : SeekBkt) :
    ∃ mp', mp.visit sbp = some mp' ∧ Holds (seen ++ [sbp]) mp' := by
  obtain ⟨hbound, ⟨most, hin, hmost⟩, ⟨modes, hmodes, hle⟩, hentries, hnmds⟩ := h
  have hbound' {m : Int32} (hm : mp.mostSeeks ≤ m) (hsbp : sbp.nseeks ≤ m) :
      ∀ sbp' ∈ seen ++ [sbp], sbp'.nseeks ≤ m := by
    intro sbp' hsbp'
    obtain hsbp' | hsbp' := List.mem_append.mp hsbp'
    · exact Int32.le_trans (hbound sbp' hsbp') hm
    · rwa [List.mem_singleton.mp hsbp']
  rw [visit, hmodes]
  by_cases hgt : sbp.nseeks > mp.mostSeeks
  -- the bucket is the only one that was seen that often
  · have hlt : mp.mostSeeks < sbp.nseeks := hgt
    have hpos : 0 < modes.length := by
      have hfilter : most ∈ seen.filter fun sbp => sbp.nseeks = mp.mostSeeks :=
        List.mem_filter.mpr ⟨hin, decide_eq_true hmost⟩
      have := List.length_pos_of_mem hfilter
      omega
    obtain ⟨mp', hput, hmost', hnmds', halloc, hentries'⟩ := put_entries hpos sbp
    have hself : (seen ++ [sbp]).filter (fun sbp => sbp.nseeks = mp'.mostSeeks) = [sbp] := by
      have hnone : seen.filter (fun sbp => sbp.nseeks = mp'.mostSeeks) = [] := by
        apply List.filter_eq_nil_iff.mpr
        intro sbp' hsbp' heq
        have hle' := hbound sbp' hsbp'
        rw [of_decide_eq_true heq, hmost'] at hle'
        exact Int32.lt_irrefl (Int32.lt_of_lt_of_le hlt hle')
      rw [List.filter_append, hnone, List.filter_singleton, hmost', decide_eq_true rfl]
      rfl
    refine ⟨mp', by simpa only [if_pos hgt] using hput, ?_, ?_, halloc, ?_, ?_⟩
    · rw [hmost']
      exact hbound' (Int32.le_of_lt hlt) (Int32.le_refl _)
    · exact ⟨sbp, List.mem_append_right _ List.mem_cons_self, hmost'.symm⟩
    · rw [hself, hentries']
      rfl
    · rw [hself, hnmds']
      rfl
  · have hnot : sbp.nseeks ≤ mp.mostSeeks := Int32.not_lt.mp hgt
    simp only [if_neg hgt]
    by_cases heq : sbp.nseeks = mp.mostSeeks
    · obtain ⟨htake, hlt⟩ := take_realloc hle
      obtain ⟨mp', hput, hmost', hnmds', halloc, hentries'⟩ := put_entries hlt sbp
      have hself : (seen ++ [sbp]).filter (fun sbp => sbp.nseeks = mp'.mostSeeks) =
          seen.filter (fun sbp => sbp.nseeks = mp.mostSeeks) ++ [sbp] := by
        rw [List.filter_append, List.filter_singleton, hmost', heq, decide_eq_true rfl]
        rfl
      refine ⟨mp', by simpa only [if_pos heq] using hput, ?_, ?_, halloc, ?_, ?_⟩
      · rw [hmost']
        exact hbound' (by rw [heq]; exact Int32.le_refl _) (Int32.le_refl _)
      · exact ⟨sbp, List.mem_append_right _ List.mem_cons_self, hmost'.symm⟩
      · rw [hself, hentries', htake, List.map_append, ← hentries, entries, hmodes]
        rfl
      · rw [hself, hnmds', List.length_append, ← hnmds]
        rfl
    · have hself : (seen ++ [sbp]).filter (fun sbp => sbp.nseeks = mp.mostSeeks) =
          seen.filter (fun sbp => sbp.nseeks = mp.mostSeeks) := by
        rw [List.filter_append, List.filter_singleton, decide_eq_false heq]
        exact List.append_nil _
      refine ⟨mp, by simp only [if_neg heq], hbound' (Int32.le_refl _) hnot,
        ⟨most, List.mem_append_left _ hin, hmost⟩, ⟨modes, hmodes, hle⟩, ?_, ?_⟩
      · rw [hself, hentries]
      · rw [hself, hnmds]

theorem foldlM_holds (h : Holds seen mp) (walk : List SeekBkt) :
    ∃ mp', walk.foldlM visit mp = some mp' ∧ Holds (seen ++ walk) mp' := by
  induction walk generalizing seen mp with
  | nil => exact ⟨mp, rfl, by rwa [List.append_nil]⟩
  | cons sbp walk ih =>
    obtain ⟨mp', hvisit, hholds⟩ := visit_holds h sbp
    obtain ⟨mp'', hwalk, hholds'⟩ := ih hholds
    refine ⟨mp'', ?_, ?_⟩
    · rw [List.foldlM_cons, hvisit]
      exact hwalk
    · rwa [List.append_assoc] at hholds'

end Visit

/-- The array is that of the distances which came most often, each once, and the count is theirs. -/
structure ExactModes (dists : List ℕ) (mp : SeekMode) : Prop where
  modes : ∃ modes : List ℕ, modes.Nodup ∧ mp.entries = modes.map some ∧ mp.nmds = modes.length ∧
    ∀ d, d ∈ modes ↔ d ∈ dists ∧ ∀ d' ∈ dists, dists.count d' ≤ dists.count d
  most_seeks : mp.mostSeeks.toInt = ((dists.map fun d => dists.count d).foldr max 0 : ℕ)

theorem foldr_max_eq {l : List ℕ} {m : ℕ} (hm : m ∈ l) (hle : ∀ n ∈ l, n ≤ m) :
    l.foldr max 0 = m :=
  le_antisymm (List.max_le_of_forall_le l m hle) (List.le_max_of_le hm le_rfl)

theorem Holds.exactModes {dists : List ℕ} {t : RangeTree SeekBkt} {mp : SeekMode}
    (h : Holds t.postOrder mp) (hcounts : SeekBkt.Counts dists t) (hlt : dists.length < 2 ^ 31) :
    ExactModes dists mp := by
  have hin {sbp : SeekBkt} : sbp ∈ t.postOrder ↔ sbp ∈ t.toList := t.postOrder_perm.mem_iff
  have htoInt {sbp : SeekBkt} (hsbp : sbp ∈ t.postOrder) :
      sbp.nseeks.toInt = dists.count sbp.sectors := by
    rw [hcounts.nseeks_eq sbp (hin.mp hsbp)]
    exact Int32.toInt_ofNat_of_lt (List.count_le_length.trans_lt hlt)
  have hbucket {d : ℕ} (hd : d ∈ dists) : ∃ sbp ∈ t.postOrder, sbp.sectors = d := by
    obtain ⟨sbp, hsbp, heq⟩ := List.mem_map.mp ((hcounts.mem_iff d).mpr hd)
    exact ⟨sbp, hin.mpr hsbp, heq⟩
  have hdist {sbp : SeekBkt} (hsbp : sbp ∈ t.postOrder) : sbp.sectors ∈ dists :=
    (hcounts.mem_iff _).mp (List.mem_map_of_mem (hin.mp hsbp))
  obtain ⟨most, hmost, heq⟩ := h.most
  have hmostInt : mp.mostSeeks.toInt = dists.count most.sectors := by rw [← heq, htoInt hmost]
  have hmax {d : ℕ} (hd : d ∈ dists) : dists.count d ≤ dists.count most.sectors := by
    obtain ⟨sbp, hsbp, rfl⟩ := hbucket hd
    have hle := Int32.le_iff_toInt_le.mp (h.bound sbp hsbp)
    rw [htoInt hsbp, hmostInt] at hle
    exact Int.ofNat_le.mp hle
  have hmode {sbp : SeekBkt} (hsbp : sbp ∈ t.postOrder) :
      sbp.nseeks = mp.mostSeeks ↔ dists.count sbp.sectors = dists.count most.sectors := by
    rw [← Int32.toInt_inj, htoInt hsbp, hmostInt]
    exact Int.ofNat_inj
  constructor
  · refine ⟨(t.postOrder.filter fun sbp => sbp.nseeks = mp.mostSeeks).map SeekBkt.sectors,
      ?_, ?_, ?_, ?_⟩
    · have hnodup : (t.postOrder.map SeekBkt.sectors).Nodup := by
        rw [(t.postOrder_perm.map _).nodup_iff]
        exact List.pairwise_map.mpr (hcounts.sorted.imp fun hlt => hlt.ne)
      exact hnodup.sublist (List.filter_sublist.map _)
    · rw [h.entries_eq, List.map_map]
      rfl
    · rw [h.nmds_eq, List.length_map]
    · intro d
      rw [List.mem_map]
      constructor
      · rintro ⟨sbp, hsbp, rfl⟩
        obtain ⟨hsbp, hnseeks⟩ := List.mem_filter.mp hsbp
        refine ⟨hdist hsbp, fun d' hd' => ?_⟩
        rw [(hmode hsbp).mp (of_decide_eq_true hnseeks)]
        exact hmax hd'
      · rintro ⟨hd, hmaximal⟩
        obtain ⟨sbp, hsbp, rfl⟩ := hbucket hd
        have hcount := le_antisymm (hmax hd) (hmaximal _ (hdist hmost))
        exact ⟨sbp, List.mem_filter.mpr ⟨hsbp, decide_eq_true ((hmode hsbp).mpr hcount)⟩, rfl⟩
  · rw [hmostInt, foldr_max_eq (List.mem_map_of_mem (hdist hmost))]
    exact List.forall_mem_map.mpr fun d hd => hmax hd

theorem mode_exact {dists : List ℕ} {t : RangeTree SeekBkt} (h : SeekBkt.Counts dists t)
    (hlt : dists.length < 2 ^ 31) : ∃ mp, mode t cleared = some mp ∧ ExactModes dists mp := by
  rw [mode_eq_foldlM]
  cases hwalk : t.postOrder with
  | nil =>
    have hlist : t.toList = [] := List.nil_perm.mp (hwalk ▸ t.postOrder_perm)
    have hdists : dists = [] := by
      apply List.eq_nil_iff_forall_not_mem.mpr
      intro d hd
      have hbucket := (h.mem_iff d).mpr hd
      rw [hlist] at hbucket
      cases hbucket
    subst hdists
    exact ⟨cleared, rfl, ⟨[], List.nodup_nil, rfl, rfl, fun d => iff_of_false List.not_mem_nil
      fun hd => List.not_mem_nil hd.1⟩, rfl⟩
  | cons sbp walk =>
    obtain ⟨mp, hvisit, hfirst⟩ := visit_first sbp
    obtain ⟨mp', hfold, hholds⟩ := foldlM_holds hfirst walk
    refine ⟨mp', ?_, ?_⟩
    · rw [List.foldlM_cons, hvisit]
      exact hfold
    · have hholds' : Holds t.postOrder mp' := by rwa [hwalk]
      exact hholds'.exactModes h hlt

end SeekMode

namespace Seeki

end Seeki

end SBlktrace
