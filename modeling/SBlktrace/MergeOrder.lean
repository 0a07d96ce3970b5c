import SBlktrace.FileMode
import SBlktrace.KWayMerge
import Mathlib

namespace SBlktrace

open Function KWayMerge

def events (file : List BlkIoTrace) : List BlkIoTrace := file.filter (fun b => !b.isNotify)

def notifies (file : List BlkIoTrace) : List BlkIoTrace := file.filter (fun b => b.isNotify)

def timeLe (a b : BlkIoTrace) : Prop := a.time ≤ b.time

def Readable (cpu : ℕ) (file : List BlkIoTrace) : Prop :=
  ∀ b ∈ file, b.checkMagic = true ∧ b.verifyTrace = 0 ∧ b.cpu.toNat = cpu

def unread (fd : Option (List BlkIoTrace)) : List BlkIoTrace := fd.getD []

variable {opts : BlkparseOptions} {cpu i : ℕ} {file : List BlkIoTrace}

theorem Readable.sublist {file' : List BlkIoTrace} (hr : Readable cpu file)
    (hs : ∀ b ∈ file', b ∈ file) : Readable cpu file' :=
  fun b hb => hr b (hs b hb)

theorem primeFrom_spec (rbBatch : ℕ) (hr : Readable cpu file) :
    (primeFrom rbBatch cpu i file).traces ++ events (unread (primeFrom rbBatch cpu i file).fd) =
        events file ∧
      (primeFrom rbBatch cpu i file).notified ++
        notifies (unread (primeFrom rbBatch cpu i file).fd) = notifies file ∧
      (∀ b ∈ unread (primeFrom rbBatch cpu i file).fd, b ∈ file) ∧
      (i < rbBatch → (primeFrom rbBatch cpu i file).traces = [] →
        unread (primeFrom rbBatch cpu i file).fd = []) := by
  induction file generalizing i with
  | nil =>
    simp only [primeFrom, events, notifies, unread]
    split <;> simp
  | cons b file ih =>
    have hfile : Readable cpu file := hr.sublist (fun b hb => by simp [hb])
    obtain ⟨hmagic, hverify, hcpu⟩ := hr b (by simp)
    rw [primeFrom]
    by_cases hi : rbBatch ≤ i
    · rw [if_pos hi]
      refine ⟨rfl, rfl, fun _ h => h, fun h => ?_⟩
      omega
    · rw [if_neg hi, if_neg (by simp [hmagic, hverify]), if_neg (by simp [hcpu])]
      by_cases hn : b.isNotify = true
      · rw [if_pos hn]
        obtain ⟨he, hno, hsub, hempty⟩ := ih (i := i) hfile
        refine ⟨?_, ?_, fun x hx => by simp [hsub x hx], hempty⟩
        · simpa [events, hn] using he
        · simpa [notifies, hn] using hno
      · rw [if_neg hn]
        obtain ⟨he, hno, hsub, -⟩ := ih (i := i + 1) hfile
        refine ⟨?_, ?_, fun x hx => by simp [hsub x hx], fun _ h => by simp at h⟩
        · simpa [events, hn] using he
        · simpa [notifies, hn] using hno

namespace MsStream

def key (msp : MsStream) : ℕ × ℕ := (msp.pdi, msp.cpu)

def pending (msp : MsStream) : List BlkIoTrace := msp.first :: msp.rest ++ events (unread msp.fd)

def pendingNotes (msp : MsStream) : List BlkIoTrace := notifies (unread msp.fd)

end MsStream

def headLe (a b : MsStream) : Prop := msPeekTime a ≤ msPeekTime b

variable {msp : MsStream} {l : List MsStream}

theorem headLe_trans {a b c : MsStream} (hab : headLe a b) (hbc : headLe b c) : headLe a c := by
  unfold headLe at *
  rw [UInt64.le_iff_toNat_le] at *
  omega

theorem headLe_of_lt {a b : MsStream} (hab : msPeekTime a < msPeekTime b) : headLe a b := by
  unfold headLe
  rw [UInt64.le_iff_toNat_le]
  rw [UInt64.lt_iff_toNat_lt] at hab
  omega

theorem headLe_of_not_lt {a b : MsStream} (hab : ¬msPeekTime a < msPeekTime b) : headLe b a := by
  unfold headLe
  rw [UInt64.le_iff_toNat_le]
  rw [UInt64.lt_iff_toNat_lt] at hab
  omega

theorem sortAfter_perm : (sortAfter msp l).Perm (msp :: l) := by
  induction l with
  | nil => exact List.Perm.refl _
  | cons next l ih =>
    rw [sortAfter]
    split
    · exact (ih.cons next).trans (List.Perm.swap msp next l)
    · exact List.Perm.refl _

theorem sortAfter_sorted (hs : l.Pairwise headLe) : (sortAfter msp l).Pairwise headLe := by
  induction l with
  | nil => simp [sortAfter]
  | cons next l ih =>
    obtain ⟨hnext, hl⟩ := List.pairwise_cons.mp hs
    rw [sortAfter]
    split
    · next hlt =>
      refine List.pairwise_cons.mpr ⟨?_, ih hl⟩
      intro x hx
      rcases List.mem_cons.mp (sortAfter_perm.mem_iff.mp hx) with rfl | hx
      · exact headLe_of_lt hlt
      · exact hnext x hx
    · next hlt =>
      refine List.pairwise_cons.mpr ⟨?_, hs⟩
      intro x hx
      rcases List.mem_cons.mp hx with rfl | hx
      · exact headLe_of_not_lt hlt
      · exact headLe_trans (headLe_of_not_lt hlt) (hnext x hx)

theorem msSort_perm : (msSort msp l).Perm (msp :: l) := by
  cases l with
  | nil => exact List.Perm.refl _
  | cons head l =>
    rw [msSort]
    split
    · exact List.Perm.refl _
    · exact (sortAfter_perm.cons head).trans (List.Perm.swap msp head l)

theorem msSort_sorted (hs : l.Pairwise headLe) : (msSort msp l).Pairwise headLe := by
  cases l with
  | nil => simp [msSort]
  | cons head l =>
    obtain ⟨hhead, hl⟩ := List.pairwise_cons.mp hs
    rw [msSort]
    split
    · next hlt =>
      refine List.pairwise_cons.mpr ⟨?_, hs⟩
      intro x hx
      rcases List.mem_cons.mp hx with rfl | hx
      · exact headLe_of_lt hlt
      · exact headLe_trans (headLe_of_lt hlt) (hhead x hx)
    · next hlt =>
      refine List.pairwise_cons.mpr ⟨?_, sortAfter_sorted hl⟩
      intro x hx
      rcases List.mem_cons.mp (sortAfter_perm.mem_iff.mp hx) with rfl | hx
      · exact headLe_of_not_lt hlt
      · exact hhead x hx

theorem msResort_perm : (msResort msp l).Perm (msp :: l) := by
  cases l with
  | nil => exact List.Perm.refl _
  | cons next l =>
    rw [msResort]
    split
    · exact msSort_perm
    · exact List.Perm.refl _

theorem msResort_sorted (hs : l.Pairwise headLe) : (msResort msp l).Pairwise headLe := by
  cases l with
  | nil => simp [msResort]
  | cons next l =>
    rw [msResort]
    split
    · exact msSort_sorted hs
    · next hgt =>
      refine List.pairwise_cons.mpr ⟨?_, hs⟩
      intro x hx
      rcases List.mem_cons.mp hx with rfl | hx
      · exact headLe_of_not_lt hgt
      · exact headLe_trans (headLe_of_not_lt hgt) ((List.pairwise_cons.mp hs).1 x hx)

structure Holding (l : List MsStream) (s n : ℕ × ℕ → List BlkIoTrace) : Prop where
  distinct : (l.map MsStream.key).Nodup
  pending : ∀ msp ∈ l, s msp.key = msp.pending ∧ n msp.key = msp.pendingNotes
  readable : ∀ msp ∈ l, Readable msp.cpu (unread msp.fd)
  other : ∀ k, k ∉ l.map MsStream.key → s k = [] ∧ n k = []

namespace Holding

variable {l' : List MsStream} {s n : ℕ × ℕ → List BlkIoTrace}

theorem perm (hh : Holding l s n) (hp : l.Perm l') : Holding l' s n := by
  have hkeys := hp.map MsStream.key
  refine ⟨hkeys.nodup_iff.mp hh.distinct, ?_, ?_, ?_⟩
  · exact fun msp hm => hh.pending msp (hp.mem_iff.mpr hm)
  · exact fun msp hm => hh.readable msp (hp.mem_iff.mpr hm)
  · exact fun k hk => hh.other k (fun h => hk (hkeys.mem_iff.mp h))

theorem replace (hh : Holding (msp :: l) s n) (msp' : MsStream) (hkey : msp'.key = msp.key)
    (hr : Readable msp'.cpu (unread msp'.fd)) :
    Holding (msp' :: l) (update s msp.key msp'.pending) (update n msp.key msp'.pendingNotes) := by
  have hnot : msp.key ∉ l.map MsStream.key := (List.nodup_cons.mp hh.distinct).1
  refine ⟨?_, ?_, ?_, ?_⟩
  · simpa [hkey] using hh.distinct
  · intro x hx
    rcases List.mem_cons.mp hx with rfl | hx
    · simp [hkey]
    · have hne : x.key ≠ msp.key := fun h => hnot (h ▸ List.mem_map_of_mem hx)
      rw [update_of_ne hne, update_of_ne hne]
      exact hh.pending x (by simp [hx])
  · intro x hx
    rcases List.mem_cons.mp hx with rfl | hx
    · exact hr
    · exact hh.readable x (by simp [hx])
  · intro k hk
    simp only [List.map_cons, List.mem_cons, hkey, not_or] at hk
    rw [update_of_ne hk.1, update_of_ne hk.1]
    exact hh.other k (by simpa using hk)

theorem drop (hh : Holding (msp :: l) s n) :
    Holding l (update s msp.key []) (update n msp.key []) := by
  have hnot : msp.key ∉ l.map MsStream.key := (List.nodup_cons.mp hh.distinct).1
  refine ⟨(List.nodup_cons.mp hh.distinct).2, ?_, ?_, ?_⟩
  · intro x hx
    have hne : x.key ≠ msp.key := fun h => hnot (h ▸ List.mem_map_of_mem hx)
    rw [update_of_ne hne, update_of_ne hne]
    exact hh.pending x (by simp [hx])
  · exact fun x hx => hh.readable x (by simp [hx])
  · intro k hk
    by_cases hkk : k = msp.key
    · simp [hkk]
    · rw [update_of_ne hkk, update_of_ne hkk]
      exact hh.other k (by simpa [hkk] using hk)

end Holding

def size (l : List MsStream) : ℕ := (l.map (fun msp => msp.pending.length)).sum

theorem size_perm {l' : List MsStream} (hp : l.Perm l') : size l = size l' :=
  (hp.map _).sum_eq

theorem msPrime_spec (fd : Option (List BlkIoTrace)) (hb : 1 ≤ opts.rbBatch)
    (hr : Readable cpu (unread fd)) :
    (msPrime opts cpu fd).traces ++ events (unread (msPrime opts cpu fd).fd) =
        events (unread fd) ∧
      (msPrime opts cpu fd).notified ++ notifies (unread (msPrime opts cpu fd).fd) =
        notifies (unread fd) ∧
      Readable cpu (unread (msPrime opts cpu fd).fd) ∧
      ((msPrime opts cpu fd).traces = [] → unread (msPrime opts cpu fd).fd = []) := by
  cases fd with
  | none => exact ⟨rfl, rfl, hr, fun _ => rfl⟩
  | some file =>
    obtain ⟨he, hn, hsub, hempty⟩ := primeFrom_spec (i := 0) opts.rbBatch hr
    exact ⟨he, hn, hr.sublist hsub, hempty hb⟩

theorem msDeq_spec {s n : ℕ × ℕ → List BlkIoTrace} (hb : 1 ≤ opts.rbBatch)
    (hh : Holding (msp :: l) s n) (hs : (msp :: l).Pairwise headLe) :
    ∃ tail notes ns, s msp.key = msp.first :: tail ∧ n msp.key = notes ++ ns ∧
      (msDeq opts msp l).2 = notes.map (Handed.notify msp.pdi msp.cpu) ∧
      Holding (msDeq opts msp l).1 (update s msp.key tail) (update n msp.key ns) ∧
      (msDeq opts msp l).1.Pairwise headLe ∧
      size (msDeq opts msp l).1 < size (msp :: l) := by
  have hl := (List.pairwise_cons.mp hs).2
  have hr := hh.readable msp (by simp)
  obtain ⟨hsk, hnk⟩ := hh.pending msp (by simp)
  cases hrest : msp.rest with
  | cons t ts =>
    have hdeq : msDeq opts msp l = (msResort { msp with first := t, rest := ts } l, []) := by
      simp [msDeq, hrest]
    have hpend : msp.pending =
        msp.first :: MsStream.pending { msp with first := t, rest := ts } := by
      simp [MsStream.pending, hrest]
    have hh' := hh.replace { msp with first := t, rest := ts } rfl hr
    refine ⟨_, [], n msp.key, hsk.trans hpend, rfl, ?_, ?_, ?_, ?_⟩
    · rw [hdeq]
      rfl
    · rw [hdeq]
      have hsame : update n msp.key (n msp.key) =
          update n msp.key (MsStream.pendingNotes { msp with first := t, rest := ts }) := by
        rw [hnk]
        rfl
      rw [hsame]
      exact hh'.perm msResort_perm.symm
    · rw [hdeq]
      exact msResort_sorted hl
    · rw [hdeq, size_perm msResort_perm]
      simp [size, hpend]
  | nil =>
    obtain ⟨he, hno, hr', hempty⟩ := msPrime_spec msp.fd hb hr
    have hpend : msp.pending = msp.first :: events (unread msp.fd) := by
      simp [MsStream.pending, hrest]
    cases htr : (msPrime opts msp.cpu msp.fd).traces with
    | nil =>
      have hdeq : msDeq opts msp l =
          (l, (msPrime opts msp.cpu msp.fd).notified.map (Handed.notify msp.pdi msp.cpu)) := by
        simp [msDeq, hrest, htr]
      rw [htr, hempty htr] at he
      rw [hempty htr] at hno
      refine ⟨[], (msPrime opts msp.cpu msp.fd).notified, [], ?_, ?_, ?_, ?_, ?_, ?_⟩
      · rw [hsk, hpend, ← he]
        rfl
      · rw [hnk, MsStream.pendingNotes, ← hno]
        rfl
      · rw [hdeq]
      · rw [hdeq]
        exact hh.drop
      · rw [hdeq]
        exact hl
      · rw [hdeq]
        simp [size, hpend]
    | cons t ts =>
      have hdeq : msDeq opts msp l =
          (msResort { msp with first := t, rest := ts, fd := (msPrime opts msp.cpu msp.fd).fd } l,
            (msPrime opts msp.cpu msp.fd).notified.map (Handed.notify msp.pdi msp.cpu)) := by
        simp [msDeq, hrest, htr]
      have hpend' : events (unread msp.fd) = MsStream.pending
          { msp with first := t, rest := ts, fd := (msPrime opts msp.cpu msp.fd).fd } := by
        rw [← he, htr]
        rfl
      have hh' := hh.replace
        { msp with first := t, rest := ts, fd := (msPrime opts msp.cpu msp.fd).fd } rfl hr'
      refine ⟨_, (msPrime opts msp.cpu msp.fd).notified,
        notifies (unread (msPrime opts msp.cpu msp.fd).fd), hsk.trans (hpend' ▸ hpend), ?_, ?_, ?_,
        ?_, ?_⟩
      · rw [hnk, MsStream.pendingNotes, hno]
      · rw [hdeq]
      · rw [hdeq]
        exact hh'.perm msResort_perm.symm
      · rw [hdeq]
        exact msResort_sorted hl
      · rw [hdeq, size_perm msResort_perm]
        simp [size, hpend, hpend']

def within (opts : BlkparseOptions) (genesisTime : UInt64) (b : BlkIoTrace) : Bool :=
  (b.relative genesisTime).time ≤ opts.stopwatchEnd

def report (opts : BlkparseOptions) (genesisTime : UInt64) (p : (ℕ × ℕ) × BlkIoTrace) : Handed :=
  .trace p.1.1 p.1.2 (p.2.relative genesisTime)
    ((p.2.relative genesisTime).actMasked opts &&
      (p.2.relative genesisTime).time ≥ opts.stopwatchStart)

def Handed.isTrace : Handed → Bool
  | .notify _ _ _ => false
  | .trace _ _ _ _ => true

def notesOf (k : ℕ × ℕ) (log : List Handed) : List BlkIoTrace :=
  log.filterMap (fun
    | .notify pdi cpu bit => if (pdi, cpu) = k then some bit else none
    | .trace _ _ _ _ => none)

theorem notesOf_notes (k : ℕ × ℕ) (pdi cpu : ℕ) (notes : List BlkIoTrace) :
    notesOf k (notes.map (Handed.notify pdi cpu)) = if (pdi, cpu) = k then notes else [] := by
  unfold notesOf
  rw [List.filterMap_map]
  by_cases hk : (pdi, cpu) = k
  · simp [hk]
  · simp [hk]

theorem notesOf_append (k : ℕ × ℕ) (log log' : List Handed) :
    notesOf k (log ++ log') = notesOf k log ++ notesOf k log' := List.filterMap_append ..

theorem notesOf_handled (k : ℕ × ℕ) (genesisTime : UInt64) (bit : BlkIoTrace)
    (notes : List BlkIoTrace) (log : List Handed) :
    notesOf k (report opts genesisTime (msp.key, bit) ::
      notes.map (Handed.notify msp.pdi msp.cpu) ++ log) =
        (if msp.key = k then notes else []) ++ notesOf k log := by
  rw [List.cons_append, ← List.singleton_append, notesOf_append, notesOf_append, notesOf_notes]
  rfl

theorem filter_notes (pdi cpu : ℕ) (notes : List BlkIoTrace) :
    (notes.map (Handed.notify pdi cpu)).filter Handed.isTrace = [] := by
  rw [List.filter_eq_nil_iff]
  intro h hm
  obtain ⟨b, -, rfl⟩ := List.mem_map.mp hm
  simp [Handed.isTrace]

/-- The log of a run: a merge of the streams up to the first trace past the stopwatch's end, and
notify records of each stream in order, all of them unless the run stops early. -/
structure LogOf (opts : BlkparseOptions) (genesisTime : UInt64) (s n : ℕ × ℕ → List BlkIoTrace)
    (full : List ((ℕ × ℕ) × BlkIoTrace)) (log : List Handed) : Prop where
  merged : Merged timeLe s full
  traces : log.filter Handed.isTrace =
    (full.takeWhile (fun p => within opts genesisTime p.2)).map (report opts genesisTime)
  notes : ∀ k, notesOf k log <+: n k
  allNotes : (∀ p ∈ full, within opts genesisTime p.2) → ∀ k, notesOf k log = n k

theorem FileMode.run_spec {s n : ℕ × ℕ → List BlkIoTrace} (hb : 1 ≤ opts.rbBatch) (st : FileMode)
    (hh : Holding st.msHead s n) (hs : st.msHead.Pairwise headLe) :
    ∃ st' full log, st.run opts = some st' ∧ st'.log = st.log ++ log ∧
      LogOf opts st.genesisTime s n full log := by
  induction hm : size st.msHead using Nat.strong_induction_on generalizing st s n with
  | _ m ih =>
    cases hhead : st.msHead with
    | nil =>
      rw [hhead] at hh
      have hnone : ∀ k, s k = [] ∧ n k = [] := fun k => hh.other k (by simp)
      refine ⟨st, [], [], by rw [FileMode.run, hhead], by simp, ?_⟩
      refine ⟨Merged.nil (fun k => (hnone k).1), rfl, fun k => by simp [notesOf], fun _ k => ?_⟩
      simp [notesOf, (hnone k).2]
    | cons msp l =>
      rw [hhead] at hh hs hm
      obtain ⟨tail, notes, ns, hsk, hnk, hnotes, hh', hs', hlt⟩ := msDeq_spec hb hh hs
      have hleast : ∀ k' b bs, s k' = b :: bs → timeLe msp.first b := by
        intro k' b bs hk'
        by_cases hmem : k' ∈ (msp :: l).map MsStream.key
        · obtain ⟨x, hx, rfl⟩ := List.mem_map.mp hmem
          have hfirst : x.first = b := by
            have hp := (hh.pending x hx).1.symm.trans hk'
            exact (List.cons.inj hp).1
          rcases List.mem_cons.mp hx with rfl | hxl
          · rw [← hfirst]
            exact UInt64.le_refl _
          · rw [← hfirst]
            exact (List.pairwise_cons.mp hs).1 x hxl
        · rw [(hh.other k' hmem).1] at hk'
          exact absurd hk' (by simp)
      -- the run from the state after this trace, whether or not it is made
      obtain ⟨st', full, log, hrun, hlog, hof⟩ := ih _ (hm ▸ hlt)
        ⟨(msDeq opts msp l).1, st.genesisTime, st.log ++ report opts st.genesisTime
          (msp.key, msp.first) :: (msDeq opts msp l).2⟩ hh' hs' rfl
      have hmerged : Merged timeLe s ((msp.key, msp.first) :: full) :=
        Merged.cons hsk hleast hof.merged
      by_cases hw : within opts st.genesisTime msp.first = true
      · refine ⟨st', (msp.key, msp.first) :: full,
          report opts st.genesisTime (msp.key, msp.first) :: (msDeq opts msp l).2 ++ log, ?_, ?_,
          hmerged, ?_, ?_, ?_⟩
        · rw [FileMode.run, hhead]
          have hle : ¬(msp.first.relative st.genesisTime).time > opts.stopwatchEnd := by
            simpa [within, UInt64.not_lt] using hw
          simp only [FileMode.handle, if_neg hle]
          exact hrun
        · rw [hlog, List.append_assoc]
        · rw [List.takeWhile_cons, if_pos hw, List.map_cons, ← hof.traces, hnotes,
            List.cons_append, List.filter_cons_of_pos rfl, List.filter_append, filter_notes,
            List.nil_append]
        · intro k
          rw [hnotes, notesOf_handled]
          have hprefix := hof.notes k
          by_cases hk : msp.key = k
          · subst hk
            rw [update_self] at hprefix
            rw [if_pos rfl, hnk]
            exact (List.prefix_append_right_inj notes).mpr hprefix
          · rw [update_of_ne (Ne.symm hk)] at hprefix
            rwa [if_neg hk]
        · intro hall k
          rw [hnotes, notesOf_handled,
            hof.allNotes (fun p hp => hall p (List.mem_cons_of_mem _ hp)) k]
          by_cases hk : msp.key = k
          · subst hk
            rw [update_self, if_pos rfl, hnk]
          · rw [update_of_ne (Ne.symm hk), if_neg hk, List.nil_append]
      · refine ⟨st, (msp.key, msp.first) :: full, [], ?_, by simp, hmerged, ?_, ?_, ?_⟩
        · rw [FileMode.run, hhead]
          have hgt : (msp.first.relative st.genesisTime).time > opts.stopwatchEnd := by
            simpa [within, UInt64.not_le] using hw
          simp only [FileMode.handle, if_pos hgt]
        · rw [List.takeWhile_cons, if_neg hw]
          rfl
        · exact fun k => List.nil_prefix
        · exact fun hall => absurd (hall (msp.key, msp.first) (by simp)) hw

end SBlktrace
