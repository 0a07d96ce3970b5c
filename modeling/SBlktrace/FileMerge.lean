import SBlktrace.MergeOrder
import Mathlib

namespace SBlktrace

open Function KWayMerge

def fileAt (devices : List (List (List BlkIoTrace))) (k : ℕ × ℕ) : List BlkIoTrace :=
  ((devices[k.1]?.getD [])[k.2]?).getD []

structure Started (st : FileMode) (s n : ℕ × ℕ → List BlkIoTrace) : Prop where
  holding : ∃ ns, Holding st.msHead s ns ∧ ∀ k, notesOf k st.log ++ ns k = n k
  sorted : st.msHead.Pairwise headLe
  noTraces : st.log.filter Handed.isTrace = []

variable {opts : BlkparseOptions} {s n : ℕ × ℕ → List BlkIoTrace} {st : FileMode}

theorem Holding.cons {l : List MsStream} (hh : Holding l s n) (msp : MsStream)
    (hs : s msp.key = []) (hr : Readable msp.cpu (unread msp.fd)) :
    Holding (msp :: l) (update s msp.key msp.pending) (update n msp.key msp.pendingNotes) := by
  have hnot : msp.key ∉ l.map MsStream.key := by
    intro hm
    obtain ⟨x, hx, hk⟩ := List.mem_map.mp hm
    have hp := (hh.pending x hx).1
    rw [hk, hs] at hp
    simp [MsStream.pending] at hp
  refine ⟨?_, ?_, ?_, ?_⟩
  · rw [List.map_cons, List.nodup_cons]
    exact ⟨hnot, hh.distinct⟩
  · intro x hx
    rcases List.mem_cons.mp hx with rfl | hx
    · simp
    · have hne : x.key ≠ msp.key := fun h => hnot (h ▸ List.mem_map_of_mem hx)
      rw [update_of_ne hne, update_of_ne hne]
      exact hh.pending x hx
  · intro x hx
    rcases List.mem_cons.mp hx with rfl | hx
    · exact hr
    · exact hh.readable x hx
  · intro k hk
    simp only [List.map_cons, List.mem_cons, not_or] at hk
    rw [update_of_ne hk.1, update_of_ne hk.1]
    exact hh.other k hk.2

theorem Started.setupFile (hst : Started st s n) (hb : 1 ≤ opts.rbBatch) {pdi cpu : ℕ}
    {file : List BlkIoTrace} (hs : s (pdi, cpu) = []) (hn : n (pdi, cpu) = [])
    (hr : Readable cpu file) :
    Started (st.setupFile opts pdi cpu file) (update s (pdi, cpu) (events file))
      (update n (pdi, cpu) (notifies file)) := by
  obtain ⟨ns, hh, hns⟩ := hst.holding
  have hnone : notesOf (pdi, cpu) st.log = [] ∧ ns (pdi, cpu) = [] :=
    List.append_eq_nil_iff.mp ((hns (pdi, cpu)).trans hn)
  by_cases hfile : file = []
  · subst hfile
    have hsame : update s (pdi, cpu) (events []) = s := by
      rw [show events [] = s (pdi, cpu) from hs.symm, update_eq_self]
    have hsame' : update n (pdi, cpu) (notifies []) = n := by
      rw [show notifies [] = n (pdi, cpu) from hn.symm, update_eq_self]
    rw [hsame, hsame', FileMode.setupFile, if_pos rfl]
    exact hst
  · obtain ⟨he, hno, hr', hempty⟩ := msPrime_spec (some file) hb hr
    have hnotes : ∀ k, notesOf k (st.log ++ (msPrime opts cpu (some file)).notified.map
        (Handed.notify pdi cpu)) = notesOf k st.log ++
          if (pdi, cpu) = k then (msPrime opts cpu (some file)).notified else [] := by
      intro k
      rw [notesOf_append, notesOf_notes]
    have htraces : (st.log ++ (msPrime opts cpu (some file)).notified.map
        (Handed.notify pdi cpu)).filter Handed.isTrace = [] := by
      rw [List.filter_append, hst.noTraces, filter_notes, List.nil_append]
    have htotal : ∀ rest, (msPrime opts cpu (some file)).notified ++ rest = notifies file →
        ∀ k, notesOf k (st.log ++ (msPrime opts cpu (some file)).notified.map
          (Handed.notify pdi cpu)) ++ update ns (pdi, cpu) rest k =
            update n (pdi, cpu) (notifies file) k := by
      intro rest hrest k
      rw [hnotes]
      by_cases hk : (pdi, cpu) = k
      · subst hk
        rw [if_pos rfl, hnone.1, update_self, update_self, List.nil_append, hrest]
      · rw [if_neg hk, update_of_ne (Ne.symm hk), update_of_ne (Ne.symm hk), List.append_nil, hns]
    cases htr : (msPrime opts cpu (some file)).traces with
    | nil =>
      rw [htr, hempty htr] at he
      rw [hempty htr] at hno
      have hsame : update s (pdi, cpu) (events file) = s := by
        have h : events file = s (pdi, cpu) := by
          rw [hs]
          exact he.symm
        rw [h, update_eq_self]
      have hsame' : update ns (pdi, cpu) [] = ns := by
        rw [← hnone.2, update_eq_self]
      rw [hsame, FileMode.setupFile, if_neg hfile]
      simp only [htr]
      refine ⟨⟨ns, hh, ?_⟩, hst.sorted, htraces⟩
      intro k
      rw [← htotal [] hno k, hsame']
    | cons t ts =>
      have hpend : MsStream.pending ⟨pdi, cpu, t, ts, (msPrime opts cpu (some file)).fd⟩ =
          events file := by
        rw [← show _ = events file from he, htr]
        rfl
      have hh' := (hh.cons ⟨pdi, cpu, t, ts, (msPrime opts cpu (some file)).fd⟩ hs hr').perm
        msSort_perm.symm
      rw [hpend] at hh'
      rw [FileMode.setupFile, if_neg hfile]
      simp only [htr]
      exact ⟨⟨_, hh', htotal _ hno⟩, msSort_sorted hst.sorted, htraces⟩

def withDevice (f : List BlkIoTrace → List BlkIoTrace) (s : ℕ × ℕ → List BlkIoTrace)
    (pdi cpu : ℕ) (files : List (List BlkIoTrace)) (k : ℕ × ℕ) : List BlkIoTrace :=
  if k.1 = pdi ∧ cpu ≤ k.2 then f ((files[k.2 - cpu]?).getD []) else s k

theorem withDevice_cons (f : List BlkIoTrace → List BlkIoTrace) (pdi cpu : ℕ)
    (file : List BlkIoTrace) (files : List (List BlkIoTrace)) :
    withDevice f (update s (pdi, cpu) (f file)) pdi (cpu + 1) files =
      withDevice f s pdi cpu (file :: files) := by
  funext k
  obtain ⟨d, c⟩ := k
  unfold withDevice
  by_cases hc : d = pdi ∧ cpu + 1 ≤ c
  · obtain ⟨m, rfl⟩ : ∃ m, c = cpu + (m + 1) := ⟨c - cpu - 1, by omega⟩
    rw [if_pos hc, if_pos ⟨hc.1, by omega⟩]
    change f (files[cpu + (m + 1) - (cpu + 1)]?.getD []) =
      f ((file :: files)[cpu + (m + 1) - cpu]?.getD [])
    rw [show cpu + (m + 1) - (cpu + 1) = m by omega, show cpu + (m + 1) - cpu = m + 1 by omega,
      List.getElem?_cons_succ]
  · rw [if_neg hc]
    by_cases he : (d, c) = (pdi, cpu)
    · obtain ⟨rfl, rfl⟩ := Prod.mk.inj he
      simp
    · rw [update_of_ne he, if_neg]
      rintro ⟨rfl, hle⟩
      dsimp only at hle hc
      apply hc
      refine ⟨rfl, ?_⟩
      have hne : c ≠ cpu := fun h => he (h ▸ rfl)
      omega

theorem Started.setupDevice (hst : Started st s n) (hb : 1 ≤ opts.rbBatch) (pdi cpu : ℕ)
    (files : List (List BlkIoTrace)) (hs : ∀ c, cpu ≤ c → s (pdi, c) = [] ∧ n (pdi, c) = [])
    (hr : ∀ i file, files[i]? = some file → Readable (cpu + i) file) :
    Started (st.setupDevice opts pdi cpu files) (withDevice events s pdi cpu files)
      (withDevice notifies n pdi cpu files) := by
  induction files generalizing st s n cpu with
  | nil =>
    have hsame : withDevice events s pdi cpu [] = s := by
      funext k
      unfold withDevice
      split
      · next h =>
        rw [show k = (pdi, k.2) from Prod.ext h.1 rfl, (hs k.2 h.2).1]
        rfl
      · rfl
    have hsame' : withDevice notifies n pdi cpu [] = n := by
      funext k
      unfold withDevice
      split
      · next h =>
        rw [show k = (pdi, k.2) from Prod.ext h.1 rfl, (hs k.2 h.2).2]
        rfl
      · rfl
    rw [hsame, hsame']
    exact hst
  | cons file files ih =>
    have hst' := hst.setupFile hb (hs cpu le_rfl).1 (hs cpu le_rfl).2 (hr 0 file rfl)
    have hrest := ih hst' (cpu + 1) ?_ ?_
    · rw [withDevice_cons, withDevice_cons] at hrest
      exact hrest
    · intro c hc
      have hne : (pdi, c) ≠ (pdi, cpu) := fun h => by
        have := (Prod.mk.inj h).2
        omega
      rw [update_of_ne hne, update_of_ne hne]
      exact hs c (by omega)
    · intro i f hf
      rw [Nat.add_assoc, Nat.add_comm 1]
      exact hr (i + 1) f hf

def withDevices (f : List BlkIoTrace → List BlkIoTrace) (s : ℕ × ℕ → List BlkIoTrace)
    (pdi : ℕ) (devices : List (List (List BlkIoTrace))) (k : ℕ × ℕ) : List BlkIoTrace :=
  if pdi ≤ k.1 then f (fileAt devices (k.1 - pdi, k.2)) else s k

theorem withDevices_cons (f : List BlkIoTrace → List BlkIoTrace) (pdi : ℕ)
    (files : List (List BlkIoTrace)) (devices : List (List (List BlkIoTrace))) :
    withDevices f (withDevice f s pdi 0 files) (pdi + 1) devices =
      withDevices f s pdi (files :: devices) := by
  funext k
  obtain ⟨d, c⟩ := k
  unfold withDevices withDevice
  dsimp only
  by_cases hd : pdi + 1 ≤ d
  · obtain ⟨m, rfl⟩ : ∃ m, d = pdi + (m + 1) := ⟨d - pdi - 1, by omega⟩
    rw [if_pos hd, if_pos (by omega), show pdi + (m + 1) - (pdi + 1) = m by omega,
      show pdi + (m + 1) - pdi = m + 1 by omega]
    rfl
  · rw [if_neg hd]
    by_cases he : d = pdi
    · subst he
      simp [fileAt]
    · rw [if_neg (fun h => he h.1), if_neg (by omega)]

theorem Started.setupDevices (hst : Started st s n) (hb : 1 ≤ opts.rbBatch) (pdi : ℕ)
    (devices : List (List (List BlkIoTrace))) (hdev : ∀ files ∈ devices, files ≠ [])
    (hs : ∀ d c, pdi ≤ d → s (d, c) = [] ∧ n (d, c) = [])
    (hr : ∀ k, Readable k.2 (fileAt devices k)) :
    ∃ st', st.setupDevices opts pdi devices = (st', 0) ∧
      Started st' (withDevices events s pdi devices) (withDevices notifies n pdi devices) := by
  induction devices generalizing st s n pdi with
  | nil =>
    refine ⟨st, rfl, ?_⟩
    have hsame : withDevices events s pdi [] = s := by
      funext k
      unfold withDevices
      split
      · next h =>
        rw [(hs k.1 k.2 h).1]
        rfl
      · rfl
    have hsame' : withDevices notifies n pdi [] = n := by
      funext k
      unfold withDevices
      split
      · next h =>
        rw [(hs k.1 k.2 h).2]
        rfl
      · rfl
    rw [hsame, hsame']
    exact hst
  | cons files devices ih =>
    have hfirst : ∀ i file, files[i]? = some file → Readable (0 + i) file := by
      intro i file hf
      have h := hr (0, i)
      simp only [fileAt, List.getElem?_cons_zero, Option.getD_some, hf] at h
      rwa [Nat.zero_add]
    have hst' := hst.setupDevice hb pdi 0 files (fun c _ => hs pdi c le_rfl) hfirst
    have hlater : ∀ d c, pdi + 1 ≤ d → withDevice events s pdi 0 files (d, c) = [] ∧
        withDevice notifies n pdi 0 files (d, c) = [] := by
      intro d c hd
      have hne : ¬((d, c).1 = pdi ∧ 0 ≤ (d, c).2) := fun h => absurd h.1 (by omega)
      rw [withDevice, withDevice, if_neg hne, if_neg hne]
      exact hs d c (by omega)
    obtain ⟨st', hrun, hrest⟩ := ih hst' (pdi + 1) (fun fs hfs => hdev fs (by simp [hfs])) hlater
      (fun k => hr (k.1 + 1, k.2))
    rw [withDevices_cons, withDevices_cons] at hrest
    refine ⟨st', ?_, hrest⟩
    rw [FileMode.setupDevices, if_neg (hdev files (by simp))]
    exact hrun

def genesisOf (full : List ((ℕ × ℕ) × BlkIoTrace)) : UInt64 :=
  ((full.head?).map (fun p => p.2.time)).getD 0

theorem genesisOf_eq {l : List MsStream} {full : List ((ℕ × ℕ) × BlkIoTrace)} (hh : Holding l s n)
    (hs : l.Pairwise headLe) (hm : Merged timeLe s full) :
    full = [] ∨ ∃ msp l', l = msp :: l' ∧ genesisOf full = msp.first.time := by
  cases hm with
  | nil _ => exact Or.inl rfl
  | @cons _ k a as out hk hle hout =>
    right
    cases l with
    | nil => exact absurd ((hh.other k (by simp)).1.symm.trans hk) (by simp)
    | cons msp l =>
      refine ⟨msp, l, rfl, ?_⟩
      have h₁ : timeLe a msp.first := hle msp.key _ _ (hh.pending msp (by simp)).1
      have h₂ : timeLe msp.first a := by
        by_cases hmem : k ∈ (msp :: l).map MsStream.key
        · obtain ⟨x, hx, rfl⟩ := List.mem_map.mp hmem
          have hp := (List.cons.inj ((hh.pending x hx).1.symm.trans hk)).1
          rw [← hp]
          rcases List.mem_cons.mp hx with rfl | hxl
          · exact UInt64.le_refl _
          · exact (List.pairwise_cons.mp hs).1 x hxl
        · exact absurd ((hh.other k hmem).1.symm.trans hk) (by simp)
      unfold timeLe at h₁ h₂
      rw [UInt64.le_iff_toNat_le] at h₁ h₂
      exact UInt64.toNat_inj.mp (by simp only [genesisOf, List.head?_cons]; exact Nat.le_antisymm h₁ h₂)

/-- Trace files that `do_file` can be given: every device has one, and every record of a file is
verified, carries the file's CPU, and the traces are in nondecreasing time. -/
structure TraceFiles (devices : List (List (List BlkIoTrace))) : Prop where
  files : ∀ files ∈ devices, files ≠ []
  readable : ∀ k, Readable k.2 (fileAt devices k)
  sorted : ∀ k, (events (fileAt devices k)).Pairwise timeLe

theorem doFile_spec (hb : 1 ≤ opts.rbBatch) {devices : List (List (List BlkIoTrace))}
    (hd : TraceFiles devices) :
    ∃ st full, doFile opts devices = some (st, 0) ∧
      LogOf opts (genesisOf full) (fun k => events (fileAt devices k))
        (fun k => notifies (fileAt devices k)) full st.log := by
  have hnone : Holding [] (fun _ => []) (fun _ => []) :=
    ⟨List.nodup_nil, by simp, by simp, fun _ _ => ⟨rfl, rfl⟩⟩
  have hempty : Started ⟨[], 0, []⟩ (fun _ => []) (fun _ => []) :=
    ⟨⟨_, hnone, fun _ => rfl⟩, List.Pairwise.nil, rfl⟩
  obtain ⟨st, hsetup, hst⟩ := hempty.setupDevices hb 0 devices hd.files (fun _ _ _ => ⟨rfl, rfl⟩)
    hd.readable
  have hstreams : withDevices events (fun _ => []) 0 devices =
      fun k => events (fileAt devices k) := by
    funext k
    rw [withDevices, if_pos (Nat.zero_le _)]
    rfl
  have hnotes : withDevices notifies (fun _ => []) 0 devices =
      fun k => notifies (fileAt devices k) := by
    funext k
    rw [withDevices, if_pos (Nat.zero_le _)]
    rfl
  rw [hstreams, hnotes] at hst
  obtain ⟨ns, hh, hns⟩ := hst.holding
  obtain ⟨st', full, log, hrun, hlog, hof⟩ := FileMode.run_spec hb st.setGenesis hh hst.sorted
  have hlog' : st'.log = st.log ++ log := hlog
  have hgenesis : full = [] ∨ genesisOf full = st.setGenesis.genesisTime := by
    rcases genesisOf_eq hh hst.sorted hof.merged with h | ⟨msp, l, hl, h⟩
    · exact Or.inl h
    · right
      rw [h]
      simp [FileMode.setGenesis, hl, msPeekTime]
  have hlogOf : LogOf opts (genesisOf full) (fun k => events (fileAt devices k)) ns full log := by
    rcases hgenesis with h | h
    · refine ⟨hof.merged, ?_, hof.notes, fun _ => hof.allNotes (by simp [h])⟩
      rw [hof.traces, h]
      rfl
    · rw [h]
      exact hof
  refine ⟨st', full, ?_, hlogOf.merged, ?_, ?_, ?_⟩
  · simp [doFile, hsetup, hrun]
  · rw [hlog', List.filter_append, hst.noTraces, List.nil_append, hlogOf.traces]
  · intro k
    rw [hlog', notesOf_append, ← hns k]
    exact (List.prefix_append_right_inj _).mpr (hlogOf.notes k)
  · intro hall k
    rw [hlog', notesOf_append, hlogOf.allNotes hall k, hns k]

/-- A run of `do_file` hands over every trace of every stream exactly once, those of a stream in
their order and all in nondecreasing time, up to the first one past the stopwatch's end. The
notify records of a stream are handed over in their order, as the batches they are in are read. -/
theorem doFile_merges (opts : BlkparseOptions) (devices : List (List (List BlkIoTrace)))
    (hb : 1 ≤ opts.rbBatch) (hd : TraceFiles devices) :
    ∃ (st : FileMode) (full : List ((ℕ × ℕ) × BlkIoTrace)), doFile opts devices = some (st, 0) ∧
      (∀ k, (full.filter (fun p => p.1 = k)).map Prod.snd = events (fileAt devices k)) ∧
      full.Pairwise (fun p q => p.2.time ≤ q.2.time) ∧
      st.log.filter Handed.isTrace =
        (full.takeWhile (fun p => (p.2.relative (genesisOf full)).time ≤ opts.stopwatchEnd)).map
          (report opts (genesisOf full)) ∧
      (∀ k, notesOf k st.log <+: notifies (fileAt devices k)) ∧
      ((∀ p ∈ full, (p.2.relative (genesisOf full)).time ≤ opts.stopwatchEnd) →
        ∀ k, notesOf k st.log = notifies (fileAt devices k)) := by
  obtain ⟨st, full, hrun, hof⟩ := doFile_spec hb hd
  have htrans : ∀ a b c, timeLe a b → timeLe b c → timeLe a c := by
    intro a b c hab hbc
    unfold timeLe at *
    rw [UInt64.le_iff_toNat_le] at *
    omega
  refine ⟨st, full, hrun, hof.merged.stream_eq, hof.merged.sorted htrans hd.sorted, hof.traces,
    hof.notes, fun hall => hof.allNotes (fun p hp => ?_)⟩
  simpa [within] using hall p hp

def queueEvent (sequence : UInt32) (time : UInt64) (cpu : UInt32) : BlkIoTrace :=
  ⟨0x65617407, sequence, time, 0x00040001, 0x00800010, cpu⟩

def processNote (sequence : UInt32) (time : UInt64) (cpu : UInt32) : BlkIoTrace :=
  ⟨0x65617407, sequence, time, 0x04000000, 0x00800010, cpu⟩

def twoFiles : List (List (List BlkIoTrace)) :=
  [[[queueEvent 1 5 0, processNote 2 6 0, queueEvent 3 8 0], [queueEvent 1 7 1]]]

theorem twoFiles_traceFiles : TraceFiles twoFiles := by
  have hcases : ∀ k, fileAt twoFiles k = [] ∨ k = (0, 0) ∨ k = (0, 1) := by
    rintro ⟨d, c⟩
    match d, c with
    | 0, 0 => simp
    | 0, 1 => simp
    | 0, c + 2 => exact Or.inl rfl
    | d + 1, c => exact Or.inl rfl
  refine ⟨by decide, ?_, ?_⟩
  · intro k
    rcases hcases k with h | rfl | rfl
    · rw [h]
      intro b hb
      exact absurd hb (by simp)
    · unfold Readable
      decide
    · unfold Readable
      decide
  · intro k
    rcases hcases k with h | rfl | rfl
    · rw [h]
      exact List.Pairwise.nil
    · have h : events (fileAt twoFiles (0, 0)) = [queueEvent 1 5 0, queueEvent 3 8 0] := by decide
      rw [h]
      simp [timeLe, queueEvent]
    · have h : events (fileAt twoFiles (0, 1)) = [queueEvent 1 7 1] := by decide
      rw [h]
      simp

theorem doFile_merges_twoFiles :
    1 ≤ (⟨1, 0xffffffff, 0, 2⟩ : BlkparseOptions).rbBatch ∧ TraceFiles twoFiles ∧
      ∃ (st : FileMode) (full : List ((ℕ × ℕ) × BlkIoTrace)),
        doFile ⟨1, 0xffffffff, 0, 2⟩ twoFiles = some (st, 0) ∧
        (∀ k, (full.filter (fun p => p.1 = k)).map Prod.snd = events (fileAt twoFiles k)) ∧
        full.Pairwise (fun p q => p.2.time ≤ q.2.time) ∧
        st.log.filter Handed.isTrace =
          (full.takeWhile (fun p => (p.2.relative (genesisOf full)).time ≤ 2)).map
            (report ⟨1, 0xffffffff, 0, 2⟩ (genesisOf full)) := by
  have hb : 1 ≤ (⟨1, 0xffffffff, 0, 2⟩ : BlkparseOptions).rbBatch := by decide
  obtain ⟨st, full, hrun, hstream, hsorted, htraces, -⟩ :=
    doFile_merges ⟨1, 0xffffffff, 0, 2⟩ twoFiles hb twoFiles_traceFiles
  exact ⟨hb, twoFiles_traceFiles, st, full, hrun, hstream, hsorted, htraces⟩

theorem FileMode.run_step {msp : MsStream} {l : List MsStream} {st' : FileMode}
    (hm : st.msHead = msp :: l) (hh : st.handle opts msp l = some st') :
    st.run opts = st'.run opts := by
  rw [FileMode.run, hm]
  simp only [hh]

def sequencesOf (k : ℕ × ℕ) (log : List Handed) : List UInt32 :=
  log.filterMap (fun
    | .notify pdi cpu bit => if (pdi, cpu) = k then some bit.sequence else none
    | .trace pdi cpu bit _ => if (pdi, cpu) = k then some bit.sequence else none)

/-- A notify record is handed over when its batch is read, before the event in front of it. -/
theorem notify_overtakes :
    ¬∀ (opts : BlkparseOptions) (devices : List (List (List BlkIoTrace))), 1 ≤ opts.rbBatch →
      TraceFiles devices → ∀ st, doFile opts devices = some (st, 0) →
        ∀ k, sequencesOf k st.log <+: (fileAt devices k).map BlkIoTrace.sequence := by
  intro hall
  have hrun : doFile ⟨2, 0xffffffff, 0, 10⟩ twoFiles = some (⟨[], 5,
      [.notify 0 0 (processNote 2 6 0), .trace 0 0 (queueEvent 1 0 0) true,
        .trace 0 1 (queueEvent 1 2 1) true, .trace 0 0 (queueEvent 3 3 0) true]⟩, 0) := by
    rw [doFile, show FileMode.setupDevices ⟨[], 0, []⟩ ⟨2, 0xffffffff, 0, 10⟩ 0 twoFiles =
      (⟨[⟨0, 0, queueEvent 1 5 0, [queueEvent 3 8 0], some []⟩,
        ⟨0, 1, queueEvent 1 7 1, [], none⟩], 0, [.notify 0 0 (processNote 2 6 0)]⟩, 0) from rfl]
    simp only [ne_eq, not_true_eq_false, if_false, FileMode.setGenesis]
    rw [FileMode.run_step rfl rfl, FileMode.run_step rfl rfl, FileMode.run_step rfl rfl,
      FileMode.run]
    rfl
  have hprefix := hall _ _ (by decide) twoFiles_traceFiles _ hrun (0, 0)
  exact absurd hprefix (by decide)

end SBlktrace
