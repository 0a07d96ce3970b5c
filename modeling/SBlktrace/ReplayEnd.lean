import SBlktrace.ReplayThreads

namespace SBlktrace.ThrInfo

variable {ι : Type}

/-- The thread that submits is done, nothing is outstanding, and the one that reclaims sleeps with
no thread left that would signal it. -/
def Stuck (tip : ThrInfo ι) : Prop :=
  tip.sender = .finished ∧ tip.sendDone = true ∧ tip.naiosOut = 0 ∧ tip.reaper = .asleep

/-- The end is declared to a sleeping thread, or the thread goes to sleep after it was declared. -/
def MissesEnd (tip : ThrInfo ι) : ReplayAction ι → Prop
  | .sendDone => tip.reaper = .asleep
  | .reapWaitAios => tip.sendDone = true ∧ tip.naiosOut = 0
  | _ => False

instance : (reaper : Reaper ι) → Decidable (reaper = .asleep)
  | .asleep => isTrue rfl
  | .isReapDone | .reapWaitAios | .ioGetevents _ | .reclaimIos _ _ | .finished =>
    isFalse fun h => by cases h

instance (tip : ThrInfo ι) : (act : ReplayAction ι) → Decidable (MissesEnd tip act)
  | .sendDone => inferInstanceAs (Decidable (tip.reaper = .asleep))
  | .reapWaitAios => inferInstanceAs (Decidable (tip.sendDone = true ∧ tip.naiosOut = 0))
  | .nextBunch _ | .processBunch | .nfreeCurrent | .wakeSender | .iocbsMap | .ioSubmit
  | .countOut | .isReapDone | .wakeReaper | .ioGetevents _ | .reclaimIos =>
    inferInstanceAs (Decidable False)

structure Awaits (tip : ThrInfo ι) : Prop where
  done : tip.sendDone = true ↔ tip.sender = .finished
  out : tip.reaper = .asleep → tip.naiosOut = 0 ∧ tip.reapWait = true
  awake : tip.reaper = .asleep → tip.sendDone = false

variable {tip tip' : ThrInfo ι} {pool : ReplayPool ι} {act : ReplayAction ι}

theorem awaits_tipInit (pool : ReplayPool ι) : Awaits (tipInit pool) where
  done := iff_of_false (fun h => by cases h) fun h => by cases h
  out h := by cases h
  awake h := by cases h

theorem Awaits.not_stuck (h : Awaits tip) : ¬ Stuck tip := by
  rintro ⟨-, hdone, -, hasleep⟩
  rw [h.awake hasleep] at hdone
  cases hdone

variable [DecidableEq ι]

theorem reclaim_frame (tip : ThrInfo ι) (naiosOut : ℤ) (events : List ι) :
    (tip.reclaim naiosOut events).sendDone = tip.sendDone ∧
      ((tip.reclaim naiosOut events).sender = .finished ↔ tip.sender = .finished) ∧
      (tip.reclaim naiosOut events).reaper ≠ .asleep := by
  rw [reclaim_eq]
  refine ⟨rfl, ?_, ?_⟩
  · cases h : tip.sender <;> simp [signalSender, h]
    split <;> simp
  · dsimp only
    split <;> exact fun h => by cases h

theorem Awaits.next (h : Awaits tip) (hnext : tip.next pool act = some tip')
    (hend : ¬ MissesEnd tip act) : Awaits tip' := by
  cases act with
  | nextBunch bunch =>
    obtain ⟨hsender, -, rfl⟩ := next_nextBunch hnext
    exact ⟨by simp [h.done, hsender], h.out, h.awake⟩
  | sendDone =>
    obtain ⟨-, rfl⟩ := next_sendDone hnext
    exact ⟨iff_of_true rfl rfl, h.out, fun hasleep => absurd hasleep hend⟩
  | processBunch =>
    obtain ⟨hsender, rfl⟩ | ⟨pkts, -, hsender, rfl⟩ := next_processBunch hnext
    · exact ⟨by simp [h.done, hsender], h.out, h.awake⟩
    · exact ⟨by simp [h.done, hsender], h.out, h.awake⟩
  | nfreeCurrent =>
    obtain ⟨pkts, hsender, ⟨-, rfl⟩ | ⟨-, rfl⟩⟩ := next_nfreeCurrent hnext
    · exact ⟨by simp [h.done, hsender], h.out, h.awake⟩
    · exact ⟨by simp [h.done, hsender], h.out, h.awake⟩
  | wakeSender =>
    obtain ⟨pkts, hsender, rfl⟩ := next_wakeSender hnext
    exact ⟨by simp [h.done, hsender], h.out, h.awake⟩
  | iocbsMap =>
    obtain ⟨nfree, pkts, r, hsender, hr, rfl⟩ := next_iocbsMap hnext
    rw [iocbsMap_frame hr]
    exact ⟨by simp [h.done, hsender], h.out, h.awake⟩
  | ioSubmit =>
    obtain ⟨list, pkts, hsender, rfl⟩ := next_ioSubmit hnext
    exact ⟨by simp [h.done, hsender], h.out, h.awake⟩
  | countOut =>
    obtain ⟨ndone, pkts, hsender, -, rfl⟩ := next_countOut hnext
    -- a thread that sleeps has set the flag, so it is woken here
    have hawake : (if tip.reapWait then tip.signalReaper.reaper else tip.reaper) ≠ .asleep := by
      intro hasleep
      cases hreaper : tip.reaper with
      | asleep =>
        rw [if_pos (h.out hreaper).2, signalReaper, hreaper] at hasleep
        cases hasleep
      | _ =>
        rw [signalReaper, hreaper, hreaper, ite_self] at hasleep
        cases hasleep
    exact ⟨by simp [h.done, hsender], fun hasleep => absurd hasleep hawake,
      fun hasleep => absurd hasleep hawake⟩
  | isReapDone =>
    obtain ⟨-, ⟨-, -, rfl⟩ | rfl⟩ := next_isReapDone hnext
    · exact ⟨h.done, fun hasleep => (by cases hasleep), fun hasleep => (by cases hasleep)⟩
    · exact ⟨h.done, fun hasleep => (by cases hasleep), fun hasleep => (by cases hasleep)⟩
  | reapWaitAios =>
    obtain ⟨-, ⟨hzero, rfl⟩ | ⟨-, rfl⟩⟩ := next_reapWaitAios hnext
    · refine ⟨h.done, fun _ => ⟨hzero, rfl⟩, fun _ => ?_⟩
      exact Bool.eq_false_iff.mpr fun hdone => hend ⟨hdone, hzero⟩
    · exact ⟨h.done, fun hasleep => (by cases hasleep), fun hasleep => (by cases hasleep)⟩
  | wakeReaper =>
    obtain ⟨-, rfl⟩ := next_wakeReaper hnext
    exact ⟨h.done, fun hasleep => (by cases hasleep), fun hasleep => (by cases hasleep)⟩
  | ioGetevents events =>
    obtain ⟨naiosOut, -, -, -, -, -, rfl⟩ := next_ioGetevents hnext
    exact ⟨h.done, fun hasleep => (by cases hasleep), fun hasleep => (by cases hasleep)⟩
  | reclaimIos =>
    obtain ⟨naiosOut, events, -, rfl⟩ := next_reclaimIos hnext
    obtain ⟨hdone, hsender, hreaper⟩ := reclaim_frame tip naiosOut events
    refine ⟨?_, fun hasleep => absurd hasleep hreaper, fun hasleep => absurd hasleep hreaper⟩
    rw [hdone, h.done, hsender]

theorem Awaits.stuck (h : Awaits tip) (hnext : tip.next pool act = some tip')
    (hend : MissesEnd tip act) : Stuck tip' := by
  cases act <;> first
    | exact absurd hend id
    | skip
  case sendDone =>
    obtain ⟨-, rfl⟩ := next_sendDone hnext
    exact ⟨rfl, rfl, (h.out hend).1, hend⟩
  case reapWaitAios =>
    obtain ⟨hdone, hzero⟩ := hend
    obtain ⟨-, ⟨-, rfl⟩ | ⟨hpos, -⟩⟩ := next_reapWaitAios hnext
    · exact ⟨h.done.mp hdone, hdone, hzero, rfl⟩
    · rw [hzero] at hpos
      exact absurd hpos (lt_irrefl 0)

/-- The replay ends without a thread asleep for ever in the runs in which the end is declared
neither to a sleeping thread nor just before it falls asleep. -/
theorem not_stuck_iff (pool : ReplayPool ι) (steps : List (ReplayStep ι)) (tip : ThrInfo ι)
    (h : Replayed pool steps tip) :
    (¬ Stuck (tipInit pool) ∧ ∀ step ∈ steps, ¬ Stuck step.2.2) ↔
      ∀ step ∈ steps, ¬ MissesEnd step.1 step.2.1 := by
  rw [and_iff_right (awaits_tipInit pool).not_stuck]
  refine h.forall_iff Awaits ?_ (fun tip act tip' hs hnext hend => hs.next hnext hend)
    fun tip act tip' hs hnext => ⟨fun hstuck hend => hstuck (hs.stuck hnext hend),
      fun hend => (hs.next hnext hend).not_stuck⟩
  rintro tip rfl
  exact awaits_tipInit pool

def oneIocb : ReplayPool Unit where
  iocbs := [()]
  nodup := List.nodup_singleton ()
  writeEnabled := false

def oneRead : IoBunch where
  timeStamp := 0
  pkts := [{ sector := 8, nbytes := 512, rw := 1 }]

theorem oneRead_ends :
    ∃ (steps : List (ReplayStep Unit)) (tip : ThrInfo Unit), Replayed oneIocb steps tip ∧
      tip.reapDone = true ∧ ¬ Stuck (tipInit oneIocb) ∧ ∀ step ∈ steps, ¬ Stuck step.2.2 := by
  have hrun := @replayed_trySteps Unit _ oneIocb
    [.isReapDone, .reapWaitAios, .nextBunch oneRead, .processBunch, .nfreeCurrent, .iocbsMap,
      .ioSubmit, .countOut, .reapWaitAios, .ioGetevents [()], .processBunch, .sendDone,
      .reclaimIos, .isReapDone] _ _ rfl
  exact ⟨_, _, hrun, rfl, (not_stuck_iff _ _ _ hrun).mpr (by decide)⟩

/-- The reaper finds nothing outstanding and falls asleep before the other thread sets
`send_done`, which it does without a signal. -/
theorem end_unsignalled :
    ∃ (steps : List (ReplayStep Unit)) (tip : ThrInfo Unit), Replayed oneIocb steps tip ∧
      ¬ (¬ Stuck (tipInit oneIocb) ∧ ∀ step ∈ steps, ¬ Stuck step.2.2) := by
  have hrun := @replayed_trySteps Unit _ oneIocb
    [.isReapDone, .reapWaitAios, .nextBunch oneRead, .processBunch, .nfreeCurrent, .iocbsMap,
      .ioSubmit, .countOut, .reapWaitAios, .ioGetevents [()], .processBunch,
      .reclaimIos, .isReapDone, .reapWaitAios, .sendDone] _ _ rfl
  exact ⟨_, _, hrun, fun h => h.2 _ (List.mem_of_getLast? rfl) ⟨rfl, rfl, rfl, rfl⟩⟩

end SBlktrace.ThrInfo
