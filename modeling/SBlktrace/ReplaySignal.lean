import SBlktrace.ReplayAccounting

namespace SBlktrace

/-- The replay of an input file with the flag of the signal handler; `npkts` and `i` are those of
the bunch in `process_bunch`. -/
structure SignalledReplay (ι : Type) where
  tip : ThrInfo ι
  signalDone : Bool
  npkts : ℕ
  i : ℤ

inductive SignalAction (ι : Type) where
  | setSignalDone
  | thread (act : ReplayAction ι)

namespace SignalledReplay

open ThrInfo

variable {ι : Type}

def start (pool : ReplayPool ι) : SignalledReplay ι where
  tip := tipInit pool
  signalDone := false
  npkts := 0
  i := 0

def isSendDone (r : SignalledReplay ι) : Bool := r.signalDone || r.tip.sendDone

variable [DecidableEq ι]

/-- A step of one of the two threads. The flag is read by the loops around `next_bunch` and in
`process_bunch`, and by `nfree_current`, whose `nfree` is 0 each time that it looks. -/
def nextThread (pool : ReplayPool ι) (r : SignalledReplay ι) (act : ReplayAction ι) :
    Option (SignalledReplay ι) :=
  match act with
  | .nextBunch bunch =>
    if r.isSendDone then none
    else (r.tip.next pool (.nextBunch bunch)).map fun tip =>
      { r with tip := tip, npkts := bunch.pkts.length, i := 0 }
  | .processBunch =>
    match r.tip.sender with
    | .processBunch _ =>
      if r.isSendDone then some { r with tip := { r.tip with sender := .nextBunch } }
      else (r.tip.next pool .processBunch).map fun tip => { r with tip := tip }
    | _ => none
  | .nfreeCurrent =>
    match r.tip.sender with
    | .nfreeCurrent pkts =>
      if r.isSendDone then some { r with tip := { r.tip with sender := .iocbsMap 0 pkts } }
      else (r.tip.next pool .nfreeCurrent).map fun tip => { r with tip := tip }
    | _ => none
  | .countOut =>
    match r.tip.sender with
    | .countOut ndone _ =>
      if r.i + ndone ≤ r.npkts then
        (r.tip.next pool .countOut).map fun tip => { r with tip := tip, i := r.i + ndone }
      else none
    | _ => none
  | act => (r.tip.next pool act).map fun tip => { r with tip := tip }

def next (pool : ReplayPool ι) (r : SignalledReplay ι) :
    SignalAction ι → Option (SignalledReplay ι)
  | .setSignalDone => some { r with signalDone := true }
  | .thread act => r.nextThread pool act

structure AssertsHold (pool : ReplayPool ι) (r : SignalledReplay ι) : Prop where
  ntodo : ∀ nfree pkts, r.tip.sender = .iocbsMap nfree pkts →
    0 < min nfree (r.npkts - r.i) ∧ min nfree (r.npkts - r.i) ≤ pool.iocbs.length ∧
      min nfree (r.npkts - r.i) ≤ r.tip.freeIocbs.length
  out : ∀ ndone pkts, r.tip.sender = .countOut ndone pkts →
    r.tip.naiosOut + ndone ≤ pool.iocbs.length ∧ r.i + ndone ≤ r.npkts

def FindsDone (r : SignalledReplay ι) : SignalAction ι → Prop
  | .thread .nfreeCurrent => r.isSendDone = true
  | _ => False

instance (r : SignalledReplay ι) : (act : SignalAction ι) → Decidable (FindsDone r act)
  | .thread .nfreeCurrent => inferInstanceAs (Decidable (r.isSendDone = true))
  | .setSignalDone | .thread (.nextBunch _) | .thread .sendDone | .thread .processBunch
  | .thread .wakeSender | .thread .iocbsMap | .thread .ioSubmit | .thread .countOut
  | .thread .isReapDone | .thread .reapWaitAios | .thread .wakeReaper | .thread (.ioGetevents _)
  | .thread .reclaimIos => inferInstanceAs (Decidable False)

def Rest (rest : ℤ) : Sender ι → Prop
  | .processBunch pkts | .nfreeCurrent pkts | .asleep pkts | .iocbsMap _ pkts => pkts.length = rest
  | .ioSubmit list pkts => list.length + pkts.length = rest
  | .countOut ndone pkts => ndone + pkts.length = rest
  | .nextBunch | .finished => True

def Leaving (tip : ThrInfo ι) : Prop := tip.sender = .nextBunch ∨ tip.sender = .finished

variable {pool : ReplayPool ι} {r r' : SignalledReplay ι} {tip tip' : ThrInfo ι}
  {act : ReplayAction ι}

omit [DecidableEq ι] in
theorem rest_signalSender {rest : ℤ} (h : Rest rest tip.sender) :
    Rest rest tip.signalSender.sender := by
  cases hsender : tip.sender with
  | asleep pkts =>
    rw [hsender] at h
    rw [signalSender, hsender]
    exact h
  | _ =>
    rw [signalSender, hsender]
    rw [hsender] at h
    exact hsender.symm ▸ h

def follow (r : SignalledReplay ι) (tip : ThrInfo ι) : ReplayAction ι → SignalledReplay ι
  | .nextBunch bunch => { r with tip := tip, npkts := bunch.pkts.length, i := 0 }
  | .countOut => { r with tip := tip, i := r.i + r.tip.sender.uncounted }
  | _ => { r with tip := tip }

theorem nextThread_cases (h : r.nextThread pool act = some r') :
    (∃ tip, r.tip.next pool act = some tip ∧ r' = r.follow tip act ∧
        ((∃ bunch, act = .nextBunch bunch) → r.isSendDone = false)) ∨
      (r.isSendDone = true ∧ r' = { r with tip := { r.tip with sender := .nextBunch } }) ∨
      ∃ pkts, act = .nfreeCurrent ∧ r.isSendDone = true ∧
        r' = { r with tip := { r.tip with sender := .iocbsMap 0 pkts } } := by
  have hplain (hact : ∀ bunch, act ≠ .nextBunch bunch) (hout : act ≠ .countOut)
      (h : (r.tip.next pool act).map (fun tip => { r with tip := tip }) = some r') :
      ∃ tip, r.tip.next pool act = some tip ∧ r' = r.follow tip act ∧
        ((∃ bunch, act = .nextBunch bunch) → r.isSendDone = false) := by
    obtain ⟨tip, hnext, rfl⟩ := Option.map_eq_some_iff.mp h
    refine ⟨tip, hnext, ?_, fun ⟨bunch, hbunch⟩ => absurd hbunch (hact bunch)⟩
    cases act with
    | nextBunch bunch => exact absurd rfl (hact bunch)
    | countOut => exact absurd rfl hout
    | _ => rfl
  cases act with
  | nextBunch bunch =>
    rw [nextThread] at h
    split at h
    · cases h
    rename_i hdone
    obtain ⟨tip, hnext, rfl⟩ := Option.map_eq_some_iff.mp h
    exact .inl ⟨tip, hnext, rfl, fun _ => Bool.eq_false_iff.mpr hdone⟩
  | processBunch =>
    rw [nextThread] at h
    split at h
    · split at h
      · rename_i hdone
        exact .inr (.inl ⟨hdone, (Option.some.inj h).symm⟩)
      · exact .inl (hplain (fun _ => nofun) nofun h)
    · cases h
  | nfreeCurrent =>
    rw [nextThread] at h
    split at h
    · split at h
      · rename_i pkts _ hdone
        exact .inr (.inr ⟨pkts, rfl, hdone, (Option.some.inj h).symm⟩)
      · exact .inl (hplain (fun _ => nofun) nofun h)
    · cases h
  | countOut =>
    rw [nextThread] at h
    split at h
    · rename_i ndone pkts hsender
      rw [Option.ite_none_right_eq_some] at h
      obtain ⟨tip, hnext, rfl⟩ := Option.map_eq_some_iff.mp h.2
      refine .inl ⟨tip, hnext, ?_, nofun⟩
      rw [follow, hsender]
      rfl
    · cases h
  | _ => exact .inl (hplain (fun _ => nofun) nofun h)

theorem rest_next {steps : List (ReplayStep ι)} (hacc : Accounted pool steps r.tip)
    (hrest : Rest (r.npkts - r.i) r.tip.sender) (h : r.tip.next pool act = some tip') :
    Rest ((r.follow tip' act).npkts - (r.follow tip' act).i) tip'.sender := by
  cases act with
  | nextBunch bunch =>
    obtain ⟨-, -, rfl⟩ := next_nextBunch h
    exact (sub_zero _).symm
  | sendDone =>
    obtain ⟨-, rfl⟩ := next_sendDone h
    trivial
  | processBunch =>
    obtain ⟨-, rfl⟩ | ⟨pkts, -, hsender, rfl⟩ := next_processBunch h
    · trivial
    · rw [hsender] at hrest
      exact hrest
  | nfreeCurrent =>
    obtain ⟨pkts, hsender, ⟨-, rfl⟩ | ⟨-, rfl⟩⟩ := next_nfreeCurrent h <;>
      rw [hsender] at hrest <;> exact hrest
  | wakeSender =>
    obtain ⟨pkts, hsender, rfl⟩ := next_wakeSender h
    rw [hsender] at hrest
    exact hrest
  | iocbsMap =>
    obtain ⟨nfree, pkts, mapped, hsender, hmap, rfl⟩ := next_iocbsMap h
    obtain ⟨-, -, hlen, -⟩ := iocbsMap_spec (List.nodup_append'.mp hacc.nodup).1 hmap
    rw [hsender] at hrest
    simp only [Rest, follow] at hrest ⊢
    rw [hlen, List.length_take, List.length_drop]
    omega
  | ioSubmit =>
    obtain ⟨list, pkts, hsender, rfl⟩ := next_ioSubmit h
    rw [hsender] at hrest
    exact hrest
  | countOut =>
    obtain ⟨ndone, pkts, hsender, -, rfl⟩ := next_countOut h
    rw [hsender] at hrest
    simp only [Rest, follow, hsender, Sender.uncounted] at hrest ⊢
    omega
  | isReapDone =>
    obtain ⟨-, ⟨-, -, rfl⟩ | rfl⟩ := next_isReapDone h <;> exact hrest
  | reapWaitAios =>
    obtain ⟨-, ⟨-, rfl⟩ | ⟨-, rfl⟩⟩ := next_reapWaitAios h <;> exact hrest
  | wakeReaper =>
    obtain ⟨-, rfl⟩ := next_wakeReaper h
    exact hrest
  | ioGetevents events =>
    obtain ⟨naiosOut, -, -, -, -, -, rfl⟩ := next_ioGetevents h
    exact hrest
  | reclaimIos =>
    obtain ⟨naiosOut, events, -, rfl⟩ := next_reclaimIos h
    rw [reclaim_eq]
    dsimp only
    split
    · exact rest_signalSender hrest
    · exact hrest

theorem leaving_next (hleave : Leaving tip) (h : tip.next pool act = some tip')
    (hbunch : ∀ bunch, act ≠ .nextBunch bunch) :
    Leaving tip' ∧ (tip.sendDone = true → tip'.sendDone = true) := by
  have hsender (hne : tip.sender ≠ .nextBunch ∧ tip.sender ≠ .finished) : False :=
    hleave.elim hne.1 hne.2
  cases act with
  | nextBunch bunch => exact absurd rfl (hbunch bunch)
  | sendDone =>
    obtain ⟨-, rfl⟩ := next_sendDone h
    exact ⟨.inr rfl, fun _ => rfl⟩
  | processBunch =>
    obtain ⟨heq, -⟩ | ⟨pkts, -, heq, -⟩ := next_processBunch h <;>
      exact (hsender (by simp [heq])).elim
  | nfreeCurrent =>
    obtain ⟨pkts, heq, -⟩ := next_nfreeCurrent h
    exact (hsender (by simp [heq])).elim
  | wakeSender =>
    obtain ⟨pkts, heq, -⟩ := next_wakeSender h
    exact (hsender (by simp [heq])).elim
  | iocbsMap =>
    obtain ⟨nfree, pkts, mapped, heq, -⟩ := next_iocbsMap h
    exact (hsender (by simp [heq])).elim
  | ioSubmit =>
    obtain ⟨list, pkts, heq, -⟩ := next_ioSubmit h
    exact (hsender (by simp [heq])).elim
  | countOut =>
    obtain ⟨ndone, pkts, heq, -⟩ := next_countOut h
    exact (hsender (by simp [heq])).elim
  | isReapDone =>
    obtain ⟨-, ⟨-, -, rfl⟩ | rfl⟩ := next_isReapDone h <;> exact ⟨hleave, id⟩
  | reapWaitAios =>
    obtain ⟨-, ⟨-, rfl⟩ | ⟨-, rfl⟩⟩ := next_reapWaitAios h <;> exact ⟨hleave, id⟩
  | wakeReaper =>
    obtain ⟨-, rfl⟩ := next_wakeReaper h
    exact ⟨hleave, id⟩
  | ioGetevents events =>
    obtain ⟨naiosOut, -, -, -, -, -, rfl⟩ := next_ioGetevents h
    exact ⟨hleave, id⟩
  | reclaimIos =>
    obtain ⟨naiosOut, events, -, rfl⟩ := next_reclaimIos h
    rw [reclaim_eq]
    refine ⟨?_, id⟩
    obtain heq | heq := hleave
    · left
      simp [heq, signalSender]
    · right
      simp [heq, signalSender]

def Tracked (pool : ReplayPool ι) (r : SignalledReplay ι) : Prop :=
  (∃ steps, Accounted pool steps r.tip ∧ Rest (r.npkts - r.i) r.tip.sender) ∨
    (r.isSendDone = true ∧ Leaving r.tip)

theorem tracked_start (pool : ReplayPool ι) : Tracked pool (start pool) :=
  .inl ⟨[], accounted_tipInit, trivial⟩

omit [DecidableEq ι] in
theorem follow_tip (r : SignalledReplay ι) (tip : ThrInfo ι) (act : ReplayAction ι) :
    (r.follow tip act).tip = tip ∧ (r.follow tip act).signalDone = r.signalDone := by
  cases act <;> exact ⟨rfl, rfl⟩

theorem Tracked.follow (h : Tracked pool r) (hnext : r.tip.next pool act = some tip')
    (hbunch : (∃ bunch, act = .nextBunch bunch) → r.isSendDone = false) :
    Tracked pool (r.follow tip' act) := by
  obtain ⟨htip, hsignal⟩ := follow_tip r tip' act
  obtain ⟨steps, hacc, hrest⟩ | ⟨hdone, hleave⟩ := h
  · left
    refine ⟨_, htip.symm ▸ hacc.next hnext, ?_⟩
    have hrest' := rest_next hacc hrest hnext
    rw [htip]
    exact hrest'
  · right
    have hact (bunch : IoBunch) (heq : act = .nextBunch bunch) : False := by
      rw [hbunch ⟨bunch, heq⟩] at hdone
      cases hdone
    obtain ⟨hleave', hsend⟩ := leaving_next hleave hnext hact
    rw [isSendDone, htip, hsignal]
    refine ⟨?_, hleave'⟩
    rw [isSendDone, Bool.or_eq_true] at hdone
    rw [Bool.or_eq_true]
    exact hdone.imp_right hsend

theorem Tracked.next {act : SignalAction ι} (h : Tracked pool r)
    (hnext : r.next pool act = some r') (hfinds : ¬ FindsDone r act) : Tracked pool r' := by
  cases act with
  | setSignalDone =>
    obtain rfl := Option.some.inj hnext
    obtain hin | ⟨-, hleave⟩ := h
    · exact .inl hin
    · exact .inr ⟨rfl, hleave⟩
  | thread act =>
    obtain ⟨tip, hstep, rfl, hbunch⟩ | ⟨hdone, rfl⟩ | ⟨pkts, rfl, hdone, -⟩ :=
      nextThread_cases hnext
    · exact h.follow hstep hbunch
    · exact .inr ⟨hdone, .inl rfl⟩
    · exact absurd hdone hfinds

theorem Tracked.assertsHold (h : Tracked pool r) : AssertsHold pool r := by
  obtain ⟨steps, hacc, hrest⟩ | ⟨-, hleave⟩ := h
  · obtain ⟨hmap, hout, -⟩ := hacc.asserts
    have hlen := hacc.perm.length_eq
    rw [List.length_append] at hlen
    constructor
    · intro nfree pkts hsender
      rw [hsender] at hrest
      obtain ⟨hpos, hle⟩ := hmap nfree pkts hsender
      rw [← show (pkts.length : ℤ) = r.npkts - r.i from hrest]
      omega
    · intro ndone pkts hsender
      rw [hsender] at hrest
      have hrest' : ndone + pkts.length = r.npkts - r.i := hrest
      exact ⟨hout ndone pkts hsender, by omega⟩
  · constructor <;>
    · intro _ _ hsender
      rw [Leaving, hsender] at hleave
      obtain heq | heq := hleave <;> cases heq

theorem not_assertsHold {act : SignalAction ι} (hnext : r.next pool act = some r')
    (hfinds : FindsDone r act) : ¬ AssertsHold pool r' := by
  intro hholds
  cases act with
  | setSignalDone => exact hfinds
  | thread act =>
    cases act with
    | nfreeCurrent =>
      rw [next, nextThread] at hnext
      split at hnext
      · rename_i pkts _
        have hdone : r.isSendDone = true := hfinds
        rw [if_pos hdone] at hnext
        obtain rfl := Option.some.inj hnext
        have hpos := (hholds.ntodo 0 pkts rfl).1
        omega
      · cases hnext
    | _ => exact hfinds

abbrev Step (ι : Type) := SignalledReplay ι × SignalAction ι × SignalledReplay ι

def Ran (pool : ReplayPool ι) : List (Step ι) → SignalledReplay ι → Prop :=
  Run (· = start pool) fun r act r' => r.next pool act = some r'

/-- The assertions hold wherever the signal falls, except where `nfree_current` finds the flag set
and returns 0. -/
theorem process_bunch_asserts_iff (pool : ReplayPool ι) (steps : List (Step ι))
    (r : SignalledReplay ι) (h : Ran pool steps r) :
    (AssertsHold pool (start pool) ∧ ∀ step ∈ steps, AssertsHold pool step.2.2) ↔
      ∀ step ∈ steps, ¬ FindsDone step.1 step.2.1 := by
  rw [and_iff_right (tracked_start pool).assertsHold]
  refine h.forall_iff (Tracked pool) ?_ (fun r act r' hr hnext hfinds => hr.next hnext hfinds)
    fun r act r' hr hnext => ⟨fun hholds hfinds => not_assertsHold hnext hfinds hholds,
      fun hfinds => (hr.next hnext hfinds).assertsHold⟩
  rintro r rfl
  exact tracked_start pool

theorem ran_trySteps {acts : List (SignalAction ι)} {steps : List (Step ι)}
    (h : Run.trySteps (next pool) (start pool) acts = some (steps, r)) : Ran pool steps r :=
  Run.trySteps_run (fun _ _ _ h => h) rfl h

def threadActs : List (ReplayAction ι) → List (SignalAction ι) := List.map .thread

theorem signal_after_nfree :
    ∃ (steps : List (Step (Fin 2))) (r : SignalledReplay (Fin 2)), Ran twoIocbs steps r ∧
      r.isSendDone = true ∧ r.i = 2 ∧
      AssertsHold twoIocbs (start twoIocbs) ∧ ∀ step ∈ steps, AssertsHold twoIocbs step.2.2 := by
  have hran := @ran_trySteps (Fin 2) _ twoIocbs _
    (threadActs [.nextBunch threePkts, .processBunch, .nfreeCurrent] ++ [.setSignalDone] ++
      threadActs [.iocbsMap, .ioSubmit, .countOut, .processBunch, .sendDone]) _ rfl
  exact ⟨_, _, hran, rfl, rfl, (process_bunch_asserts_iff _ _ _ hran).mpr (by decide)⟩

/-- The signal comes between the condition of the loop and `nfree_current`, or while that waits
for a request, of which there is one when it returns. -/
theorem signal_before_nfree :
    (∃ (steps : List (Step (Fin 2))) (r : SignalledReplay (Fin 2)), Ran twoIocbs steps r ∧
      r.tip.naiosFree = 2 ∧ r.i = 0 ∧ ¬ AssertsHold twoIocbs r) ∧
    ∃ (steps : List (Step (Fin 2))) (r : SignalledReplay (Fin 2)), Ran twoIocbs steps r ∧
      r.tip.naiosFree = 1 ∧ r.i = 2 ∧ ¬ AssertsHold twoIocbs r := by
  have hearly := @ran_trySteps (Fin 2) _ twoIocbs _
    (threadActs [.nextBunch threePkts, .processBunch] ++ [.setSignalDone] ++
      threadActs [.nfreeCurrent]) _ rfl
  have hwaiting := @ran_trySteps (Fin 2) _ twoIocbs _
    (threadActs [.nextBunch threePkts, .processBunch, .nfreeCurrent, .iocbsMap, .ioSubmit,
        .countOut, .processBunch, .nfreeCurrent] ++ [.setSignalDone] ++
      threadActs [.isReapDone, .reapWaitAios, .ioGetevents [1], .reclaimIos, .nfreeCurrent]) _ rfl
  refine ⟨⟨_, _, hearly, rfl, rfl, fun h => ?_⟩, ⟨_, _, hwaiting, rfl, rfl, fun h => ?_⟩⟩
  · exact absurd (h.ntodo 0 _ rfl).1 (by decide)
  · exact absurd (h.ntodo 0 _ rfl).1 (by decide)

end SignalledReplay

end SBlktrace
