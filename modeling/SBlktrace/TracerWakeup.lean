import SBlktrace.TracerBarrier

/-!
`stop_tracers` wakes the tracers without `mt_mutex`: when a tracer is left asleep, and when not.
-/

namespace SBlktrace

open Function ByteOrder

namespace TracingPc

variable {ndevs ncpus : ℕ}

def stopping : TracingPc ndevs ncpus → Bool
  | stopTracers _ => true
  | _ => false

def quiet : TracingPc ndevs ncpus → Bool
  | waitEmptyEntries | processTraceBufs false _ _ | handleList false _ _ _ _
  | waitTracersLeaving => true
  | _ => false

end TracingPc

def TracingAction.broadcasts {ndevs ncpus : ℕ} : TracingAction ndevs ncpus → Bool
  | stoppedTracers _ | sigReturn _ => true
  | _ => false

namespace Tracing

variable {ndevs ncpus : ℕ} {host : Endian} {bufSize : ℕ} {s s' : Tracing ndevs ncpus}
  {t : Fin ncpus} {act : TracingAction ndevs ncpus} {main' : TracingPc ndevs ncpus}

structure Asleep (s : Tracing ndevs ncpus) (t : Fin ncpus) : Prop where
  blocked : s.pc t = .blocked
  quiet : s.main.quiet
  handler : s.handler = none

theorem Counted.leaving_lt (hc : Counted s) (hblocked : s.pc t = .blocked) :
    s.nthreadsLeaving < s.nthreadsRunning := by
  rw [hc.leaving, hc.running]
  refine Finset.sum_lt_sum (fun u _ => ?_) ⟨t, Finset.mem_univ t, ?_⟩
  · cases s.pc u <;> simp [TracerPc.started]
  · rw [hblocked]
    decide

theorem Asleep.congr (ha : Asleep s t) (hpc : s'.pc t = s.pc t) (hmain : s'.main.quiet)
    (hhandler : s'.handler = s.handler) : Asleep s' t where
  blocked := hpc.trans ha.blocked
  quiet := hmain
  handler := hhandler.trans ha.handler

theorem Asleep.other (ha : Asleep s t) {u : Fin ncpus} (hu : s.pc u ≠ .blocked) (pc : TracerPc) :
    update s.pc u pc t = s.pc t := by
  refine update_of_ne ?_ _ _
  rintro rfl
  exact hu ha.blocked

theorem Asleep.next (ha : Asleep s t) (hc : Counted s) (h : s.next host bufSize act = some s')
    (hwake : act ≠ .wake t) (hsigint : act ≠ .sigint) : Asleep s' t := by
  have hquiet := ha.quiet
  cases act <;> simp only [Tracing.next, Option.ite_none_right_eq_some, Option.some.injEq,
    Option.map_eq_some_iff] at h
  case signalReady u ok =>
    obtain ⟨⟨hpc, -⟩, rfl⟩ := h
    have hu : s.pc u ≠ .blocked := by simp [hpc]
    cases ok <;> exact ha.congr (ha.other hu _) hquiet rfl
  case testUnblock u | addTraceBuf u drain dev tbp | signalLeaving u =>
    obtain ⟨⟨hpc, -⟩, rfl⟩ := h
    exact ha.congr (ha.other (by simp [hpc]) _) hquiet rfl
  case condWait u | testDone u | readNothing u drain dev | incrEntries u drain =>
    obtain ⟨hpc, rfl⟩ := h
    exact ha.congr (ha.other (by simp [hpc]) _) hquiet rfl
  case wake u =>
    obtain ⟨-, rfl⟩ := h
    have hne : t ≠ u := by
      rintro rfl
      exact hwake rfl
    exact ha.congr (update_of_ne hne _ _) hquiet rfl
  case takeList clean hd todo handled =>
    obtain ⟨hmain, rfl⟩ := h
    rw [hmain] at hquiet
    cases clean with
    | false => split_ifs <;> exact ha.congr rfl rfl rfl
    | true => cases hquiet
  case handleList clean hd list todo handled =>
    obtain ⟨hmain, r, -, rfl⟩ := h
    rw [hmain] at hquiet
    cases clean with
    | false => exact ha.congr rfl rfl rfl
    | true => cases hquiet
  case decrEntries clean handled =>
    obtain ⟨hmain, rfl⟩ := h
    rw [hmain] at hquiet
    cases clean with
    | false => exact ha.congr rfl rfl rfl
    | true => cases hquiet
  case waitEntries | waitDone =>
    obtain ⟨-, rfl⟩ := h
    exact ha.congr rfl rfl rfl
  case waitTracersLeaving =>
    -- the sleeping tracer is running and not leaving
    obtain ⟨⟨-, hle, -⟩, rfl⟩ := h
    exact absurd hle (Nat.not_le_of_lt (hc.leaving_lt ha.blocked))
  case sigint => exact absurd rfl hsigint
  case sigStopTracer cpu | sigReturn cpu =>
    obtain ⟨⟨hhandler, -⟩, -⟩ := h
    rw [ha.handler] at hhandler
    cases hhandler
  case pthreadCreate | addTracer | startedAll | testRunning =>
    obtain ⟨hmain, -⟩ := h
    rw [hmain] at hquiet
    cases hquiet
  all_goals
    obtain ⟨⟨hmain, -⟩, -⟩ := h
    rw [hmain] at hquiet
    cases hquiet

/-- `pthread_cond_broadcast` is called without `mt_mutex` where tracers are stopped, and can come
between the test and the wait of a tracer. One that sleeps after the last broadcast is left to a
wait that ends by itself or by the `pthread_cond_signal` of another tracer, or to another SIGINT;
until then `run_tracers` does not return. -/
theorem tracing_lost_wakeup {steps later : List (TracingStep ndevs ncpus)}
    (h : Traces host bufSize steps s) (ha : Asleep s t)
    (hlater : Run (· = s) (fun s act s' => s.next host bufSize act = some s') later s')
    (hquiet : ∀ step ∈ later, step.2.1 ≠ .wake t ∧ step.2.1 ≠ .sigint) :
    s'.pc t = .blocked ∧ s'.nthreadsLeaving < s'.nthreadsRunning ∧ s'.main.quiet := by
  have hinv : (Counted s' ∧ Placed s') ∧ Asleep s' t := by
    refine hlater.invariant_of (fun s => (Counted s ∧ Placed s) ∧ Asleep s t) ?_ ?_ hquiet
    · rintro _ rfl
      exact ⟨traces_placed h, ha⟩
    · rintro s act s' ⟨⟨hc, hp⟩, ha⟩ hstep ⟨hwake, hsigint⟩
      exact ⟨⟨hc.next hstep fun cpu => hp.not_started, hp.next hc hstep⟩,
        ha.next hc hstep hwake hsigint⟩
  exact ⟨hinv.2.blocked, hinv.1.1.leaving_lt hinv.2.blocked, hinv.2.quiet⟩

theorem tracing_lost_wakeup_stopped :
    ∃ steps later, ∃ s s' : Tracing 1 2, Traces .little 64 steps s ∧ s.isDone 0 ∧ s.done ∧
      s.pc 1 = .absent ∧ Asleep s 0 ∧ Run (· = s) (fun s act s' => s.next .little 64 act = some s') later s' ∧
      s'.main = .waitTracersLeaving ∧
      s'.pc 0 = .blocked ∧ s'.nthreadsLeaving < s'.nthreadsRunning ∧ s'.main.quiet := by
  have hrun := @traces_trySteps 1 2 .little 64 _
    [.pthreadCreate 0, .addTracer 0, .startedAll 1, .signalReady 0 true, .waitTracersReady 1,
      .testRunning, .testUnblock 0, .stopTracer 0, .stoppedTracers 1, .sigint, .sigStopTracer 0,
      .sigReturn 1, .condWait 0] _ rfl
  have hlater : ∀ s s' : Tracing 1 2, s.next .little 64 .waitDone = some s' →
      Run (· = s) (fun s act s' => s.next .little 64 act = some s') [(s, .waitDone, s')] s' :=
    fun s s' h => by
      have hstart : Run (· = s) (fun s act s' => s.next .little 64 act = some s') [] s :=
        .start rfl
      exact hstart.step h
  refine ⟨_, _, _, _, hrun, rfl, rfl, rfl, ⟨rfl, rfl, rfl⟩, hlater _ _ rfl, rfl,
    tracing_lost_wakeup hrun ⟨rfl, rfl, rfl⟩ (hlater _ _ rfl) ?_⟩
  rintro step hstep
  rw [List.mem_singleton.mp hstep]
  exact ⟨by simp, by simp⟩

def Telling (s : Tracing ndevs ncpus) : Prop := s.handler ≠ none ∨ s.main.stopping

theorem next_telling (h : s.next host bufSize act = some s') :
    (∀ t, s'.isDone t → s.isDone t ∨ Telling s') ∧
      (Telling s → Telling s' ∨ act.broadcasts ∧ s'.pc = s.broadcast.pc) := by
  cases act <;> simp only [Tracing.next, Option.ite_none_right_eq_some, Option.some.injEq,
    Option.map_eq_some_iff] at h
  case stopTracer cpu =>
    obtain ⟨-, rfl⟩ := h
    exact ⟨fun _ _ => .inr (.inr rfl), fun _ => .inl (.inr rfl)⟩
  case sigStopTracer cpu =>
    obtain ⟨-, rfl⟩ := h
    have htelling : some (cpu + 1) ≠ none := by simp
    exact ⟨fun _ _ => .inr (.inl htelling), fun _ => .inl (.inl htelling)⟩
  case sigint =>
    obtain ⟨-, rfl⟩ := h
    have htelling : some 0 ≠ none := by simp
    exact ⟨fun _ => .inl, fun _ => .inl (.inl htelling)⟩
  case stoppedTracers | sigReturn =>
    obtain ⟨-, rfl⟩ := h
    exact ⟨fun _ => .inl, fun _ => .inr ⟨rfl, rfl⟩⟩
  case signalReady u ok =>
    obtain ⟨-, rfl⟩ := h
    cases ok <;> exact ⟨fun _ => .inl, .inl⟩
  case handleList clean hd list todo handled =>
    obtain ⟨hmain, r, -, rfl⟩ := h
    refine ⟨fun _ => .inl, fun htelling => .inl (.inl (htelling.resolve_right ?_))⟩
    simp [hmain, TracingPc.stopping]
  case unblockTracers | waitEntries | waitDone | waitTracersLeaving | joinTracer | joinedTracers |
      cleanTraceBufs | cleanedTraceBufs | waitTracersReady =>
    obtain ⟨⟨hmain, -⟩, rfl⟩ := h
    refine ⟨fun _ => .inl, fun htelling => .inl (.inl (htelling.resolve_right ?_))⟩
    simp [hmain, TracingPc.stopping]
  case takeList clean hd todo handled =>
    obtain ⟨hmain, rfl⟩ := h
    have hnot : ¬ s.main.stopping := by simp [hmain, TracingPc.stopping]
    split_ifs <;> exact ⟨fun _ => .inl, fun htelling => .inl (.inl (htelling.resolve_right hnot))⟩
  case pthreadCreate | addTracer | startedAll | testRunning | decrEntries =>
    obtain ⟨hmain, rfl⟩ := h
    refine ⟨fun _ => .inl, fun htelling => .inl (.inl (htelling.resolve_right ?_))⟩
    simp [hmain, TracingPc.stopping]
  all_goals
    obtain ⟨-, rfl⟩ := h
    exact ⟨fun _ => .inl, .inl⟩

theorem PcStep.waits {pc pc' : TracerPc} (h : PcStep s main' t pc pc')
    (hpc' : pc' = .blocked ∨ pc' = .condWait) :
    (pc = .blocked ∨ pc = .condWait) ∨ s.isDone t = false := by
  cases h with
  | stay => exact .inl hpc'
  | wait hnot => exact .inr hnot
  | block => exact .inl (.inr rfl)
  | create | ready | error | pass | wake | handle | read | handled | again | close | leave =>
    obtain hpc' | hpc' := hpc' <;> cases hpc'

def Woken (s : Tracing ndevs ncpus) : Prop :=
  ∀ t, s.pc t = .blocked ∨ s.pc t = .condWait → s.isDone t → Telling s

theorem woken_start : Woken (start ndevs ncpus) := fun _ _ h => by cases h

theorem Woken.next (hw : Woken s) (h : s.next host bufSize act = some s')
    (hfree : act.broadcasts → s.MutexFree) : Woken s' := by
  intro t hwaits hdone
  obtain ⟨hflag, htelling⟩ := next_telling h
  obtain hold | htold := hflag t hdone
  · obtain hwaited | hnot := (next_pc h t).waits hwaits
    · obtain hgoes | ⟨hbroadcasts, hpc⟩ := htelling (hw t hwaited hold)
      · exact hgoes
      · -- nobody is between the test and the wait, so the broadcast reaches all
        have hawake := hfree hbroadcasts t
        rw [hpc] at hwaits
        unfold broadcast at hwaits
        dsimp only at hwaits
        split_ifs at hwaits with hblocked
        · obtain hwaits | hwaits := hwaits <;> cases hwaits
        · exact absurd hwaits (not_or.mpr ⟨hblocked, hawake⟩)
    · rw [hold] at hnot
      cases hnot
  · exact htold

structure Told (s : Tracing ndevs ncpus) : Prop where
  stopping : ∀ cpu, s.main = .stopTracers cpu → ∀ t : Fin ncpus, (t : ℕ) < cpu → s.isDone t
  stopped : s.main.quiet → s.tracersRun ∨ ∀ t : Fin ncpus, (t : ℕ) < s.ntracers → s.isDone t

theorem told_start : Told (start ndevs ncpus) where
  stopping _ h := by cases h
  stopped h := by cases h

theorem Told.next (ht : Told s) (h : s.next host bufSize act = some s') : Told s' := by
  obtain ⟨hdone, -, hrun, -⟩ := next_flags h
  have hstay : s'.main = s.main → s'.ntracers = s.ntracers → Told s' := fun hmain hn => by
    refine ⟨fun cpu hcpu t hlt => hdone t (ht.stopping cpu (hmain ▸ hcpu) t hlt), fun hquiet => ?_⟩
    rw [hmain] at hquiet
    rw [hn]
    exact (ht.stopped hquiet).imp hrun fun hall t hlt => hdone t (hall t hlt)
  have hworks : s.main.quiet → s'.main.stopping = false → s'.ntracers = s.ntracers → Told s' :=
    fun hquiet hnot hn => by
      refine ⟨fun cpu hcpu => ?_, fun _ => ?_⟩
      · rw [hcpu] at hnot
        cases hnot
      · rw [hn]
        exact (ht.stopped hquiet).imp hrun fun hall t hlt => hdone t (hall t hlt)
  have hloud : s'.main.quiet = false → s'.main.stopping = false → Told s' := fun hquiet hnot => by
    refine ⟨fun cpu hcpu => ?_, fun hquiet' => ?_⟩
    · rw [hcpu] at hnot
      cases hnot
    · rw [hquiet] at hquiet'
      cases hquiet'
  cases act <;> simp only [Tracing.next, Option.ite_none_right_eq_some, Option.some.injEq,
    Option.map_eq_some_iff] at h
  case stopTracer cpu =>
    obtain ⟨⟨hmain, -⟩, rfl⟩ := h
    refine ⟨fun cpu' hcpu t hlt => ?_, fun hquiet => by cases hquiet⟩
    obtain rfl := TracingPc.stopTracers.inj hcpu
    obtain hlt | heq := Nat.lt_succ_iff_lt_or_eq.mp hlt
    · exact hdone t (ht.stopping cpu hmain t hlt)
    · exact if_pos heq
  case stoppedTracers cpu =>
    obtain ⟨⟨hmain, hall⟩, rfl⟩ := h
    refine ⟨fun cpu' hcpu => (by cases hcpu), fun _ => .inr fun t hlt => ?_⟩
    exact ht.stopping cpu hmain t (hlt.trans_le hall)
  case unblockTracers =>
    obtain ⟨-, rfl⟩ := h
    exact ⟨fun _ hcpu => (by cases hcpu), fun _ => .inl rfl⟩
  case testRunning =>
    obtain ⟨-, rfl⟩ := h
    refine ⟨fun cpu hcpu t hlt => ?_, fun hquiet => ?_⟩
    · dsimp only at hcpu
      split_ifs at hcpu
      obtain rfl := TracingPc.stopTracers.inj hcpu
      exact absurd hlt (Nat.not_lt_zero _)
    · dsimp only at hquiet
      split_ifs at hquiet <;> cases hquiet
  case waitEntries | waitDone =>
    obtain ⟨⟨hmain, -⟩, rfl⟩ := h
    exact hworks (by rw [hmain]; rfl) rfl rfl
  case takeList clean hd todo handled =>
    obtain ⟨hmain, hs'⟩ := h
    cases clean with
    | false => split_ifs at hs' <;> subst hs' <;> exact hworks (by rw [hmain]; rfl) rfl rfl
    | true => split_ifs at hs' <;> subst hs' <;> exact hloud rfl rfl
  case handleList clean hd list todo handled =>
    obtain ⟨hmain, r, -, rfl⟩ := h
    cases clean with
    | false => exact hworks (by rw [hmain]; rfl) rfl rfl
    | true => exact hloud rfl rfl
  case decrEntries clean handled =>
    obtain ⟨hmain, rfl⟩ := h
    cases clean with
    | false => exact hworks (by rw [hmain]; rfl) rfl rfl
    | true => exact hloud rfl rfl
  case waitTracersLeaving | joinTracer | joinedTracers | cleanTraceBufs | cleanedTraceBufs |
      waitTracersReady | pthreadCreate | addTracer | startedAll =>
    obtain ⟨-, rfl⟩ := h
    exact hloud rfl rfl
  case signalReady u ok =>
    obtain ⟨-, rfl⟩ := h
    cases ok <;> exact hstay rfl rfl
  all_goals
    obtain ⟨-, rfl⟩ := h
    exact hstay rfl rfl

/-- If no broadcast of `stop_tracers` comes between the test and the wait of a tracer, no tracer
sleeps after the last broadcast. -/
theorem tracing_wakeup {steps : List (TracingStep ndevs ncpus)} (h : Traces host bufSize steps s)
    (hfree : ∀ step ∈ steps, step.2.1.broadcasts → step.1.MutexFree) (t : Fin ncpus) :
    ¬ Asleep s t := by
  intro ha
  obtain ⟨hawake, -⟩ := tracing_barrier h
  have hp := (traces_placed h).2
  have hw : Woken s := h.invariant_of Woken (by
    rintro _ rfl
    exact woken_start) (fun _ _ _ hw hstep hfree => hw.next hstep hfree) hfree
  have ht : Told s := h.invariant Told (by
    rintro _ rfl
    exact told_start) fun _ _ _ ht => ht.next
  obtain hrun | hall := ht.stopped ha.quiet
  · exact (hawake hrun t).2.1 ha.blocked
  · have hlt : (t : ℕ) < s.created := by
      by_contra hge
      have habsent := hp.absent t (Nat.le_of_not_lt hge)
      rw [ha.blocked] at habsent
      cases habsent
    have hquiet := ha.quiet
    have hcreated : s.created = s.ntracers := by
      rw [created]
      generalize s.main = pc at hquiet ⊢
      cases pc with
      | addTracer => cases hquiet
      | _ => rfl
    have htelling := hw t (.inl ha.blocked) (hall t (hcreated ▸ hlt))
    obtain hhandler | hstopping := htelling
    · exact hhandler ha.handler
    · generalize s.main = pc at hquiet hstopping
      cases pc with
      | stopTracers => cases hquiet
      | _ => cases hstopping

theorem tracing_wakeup_stopped :
    ∃ steps, ∃ s : Tracing 1 2, Traces .little 64 steps s ∧ s.main.quiet ∧ s.isDone 0 ∧
      s.pc 0 = .waitUnblock ∧ ¬ Asleep s 0 := by
  have hrun := @traces_trySteps 1 2 .little 64 _
    [.pthreadCreate 0, .addTracer 0, .startedAll 1, .signalReady 0 true, .waitTracersReady 1,
      .testRunning, .testUnblock 0, .condWait 0, .stopTracer 0, .stoppedTracers 1] _ rfl
  exact ⟨_, _, hrun, rfl, rfl, rfl, tracing_wakeup hrun (by decide) 0⟩

end Tracing

end SBlktrace
