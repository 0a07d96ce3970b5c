import SBlktrace.TracerThreads

/-!
The barrier of the tracer threads, and the order in which the main thread waits for them.
-/

namespace SBlktrace

open Function ByteOrder

namespace TracingPc

variable {ndevs ncpus : ℕ}

def adding : TracingPc ndevs ncpus → Bool
  | addTracer _ => true
  | _ => false

def working : TracingPc ndevs ncpus → Bool
  | waitTracersReady _ | startedTracers | stopTracers _ | waitEmptyEntries
  | processTraceBufs false _ _ | handleList false _ _ _ _ => true
  | _ => false

def joinedAll : TracingPc ndevs ncpus → Bool
  | processTraceBufs true _ _ | handleList true _ _ _ _ | cleanTraceBufs | returned => true
  | _ => false

def closing : TracingPc ndevs ncpus → Bool
  | waitTracersLeaving | joinTracers _ => true
  | pc => pc.joinedAll

end TracingPc

namespace Tracing

variable {ndevs ncpus : ℕ} {host : Endian} {bufSize : ℕ} {s s' : Tracing ndevs ncpus}
  {t : Fin ncpus} {act : TracingAction ndevs ncpus} {main' : TracingPc ndevs ncpus}

inductive MainStep (s : Tracing ndevs ncpus) (ntracers' : ℕ) :
    TracingPc ndevs ncpus → TracingPc ndevs ncpus → Prop
  | stay (pc : TracingPc ndevs ncpus) (hn : ntracers' = s.ntracers) : MainStep s ntracers' pc pc
  | create (cpu : Fin ncpus) (hn : ntracers' = s.ntracers) :
      MainStep s ntracers' (.startTracers cpu) (.addTracer cpu)
  | add (cpu : Fin ncpus) (hn : ntracers' = s.ntracers + 1) :
      MainStep s ntracers' (.addTracer cpu) (.startTracers (cpu + 1))
  | work {pc pc' : TracingPc ndevs ncpus} (hn : ntracers' = s.ntracers) (hpc : pc.adding = false)
      (hpc' : pc'.working) : MainStep s ntracers' pc pc'
  | enough (hn : ntracers' = s.ntracers) (hall : s.nthreadsRunning = ncpus) :
      MainStep s ntracers' .startedTracers .unblockTracers
  | leave (hn : ntracers' = s.ntracers) (hdone : s.done) :
      MainStep s ntracers' .waitEmptyEntries .waitTracersLeaving
  | startJoin (hn : ntracers' = s.ntracers) :
      MainStep s ntracers' .waitTracersLeaving (.joinTracers 0)
  | join (cpu : ℕ) (hn : ntracers' = s.ntracers)
      (hsettled : ∀ t : Fin ncpus, (t : ℕ) = cpu → (s.pc t).settled) :
      MainStep s ntracers' (.joinTracers cpu) (.joinTracers (cpu + 1))
  | joined (cpu : ℕ) (hn : ntracers' = s.ntracers) (hall : s.ntracers ≤ cpu) :
      MainStep s ntracers' (.joinTracers cpu) .cleanTraceBufs
  | clean {pc pc' : TracingPc ndevs ncpus} (hn : ntracers' = s.ntracers) (hpc : pc.joinedAll)
      (hpc' : pc'.joinedAll) : MainStep s ntracers' pc pc'

theorem next_main (h : s.next host bufSize act = some s') :
    MainStep s s'.ntracers s.main s'.main := by
  cases act <;> simp only [next, Option.ite_none_right_eq_some, Option.some.injEq,
    Option.map_eq_some_iff] at h
  case signalReady u ok =>
    obtain ⟨-, rfl⟩ := h
    cases ok <;> exact .stay _ rfl
  case pthreadCreate cpu =>
    obtain ⟨hmain, rfl⟩ := h
    exact hmain ▸ .create cpu rfl
  case addTracer cpu =>
    obtain ⟨hmain, rfl⟩ := h
    exact hmain ▸ .add cpu rfl
  case startedAll cpu =>
    obtain ⟨hmain, rfl⟩ := h
    exact hmain ▸ .work rfl rfl rfl
  case testRunning =>
    obtain ⟨hmain, rfl⟩ := h
    rw [hmain]
    dsimp only
    split_ifs with hall
    · exact .enough rfl hall
    · exact .work rfl rfl rfl
  case waitTracersReady | unblockTracers | stopTracer | stoppedTracers | waitEntries =>
    obtain ⟨⟨hmain, -⟩, rfl⟩ := h
    exact hmain ▸ .work rfl rfl rfl
  case waitDone =>
    obtain ⟨⟨hmain, hdone⟩, rfl⟩ := h
    exact hmain ▸ .leave rfl hdone
  case takeList clean hd todo handled =>
    obtain ⟨hmain, rfl⟩ := h
    rw [hmain]
    cases clean with
    | false => split_ifs <;> exact .work rfl rfl rfl
    | true => split_ifs <;> exact .clean rfl rfl rfl
  case handleList clean hd list todo handled =>
    obtain ⟨hmain, r, -, rfl⟩ := h
    rw [hmain]
    cases clean with
    | false => exact .work rfl rfl rfl
    | true => exact .clean rfl rfl rfl
  case decrEntries clean handled =>
    obtain ⟨hmain, rfl⟩ := h
    rw [hmain]
    cases clean with
    | false => exact .work rfl rfl rfl
    | true => exact .clean rfl rfl rfl
  case waitTracersLeaving =>
    obtain ⟨⟨hmain, -⟩, rfl⟩ := h
    exact hmain ▸ .startJoin rfl
  case joinTracer cpu =>
    obtain ⟨⟨hmain, -, hsettled⟩, rfl⟩ := h
    exact hmain ▸ .join cpu rfl hsettled
  case joinedTracers cpu =>
    obtain ⟨⟨hmain, hall⟩, rfl⟩ := h
    exact hmain ▸ .joined cpu rfl hall
  case cleanTraceBufs | cleanedTraceBufs =>
    obtain ⟨⟨hmain, -⟩, rfl⟩ := h
    exact hmain ▸ .clean rfl rfl rfl
  all_goals
    obtain ⟨-, rfl⟩ := h
    exact .stay _ rfl

def created (s : Tracing ndevs ncpus) : ℕ := s.ntracers + if s.main.adding then 1 else 0

structure Placed (s : Tracing ndevs ncpus) : Prop where
  absent : ∀ t : Fin ncpus, s.created ≤ t → s.pc t = .absent
  starting : ∀ cpu, s.main = .startTracers cpu ∨ s.main = .addTracer cpu → s.ntracers = cpu
  started : s.main = .unblockTracers ∨ s.tracersRun → ∀ t, (s.pc t).started
  joined : ∀ cpu, s.main = .joinTracers cpu → ∀ t : Fin ncpus, (t : ℕ) < cpu → (s.pc t).settled
  ended : s.main.joinedAll → ∀ t, (s.pc t).settled

theorem placed_start : Placed (start ndevs ncpus) where
  absent _ _ := rfl
  starting cpu h := by
    obtain h | h := h
    · exact TracingPc.startTracers.inj h
    · cases h
  started h := by
    obtain h | h := h <;> cases h
  joined cpu h := by cases h
  ended h := by cases h

theorem PcStep.absent {pc pc' : TracerPc} (h : PcStep s main' t pc pc') (hpc : pc = .absent) :
    pc' = .absent ∨ s.main = .startTracers t ∧ main' = .addTracer t := by
  subst hpc
  cases h with
  | stay => exact .inl rfl
  | create _ hmain hmain' => exact .inr ⟨hmain, hmain'⟩

theorem PcStep.started {pc pc' : TracerPc} (h : PcStep s main' t pc pc')
    (hnew : s.main ≠ .startTracers t) (hpc : pc.started) : pc'.started := by
  cases h with
  | stay => exact hpc
  | create _ hmain => exact absurd hmain hnew
  | error => cases hpc
  | ready | wait | pass | block | wake | handle | read | handled | again | close | leave => rfl

theorem PcStep.settled {pc pc' : TracerPc} (h : PcStep s main' t pc pc')
    (hnew : s.main ≠ .startTracers t) (hpc : pc.settled) : pc'.settled := by
  cases h with
  | stay => exact hpc
  | create _ hmain => exact absurd hmain hnew
  | error => rfl
  | leave => rfl
  | ready | wait | pass | block | wake | handle | read | handled | again | close => cases hpc

theorem Counted.all_started (hc : Counted s) (hall : s.nthreadsRunning = ncpus) (t : Fin ncpus) :
    (s.pc t).started := by
  by_contra hnot
  have hlt : s.count TracerPc.started < ∑ _t : Fin ncpus, 1 := by
    refine Finset.sum_lt_sum (fun u _ => ?_) ⟨t, Finset.mem_univ t, ?_⟩
    · split_ifs <;> decide
    · rw [if_neg hnot]
      decide
  rw [← hc.running, hall, Finset.sum_const, Finset.card_univ, Fintype.card_fin, smul_eq_mul,
    mul_one] at hlt
  exact lt_irrefl _ hlt

theorem TracingPc.not_adding {pc : TracingPc ndevs ncpus} (h : pc.joinedAll) :
    pc.adding = false := by
  cases pc with
  | addTracer => cases h
  | _ => rfl

theorem TracingPc.closing_of_joinedAll {pc : TracingPc ndevs ncpus} (h : pc.joinedAll) :
    pc.closing := by
  cases pc with
  | processTraceBufs | handleList | cleanTraceBufs | returned => exact h
  | _ => cases h

theorem TracingPc.not_closing {pc : TracingPc ndevs ncpus} (h : pc.working) :
    pc.closing = false := by
  cases pc with
  | processTraceBufs clean | handleList clean =>
    cases clean with
    | false => rfl
    | true => cases h
  | waitTracersReady | startedTracers | stopTracers | waitEmptyEntries => rfl
  | _ => cases h

theorem next_created (h : s.next host bufSize act = some s') :
    s.ntracers ≤ s'.ntracers ∧ s.created ≤ s'.created := by
  have hmain := next_main h
  rw [created, created]
  generalize s.main = pc at hmain ⊢
  generalize s'.main = pc' at hmain ⊢
  cases hmain with
  | stay _ hn => rw [hn]; exact ⟨le_rfl, le_rfl⟩
  | add cpu hn => rw [hn]; exact ⟨Nat.le_succ _, le_rfl⟩
  | work hn hpc =>
    rw [hn, hpc]
    exact ⟨le_rfl, Nat.le_add_right _ _⟩
  | clean hn hpc =>
    rw [hn, TracingPc.not_adding hpc]
    exact ⟨le_rfl, Nat.le_add_right _ _⟩
  | create cpu hn | enough hn | leave hn | startJoin hn | join cpu hn | joined cpu hn =>
    rw [hn]
    exact ⟨le_rfl, Nat.le_add_right _ _⟩

theorem Placed.not_started (hp : Placed s) (hmain : s.main = .startTracers t) :
    s.pc t = .absent := by
  apply hp.absent
  rw [created, hmain, hp.starting t (.inl hmain)]
  exact le_rfl

theorem Placed.absent_next (hp : Placed s) (h : s.next host bufSize act = some s')
    (ht : s'.created ≤ t) : s'.pc t = .absent := by
  obtain ⟨hn, hle⟩ := next_created h
  obtain habsent | ⟨hmain, hmain'⟩ := (next_pc h t).absent (hp.absent t (hle.trans ht))
  · exact habsent
  · rw [hp.starting t (.inl hmain)] at hn
    rw [created, hmain'] at ht
    exact absurd (hn.trans (Nat.le_of_succ_le ht)) (by
      have : s'.ntracers + 1 ≤ t := ht
      omega)

theorem Placed.starting_next (hp : Placed s) (h : s.next host bufSize act = some s') {cpu : ℕ}
    (hcpu : s'.main = .startTracers cpu ∨ s'.main = .addTracer cpu) : s'.ntracers = cpu := by
  have hmain := next_main h
  have hstart := hp.starting
  generalize s.main = pc at hmain hstart
  generalize s'.main = pc' at hmain hcpu
  cases hmain with
  | stay _ hn =>
    rw [hn]
    exact hstart cpu hcpu
  | create cpu₀ hn =>
    obtain hcpu | hcpu := hcpu
    · cases hcpu
    · rw [hn, hstart cpu₀ (.inl rfl)]
      exact TracingPc.addTracer.inj hcpu
  | add cpu₀ hn =>
    obtain hcpu | hcpu := hcpu
    · rw [hn, hstart cpu₀ (.inr rfl)]
      exact TracingPc.startTracers.inj hcpu
    · cases hcpu
  | work _ _ hpc' => obtain rfl | rfl := hcpu <;> cases hpc'
  | clean _ _ hpc' => obtain rfl | rfl := hcpu <;> cases hpc'
  | enough | leave | startJoin | join | joined => obtain hcpu | hcpu := hcpu <;> cases hcpu

theorem Placed.started_next (hp : Placed s) (hc : Counted s)
    (h : s.next host bufSize act = some s')
    (hbegun : s'.main = .unblockTracers ∨ s'.tracersRun) (t : Fin ncpus) : (s'.pc t).started := by
  have hmain := next_main h
  have hkeep : s.main = .unblockTracers ∨ s.tracersRun → (s'.pc t).started := fun hold => by
    have hstarted := hp.started hold t
    refine (next_pc h t).started (fun hnew => ?_) hstarted
    rw [hp.not_started hnew] at hstarted
    cases hstarted
  obtain hbegun | hrun := hbegun
  · rw [hbegun] at hmain
    generalize hpc : s.main = pc at hmain
    cases hmain with
    | stay => exact hkeep (.inl hpc)
    | enough _ hall =>
      exact (next_pc h t).started (by rw [hpc]; exact nofun) (hc.all_started hall t)
    | work _ _ hpc' => cases hpc'
    | clean _ _ hpc' => cases hpc'
  · obtain ⟨-, -, -, hset⟩ := next_flags h
    obtain hold | ⟨hold, -⟩ := hset hrun
    · exact hkeep (.inr hold)
    · exact hkeep (.inl hold)

theorem Placed.joined_next (hp : Placed s) (h : s.next host bufSize act = some s') {cpu : ℕ}
    (hcpu : s'.main = .joinTracers cpu) (ht : (t : ℕ) < cpu) : (s'.pc t).settled := by
  have hmain := next_main h
  rw [hcpu] at hmain
  generalize hpc : s.main = pc at hmain
  have hkeep : (∀ cpu, pc ≠ .startTracers cpu) → (s.pc t).settled → (s'.pc t).settled :=
    fun hnew => (next_pc h t).settled (by rw [hpc]; exact hnew t)
  cases hmain with
  | stay => exact hkeep (fun _ => nofun) (hp.joined cpu hpc t ht)
  | startJoin => exact absurd ht (Nat.not_lt_zero _)
  | join cpu₀ _ hsettled =>
    obtain hlt | heq := Nat.lt_succ_iff_lt_or_eq.mp ht
    · exact hkeep (fun _ => nofun) (hp.joined cpu₀ hpc t hlt)
    · exact hkeep (fun _ => nofun) (hsettled t heq)
  | work _ _ hpc' => cases hpc'
  | clean _ _ hpc' => cases hpc'

theorem Placed.ended_next (hp : Placed s) (h : s.next host bufSize act = some s')
    (hended : s'.main.joinedAll) (t : Fin ncpus) : (s'.pc t).settled := by
  have hmain := next_main h
  generalize s'.main = pc' at hmain hended
  generalize hpc : s.main = pc at hmain
  have hkeep : (∀ cpu, pc ≠ .startTracers cpu) → (s.pc t).settled → (s'.pc t).settled :=
    fun hnew => (next_pc h t).settled (by rw [hpc]; exact hnew t)
  cases hmain with
  | stay =>
    refine hkeep (fun cpu hcpu => ?_) (hp.ended (by rw [hpc]; exact hended) t)
    rw [hcpu] at hended
    cases hended
  | joined cpu _ hall =>
    refine hkeep (fun _ => nofun) ?_
    obtain hlt | hge := Nat.lt_or_ge t cpu
    · exact hp.joined cpu hpc t hlt
    · have habsent : s.pc t = .absent := hp.absent t (by
        rw [created, hpc]
        exact hall.trans hge)
      rw [habsent]
      rfl
  | clean _ hpc₀ =>
    refine hkeep (fun cpu hcpu => ?_) (hp.ended (by rw [hpc]; exact hpc₀) t)
    rw [hcpu] at hpc₀
    cases hpc₀
  | work _ _ hpc' =>
    cases pc' with
    | processTraceBufs clean | handleList clean => cases clean <;> trivial
    | _ => trivial
  | create | add | enough | leave | startJoin | join => cases hended

theorem Placed.next (hp : Placed s) (hc : Counted s) (h : s.next host bufSize act = some s') :
    Placed s' where
  absent _ := hp.absent_next h
  starting _ := hp.starting_next h
  started := hp.started_next hc h
  joined _ hcpu _ := hp.joined_next h hcpu
  ended := hp.ended_next h

theorem closing_done_next (hi : s.main.closing → s.done) (h : s.next host bufSize act = some s')
    (hclosing : s'.main.closing) : s'.done := by
  obtain ⟨-, hdone, -⟩ := next_flags h
  apply hdone
  have hmain := next_main h
  generalize s.main = pc at hmain hi
  generalize s'.main = pc' at hmain hclosing
  cases hmain with
  | stay => exact hi hclosing
  | leave _ hdone => exact hdone
  | startJoin | join | joined => exact hi rfl
  | clean _ hpc => exact hi (TracingPc.closing_of_joinedAll hpc)
  | work _ _ hpc' =>
    rw [TracingPc.not_closing hpc'] at hclosing
    cases hclosing
  | create | add | enough => cases hclosing

theorem traces_placed {steps : List (TracingStep ndevs ncpus)} (h : Traces host bufSize steps s) :
    Counted s ∧ Placed s := by
  refine h.invariant (fun s => Counted s ∧ Placed s) ?_ ?_
  · rintro _ rfl
    exact ⟨counted_start, placed_start⟩
  · rintro s act s' ⟨hc, hp⟩ hstep
    exact ⟨hc.next hstep fun cpu => hp.not_started, hp.next hc hstep⟩

theorem traces_trySteps {acts : List (TracingAction ndevs ncpus)}
    {steps : List (TracingStep ndevs ncpus)}
    (h : Run.trySteps (Tracing.next host bufSize) (start ndevs ncpus) acts = some (steps, s)) :
    Traces host bufSize steps s :=
  Run.trySteps_run (fun _ _ _ h => h) rfl h

/-- A tracer passes the barrier only when all tracers run or it is told to stop, and reads what is
left only when it is told to. Once the barrier is open nobody waits at it, and the lists are
cleaned only after every tracer is gone. -/
theorem tracing_barrier {steps : List (TracingStep ndevs ncpus)}
    (h : Traces host bufSize steps s) :
    (s.tracersRun → ∀ t, (s.pc t).started ∧ s.pc t ≠ .blocked ∧ s.pc t ≠ .condWait) ∧
      (∀ t, (s.pc t).unblocked → s.tracersRun ∨ s.isDone t) ∧
      (∀ t, (s.pc t).drains → s.isDone t) ∧
      s.nthreadsRunning = s.count TracerPc.started ∧ s.nthreadsLeaving = s.count (· = .leaving) ∧
      s.nthreadsError = s.count (· = .failed) ∧
      (s.main.closing → s.done) ∧ (s.main.joinedAll → ∀ t, (s.pc t).settled) := by
  obtain ⟨hc, hp⟩ := traces_placed h
  have hr : Released s := h.invariant Released (by
    rintro _ rfl
    exact released_start) fun _ _ _ hr => hr.next
  have hdone : s.main.closing → s.done := h.invariant (fun s => s.main.closing → s.done) (by
    rintro _ rfl
    exact nofun) fun _ _ _ hi hstep => closing_done_next hi hstep
  refine ⟨fun hrun t => ?_, hr.past, hr.drains, hc.running, hc.leaving, hc.error, hdone, hp.ended⟩
  exact ⟨hp.started (.inr hrun) t, hr.awake hrun t⟩

theorem tracing_barrier_two :
    ∃ steps, ∃ s : Tracing 1 2, Traces .little 64 steps s ∧ s.tracersRun ∧ s.pc 1 = .poll ∧
      (s.tracersRun → ∀ t, (s.pc t).started ∧ s.pc t ≠ .blocked ∧ s.pc t ≠ .condWait) ∧
      (∀ t, (s.pc t).unblocked → s.tracersRun ∨ s.isDone t) ∧
      (∀ t, (s.pc t).drains → s.isDone t) ∧
      s.nthreadsRunning = s.count TracerPc.started ∧ s.nthreadsLeaving = s.count (· = .leaving) ∧
      s.nthreadsError = s.count (· = .failed) ∧
      (s.main.closing → s.done) ∧ (s.main.joinedAll → ∀ t, (s.pc t).settled) := by
  have hrun := @traces_trySteps 1 2 .little 64 _
    [.pthreadCreate 0, .signalReady 0 true, .testUnblock 0, .condWait 0, .addTracer 0,
      .pthreadCreate 1, .addTracer 1, .startedAll 2, .signalReady 1 true, .waitTracersReady 2,
      .testRunning, .unblockTracers, .testUnblock 1] _ rfl
  exact ⟨_, _, hrun, rfl, rfl, tracing_barrier hrun⟩

end Tracing

end SBlktrace
