import SBlktrace.Transition
import SBlktrace.TraceBuffers

/-!
`blktrace` with its output piped: a tracer thread for each CPU reads the traces of all devices, and
the main thread takes the buffers from them and writes the traces out.
-/

namespace SBlktrace

open Function ByteOrder

deriving instance DecidableEq for TraceBuf

/-- Where a tracer stands in `thread_main`. In `handle_pfds` it comes to the device `dev` next;
with `drain` it reads what is left. -/
inductive TracerPc where
  | absent | openIos | waitUnblock | condWait | blocked | poll
  | handlePfds (drain : Bool) (dev : ℕ)
  | closeIos | leaving | failed
  deriving DecidableEq

abbrev HeadId (ndevs ncpus : ℕ) := Fin ndevs × Fin ncpus

/-- Where the main thread stands in `run_tracers`. In `__process_trace_bufs`, which is part of
`clean_trace_bufs` or not, it has the lists `todo` before it and has handled `handled` entries. -/
inductive TracingPc (ndevs ncpus : ℕ) where
  | startTracers (cpu : ℕ)
  | addTracer (cpu : ℕ)
  | waitTracersReady (cpu : ℕ)
  | startedTracers
  | unblockTracers
  | stopTracers (cpu : ℕ)
  | waitEmptyEntries
  | processTraceBufs (clean : Bool) (todo : List (HeadId ndevs ncpus)) (handled : ℕ)
  | handleList (clean : Bool) (hd : HeadId ndevs ncpus) (list : List TraceBuf)
      (todo : List (HeadId ndevs ncpus)) (handled : ℕ)
  | waitTracersLeaving
  | joinTracers (cpu : ℕ)
  | cleanTraceBufs
  | returned
  deriving DecidableEq

/-- `ntracers` is the length of the list `tracers`, and `handler` the tracer that `handle_sigint`
stops next, while it runs. -/
structure Tracing (ndevs ncpus : ℕ) where
  pc : Fin ncpus → TracerPc
  isDone : Fin ncpus → Bool
  nentries : Fin ncpus → ℕ
  ntracers : ℕ
  nthreadsRunning : ℕ
  nthreadsLeaving : ℕ
  nthreadsError : ℕ
  tracersRun : Bool
  done : Bool
  dpEntries : ℤ
  list : HeadId ndevs ncpus → List TraceBuf
  head : HeadId ndevs ncpus → DevpathHead
  main : TracingPc ndevs ncpus
  handler : Option ℕ

inductive TracingAction (ndevs ncpus : ℕ) where
  | signalReady (t : Fin ncpus) (ok : Bool)
  | testUnblock (t : Fin ncpus)
  | condWait (t : Fin ncpus)
  | wake (t : Fin ncpus)
  | testDone (t : Fin ncpus)
  | addTraceBuf (t : Fin ncpus) (drain : Bool) (dev : Fin ndevs) (tbp : TraceBuf)
  | readNothing (t : Fin ncpus) (drain : Bool) (dev : Fin ndevs)
  | incrEntries (t : Fin ncpus) (drain : Bool)
  | signalLeaving (t : Fin ncpus)
  | pthreadCreate (cpu : Fin ncpus)
  | addTracer (cpu : Fin ncpus)
  | startedAll (cpu : ℕ)
  | waitTracersReady (cpu : ℕ)
  | testRunning
  | unblockTracers
  | stopTracer (cpu : ℕ)
  | stoppedTracers (cpu : ℕ)
  | waitEntries
  | waitDone
  | takeList (clean : Bool) (hd : HeadId ndevs ncpus) (todo : List (HeadId ndevs ncpus))
      (handled : ℕ)
  | handleList (clean : Bool) (hd : HeadId ndevs ncpus) (list : List (TraceBuf × Option ℕ))
      (todo : List (HeadId ndevs ncpus)) (handled : ℕ)
  | decrEntries (clean : Bool) (handled : ℕ)
  | waitTracersLeaving
  | joinTracer (cpu : ℕ)
  | joinedTracers (cpu : ℕ)
  | cleanTraceBufs
  | cleanedTraceBufs
  | sigint
  | sigStopTracer (cpu : ℕ)
  | sigReturn (cpu : ℕ)
  deriving DecidableEq

namespace TracerPc

def started : TracerPc → Bool
  | absent | openIos | failed => false
  | _ => true

def unblocked : TracerPc → Bool
  | poll | handlePfds _ _ | closeIos | leaving => true
  | _ => false

def drains : TracerPc → Bool
  | handlePfds true _ | closeIos | leaving => true
  | _ => false

def reading : TracerPc → Bool
  | handlePfds _ _ => true
  | _ => false

def settled : TracerPc → Bool
  | absent | leaving | failed => true
  | _ => false

end TracerPc

namespace Tracing

variable {ndevs ncpus : ℕ}

def start (ndevs ncpus : ℕ) : Tracing ndevs ncpus where
  pc _ := .absent
  isDone _ := false
  nentries _ := 0
  ntracers := 0
  nthreadsRunning := 0
  nthreadsLeaving := 0
  nthreadsError := 0
  tracersRun := false
  done := false
  dpEntries := 0
  list _ := []
  head _ := newDevpathHead
  main := .startTracers 0
  handler := none

def heads (ndevs ncpus : ℕ) : List (HeadId ndevs ncpus) :=
  (List.finRange ndevs).product (List.finRange ncpus)

section

variable (host : Endian) (bufSize : ℕ) (s : Tracing ndevs ncpus)

def goto (t : Fin ncpus) (pc : TracerPc) : Tracing ndevs ncpus :=
  { s with pc := update s.pc t pc }

def MutexFree : Prop := ∀ t, s.pc t ≠ .condWait

instance : Decidable s.MutexFree := inferInstanceAs (Decidable (∀ _, _))

def broadcast : Tracing ndevs ncpus :=
  { s with pc := fun t => if s.pc t = .blocked then .waitUnblock else s.pc t }

def setDone (cpu : ℕ) : Tracing ndevs ncpus :=
  { s with isDone := fun t => if (t : ℕ) = cpu then true else s.isDone t }

def next : TracingAction ndevs ncpus → Option (Tracing ndevs ncpus)
  | .signalReady t ok =>
    if s.pc t = .openIos ∧ s.MutexFree then
      some (if ok then { s with nthreadsRunning := s.nthreadsRunning + 1 }.goto t .waitUnblock
        else { s with nthreadsError := s.nthreadsError + 1 }.goto t .failed)
    else none
  | .testUnblock t =>
    if s.pc t = .waitUnblock ∧ s.MutexFree then
      some (s.goto t (if !s.isDone t && !s.tracersRun then .condWait else .poll))
    else none
  | .condWait t => if s.pc t = .condWait then some (s.goto t .blocked) else none
  -- a wait may end at any time, by itself or by the `pthread_cond_signal` of `signalReady`
  | .wake t => if s.pc t = .blocked then some (s.goto t .waitUnblock) else none
  | .testDone t =>
    if s.pc t = .poll then some (s.goto t (.handlePfds (s.isDone t) 0)) else none
  | .addTraceBuf t drain dev tbp =>
    if s.pc t = .handlePfds drain dev ∧ 0 < tbp.len ∧ tbp.buf.length = bufSize then
      some ({ s with
        list := update s.list (dev, t) (s.list (dev, t) ++ [tbp])
        nentries := update s.nentries t (s.nentries t + 1) }.goto t (.handlePfds drain (dev + 1)))
    else none
  | .readNothing t drain dev =>
    if s.pc t = .handlePfds drain dev then some (s.goto t (.handlePfds drain (dev + 1))) else none
  | .incrEntries t drain =>
    if s.pc t = .handlePfds drain ndevs then
      some ({ s with
        dpEntries := s.dpEntries + s.nentries t
        nentries := update s.nentries t 0 }.goto t
          (if !drain then .poll else if 0 < s.nentries t then .handlePfds true 0 else .closeIos))
    else none
  | .signalLeaving t =>
    if s.pc t = .closeIos ∧ s.MutexFree then
      some ({ s with nthreadsLeaving := s.nthreadsLeaving + 1 }.goto t .leaving)
    else none
  | .pthreadCreate cpu =>
    if s.main = .startTracers cpu then
      some ({ s with main := .addTracer cpu }.goto cpu .openIos)
    else none
  | .addTracer cpu =>
    if s.main = .addTracer cpu then
      some { s with ntracers := s.ntracers + 1, main := .startTracers (cpu + 1) }
    else none
  -- all threads are there, or one more cannot be created
  | .startedAll cpu =>
    if s.main = .startTracers cpu then some { s with main := .waitTracersReady cpu } else none
  | .waitTracersReady cpu =>
    if s.main = .waitTracersReady cpu ∧ cpu ≤ s.nthreadsRunning + s.nthreadsError ∧ s.MutexFree then
      some { s with main := .startedTracers }
    else none
  | .testRunning =>
    if s.main = .startedTracers then
      some { s with main := if s.nthreadsRunning = ncpus then .unblockTracers else .stopTracers 0 }
    else none
  | .unblockTracers =>
    if s.main = .unblockTracers ∧ s.MutexFree then
      some { s with tracersRun := true, main := .waitEmptyEntries }.broadcast
    else none
  | .stopTracer cpu =>
    if s.main = .stopTracers cpu ∧ cpu < s.ntracers then
      some ({ s with main := .stopTracers (cpu + 1) }.setDone cpu)
    else none
  | .stoppedTracers cpu =>
    if s.main = .stopTracers cpu ∧ s.ntracers ≤ cpu then
      some { s with main := .waitEmptyEntries }.broadcast
    else none
  | .waitEntries =>
    if s.main = .waitEmptyEntries ∧ s.done = false ∧ s.dpEntries ≠ 0 then
      some { s with main := .processTraceBufs false (heads ndevs ncpus) 0 }
    else none
  | .waitDone =>
    if s.main = .waitEmptyEntries ∧ s.done then some { s with main := .waitTracersLeaving } else none
  | .takeList clean hd todo handled =>
    if s.main = .processTraceBufs clean (hd :: todo) handled then
      some (if s.list hd = [] then { s with main := .processTraceBufs clean todo handled }
        else { s with
          list := update s.list hd []
          main := .handleList clean hd (s.list hd) todo handled })
    else none
  | .handleList clean hd list todo handled =>
    if s.main = .handleList clean hd (list.map Prod.fst) todo handled then
      ((s.head hd).handleListFile host bufSize list).map fun r => { s with
        head := update s.head hd r.1
        main := .processTraceBufs clean todo (handled + r.2) }
    else none
  | .decrEntries clean handled =>
    if s.main = .processTraceBufs clean [] handled then
      some { s with
        dpEntries := s.dpEntries - handled
        main := if clean then .cleanTraceBufs else .waitEmptyEntries }
    else none
  | .waitTracersLeaving =>
    if s.main = .waitTracersLeaving ∧ s.nthreadsRunning ≤ s.nthreadsLeaving ∧ s.MutexFree then
      some { s with main := .joinTracers 0 }
    else none
  | .joinTracer cpu =>
    if s.main = .joinTracers cpu ∧ cpu < s.ntracers ∧
        ∀ t : Fin ncpus, (t : ℕ) = cpu → (s.pc t).settled then
      some { s with main := .joinTracers (cpu + 1) }
    else none
  | .joinedTracers cpu =>
    if s.main = .joinTracers cpu ∧ s.ntracers ≤ cpu then some { s with main := .cleanTraceBufs }
    else none
  | .cleanTraceBufs =>
    if s.main = .cleanTraceBufs ∧ s.dpEntries ≠ 0 then
      some { s with main := .processTraceBufs true (heads ndevs ncpus) 0 }
    else none
  | .cleanedTraceBufs =>
    if s.main = .cleanTraceBufs ∧ s.dpEntries = 0 then some { s with main := .returned } else none
  | .sigint =>
    if s.handler = none then some { s with done := true, handler := some 0 } else none
  | .sigStopTracer cpu =>
    if s.handler = some cpu ∧ cpu < s.ntracers then
      some ({ s with handler := some (cpu + 1) }.setDone cpu)
    else none
  | .sigReturn cpu =>
    if s.handler = some cpu ∧ s.ntracers ≤ cpu then some { s with handler := none }.broadcast
    else none

end

abbrev TracingStep (ndevs ncpus : ℕ) :=
  Tracing ndevs ncpus × TracingAction ndevs ncpus × Tracing ndevs ncpus

def Traces (host : Endian) (bufSize : ℕ) :
    List (TracingStep ndevs ncpus) → Tracing ndevs ncpus → Prop :=
  Run (· = start ndevs ncpus) fun s act s' => s.next host bufSize act = some s'

variable {host : Endian} {bufSize : ℕ} {s s' : Tracing ndevs ncpus} {t : Fin ncpus}
  {act : TracingAction ndevs ncpus} {main' : TracingPc ndevs ncpus}

@[simp] theorem pc_goto (s : Tracing ndevs ncpus) (t : Fin ncpus) (pc : TracerPc) :
    (s.goto t pc).pc = update s.pc t pc := rfl

theorem sum_update {ι β : Type} [Fintype ι] [DecidableEq ι] (g : β → ℕ) (f : ι → β) (i : ι)
    (b : β) : ∑ j, g (update f i b j) + g (f i) = ∑ j, g (f j) + g b := by
  rw [← Finset.add_sum_erase _ _ (Finset.mem_univ i),
    ← Finset.add_sum_erase _ (fun j => g (f j)) (Finset.mem_univ i), update_self]
  have hrest : ∀ j ∈ Finset.univ.erase i, g (update f i b j) = g (f j) := fun j hj => by
    rw [update_of_ne (Finset.ne_of_mem_erase hj)]
  rw [Finset.sum_congr rfl hrest]
  omega

def count (p : TracerPc → Bool) (s : Tracing ndevs ncpus) : ℕ :=
  ∑ t, if p (s.pc t) then 1 else 0

theorem count_update {p : TracerPc → Bool} {pc : TracerPc} (h : s'.pc = update s.pc t pc) :
    s'.count p + (if p (s.pc t) then 1 else 0) = s.count p + if p pc then 1 else 0 := by
  rw [count, count, h]
  exact sum_update (fun pc => if p pc then 1 else 0) s.pc t pc

inductive PcStep (s : Tracing ndevs ncpus) (main' : TracingPc ndevs ncpus) (t : Fin ncpus) :
    TracerPc → TracerPc → Prop
  | stay (pc : TracerPc) : PcStep s main' t pc pc
  | create (pc : TracerPc) (hmain : s.main = .startTracers t) (hmain' : main' = .addTracer t) :
      PcStep s main' t pc .openIos
  | ready : PcStep s main' t .openIos .waitUnblock
  | error : PcStep s main' t .openIos .failed
  | wait (hnot : s.isDone t = false) (hrun : s.tracersRun = false) :
      PcStep s main' t .waitUnblock .condWait
  | pass (hdone : s.tracersRun ∨ s.isDone t) : PcStep s main' t .waitUnblock .poll
  | block : PcStep s main' t .condWait .blocked
  | wake : PcStep s main' t .blocked .waitUnblock
  | handle : PcStep s main' t .poll (.handlePfds (s.isDone t) 0)
  | read (drain : Bool) (dev : ℕ) :
      PcStep s main' t (.handlePfds drain dev) (.handlePfds drain (dev + 1))
  | handled : PcStep s main' t (.handlePfds false ndevs) .poll
  | again : PcStep s main' t (.handlePfds true ndevs) (.handlePfds true 0)
  | close : PcStep s main' t (.handlePfds true ndevs) .closeIos
  | leave : PcStep s main' t .closeIos .leaving

theorem pcStep_goto {u : Fin ncpus} {pc : TracerPc}
    (h : PcStep s main' u (s.pc u) pc) (t : Fin ncpus) :
    PcStep s main' t (s.pc t) (update s.pc u pc t) := by
  by_cases ht : t = u
  · subst ht
    rwa [update_self]
  · rw [update_of_ne ht]
    exact .stay _

theorem pcStep_broadcast (t : Fin ncpus) : PcStep s main' t (s.pc t) (s.broadcast.pc t) := by
  unfold broadcast
  dsimp only
  split_ifs with hblocked
  · rw [hblocked]
    exact .wake
  · exact .stay _

theorem next_pc (h : s.next host bufSize act = some s') (t : Fin ncpus) :
    PcStep s s'.main t (s.pc t) (s'.pc t) := by
  cases act <;> simp only [next, Option.ite_none_right_eq_some, Option.some.injEq,
    Option.map_eq_some_iff] at h
  case signalReady u ok =>
    obtain ⟨⟨hpc, -⟩, rfl⟩ := h
    cases ok with
    | true => exact pcStep_goto (hpc ▸ .ready) t
    | false => exact pcStep_goto (hpc ▸ .error) t
  case testUnblock u =>
    obtain ⟨⟨hpc, -⟩, rfl⟩ := h
    refine pcStep_goto ?_ t
    rw [hpc]
    split_ifs with hwait
    · rw [Bool.and_eq_true, Bool.not_eq_true', Bool.not_eq_true'] at hwait
      exact .wait hwait.1 hwait.2
    · refine .pass ?_
      cases hrun : s.tracersRun with
      | true => exact .inl rfl
      | false => exact .inr (by simpa [hrun] using hwait)
  case condWait u =>
    obtain ⟨hpc, rfl⟩ := h
    exact pcStep_goto (hpc ▸ .block) t
  case wake u =>
    obtain ⟨hpc, rfl⟩ := h
    exact pcStep_goto (hpc ▸ .wake) t
  case testDone u =>
    obtain ⟨hpc, rfl⟩ := h
    exact pcStep_goto (hpc ▸ .handle) t
  case addTraceBuf u drain dev tbp =>
    obtain ⟨⟨hpc, -⟩, rfl⟩ := h
    exact pcStep_goto (hpc ▸ .read drain dev) t
  case readNothing u drain dev =>
    obtain ⟨hpc, rfl⟩ := h
    exact pcStep_goto (hpc ▸ .read drain dev) t
  case incrEntries u drain =>
    obtain ⟨hpc, rfl⟩ := h
    refine pcStep_goto ?_ t
    rw [hpc]
    cases drain with
    | false => exact .handled
    | true =>
      simp only [Bool.not_true, Bool.false_eq_true, if_false]
      split_ifs
      · exact .again
      · exact .close
  case signalLeaving u =>
    obtain ⟨⟨hpc, -⟩, rfl⟩ := h
    exact pcStep_goto (hpc ▸ .leave) t
  case pthreadCreate cpu =>
    obtain ⟨hmain, rfl⟩ := h
    exact pcStep_goto (.create _ hmain rfl) t
  case unblockTracers =>
    obtain ⟨-, rfl⟩ := h
    exact pcStep_broadcast t
  case stoppedTracers cpu =>
    obtain ⟨-, rfl⟩ := h
    exact pcStep_broadcast t
  case sigReturn cpu =>
    obtain ⟨-, rfl⟩ := h
    exact pcStep_broadcast t
  case takeList clean hd todo handled =>
    obtain ⟨-, rfl⟩ := h
    split_ifs <;> exact .stay _
  case handleList clean hd list todo handled =>
    obtain ⟨-, r, -, rfl⟩ := h
    exact .stay _
  all_goals
    obtain ⟨-, rfl⟩ := h
    exact .stay _

theorem next_flags (h : s.next host bufSize act = some s') :
    (∀ t, s.isDone t → s'.isDone t) ∧ (s.done → s'.done) ∧ (s.tracersRun → s'.tracersRun) ∧
      (s'.tracersRun → s.tracersRun ∨
        s.main = .unblockTracers ∧ ∀ t, s'.pc t ≠ .blocked ∧ s'.pc t ≠ .condWait) := by
  have hset : ∀ cpu t, s.isDone t → (s.setDone cpu).isDone t := by
    intro cpu t ht
    unfold setDone
    dsimp only
    split_ifs
    · rfl
    · exact ht
  cases act <;> simp only [next, Option.ite_none_right_eq_some, Option.some.injEq,
    Option.map_eq_some_iff] at h
  case unblockTracers =>
    obtain ⟨hmain, rfl⟩ := h
    refine ⟨fun _ => id, id, fun _ => rfl, fun _ => .inr ⟨hmain.1, fun t => ?_⟩⟩
    unfold broadcast
    dsimp only
    split_ifs with hblocked
    · exact ⟨nofun, nofun⟩
    · exact ⟨hblocked, hmain.2 t⟩
  case stopTracer cpu =>
    obtain ⟨-, rfl⟩ := h
    exact ⟨hset cpu, id, id, .inl⟩
  case sigStopTracer cpu =>
    obtain ⟨-, rfl⟩ := h
    exact ⟨hset cpu, id, id, .inl⟩
  case sigint =>
    obtain ⟨-, rfl⟩ := h
    exact ⟨fun _ => id, fun _ => rfl, id, .inl⟩
  case signalReady u ok =>
    obtain ⟨-, rfl⟩ := h
    cases ok <;> exact ⟨fun _ => id, id, id, .inl⟩
  case takeList clean hd todo handled =>
    obtain ⟨-, rfl⟩ := h
    split_ifs <;> exact ⟨fun _ => id, id, id, .inl⟩
  case handleList clean hd list todo handled =>
    obtain ⟨-, r, -, rfl⟩ := h
    exact ⟨fun _ => id, id, id, .inl⟩
  all_goals
    obtain ⟨-, rfl⟩ := h
    exact ⟨fun _ => id, id, id, .inl⟩

/-- What holds of each tracer: it is past `tracer_wait_unblock` only if it was let go or stopped,
reads what is left only if it was stopped, and never waits once the tracers are let go. -/
structure Released (s : Tracing ndevs ncpus) : Prop where
  past : ∀ t, (s.pc t).unblocked → s.tracersRun ∨ s.isDone t
  drains : ∀ t, (s.pc t).drains → s.isDone t
  awake : s.tracersRun → ∀ t, s.pc t ≠ .blocked ∧ s.pc t ≠ .condWait

theorem released_start : Released (start ndevs ncpus) where
  past _ := nofun
  drains _ := nofun
  awake := nofun

theorem PcStep.unblocked {pc pc' : TracerPc} (h : PcStep s main' t pc pc') (hpc' : pc'.unblocked) :
    pc.unblocked ∨ s.tracersRun ∨ s.isDone t := by
  cases h with
  | stay => exact .inl hpc'
  | pass hlet => exact .inr hlet
  | create | ready | error | wait | block | wake => cases hpc'
  | handle | read | handled | again | close | leave => exact .inl rfl

theorem PcStep.drains {pc pc' : TracerPc} (h : PcStep s main' t pc pc') (hpc' : pc'.drains) :
    pc.drains ∨ s.isDone t := by
  cases h with
  | stay => exact .inl hpc'
  | handle =>
    refine .inr ?_
    cases hdone : s.isDone t with
    | true => rfl
    | false =>
      rw [hdone] at hpc'
      cases hpc'
  | read drain dev =>
    cases drain with
    | true => exact .inl rfl
    | false => cases hpc'
  | create | ready | error | wait | pass | block | wake | handled => cases hpc'
  | again | close | leave => exact .inl rfl

theorem PcStep.awake {pc pc' : TracerPc} (h : PcStep s main' t pc pc') (hrun : s.tracersRun)
    (hpc : pc ≠ .blocked ∧ pc ≠ .condWait) : pc' ≠ .blocked ∧ pc' ≠ .condWait := by
  cases h with
  | stay => exact hpc
  | wait hnot hnotrun =>
    rw [hrun] at hnotrun
    cases hnotrun
  | block => exact absurd rfl hpc.2
  | wake => exact absurd rfl hpc.1
  | create | ready | error | pass | handle | read | handled | again | close | leave => simp

theorem Released.next (hr : Released s) (h : s.next host bufSize act = some s') :
    Released s' := by
  obtain ⟨hdone, -, hrun, hset⟩ := next_flags h
  refine ⟨fun t ht => ?_, fun t ht => ?_, fun hrun' t => ?_⟩
  · have hlet : s.tracersRun ∨ s.isDone t := by
      obtain hpast | hlet := (next_pc h t).unblocked ht
      · exact hr.past t hpast
      · exact hlet
    exact hlet.imp hrun (hdone t)
  · apply hdone t
    obtain hdrains | hstopped := (next_pc h t).drains ht
    · exact hr.drains t hdrains
    · exact hstopped
  · obtain hold | ⟨-, hawake⟩ := hset hrun'
    · exact (next_pc h t).awake hold (hr.awake hold t)
    · exact hawake t

structure Counted (s : Tracing ndevs ncpus) : Prop where
  running : s.nthreadsRunning = s.count TracerPc.started
  leaving : s.nthreadsLeaving = s.count (· = .leaving)
  error : s.nthreadsError = s.count (· = .failed)

theorem counted_start : Counted (start ndevs ncpus) where
  running := by simp [count, start, TracerPc.started]
  leaving := by simp [count, start]
  error := by simp [count, start]

def SameCount (pc pc' : TracerPc) : Prop :=
  pc'.started = pc.started ∧ (pc' = .leaving ↔ pc = .leaving) ∧ (pc' = .failed ↔ pc = .failed)

theorem SameCount.update {pc : TracerPc} (h : SameCount (s.pc t) pc) (u : Fin ncpus) :
    SameCount (s.pc u) (update s.pc t pc u) := by
  by_cases hu : u = t
  · subst hu
    rwa [update_self]
  · rw [update_of_ne hu]
    exact ⟨rfl, Iff.rfl, Iff.rfl⟩

theorem sameCount_broadcast (s : Tracing ndevs ncpus) (t : Fin ncpus) :
    SameCount (s.pc t) (s.broadcast.pc t) := by
  unfold broadcast
  dsimp only
  split_ifs with hblocked
  · rw [hblocked]
    exact ⟨rfl, ⟨nofun, nofun⟩, ⟨nofun, nofun⟩⟩
  · exact ⟨rfl, Iff.rfl, Iff.rfl⟩

theorem Counted.congr (hc : Counted s) (hrunning : s'.nthreadsRunning = s.nthreadsRunning)
    (hleaving : s'.nthreadsLeaving = s.nthreadsLeaving)
    (herror : s'.nthreadsError = s.nthreadsError)
    (hpc : ∀ t, SameCount (s.pc t) (s'.pc t)) : Counted s' where
  running := by
    rw [hrunning, hc.running]
    exact Finset.sum_congr rfl fun t _ => by rw [(hpc t).1]
  leaving := by
    rw [hleaving, hc.leaving]
    exact Finset.sum_congr rfl fun t _ => by simp [(hpc t).2.1]
  error := by
    rw [herror, hc.error]
    exact Finset.sum_congr rfl fun t _ => by simp [(hpc t).2.2]

theorem Counted.goto (hc : Counted s) {pc pc' : TracerPc} (hpc : s.pc t = pc)
    (hsame : SameCount pc pc') : Counted (s.goto t pc') :=
  hc.congr rfl rfl rfl (SameCount.update (hpc ▸ hsame))

theorem Counted.next (hc : Counted s) (h : s.next host bufSize act = some s')
    (habsent : ∀ cpu : Fin ncpus, s.main = .startTracers cpu → s.pc cpu = .absent) :
    Counted s' := by
  have hstay : ∀ u, SameCount (s.pc u) (s.pc u) := fun u => ⟨rfl, Iff.rfl, Iff.rfl⟩
  cases act <;> simp only [Tracing.next, Option.ite_none_right_eq_some, Option.some.injEq,
    Option.map_eq_some_iff] at h
  case signalReady u ok =>
    obtain ⟨⟨hpc, -⟩, rfl⟩ := h
    have hcount := fun p pc => @count_update _ _ s (s.goto u pc) u p pc rfl
    cases ok with
    | true =>
      have h₁ := hcount TracerPc.started .waitUnblock
      have h₂ := hcount (· = .leaving) .waitUnblock
      have h₃ := hcount (· = .failed) .waitUnblock
      simp only [hpc, TracerPc.started, reduceCtorEq, decide_false, if_true, Bool.false_eq_true,
        if_false, add_zero] at h₁ h₂ h₃
      exact ⟨(congrArg (· + 1) hc.running).trans h₁.symm, hc.leaving.trans h₂.symm,
        hc.error.trans h₃.symm⟩
    | false =>
      have h₁ := hcount TracerPc.started .failed
      have h₂ := hcount (· = .leaving) .failed
      have h₃ := hcount (· = .failed) .failed
      simp only [hpc, TracerPc.started, reduceCtorEq, decide_false, decide_true, if_true,
        Bool.false_eq_true, if_false, add_zero] at h₁ h₂ h₃
      exact ⟨hc.running.trans h₁.symm, hc.leaving.trans h₂.symm,
        (congrArg (· + 1) hc.error).trans h₃.symm⟩
  case signalLeaving u =>
    obtain ⟨⟨hpc, -⟩, rfl⟩ := h
    have hcount := fun p => @count_update _ _ s (s.goto u .leaving) u p .leaving rfl
    have h₁ := hcount TracerPc.started
    have h₂ := hcount (· = .leaving)
    have h₃ := hcount (· = .failed)
    simp only [hpc, TracerPc.started, reduceCtorEq, decide_false, decide_true, if_true,
      Bool.false_eq_true, if_false, add_zero, add_left_inj] at h₁ h₂ h₃
    exact ⟨hc.running.trans h₁.symm, (congrArg (· + 1) hc.leaving).trans h₂.symm,
      hc.error.trans h₃.symm⟩
  case testUnblock u =>
    obtain ⟨⟨hpc, -⟩, rfl⟩ := h
    refine hc.goto hpc ?_
    split_ifs <;> exact ⟨rfl, ⟨nofun, nofun⟩, ⟨nofun, nofun⟩⟩
  case condWait u =>
    obtain ⟨hpc, rfl⟩ := h
    exact hc.goto hpc ⟨rfl, ⟨nofun, nofun⟩, ⟨nofun, nofun⟩⟩
  case wake u =>
    obtain ⟨hpc, rfl⟩ := h
    exact hc.goto hpc ⟨rfl, ⟨nofun, nofun⟩, ⟨nofun, nofun⟩⟩
  case testDone u =>
    obtain ⟨hpc, rfl⟩ := h
    exact hc.goto hpc ⟨rfl, ⟨nofun, nofun⟩, ⟨nofun, nofun⟩⟩
  case addTraceBuf u drain dev tbp =>
    obtain ⟨⟨hpc, -⟩, rfl⟩ := h
    refine hc.congr rfl rfl rfl (SameCount.update ?_)
    rw [hpc]
    exact ⟨rfl, ⟨nofun, nofun⟩, ⟨nofun, nofun⟩⟩
  case readNothing u drain dev =>
    obtain ⟨hpc, rfl⟩ := h
    exact hc.goto hpc ⟨rfl, ⟨nofun, nofun⟩, ⟨nofun, nofun⟩⟩
  case incrEntries u drain =>
    obtain ⟨hpc, rfl⟩ := h
    refine hc.congr rfl rfl rfl (SameCount.update ?_)
    rw [hpc]
    split_ifs <;> exact ⟨rfl, ⟨nofun, nofun⟩, ⟨nofun, nofun⟩⟩
  case pthreadCreate cpu =>
    obtain ⟨hmain, rfl⟩ := h
    refine hc.congr rfl rfl rfl (SameCount.update ?_)
    rw [habsent cpu hmain]
    exact ⟨rfl, ⟨nofun, nofun⟩, ⟨nofun, nofun⟩⟩
  case unblockTracers =>
    obtain ⟨-, rfl⟩ := h
    exact hc.congr rfl rfl rfl (sameCount_broadcast s)
  case stoppedTracers cpu =>
    obtain ⟨-, rfl⟩ := h
    exact hc.congr rfl rfl rfl (sameCount_broadcast s)
  case sigReturn cpu =>
    obtain ⟨-, rfl⟩ := h
    exact hc.congr rfl rfl rfl (sameCount_broadcast s)
  case takeList clean hd todo handled =>
    obtain ⟨-, rfl⟩ := h
    split_ifs <;> exact hc.congr rfl rfl rfl hstay
  case handleList clean hd list todo handled =>
    obtain ⟨-, r, -, rfl⟩ := h
    exact hc.congr rfl rfl rfl hstay
  all_goals
    obtain ⟨-, rfl⟩ := h
    exact hc.congr rfl rfl rfl hstay

end Tracing

end SBlktrace
