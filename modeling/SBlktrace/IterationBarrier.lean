import SBlktrace.Transition
import Mathlib

namespace SBlktrace

open Function

inductive SubPc where
  | setReplayReady | iterate | waitIterStart | nextBunch | resetInputFile | setReplayDone | returned
  deriving DecidableEq, Repr

inductive MainPc where
  | waitReplaysReady | iterate | waitItersDone | returned
  deriving DecidableEq, Repr

/-- The threads of a replay, one for each input file, with the bunches of the files. -/
structure ReplayJob (θ β : Type) where
  file : θ → List β
  defIterations : ℕ

structure Barrier (θ β : Type) where
  sub : θ → SubPc
  iterations : θ → ℤ
  rest : θ → List β
  nReplaysReady : ℕ
  nReplaysDone : ℕ
  nItersDone : ℕ
  iterStart : ℕ
  main : MainPc
  i : ℕ

inductive BarrierAction (θ : Type) where
  | setReplayReady (t : θ)
  | iterate (t : θ)
  | waitIterStart (t : θ)
  | nextBunch (t : θ)
  | setIterDone (t : θ)
  | resetInputFile (t : θ)
  | setReplayDone (t : θ)
  | waitReplaysReady
  | startIter
  | waitItersDone
  | waitReplaysDone
  deriving DecidableEq

def BarrierAction.isRelease {θ : Type} : BarrierAction θ → Bool
  | .startIter => true
  | _ => false

def BarrierAction.thread {θ : Type} : BarrierAction θ → Option θ
  | .setReplayReady t | .iterate t | .waitIterStart t | .nextBunch t | .setIterDone t
  | .resetInputFile t | .setReplayDone t => some t
  | _ => none

namespace SubPc

def pending : SubPc → ℤ
  | .waitIterStart | .setReplayDone | .returned => 1
  | _ => 0

def replaying : SubPc → ℤ
  | .nextBunch => 1
  | _ => 0

theorem replaying_nonneg (pc : SubPc) : 0 ≤ pc.replaying := by
  cases pc <;> decide

end SubPc

namespace Barrier

variable {θ β : Type}

def start (job : ReplayJob θ β) : Barrier θ β where
  sub _ := .setReplayReady
  iterations _ := job.defIterations
  rest := job.file
  nReplaysReady := 0
  nReplaysDone := 0
  nItersDone := 0
  iterStart := 0
  main := .waitReplaysReady
  i := 0

section Step

variable [DecidableEq θ] [Fintype θ]

def goto (s : Barrier θ β) (t : θ) (pc : SubPc) : Barrier θ β :=
  { s with sub := update s.sub t pc }

def next (job : ReplayJob θ β) (s : Barrier θ β) : BarrierAction θ → Option (Barrier θ β)
  | .setReplayReady t =>
    if s.sub t = .setReplayReady then
      some ({ s with nReplaysReady := s.nReplaysReady + 1 }.goto t .iterate)
    else none
  | .iterate t =>
    if s.sub t = .iterate then
      some ({ s with iterations := update s.iterations t (s.iterations t - 1) }.goto t
        (if s.iterations t ≠ 0 then .waitIterStart else .setReplayDone))
    else none
  | .waitIterStart t =>
    if s.sub t = .waitIterStart ∧ s.iterStart ≠ 0 then
      some ({ s with iterStart := s.iterStart - 1 }.goto t .nextBunch)
    else none
  | .nextBunch t =>
    if s.sub t = .nextBunch ∧ s.rest t ≠ [] then
      some { s with rest := update s.rest t (s.rest t).tail }
    else none
  | .setIterDone t =>
    if s.sub t = .nextBunch ∧ s.rest t = [] then
      some ({ s with nItersDone := s.nItersDone + 1 }.goto t .resetInputFile)
    else none
  | .resetInputFile t =>
    if s.sub t = .resetInputFile then
      some ({ s with rest := update s.rest t (job.file t) }.goto t .iterate)
    else none
  | .setReplayDone t =>
    if s.sub t = .setReplayDone then
      some ({ s with nReplaysDone := s.nReplaysDone + 1 }.goto t .returned)
    else none
  | .waitReplaysReady =>
    if s.main = .waitReplaysReady ∧ Fintype.card θ ≤ s.nReplaysReady then
      some { s with nReplaysReady := 0, main := .iterate }
    else none
  | .startIter =>
    if s.main = .iterate ∧ s.i < job.defIterations then
      some { s with iterStart := Fintype.card θ, main := .waitItersDone }
    else none
  | .waitItersDone =>
    if s.main = .waitItersDone ∧ Fintype.card θ ≤ s.nItersDone then
      some { s with nItersDone := 0, i := s.i + 1, main := .iterate }
    else none
  | .waitReplaysDone =>
    if s.main = .iterate ∧ job.defIterations ≤ s.i ∧ Fintype.card θ ≤ s.nReplaysDone then
      some { s with nReplaysDone := 0, main := .returned }
    else none

abbrev BarrierStep (θ β : Type) := Barrier θ β × BarrierAction θ × Barrier θ β

def Replays (job : ReplayJob θ β) : List (BarrierStep θ β) → Barrier θ β → Prop :=
  Run (· = start job) fun s act s' => s.next job act = some s'

end Step

inductive PassEvent (β : Type) where
  | start
  | bunch (b : β)
  | stop

def pass (file : List β) : List (PassEvent β) :=
  .start :: (file.map .bunch ++ [.stop])

def eventOf [DecidableEq θ] (t : θ) (step : Barrier θ β × BarrierAction θ × Barrier θ β) :
    Option (PassEvent β) :=
  match step.2.1 with
  | .waitIterStart t' => if t' = t then some .start else none
  | .nextBunch t' => if t' = t then (step.1.rest t).head?.map .bunch else none
  | .setIterDone t' => if t' = t then some .stop else none
  | _ => none

def round (steps : List (Barrier θ β × BarrierAction θ × Barrier θ β)) :
    List (Barrier θ β × BarrierAction θ × Barrier θ β) :=
  (steps.reverse.takeWhile fun step => !step.2.1.isRelease).reverse

def passOf [DecidableEq θ] (t : θ) (steps : List (Barrier θ β × BarrierAction θ × Barrier θ β)) :
    List (PassEvent β) :=
  (round steps).filterMap (eventOf t)

/-- At a release that is not the first, each thread has made one pass over its file since the
last one, and no thread takes a second start token after a release. -/
def OnePass [DecidableEq θ] (job : ReplayJob θ β)
    (before : List (Barrier θ β × BarrierAction θ × Barrier θ β))
    (step : Barrier θ β × BarrierAction θ × Barrier θ β) : Prop :=
  (step.2.1 = .startIter → (∃ r ∈ before, r.2.1 = .startIter) →
    ∀ t, passOf t before = pass (job.file t)) ∧
  ∀ t, step.2.1 = .waitIterStart t → .start ∉ passOf t before

def Ahead (job : ReplayJob θ β) (s : Barrier θ β) : BarrierAction θ → Prop
  | .waitIterStart t => s.i < job.defIterations - 1 - s.iterations t
  | _ => False

instance (job : ReplayJob θ β) (s : Barrier θ β) :
    (act : BarrierAction θ) → Decidable (Ahead job s act)
  | .waitIterStart t => inferInstanceAs (Decidable ((s.i : ℤ) < job.defIterations - 1 - s.iterations t))
  | .setReplayReady _ | .iterate _ | .nextBunch _ | .setIterDone _ | .resetInputFile _
  | .setReplayDone _ | .waitReplaysReady | .startIter | .waitItersDone | .waitReplaysDone =>
    inferInstanceAs (Decidable False)

def released (s : Barrier θ β) : ℤ :=
  s.i + if s.main = .waitItersDone then 1 else 0

def begun (job : ReplayJob θ β) (s : Barrier θ β) (t : θ) : ℤ :=
  job.defIterations - s.iterations t - (s.sub t).pending

def ended (job : ReplayJob θ β) (s : Barrier θ β) (t : θ) : ℤ :=
  s.begun job t - (s.sub t).replaying

variable {job : ReplayJob θ β} {s s' : Barrier θ β} {t t' : θ} {act : BarrierAction θ}
  {steps : List (Barrier θ β × BarrierAction θ × Barrier θ β)}

theorem begun_congr (hsub : s'.sub t = s.sub t) (hit : s'.iterations t = s.iterations t) :
    s'.begun job t = s.begun job t := by
  rw [begun, begun, hsub, hit]

theorem ended_congr (hsub : s'.sub t = s.sub t) (hit : s'.iterations t = s.iterations t) :
    s'.ended job t = s.ended job t := by
  rw [ended, ended, begun_congr hsub hit, hsub]

theorem ended_le (job : ReplayJob θ β) (s : Barrier θ β) (t : θ) : s.ended job t ≤ s.begun job t := by
  have := (s.sub t).replaying_nonneg
  rw [ended]
  omega

section Counts

variable [Fintype θ]

structure Counts (job : ReplayJob θ β) (s : Barrier θ β) : Prop where
  nonneg : ∀ t, 0 ≤ s.begun job t
  begun : ∑ t, s.begun job t = Fintype.card θ * s.released - s.iterStart
  ended : ∑ t, s.ended job t = Fintype.card θ * s.i + s.nItersDone
  left : ∀ t, s.sub t = .setReplayDone ∨ s.sub t = .returned ∨ 0 ≤ s.iterations t

theorem counts_start : Counts job (start job) := by
  have hbegun : ∀ t, (start job).begun job t = 0 := by
    intro t
    simp [Barrier.begun, start, SubPc.pending]
  have hended : ∀ t, (start job).ended job t = 0 := by
    intro t
    rw [Barrier.ended, hbegun]
    rfl
  refine ⟨fun t => (hbegun t).ge, ?_, ?_, fun t => .inr (.inr (Int.natCast_nonneg _))⟩
  · rw [Finset.sum_congr rfl fun t _ => hbegun t]
    simp [released, start]
  · rw [Finset.sum_congr rfl fun t _ => hended t]
    simp [start]

theorem Counts.ended_sum_le (job : ReplayJob θ β) (s : Barrier θ β) :
    ∑ t, s.ended job t ≤ ∑ t, s.begun job t :=
  Finset.sum_le_sum fun t _ => ended_le job s t

theorem Counts.between (h : Counts job s) (hmain : s.main ≠ .waitItersDone) :
    s.iterStart = 0 ∧ s.nItersDone = 0 := by
  have hle := ended_sum_le job s
  rw [h.begun, h.ended, released, if_neg hmain] at hle
  simp only [add_zero] at hle
  omega

theorem Counts.nItersDone_le (h : Counts job s) : s.nItersDone ≤ Fintype.card θ := by
  have hle := ended_sum_le job s
  rw [h.begun, h.ended, released] at hle
  split_ifs at hle with hmain
  · rw [mul_add] at hle
    omega
  · rw [mul_add] at hle
    omega

variable [DecidableEq θ]

theorem next_frame (h : s.next job act = some s') (ht : act.thread ≠ some t) :
    s'.sub t = s.sub t ∧ s'.iterations t = s.iterations t ∧ s'.rest t = s.rest t := by
  cases act <;> simp only [next, Option.ite_none_right_eq_some, Option.some.injEq] at h <;>
    obtain ⟨-, rfl⟩ := h <;>
    simp only [BarrierAction.thread, ne_eq, Option.some.injEq] at ht <;>
    simp [goto, update_of_ne (Ne.symm ht)]

theorem next_begun (h : s.next job act = some s') (t : θ) :
    s'.begun job t = s.begun job t + if act = .waitIterStart t then 1 else 0 := by
  by_cases ht : act.thread = some t
  · cases act <;> simp only [BarrierAction.thread, Option.some.injEq, reduceCtorEq] at ht <;>
      subst ht <;> simp only [next, Option.ite_none_right_eq_some, Option.some.injEq] at h <;>
      obtain ⟨hguard, rfl⟩ := h
    case setReplayReady t => simp [begun, goto, hguard, SubPc.pending]
    case iterate t =>
      by_cases hzero : s.iterations t = 0
      · simp [begun, goto, hguard, hzero, SubPc.pending]
      · simp [begun, goto, hguard, hzero, SubPc.pending]
        ring
    case waitIterStart t => simp [begun, goto, hguard.1, SubPc.pending]
    case nextBunch t => simp [begun]
    case setIterDone t => simp [begun, goto, hguard.1, SubPc.pending]
    case resetInputFile t => simp [begun, goto, hguard, SubPc.pending]
    case setReplayDone t => simp [begun, goto, hguard, SubPc.pending]
  · obtain ⟨hsub, hit, -⟩ := next_frame h ht
    have hne : act ≠ .waitIterStart t := by
      rintro rfl
      exact ht rfl
    rw [begun_congr hsub hit, if_neg hne, add_zero]

theorem next_ended (h : s.next job act = some s') (t : θ) :
    s'.ended job t = s.ended job t + if act = .setIterDone t then 1 else 0 := by
  by_cases ht : act.thread = some t
  · have hbegun := next_begun h t
    cases act <;> simp only [BarrierAction.thread, Option.some.injEq, reduceCtorEq] at ht <;>
      subst ht <;> simp only [next, Option.ite_none_right_eq_some, Option.some.injEq] at h <;>
      obtain ⟨hguard, rfl⟩ := h <;> rw [ended, hbegun, ended]
    case setReplayReady t => simp [goto, hguard, SubPc.replaying]
    case iterate t =>
      by_cases hzero : s.iterations t = 0 <;> simp [goto, hguard, hzero, SubPc.replaying]
    case waitIterStart t => simp [goto, hguard.1, SubPc.replaying]
    case nextBunch t => simp
    case setIterDone t => simp [goto, hguard.1, SubPc.replaying]
    case resetInputFile t => simp [goto, hguard, SubPc.replaying]
    case setReplayDone t => simp [goto, hguard, SubPc.replaying]
  · obtain ⟨hsub, hit, -⟩ := next_frame h ht
    have hne : act ≠ .setIterDone t := by
      rintro rfl
      exact ht rfl
    rw [ended_congr hsub hit, if_neg hne, add_zero]

theorem next_released (h : s.next job act = some s') :
    s'.released = s.released + if act = .startIter then 1 else 0 := by
  cases act <;> simp only [Barrier.next, Option.ite_none_right_eq_some, Option.some.injEq] at h <;>
    obtain ⟨hguard, rfl⟩ := h
  case startIter => simp [released, hguard.1]
  case waitItersDone => simp [released, hguard.1]
  case waitReplaysReady => simp [released, hguard.1]
  case waitReplaysDone => simp [released, hguard.1]
  all_goals
    simp only [reduceCtorEq, if_false, add_zero]
    rfl

theorem next_iterStart (hc : Counts job s) (h : s.next job act = some s') :
    (s'.iterStart : ℤ) = s.iterStart + (Fintype.card θ * if act = .startIter then 1 else 0) -
      ∑ t, (if act = .waitIterStart t then 1 else 0) := by
  cases act <;> simp only [Barrier.next, Option.ite_none_right_eq_some, Option.some.injEq] at h <;>
    obtain ⟨hguard, rfl⟩ := h
  case waitIterStart t =>
    have hpos := hguard.2
    simp [goto]
    omega
  case startIter =>
    have hzero := (hc.between (by rw [hguard.1]; decide)).1
    simp [hzero]
  all_goals simp [goto]

theorem next_nItersDone (hc : Counts job s) (h : s.next job act = some s') :
    (Fintype.card θ * s'.i + s'.nItersDone : ℤ) =
      Fintype.card θ * s.i + s.nItersDone + ∑ t, (if act = .setIterDone t then 1 else 0) := by
  cases act <;> simp only [Barrier.next, Option.ite_none_right_eq_some, Option.some.injEq] at h <;>
    obtain ⟨hguard, rfl⟩ := h
  case setIterDone t =>
    simp [goto]
    ring
  case waitItersDone =>
    have heq : s.nItersDone = Fintype.card θ := le_antisymm hc.nItersDone_le hguard.2
    simp [heq]
    ring
  all_goals simp [goto]

theorem Counts.next (hc : Counts job s) (h : s.next job act = some s') : Counts job s' where
  nonneg t := by
    have := hc.nonneg t
    rw [next_begun h]
    split_ifs <;> omega
  begun := by
    rw [Finset.sum_congr rfl fun t _ => next_begun h t, Finset.sum_add_distrib, hc.begun,
      next_released h, next_iterStart hc h]
    ring
  ended := by
    rw [Finset.sum_congr rfl fun t _ => next_ended h t, Finset.sum_add_distrib, hc.ended,
      next_nItersDone hc h]
  left t := by
    have hleft := hc.left t
    by_cases ht : act.thread = some t
    · cases act <;> simp only [BarrierAction.thread, Option.some.injEq, reduceCtorEq] at ht <;>
        subst ht <;> simp only [Barrier.next, Option.ite_none_right_eq_some, Option.some.injEq] at h <;>
        obtain ⟨hguard, rfl⟩ := h
      case iterate t =>
        rw [hguard] at hleft
        by_cases hzero : s.iterations t = 0
        · simp [goto, hzero]
        · simp [goto, hzero] at hleft ⊢
          omega
      all_goals simp_all [goto]
    · obtain ⟨hsub, hit, -⟩ := next_frame h ht
      rw [hsub, hit]
      exact hleft

theorem Counts.asserts (hc : Counts job s) (h : s.next job act = some s') :
    (act = .startIter → s.iterStart = 0) ∧
      (∀ t, act = .setIterDone t → s.nItersDone < Fintype.card θ) ∧
      ∀ t, act = .waitIterStart t → 1 ≤ s.iterStart ∧ s.iterStart ≤ Fintype.card θ := by
  refine ⟨?_, ?_, ?_⟩
  · rintro rfl
    simp only [Barrier.next, Option.ite_none_right_eq_some] at h
    exact (hc.between (by rw [h.1.1]; decide)).1
  · rintro t rfl
    have hnum := next_nItersDone hc h
    have hle := (hc.next h).nItersDone_le
    simp only [Barrier.next, Option.ite_none_right_eq_some, Option.some.injEq] at h
    obtain ⟨-, rfl⟩ := h
    exact hle
  · rintro t rfl
    simp only [Barrier.next, Option.ite_none_right_eq_some] at h
    refine ⟨Nat.one_le_iff_ne_zero.mpr h.1.2, ?_⟩
    have hle := ended_sum_le job s
    rw [hc.begun, hc.ended, released, mul_add] at hle
    split_ifs at hle <;> omega

end Counts

inductive Phase (file : List β) (released begun : ℤ) : SubPc → List β → List (PassEvent β) → Prop
  | idle {pc rest} (h : begun = released - 1 ∨ begun = 0 ∧ released = 0) (hpc : pc ≠ .nextBunch) :
      Phase file released begun pc rest []
  | running {rest done} (h : begun = released) (hpos : 0 < begun) (hfile : done ++ rest = file) :
      Phase file released begun .nextBunch rest (.start :: done.map .bunch)
  | finished {pc rest} (h : begun = released) (hpos : 0 < begun) (hpc : pc ≠ .nextBunch) :
      Phase file released begun pc rest (pass file)

namespace Phase

variable {file rest rest' : List β} {released begun : ℤ} {pc pc' : SubPc}
  {events : List (PassEvent β)}

theorem begun_le (h : Phase file released begun pc rest events) : begun ≤ released := by
  cases h <;> omega

theorem le_begun (h : Phase file released begun pc rest events) : released - 1 ≤ begun := by
  cases h <;> omega

theorem move (h : Phase file released begun pc rest events) (hpc : pc ≠ .nextBunch)
    (hpc' : pc' ≠ .nextBunch) : Phase file released begun pc' rest' events := by
  cases h with
  | idle hidle _ => exact .idle hidle hpc'
  | running _ _ _ => exact absurd rfl hpc
  | finished heq hpos _ => exact .finished heq hpos hpc'

theorem eq_pass (h : Phase file released begun pc rest events) (hpc : pc ≠ .nextBunch)
    (heq : begun = released) (hpos : 0 < begun) : events = pass file := by
  cases h with
  | idle hidle _ => omega
  | running _ _ _ => exact absurd rfl hpc
  | finished _ _ _ => rfl

theorem eq_nil (h : Phase file released begun pc rest events) (hlt : begun < released) :
    events = [] := by
  cases h with
  | idle _ _ => rfl
  | running heq _ _ => omega
  | finished heq _ _ => omega

theorem exists_done (h : Phase file released begun .nextBunch rest events) :
    begun = released ∧ 0 < begun ∧ ∃ done, done ++ rest = file ∧ events = .start :: done.map .bunch := by
  cases h with
  | idle _ hpc => exact absurd rfl hpc
  | running heq hpos hfile => exact ⟨heq, hpos, _, hfile, rfl⟩
  | finished _ _ hpc => exact absurd rfl hpc

end Phase

theorem round_release {x : Barrier θ β × BarrierAction θ × Barrier θ β}
    (hx : x.2.1.isRelease = true) : round (steps ++ [x]) = [] := by
  rw [round, List.reverse_append]
  simp [hx]

theorem round_append {x : Barrier θ β × BarrierAction θ × Barrier θ β}
    (hx : x.2.1.isRelease = false) : round (steps ++ [x]) = round steps ++ [x] := by
  rw [round, List.reverse_append]
  simp [hx, round]

section Rounds

variable [DecidableEq θ]

theorem passOf_release : passOf t (steps ++ [(s, .startIter, s')]) = [] := by
  rw [passOf, round_release rfl]
  rfl

theorem passOf_append (hact : act.isRelease = false) :
    passOf t (steps ++ [(s, act, s')]) = passOf t steps ++ (eventOf t (s, act, s')).toList := by
  rw [passOf, round_append hact, List.filterMap_append, passOf]
  cases h : eventOf t (s, act, s') <;> simp [h]

theorem eventOf_ne (ht : act.thread ≠ some t) : eventOf t (s, act, s') = none := by
  cases act <;> simp_all [eventOf, BarrierAction.thread]

variable [Fintype θ]

structure Rounds (job : ReplayJob θ β) (steps : List (BarrierStep θ β)) (s : Barrier θ β) :
    Prop where
  counts : Counts job s
  phase : ∀ t, Phase (job.file t) s.released (s.begun job t) (s.sub t) (s.rest t) (passOf t steps)
  file : ∀ t, s.sub t ≠ .nextBunch → s.sub t ≠ .resetInputFile → s.rest t = job.file t
  release : (∃ r ∈ steps, r.2.1 = .startIter) ↔ 0 < s.released

theorem rounds_start : Rounds job [] (start job) := by
  have hbegun : ∀ t, (start job).begun job t = 0 := by
    intro t
    simp [Barrier.begun, start, SubPc.pending]
  refine ⟨counts_start, fun t => ?_, fun t _ _ => rfl, ?_⟩
  · rw [hbegun]
    refine .idle (.inr ⟨rfl, rfl⟩) ?_
    exact fun h => by cases h
  · exact iff_of_false (fun ⟨r, hr, _⟩ => (List.not_mem_nil hr).elim) (lt_irrefl _)

theorem Rounds.all_ended (h : Rounds job steps s) (hmain : s.main ≠ .waitItersDone) (t : θ) :
    s.begun job t = s.i ∧ s.sub t ≠ .nextBunch := by
  have hrel : s.released = s.i := by
    rw [released, if_neg hmain, add_zero]
  have hle : ∀ t ∈ Finset.univ, s.ended job t ≤ (s.i : ℤ) := fun t _ =>
    (ended_le job s t).trans (hrel ▸ (h.phase t).begun_le)
  have hsum : ∑ t, s.ended job t = ∑ _t : θ, (s.i : ℤ) := by
    rw [h.counts.ended, (h.counts.between hmain).2, Finset.sum_const, Finset.card_univ]
    simp
  have heq := (Finset.sum_eq_sum_iff_of_le hle).mp hsum t (Finset.mem_univ t)
  have hbegun := (h.phase t).begun_le
  rw [hrel] at hbegun
  rw [ended] at heq
  have hnonneg := (s.sub t).replaying_nonneg
  refine ⟨by omega, fun hpc => ?_⟩
  rw [hpc, SubPc.replaying] at heq
  omega

theorem Rounds.pass_of_release (h : Rounds job steps s) (hmain : s.main ≠ .waitItersDone)
    (hrel : ∃ r ∈ steps, r.2.1 = .startIter) (t : θ) : passOf t steps = pass (job.file t) := by
  obtain ⟨hbegun, hpc⟩ := h.all_ended hmain t
  have hpos := h.release.mp hrel
  have heq : s.released = s.i := by
    rw [released, if_neg hmain, add_zero]
  exact (h.phase t).eq_pass hpc (hbegun.trans heq.symm) (by omega)

theorem Rounds.token (h : Rounds job steps s) (hsub : s.sub t = .waitIterStart)
    (htoken : s.iterStart ≠ 0) :
    s.released = s.i + 1 ∧ s.begun job t = job.defIterations - 1 - s.iterations t := by
  have hmain : s.main = .waitItersDone := by
    by_contra hmain
    exact htoken (h.counts.between hmain).1
  rw [released, if_pos hmain, begun, hsub, SubPc.pending]
  constructor
  · rfl
  · ring

theorem Rounds.file_next (h : Rounds job steps s) (hnext : s.next job act = some s')
    (hsub : s'.sub t ≠ .nextBunch) (hreset : s'.sub t ≠ .resetInputFile) :
    s'.rest t = job.file t := by
  by_cases ht : act.thread = some t
  · cases act <;> simp only [BarrierAction.thread, Option.some.injEq, reduceCtorEq] at ht <;>
      subst ht <;> simp only [Barrier.next, Option.ite_none_right_eq_some, Option.some.injEq] at hnext <;>
      obtain ⟨hguard, rfl⟩ := hnext
    case setReplayReady t => exact h.file t (by rw [hguard]; decide) (by rw [hguard]; decide)
    case iterate t => exact h.file t (by rw [hguard]; decide) (by rw [hguard]; decide)
    case waitIterStart t => simp [goto] at hsub
    case nextBunch t => exact absurd hguard.1 hsub
    case setIterDone t => simp [goto] at hreset
    case resetInputFile t => simp [goto]
    case setReplayDone t => exact h.file t (by rw [hguard]; decide) (by rw [hguard]; decide)
  · obtain ⟨heq, -, hrest⟩ := next_frame hnext ht
    rw [heq] at hsub hreset
    rw [hrest]
    exact h.file t hsub hreset

theorem Rounds.phase_next (h : Rounds job steps s) (hnext : s.next job act = some s')
    (hahead : ¬ Ahead job s act) (hact : act.isRelease = false) (t : θ) :
    Phase (job.file t) s.released (s'.begun job t) (s'.sub t) (s'.rest t)
      (passOf t (steps ++ [(s, act, s')])) := by
  have hphase := h.phase t
  have hbegun := next_begun hnext t
  rw [passOf_append hact]
  by_cases ht : act.thread = some t
  · cases act <;> simp only [BarrierAction.thread, Option.some.injEq, reduceCtorEq] at ht <;>
      subst ht <;> simp only [Barrier.next, Option.ite_none_right_eq_some, Option.some.injEq] at hnext <;>
      obtain ⟨hguard, rfl⟩ := hnext
    case waitIterStart t =>
      obtain ⟨hrel, hcount⟩ := h.token hguard.1 hguard.2
      rw [Ahead, ← hcount, not_lt] at hahead
      have hlow := hphase.le_begun
      have hnonneg := h.counts.nonneg t
      have hrest : [] ++ s.rest t = job.file t :=
        h.file t (by rw [hguard.1]; decide) (by rw [hguard.1]; decide)
      have hnil : passOf t steps = [] := hphase.eq_nil (by omega)
      rw [hnil, hbegun, if_pos rfl]
      simp only [goto, update_self, eventOf, if_true, Option.toList_some, List.nil_append]
      have heq : s.begun job t + 1 = s.released := by omega
      have hpos : 0 < s.begun job t + 1 := by omega
      exact .running heq hpos hrest
    case nextBunch t =>
      rw [hguard.1] at hphase
      obtain ⟨heq, hpos, done, hfile, hevents⟩ := hphase.exists_done
      obtain ⟨b, tl, hrest⟩ := List.exists_cons_of_ne_nil hguard.2
      rw [hbegun, if_neg (by simp), add_zero, hevents]
      simp only [update_self, eventOf, if_true, hrest, List.head?_cons, Option.map_some,
        Option.toList_some, List.tail_cons, hguard.1]
      rw [hrest, List.append_cons] at hfile
      have hrun := Phase.running heq hpos hfile
      rw [List.map_append] at hrun
      exact hrun
    case setIterDone t =>
      rw [hguard.1] at hphase
      obtain ⟨heq, hpos, done, hfile, hevents⟩ := hphase.exists_done
      rw [hguard.2, List.append_nil] at hfile
      rw [hbegun, if_neg (by simp), add_zero, hevents, hfile]
      simp only [goto, update_self, eventOf, if_true, Option.toList_some]
      exact .finished heq hpos (by decide)
    all_goals
      rw [hbegun, if_neg (by simp), add_zero]
      simp only [goto, update_self, eventOf, Option.toList_none, List.append_nil]
      refine hphase.move (by rw [hguard]; decide) ?_
    case setReplayReady t => decide
    case iterate t => split_ifs <;> decide
    case resetInputFile t => decide
    case setReplayDone t => decide
  · obtain ⟨hsub, hit, hrest⟩ := next_frame hnext ht
    rw [eventOf_ne ht, hsub, hrest, begun_congr hsub hit]
    simpa using hphase

theorem Rounds.next (h : Rounds job steps s) (hnext : s.next job act = some s')
    (hahead : ¬ Ahead job s act) : Rounds job (steps ++ [(s, act, s')]) s' where
  counts := h.counts.next hnext
  file _ hsub hreset := h.file_next hnext hsub hreset
  phase t := by
    rw [next_released hnext]
    cases hact : act.isRelease with
    | false =>
      have hne : act ≠ .startIter := by
        rintro rfl
        cases hact
      rw [if_neg hne, add_zero]
      exact h.phase_next hnext hahead hact t
    | true =>
      obtain rfl : act = .startIter := by
        cases act <;> first | rfl | cases hact
      have hbegun := next_begun hnext t
      have hthread : BarrierAction.thread .startIter ≠ some t := by simp [BarrierAction.thread]
      obtain ⟨hsub, -, -⟩ := next_frame hnext hthread
      simp only [Barrier.next, Option.ite_none_right_eq_some] at hnext
      obtain ⟨hall, hpc⟩ := h.all_ended (by rw [hnext.1.1]; decide) t
      have hrel : s.released = s.i := by
        rw [released, hnext.1.1]
        simp
      rw [passOf_release, hbegun, hsub]
      refine .idle (.inl ?_) hpc
      simp [hall, hrel]
  release := by
    have hrel : 0 ≤ s.released := by
      rw [released]
      split_ifs <;> omega
    rw [next_released hnext]
    by_cases hact : act = .startIter
    · subst hact
      refine iff_of_true ⟨_, List.mem_append_right _ (List.mem_singleton_self _), rfl⟩ ?_
      rw [if_pos rfl]
      omega
    · rw [if_neg hact, add_zero, ← h.release]
      simp [hact]

theorem Rounds.onePass_step (h : Rounds job steps s) (hnext : s.next job act = some s') :
    OnePass job steps (s, act, s') ↔ ¬ Ahead job s act := by
  cases act
  case waitIterStart t =>
    have hguard := hnext
    simp only [Barrier.next, Option.ite_none_right_eq_some] at hguard
    obtain ⟨⟨hsub, htoken⟩, -⟩ := hguard
    obtain ⟨hrel, hcount⟩ := h.token hsub htoken
    have hphase := h.phase t
    have hpc : s.sub t ≠ .nextBunch := by
      rw [hsub]
      decide
    rw [Ahead, ← hcount]
    refine ⟨fun hone hahead => ?_, fun hahead => ⟨fun hact => (by cases hact), ?_⟩⟩
    · have hle := hphase.begun_le
      have hpass := hphase.eq_pass hpc (by omega) (by omega)
      exact hone.2 t rfl (by rw [hpass, pass]; exact List.mem_cons_self)
    · rintro t' ht'
      cases ht'
      rw [hphase.eq_nil (by omega)]
      exact List.not_mem_nil
  case startIter =>
    refine iff_of_true ⟨fun _ hrel t => ?_, fun t ht => (by cases ht)⟩ (fun hahead => hahead)
    simp only [Barrier.next, Option.ite_none_right_eq_some] at hnext
    exact h.pass_of_release (by rw [hnext.1.1]; decide) hrel t
  all_goals
    exact iff_of_true ⟨fun hact => (by cases hact), fun t ht => (by cases ht)⟩ (fun hahead => hahead)

/-- The threads make one pass each between two releases in the runs in which none gets a start
token while it is ahead of the main thread. -/
theorem onePass_iff (job : ReplayJob θ β) (steps : List (BarrierStep θ β)) (s : Barrier θ β)
    (h : Replays job steps s) :
    (∀ before step after, steps = before ++ step :: after → OnePass job before step) ↔
      ∀ step ∈ steps, ¬ Ahead job step.1 step.2.1 := by
  refine h.forall_iff_history (Rounds job) ?_ (fun before s act s' hs hnext hahead => ?_)
    fun before s act s' hs hnext => ?_
  · rintro s rfl
    exact rounds_start
  · exact hs.next hnext hahead
  · exact hs.onePass_step hnext

theorem Counts.not_ahead (hc : Counts job s) (hnext : s.next job act = some s')
    (hsmall : Fintype.card θ ≤ 1 ∨ job.defIterations ≤ 1) : ¬ Ahead job s act := by
  cases act
  case waitIterStart t =>
    simp only [Barrier.next, Option.ite_none_right_eq_some] at hnext
    obtain ⟨⟨hsub, htoken⟩, -⟩ := hnext
    have hbegun : s.begun job t = job.defIterations - s.iterations t - 1 := by
      rw [Barrier.begun, hsub, SubPc.pending]
    rw [Ahead]
    obtain hcard | hdef := hsmall
    · have hle : s.begun job t ≤ ∑ t, s.begun job t :=
        Finset.single_le_sum (fun t _ => hc.nonneg t) (Finset.mem_univ t)
      have hone : Fintype.card θ = 1 := le_antisymm hcard (Fintype.card_pos_iff.mpr ⟨t⟩)
      rw [hc.begun, hone, released] at hle
      split_ifs at hle <;> omega
    · obtain h | h | hleft := hc.left t
      · cases hsub.symm.trans h
      · cases hsub.symm.trans h
      · omega
  all_goals exact fun h => h

end Rounds

def twoFiles : ReplayJob (Fin 2) ℕ where
  file t := [t]
  defIterations := 2

theorem replays_trySteps {acts : List (BarrierAction (Fin 2))} {s : Barrier (Fin 2) ℕ}
    {steps : List (BarrierStep (Fin 2) ℕ)}
    (h : Run.trySteps (next twoFiles) (start twoFiles) acts = some (steps, s)) :
    Replays twoFiles steps s :=
  Run.trySteps_run (fun _ _ _ h => h) rfl h

theorem onePass_inStep :
    ∃ steps s, Replays twoFiles steps s ∧ (∃ step ∈ steps.reverse.take 1, step.2.1 = .waitIterStart 0) ∧
      ∀ before step after, steps = before ++ step :: after → OnePass twoFiles before step := by
  have hrun := @replays_trySteps
    [.setReplayReady 0, .setReplayReady 1, .waitReplaysReady, .startIter, .iterate 0, .iterate 1,
      .waitIterStart 0, .waitIterStart 1, .nextBunch 1, .nextBunch 0, .setIterDone 0,
      .setIterDone 1, .waitItersDone, .startIter, .resetInputFile 0, .iterate 0, .waitIterStart 0]
    _ _ rfl
  exact ⟨_, _, hrun, ⟨_, List.mem_cons_self, rfl⟩, (onePass_iff _ _ _ hrun).mpr (by decide)⟩

/-- Thread 0 takes both tokens of the first round, and thread 1 has made no pass when the main
thread releases the second one. -/
theorem thread_laps :
    ∃ steps s, Replays twoFiles steps s ∧
      ¬ ∀ before step after, steps = before ++ step :: after → OnePass twoFiles before step := by
  have hrun := @replays_trySteps
    [.setReplayReady 0, .setReplayReady 1, .waitReplaysReady, .startIter, .iterate 0,
      .waitIterStart 0, .nextBunch 0, .setIterDone 0, .resetInputFile 0, .iterate 0,
      .waitIterStart 0, .nextBunch 0, .setIterDone 0, .waitItersDone, .startIter]
    _ _ rfl
  refine ⟨_, _, hrun, fun hone => ?_⟩
  have hlast := hone _ _ [] (List.dropLast_append_getLast (List.cons_ne_nil _ _)).symm
  have hpass := hlast.1 rfl (by decide) 1
  cases hpass

end Barrier

end SBlktrace
