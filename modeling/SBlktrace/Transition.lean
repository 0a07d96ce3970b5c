import Mathlib.Data.List.Basic

universe u v

inductive Run {σ : Type u} {α : Type v} (first : σ → Prop) (step : σ → α → σ → Prop) :
    List (σ × α × σ) → σ → Prop
  | start {s : σ} (h : first s) : Run first step [] s
  | step {steps : List (σ × α × σ)} {s s' : σ} {a : α} (hrun : Run first step steps s)
      (hstep : step s a s') : Run first step (steps ++ [(s, a, s')]) s'

namespace Run

variable {σ : Type u} {α : Type v} {first : σ → Prop} {step : σ → α → σ → Prop}
  {steps : List (σ × α × σ)} {s : σ}

theorem invariant (I : σ → Prop) (hfirst : ∀ s, first s → I s)
    (hkeep : ∀ s a s', I s → step s a s' → I s') (h : Run first step steps s) : I s := by
  induction h with
  | start hs => exact hfirst _ hs
  | step _ hstep ih => exact hkeep _ _ _ ih hstep

theorem invariant_of (I : σ → Prop) {C : σ × α × σ → Prop} (hfirst : ∀ s, first s → I s)
    (hkeep : ∀ s a s', I s → step s a s' → C (s, a, s') → I s') (h : Run first step steps s)
    (hC : ∀ t ∈ steps, C t) : I s := by
  induction h with
  | start hs => exact hfirst _ hs
  | step _ hstep ih =>
    have hlast := hC _ (List.mem_append_right _ (List.mem_singleton_self _))
    exact hkeep _ _ _ (ih fun t ht => hC t (List.mem_append_left _ ht)) hstep hlast

theorem forall_of (I : σ → Prop) {C P : σ × α × σ → Prop} (hfirst : ∀ s, first s → I s)
    (hkeep : ∀ s a s', I s → step s a s' → C (s, a, s') → I s')
    (hC : ∀ s a s', I s → step s a s' → C (s, a, s') → P (s, a, s'))
    (h : Run first step steps s) (hsteps : ∀ t ∈ steps, C t) : ∀ t ∈ steps, P t := by
  induction h with
  | start _ => exact List.forall_mem_nil _
  | @step steps s s' a hrun hstep ih =>
    rw [List.forall_mem_append, List.forall_mem_singleton] at hsteps ⊢
    exact ⟨ih hsteps.1, hC _ _ _ (hrun.invariant_of I hfirst hkeep hsteps.1) hstep hsteps.2⟩

theorem forall_iff (I : σ → Prop) {P C : σ × α × σ → Prop} (hfirst : ∀ s, first s → I s)
    (hkeep : ∀ s a s', I s → step s a s' → C (s, a, s') → I s')
    (hiff : ∀ s a s', I s → step s a s' → (P (s, a, s') ↔ C (s, a, s')))
    (h : Run first step steps s) : (∀ t ∈ steps, P t) ↔ ∀ t ∈ steps, C t := by
  induction h with
  | start _ => exact iff_of_true (List.forall_mem_nil _) (List.forall_mem_nil _)
  | @step steps s s' a hrun hstep ih =>
    rw [List.forall_mem_append, List.forall_mem_append, ih]
    refine and_congr_right fun hC => ?_
    rw [List.forall_mem_singleton, List.forall_mem_singleton]
    exact hiff _ _ _ (hrun.invariant_of I hfirst hkeep hC) hstep

theorem invariant_history {I : List (σ × α × σ) → σ → Prop} {C : σ × α × σ → Prop}
    (hfirst : ∀ s, first s → I [] s)
    (hkeep : ∀ before s a s', I before s → step s a s' → C (s, a, s') →
      I (before ++ [(s, a, s')]) s') (h : Run first step steps s) (hC : ∀ t ∈ steps, C t) :
    I steps s := by
  induction h with
  | start hs => exact hfirst _ hs
  | step _ hstep ih =>
    have hlast := hC _ (List.mem_append_right _ (List.mem_singleton_self _))
    exact hkeep _ _ _ _ (ih fun t ht => hC t (List.mem_append_left _ ht)) hstep hlast

theorem forall_iff_history (I : List (σ × α × σ) → σ → Prop)
    {P : List (σ × α × σ) → σ × α × σ → Prop} {C : σ × α × σ → Prop}
    (hfirst : ∀ s, first s → I [] s)
    (hkeep : ∀ before s a s', I before s → step s a s' → C (s, a, s') →
      I (before ++ [(s, a, s')]) s')
    (hiff : ∀ before s a s', I before s → step s a s' → (P before (s, a, s') ↔ C (s, a, s')))
    (h : Run first step steps s) :
    (∀ before t after, steps = before ++ t :: after → P before t) ↔ ∀ t ∈ steps, C t := by
  induction h with
  | start _ =>
    refine iff_of_true (fun before t after heq => ?_) (List.forall_mem_nil _)
    exact absurd heq (List.append_ne_nil_of_right_ne_nil _ (List.cons_ne_nil _ _)).symm
  | @step steps s s' a hrun hstep ih =>
    rw [List.forall_mem_append, List.forall_mem_singleton, ← ih]
    refine ⟨fun hP => ?_, fun hC before t after heq => ?_⟩
    · have hbefore : ∀ before t after, steps = before ++ t :: after → P before t := by
        rintro before t after rfl
        exact hP before t (after ++ [(s, a, s')]) (by simp)
      have hinv := hrun.invariant_history hfirst hkeep (ih.mp hbefore)
      exact ⟨hbefore, (hiff _ _ _ _ hinv hstep).mp (hP steps _ [] rfl)⟩
    · obtain rfl | ⟨after', x, rfl⟩ := after.eq_nil_or_concat
      · obtain ⟨rfl, hlast⟩ := List.append_inj' heq rfl
        obtain rfl := List.singleton_inj.mp hlast
        have hinv := hrun.invariant_history hfirst hkeep (ih.mp hC.1)
        exact (hiff _ _ _ _ hinv hstep).mpr hC.2
      · rw [List.concat_eq_append, ← List.cons_append, ← List.append_assoc] at heq
        exact hC.1 before t after' (List.append_inj_left' heq rfl)

def execSteps (f : σ → α → σ) : σ → List α → List (σ × α × σ)
  | _, [] => []
  | s, a :: as => (s, a, f s a) :: execSteps f (f s a) as

theorem execSteps_append {f : σ → α → σ} (hf : ∀ s a, step s a (f s a))
    (h : Run first step steps s) (as : List α) :
    Run first step (steps ++ execSteps f s as) (as.foldl f s) := by
  induction as generalizing steps s with
  | nil =>
    rw [execSteps, List.append_nil]
    exact h
  | cons a as ih =>
    rw [execSteps, List.append_cons]
    exact ih (h.step (hf s a))

theorem execSteps_run {f : σ → α → σ} (hf : ∀ s a, step s a (f s a)) (hs : first s)
    (as : List α) : Run first step (execSteps f s as) (as.foldl f s) :=
  execSteps_append hf (.start hs) as

def trySteps (f : σ → α → Option σ) : σ → List α → Option (List (σ × α × σ) × σ)
  | s, [] => some ([], s)
  | s, a :: as =>
    (f s a).bind fun s' =>
      (trySteps f s' as).map fun run => ((s, a, s') :: run.1, run.2)

theorem trySteps_append {f : σ → α → Option σ} (hf : ∀ s a s', f s a = some s' → step s a s')
    {as : List α} {more : List (σ × α × σ)} {last : σ} (h : Run first step steps s)
    (htry : trySteps f s as = some (more, last)) : Run first step (steps ++ more) last := by
  induction as generalizing steps s more with
  | nil =>
    cases htry
    rw [List.append_nil]
    exact h
  | cons a as ih =>
    obtain ⟨s', hs', htry⟩ := Option.bind_eq_some_iff.mp htry
    obtain ⟨⟨rest, last'⟩, hrest, heq⟩ := Option.map_eq_some_iff.mp htry
    cases heq
    rw [List.append_cons]
    exact ih (h.step (hf s a s' hs')) hrest

theorem trySteps_run {f : σ → α → Option σ} (hf : ∀ s a s', f s a = some s' → step s a s')
    {as : List α} {last : σ} (hs : first s) (htry : trySteps f s as = some (steps, last)) :
    Run first step steps last :=
  trySteps_append hf (.start hs) htry

end Run
