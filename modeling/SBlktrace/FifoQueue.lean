import Mathlib

namespace FifoQueue

open Function Relation

variable {τ α : Type*}

section Chains

variable {ν : Type*} {next next' : ν → Option ν} {p q : Option ν} {n : ν} {l : List ν}

def Chain (next : ν → Option ν) : Option ν → List ν → Prop
  | p, [] => p = none
  | p, n :: l => p = some n ∧ Chain next (next n) l

@[simp] theorem chain_nil : Chain next p [] ↔ p = none := Iff.rfl

@[simp] theorem chain_cons : Chain next p (n :: l) ↔ p = some n ∧ Chain next (next n) l := Iff.rfl

theorem chain_none (h : Chain next none l) : l = [] := by
  cases l with
  | nil => rfl
  | cons n l => simp at h

theorem chain_some (h : Chain next (some n) l) : ∃ l', l = n :: l' ∧ Chain next (next n) l' := by
  cases l with
  | nil => simp at h
  | cons m l' =>
    obtain ⟨hm, hl⟩ := h
    cases hm
    exact ⟨l', rfl, hl⟩

theorem Chain.congr (h : Chain next p l) (hnext : ∀ n ∈ l, next' n = next n) :
    Chain next' p l := by
  induction l generalizing p with
  | nil => exact h
  | cons n l ih =>
    obtain ⟨hp, hl⟩ := h
    refine ⟨hp, ?_⟩
    rw [hnext n List.mem_cons_self]
    exact ih hl fun m hm => hnext m (List.mem_cons_of_mem n hm)

theorem Chain.update [DecidableEq ν] (h : Chain next p l) (hn : n ∉ l) (q : Option ν) :
    Chain (update next n q) p l := by
  refine h.congr fun m hm => ?_
  have hne : m ≠ n := by
    rintro rfl
    exact hn hm
  exact update_of_ne hne q next

end Chains

inductive Event (τ α : Type*) where
  | put (v : α)
  | called (t : τ)
  | returned (t : τ) (r : Option α)

def Event.put? : Event τ α → Option α
  | put v => some v
  | called _ => none
  | returned _ _ => none

def Event.got? : Event τ α → Option α
  | put _ => none
  | called _ => none
  | returned _ r => r

def puts (h : List (Event τ α)) : List α := h.filterMap Event.put?

def gets (h : List (Event τ α)) : List α := h.filterMap Event.got?

@[simp] theorem puts_append (h h' : List (Event τ α)) : puts (h ++ h') = puts h ++ puts h' :=
  List.filterMap_append

@[simp] theorem gets_append (h h' : List (Event τ α)) : gets (h ++ h') = gets h ++ gets h' :=
  List.filterMap_append

@[simp] theorem puts_put (v : α) : puts [(.put v : Event τ α)] = [v] := rfl

@[simp] theorem puts_called (t : τ) : puts [(.called t : Event τ α)] = [] := rfl

@[simp] theorem puts_returned (t : τ) (r : Option α) : puts [Event.returned t r] = [] := rfl

@[simp] theorem gets_put (v : α) : gets [(.put v : Event τ α)] = [] := rfl

@[simp] theorem gets_called (t : τ) : gets [(.called t : Event τ α)] = [] := rfl

@[simp] theorem gets_returned (t : τ) (r : Option α) :
    gets [Event.returned t r] = r.toList := by
  cases r <;> rfl

def Event.of (t : τ) : Event τ α → Prop
  | put _ => False
  | called u => u = t
  | returned u _ => u = t

def CallSplit (t : τ) (h before during : List (Event τ α)) : Prop :=
  h = before ++ .called t :: during ∧ ∀ e ∈ during, ¬ e.of t

def EmptySeen (t : τ) (h : List (Event τ α)) : Prop :=
  ∃ before during, CallSplit t h before during ∧ ∃ now, now <+: during ∧
    puts (before ++ .called t :: now) = gets (before ++ .called t :: now)

/-- The values are returned in the order in which they were put, at every moment, and none is
returned only where the queue was empty at a moment of the call. -/
structure Fifo (h : List (Event τ α)) : Prop where
  order : ∀ now, now <+: h → gets now <+: puts now
  empty : ∀ now t, now ++ [.returned t none] <+: h → EmptySeen t now

variable {t : τ} {h : List (Event τ α)} {e : Event τ α}

theorem CallSplit.concat {before during : List (Event τ α)} (hs : CallSplit t h before during)
    (he : ¬ e.of t) : CallSplit t (h ++ [e]) before (during ++ [e]) := by
  obtain ⟨rfl, hduring⟩ := hs
  refine ⟨by simp, fun e' he' => ?_⟩
  obtain he' | he' := List.mem_append.mp he'
  · exact hduring e' he'
  · obtain rfl := List.mem_singleton.mp he'
    exact he

theorem EmptySeen.concat (hs : EmptySeen t h) (he : ¬ e.of t) : EmptySeen t (h ++ [e]) := by
  obtain ⟨before, during, hsplit, now, hnow, hempty⟩ := hs
  exact ⟨before, during ++ [e], hsplit.concat he, now, hnow.trans (List.prefix_append _ _), hempty⟩

theorem fifo_nil : Fifo ([] : List (Event τ α)) where
  order now hnow := by
    obtain rfl := List.prefix_nil.mp hnow
    exact List.prefix_refl _
  empty now t hnow := by simp at hnow

theorem Fifo.concat (hf : Fifo h) (horder : gets (h ++ [e]) <+: puts (h ++ [e]))
    (hempty : ∀ t, e = .returned t none → EmptySeen t h) : Fifo (h ++ [e]) where
  order now hnow := by
    obtain rfl | hnow := List.prefix_concat_iff.mp hnow
    · exact horder
    · exact hf.order now hnow
  empty now t hnow := by
    obtain heq | hnow := List.prefix_concat_iff.mp hnow
    · obtain ⟨rfl, he⟩ := List.append_inj' heq rfl
      exact hempty t (List.singleton_inj.mp he).symm
    · exact hf.empty now t hnow

inductive Status (α : Type*) where
  | idle
  | called
  | replied (r : Option α)

def Status.isReplied : Status α → Prop
  | idle => False
  | called => False
  | replied _ => True

/-- A queue whose calls take effect at once, and one of which at a time has its reply waiting. -/
structure Queue (τ α : Type*) where
  items : List α
  status : τ → Status α
  history : List (Event τ α)

namespace Queue

def empty : Queue τ α := ⟨[], fun _ => .idle, []⟩

structure Inv (q : Queue τ α) : Prop where
  fifo : Fifo q.history
  one : ∀ t u, (q.status t).isReplied → (q.status u).isReplied → t = u
  none_waits : (∀ t, ¬ (q.status t).isReplied) → puts q.history = gets q.history ++ q.items
  waits : ∀ t r, q.status t = .replied r →
    puts q.history = gets q.history ++ (r.toList ++ q.items)
  call : ∀ t, q.status t ≠ .idle → ∃ before during, CallSplit t q.history before during
  seen : ∀ t, q.status t = .replied none → EmptySeen t q.history

theorem inv_empty : (empty : Queue τ α).Inv where
  fifo := fifo_nil
  one t u ht := ht.elim
  none_waits _ := rfl
  waits t r ht := by simp [empty] at ht
  call t ht := absurd rfl ht
  seen t ht := by simp [empty] at ht

variable {q : Queue τ α}

theorem inv_put (hq : q.Inv) (v : α) :
    Inv { q with items := q.items ++ [v], history := q.history ++ [.put v] } where
  fifo := by
    have horder := hq.fifo.order q.history (List.prefix_refl _)
    refine hq.fifo.concat ?_ fun t ht => by cases ht
    rw [gets_append, puts_append, gets_put, List.append_nil]
    exact horder.trans (List.prefix_append _ _)
  one := hq.one
  none_waits hnone := by simp [hq.none_waits hnone]
  waits t r ht := by simp [hq.waits t r ht]
  call t ht := by
    obtain ⟨before, during, hsplit⟩ := hq.call t ht
    exact ⟨before, _, hsplit.concat id⟩
  seen t ht := (hq.seen t ht).concat id

variable [DecidableEq τ]

inductive Step : Queue τ α → Queue τ α → Prop
  | put (q : Queue τ α) (v : α) :
      Step q { q with items := q.items ++ [v], history := q.history ++ [.put v] }
  | call (q : Queue τ α) (t : τ) (ht : q.status t = .idle) :
      Step q { q with
        status := update q.status t .called
        history := q.history ++ [.called t] }
  | take (q : Queue τ α) (t : τ) (v : α) (rest : List α) (ht : q.status t = .called)
      (hothers : ∀ u, ¬ (q.status u).isReplied) (hitems : q.items = v :: rest) :
      Step q { q with items := rest, status := update q.status t (.replied (some v)) }
  | none (q : Queue τ α) (t : τ) (ht : q.status t = .called)
      (hothers : ∀ u, ¬ (q.status u).isReplied) (hitems : q.items = []) :
      Step q { q with status := update q.status t (.replied none) }
  | ret (q : Queue τ α) (t : τ) (r : Option α) (ht : q.status t = .replied r) :
      Step q { q with
        status := update q.status t .idle
        history := q.history ++ [.returned t r] }

theorem inv_call (hq : q.Inv) {t : τ} (ht : q.status t = .idle) :
    Inv { q with
      status := update q.status t .called
      history := q.history ++ [.called t] } where
  fifo := by
    have horder := hq.fifo.order q.history (List.prefix_refl _)
    refine hq.fifo.concat ?_ fun u hu => by cases hu
    simpa using horder
  one u v hu hv := by
    dsimp only at hu hv
    rw [update_apply] at hu hv
    split at hu
    · exact hu.elim
    split at hv
    · exact hv.elim
    exact hq.one u v hu hv
  none_waits hnone := by
    have hold : ∀ u, ¬ (q.status u).isReplied := by
      rintro u hu
      by_cases hut : u = t
      · rw [hut, ht] at hu
        exact hu
      · have hnot := hnone u
        dsimp only at hnot
        rw [update_of_ne hut] at hnot
        exact hnot hu
    simpa using hq.none_waits hold
  waits u r hu := by
    dsimp only at hu
    rw [update_apply] at hu
    split at hu
    · cases hu
    · simpa using hq.waits u r hu
  call u hu := by
    by_cases hut : u = t
    · subst hut
      exact ⟨q.history, [], rfl, by simp⟩
    · dsimp only at hu
      rw [update_of_ne hut] at hu
      obtain ⟨before, during, hsplit⟩ := hq.call u hu
      exact ⟨before, _, hsplit.concat (Ne.symm hut)⟩
  seen u hu := by
    dsimp only at hu
    rw [update_apply] at hu
    split at hu
    · cases hu
    case isFalse hut => exact (hq.seen u hu).concat (Ne.symm hut)

theorem inv_reply (hq : q.Inv) {t : τ} {r : Option α} {rest : List α} (ht : q.status t = .called)
    (hothers : ∀ u, ¬ (q.status u).isReplied) (hitems : q.items = r.toList ++ rest)
    (hnone : r = none → rest = []) :
    Inv { q with items := rest, status := update q.status t (.replied r) } where
  fifo := hq.fifo
  one u v hu hv := by
    dsimp only at hu hv
    rw [update_apply] at hu hv
    split at hu
    case isFalse => exact (hothers u hu).elim
    split at hv
    case isFalse => exact (hothers v hv).elim
    case isTrue hut hvt => rw [hut, hvt]
  none_waits hnot := by
    have hreply := hnot t
    dsimp only at hreply
    rw [update_self] at hreply
    exact (hreply trivial).elim
  waits u r' hu := by
    dsimp only at hu ⊢
    rw [update_apply] at hu
    split at hu
    · cases hu
      rw [hq.none_waits hothers, hitems]
    · exact (hothers u (by rw [hu]; trivial)).elim
  call u hu := by
    dsimp only at hu
    by_cases hut : u = t
    · subst hut
      exact hq.call u (by simp [ht])
    · rw [update_of_ne hut] at hu
      exact hq.call u hu
  seen u hu := by
    dsimp only at hu ⊢
    rw [update_apply] at hu
    split at hu
    case isFalse => exact hq.seen u hu
    case isTrue hut =>
      cases hu
      -- The present moment is one at which all had been returned.
      have hcall : q.status u ≠ .idle := by
        rw [hut, ht]
        simp
      obtain ⟨before, during, hsplit⟩ := hq.call u hcall
      have heq := hq.none_waits hothers
      rw [hitems, hnone rfl] at heq
      refine ⟨before, during, hsplit, during, List.prefix_refl _, ?_⟩
      rw [← hsplit.1]
      simpa using heq

theorem inv_ret (hq : q.Inv) {t : τ} {r : Option α} (ht : q.status t = .replied r) :
    Inv { q with
      status := update q.status t .idle
      history := q.history ++ [.returned t r] } := by
  have hsame : puts (q.history ++ [.returned t r]) =
      gets (q.history ++ [.returned t r]) ++ q.items := by
    simp [hq.waits t r ht]
  have hothers : ∀ u, u ≠ t → ¬ (q.status u).isReplied := by
    rintro u hut hu
    exact hut (hq.one u t hu (by rw [ht]; trivial))
  refine ⟨?_, ?_, fun _ => hsame, ?_, ?_, ?_⟩
  · refine hq.fifo.concat ?_ ?_
    · rw [hsame]
      exact List.prefix_append _ _
    · rintro u hu
      obtain ⟨rfl, rfl⟩ := Event.returned.inj hu
      exact hq.seen t ht
  · rintro u v hu
    dsimp only at hu
    rw [update_apply] at hu
    split at hu
    · exact hu.elim
    case isFalse hut => exact (hothers u hut hu).elim
  · rintro u r' hu
    dsimp only at hu
    rw [update_apply] at hu
    split at hu
    · cases hu
    case isFalse hut => exact (hothers u hut (by rw [hu]; trivial)).elim
  · rintro u hu
    dsimp only at hu
    rw [update_apply] at hu
    split at hu
    · exact absurd rfl hu
    case isFalse hut =>
      obtain ⟨before, during, hsplit⟩ := hq.call u hu
      exact ⟨before, _, hsplit.concat (Ne.symm hut)⟩
  · rintro u hu
    dsimp only at hu
    rw [update_apply] at hu
    split at hu
    · cases hu
    case isFalse hut => exact (hothers u hut (by rw [hu]; trivial)).elim

theorem Step.inv {q' : Queue τ α} (h : Step q q') (hq : q.Inv) : q'.Inv := by
  cases h with
  | put v => exact inv_put hq v
  | call t ht => exact inv_call hq ht
  | take t v rest ht hothers hitems => exact inv_reply hq ht hothers hitems (by simp)
  | none t ht hothers hitems =>
    have hnil : q.items = Option.none.toList ++ q.items := rfl
    exact inv_reply hq ht hothers hnil fun _ => hitems
  | ret t r ht => exact inv_ret hq ht

theorem fifo_of_simulation {σ : Type*} {step : σ → σ → Prop} {init : σ} (R : σ → Queue τ α → Prop)
    (hinit : R init empty)
    (hstep : ∀ s s' q, step s s' → R s q → ∃ q', ReflGen Step q q' ∧ R s' q') {s : σ}
    (hs : ReflTransGen step init s) : ∃ q, R s q ∧ q.Inv := by
  induction hs with
  | refl => exact ⟨empty, hinit, inv_empty⟩
  | tail _ hlast ih =>
    obtain ⟨q, hR, hq⟩ := ih
    obtain ⟨q', hq', hR'⟩ := hstep _ _ q hlast hR
    refine ⟨q', hR', ?_⟩
    cases hq' with
    | refl => exact hq
    | single h => exact h.inv hq

end Queue

end FifoQueue
