import Mathlib

namespace Framing

/-- A format of frames: a header of fixed length tells the length of the body that follows it. -/
structure Format (α : Type) where
  header : ℕ
  header_pos : 0 < header
  body : List α → ℕ
  body_append : ∀ l l' : List α, header ≤ l.length → body (l ++ l') = body l

variable {α : Type} {F : Format α}

def Format.size (F : Format α) (l : List α) : ℕ := F.header + F.body l

def Format.IsFrame (F : Format α) (e : List α) : Prop := e.length = F.size e

def whole (F : Format α) (l : List α) : ℕ × ℕ :=
  if F.header ≤ l.length ∧ F.size l ≤ l.length then
    let rest := whole F (l.drop (F.size l))
    (F.size l + rest.1, rest.2 + 1)
  else (0, 0)
termination_by l.length
decreasing_by
  rename_i h
  have := F.header_pos
  rw [List.length_drop, Format.size] at *
  omega

def Partial (frames : List (List α)) (r : List α) : Prop :=
  r = [] ∨ ∃ e ∈ frames.head?, r <+: e ∧ r.length < e.length

theorem whole_frame {l : List α} (hh : F.header ≤ l.length) (hs : F.size l ≤ l.length) :
    whole F l = (F.size l + (whole F (l.drop (F.size l))).1,
      (whole F (l.drop (F.size l))).2 + 1) := by
  rw [whole, if_pos ⟨hh, hs⟩]

theorem whole_short {l : List α} (h : ¬(F.header ≤ l.length ∧ F.size l ≤ l.length)) :
    whole F l = (0, 0) := by
  rw [whole, if_neg h]

theorem whole_le (F : Format α) (l : List α) : (whole F l).1 ≤ l.length := by
  induction l using whole.induct F with
  | case1 l h ih =>
    rw [whole_frame h.1 h.2]
    rw [List.length_drop] at ih
    have hsize := h.2
    dsimp only
    omega
  | case2 l h =>
    rw [whole_short h]
    exact Nat.zero_le _

theorem Format.IsFrame.header_le {e : List α} (he : F.IsFrame e) : F.header ≤ e.length := by
  rw [he, Format.size]
  exact Nat.le_add_right _ _

theorem Format.IsFrame.size_append {e : List α} (he : F.IsFrame e) (l : List α) :
    F.size (e ++ l) = e.length := by
  rw [Format.size, F.body_append e l he.header_le, he, Format.size]

theorem whole_cons {e : List α} (he : F.IsFrame e) (l : List α) :
    whole F (e ++ l) = (e.length + (whole F l).1, (whole F l).2 + 1) := by
  have hsize := he.size_append l
  rw [whole_frame, hsize, List.drop_left]
  · rw [List.length_append]
    exact he.header_le.trans (Nat.le_add_right _ _)
  · rw [hsize, List.length_append]
    exact Nat.le_add_right _ _

theorem whole_part {e r : List α} (he : F.IsFrame e) (hr : r <+: e) (hlt : r.length < e.length) :
    whole F r = (0, 0) := by
  apply whole_short
  rintro ⟨hh, hs⟩
  obtain ⟨l, rfl⟩ := hr
  rw [Format.IsFrame, Format.size, F.body_append r l hh] at he
  rw [Format.size] at hs
  omega

theorem Partial.whole {frames : List (List α)} (hf : ∀ e ∈ frames, F.IsFrame e) {r : List α}
    (hr : Partial frames r) : whole F r = (0, 0) := by
  rcases hr with rfl | ⟨e, he, hre, hlt⟩
  · apply whole_short
    rintro ⟨hh, -⟩
    exact absurd hh (not_le.mpr F.header_pos)
  · exact whole_part (hf e (List.mem_of_mem_head? he)) hre hlt

theorem whole_flatten {frames rest : List (List α)} (hf : ∀ e ∈ frames, F.IsFrame e)
    (hrest : ∀ e ∈ rest, F.IsFrame e) {r : List α} (hr : Partial rest r) :
    whole F (frames.flatten ++ r) = (frames.flatten.length, frames.length) := by
  induction frames with
  | nil => exact hr.whole hrest
  | cons e frames ih =>
    rw [List.flatten_cons, List.append_assoc, whole_cons (hf e List.mem_cons_self),
      ih (fun e' he' => hf e' (List.mem_cons_of_mem e he')), List.length_append, List.length_cons]

theorem whole_prefix {frames : List (List α)} (hf : ∀ e ∈ frames, F.IsFrame e) {l : List α}
    (hl : l <+: frames.flatten) : ∃ k r, k ≤ frames.length ∧ l = (frames.take k).flatten ++ r ∧
      Partial (frames.drop k) r ∧ whole F l = ((frames.take k).flatten.length, k) := by
  induction frames generalizing l with
  | nil =>
    obtain rfl := List.prefix_nil.mp hl
    exact ⟨0, [], le_refl _, rfl, Or.inl rfl, Partial.whole hf (Or.inl rfl)⟩
  | cons e frames ih =>
    have he := hf e List.mem_cons_self
    rw [List.flatten_cons] at hl
    by_cases hlen : e.length ≤ l.length
    · obtain ⟨l', rfl⟩ := List.prefix_of_prefix_length_le (List.prefix_append e _) hl hlen
      obtain ⟨k, r, hk, hl', hr, hw⟩ := ih (fun e' he' => hf e' (List.mem_cons_of_mem e he'))
        ((List.prefix_append_right_inj e).mp hl)
      refine ⟨k + 1, r, Nat.succ_le_succ hk, ?_, hr, ?_⟩
      · rw [List.take_succ_cons, List.flatten_cons, List.append_assoc, ← hl']
      · rw [whole_cons he, hw, List.take_succ_cons, List.flatten_cons, List.length_append]
    · have hr : l <+: e := List.prefix_of_prefix_length_le hl (List.prefix_append e _) (by omega)
      refine ⟨0, l, Nat.zero_le _, rfl, Or.inr ⟨e, rfl, hr, by omega⟩, ?_⟩
      exact whole_part he hr (by omega)

theorem Partial.longest {frames : List (List α)} {k j : ℕ} {r l : List α}
    (hr : Partial (frames.drop k) r) (hl : l = (frames.take k).flatten ++ r)
    (hj : (frames.take j).flatten <+: l) :
    (frames.take j).flatten <+: (frames.take k).flatten := by
  rcases le_total j k with hle | hle
  · obtain ⟨t, ht⟩ : frames.take j <+: frames.take k := List.take_prefix_take_left hle
    rw [← ht, List.flatten_append]
    exact List.prefix_append _ _
  · obtain ⟨n, rfl⟩ := Nat.exists_eq_add_of_le hle
    rw [List.take_add, List.flatten_append] at hj ⊢
    rw [hl] at hj
    have ht : ((frames.drop k).take n).flatten <+: r := (List.prefix_append_right_inj _).mp hj
    suffices hnil : ((frames.drop k).take n).flatten = [] by
      rw [hnil, List.append_nil]
    rcases hr with rfl | ⟨e, he, -, hlt⟩
    · exact List.prefix_nil.mp ht
    · obtain ⟨rest, hrest⟩ := List.head?_eq_some_iff.mp he
      rw [hrest] at ht ⊢
      cases n with
      | zero => rfl
      | succ n =>
        have hlen := ht.length_le
        rw [List.take_succ_cons, List.flatten_cons, List.length_append] at hlen
        omega

end Framing
