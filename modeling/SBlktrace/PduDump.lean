import Mathlib

namespace SBlktrace

def hexDigit (n : ℕ) : UInt8 := UInt8.ofNat (if n < 10 then 48 + n else 87 + n)

def hex02 (b : UInt8) : List UInt8 := [hexDigit (b.toNat / 16), hexDigit (b.toNat % 16)]

def pduRestIsZero (pdu : List UInt8) : Bool := pdu.all (· = 0)

/-- The string in the text buffer, and what was accessed: the writes to the buffer, and the places in
the payload that were compared with the array of zeros, each with the number of bytes. -/
structure PduDump where
  p : List UInt8
  len : ℕ
  writes : List (ℕ × ℕ)
  compares : List (ℕ × ℕ)

namespace PduDump

def sprintf (d : PduDump) (text : List UInt8) : PduDump :=
  { d with p := d.p.take d.len ++ text, writes := (d.len, text.length + 1) :: d.writes }

def append (d : PduDump) (text : List UInt8) : PduDump :=
  { d.sprintf text with len := d.len + text.length }

def compare (d : PduDump) (i len : ℕ) : PduDump := { d with compares := (i, len) :: d.compares }

def dumpFrom (i : ℕ) (d : PduDump) : List UInt8 → PduDump
  | [] => d
  | b :: rest =>
    let d := if i = 0 then d else d.append [0x20]
    let d := d.append (hex02 b)
    if b = 0 then
      let d := d.compare i (b :: rest).length
      if pduRestIsZero (b :: rest) then d.sprintf [0x20, 0x2e, 0x2e]
      else dumpFrom (i + 1) d rest
    else dumpFrom (i + 1) d rest

end PduDump

def dumpPdu (pduBuf : List UInt8) : Option PduDump :=
  if pduBuf = [] then none else some (PduDump.dumpFrom 0 ⟨[], 0, [], []⟩ pduBuf)

theorem hexDigit_inj : ∀ m < 16, ∀ n < 16, hexDigit m = hexDigit n → m = n := by decide

theorem hexDigit_ne_dot : ∀ n < 16, hexDigit n ≠ 0x2e := by decide

theorem hex02_inj {b c : UInt8} (h : hex02 b = hex02 c) : b = c := by
  have hb := b.toNat_lt
  have hc := c.toNat_lt
  unfold hex02 at h
  rw [List.cons.injEq, List.cons.injEq] at h
  obtain ⟨hhigh, hlow, -⟩ := h
  have hhigh' := hexDigit_inj _ (by omega) _ (by omega) hhigh
  have hlow' := hexDigit_inj _ (by omega) _ (by omega) hlow
  apply UInt8.toNat_inj.mp
  omega

namespace PduDump

def textFrom (i : ℕ) : List UInt8 → List UInt8
  | [] => []
  | b :: rest =>
    (if i = 0 then [] else [0x20]) ++ hex02 b ++
      if pduRestIsZero (b :: rest) then [0x20, 0x2e, 0x2e] else textFrom (i + 1) rest

variable {d : PduDump} {i n : ℕ} {b : UInt8} {rest xs ys : List UInt8}

theorem append_p (h : d.p.length = d.len) (text : List UInt8) :
    (d.append text).p = d.p ++ text ∧ (d.append text).p.length = (d.append text).len := by
  have hp : (d.append text).p = d.p ++ text := by
    change d.p.take d.len ++ text = d.p ++ text
    rw [← h, List.take_length]
  refine ⟨hp, ?_⟩
  rw [hp, List.length_append, h]
  rfl

def shown (i : ℕ) (d : PduDump) (b : UInt8) : PduDump :=
  (if i = 0 then d else d.append [0x20]).append (hex02 b)

theorem dumpFrom_cons (i : ℕ) (d : PduDump) (b : UInt8) (rest : List UInt8) :
    dumpFrom i d (b :: rest) =
      if b = 0 then
        if pduRestIsZero (b :: rest) then
          ((shown i d b).compare i (b :: rest).length).sprintf [0x20, 0x2e, 0x2e]
        else dumpFrom (i + 1) ((shown i d b).compare i (b :: rest).length) rest
      else dumpFrom (i + 1) (shown i d b) rest :=
  rfl

theorem eq_zero_of_rest (h : pduRestIsZero (b :: rest) = true) : b = 0 := by
  rw [pduRestIsZero, List.all_cons, Bool.and_eq_true] at h
  exact of_decide_eq_true h.1

theorem dumpFrom_zero (h : pduRestIsZero (b :: rest) = true) :
    dumpFrom i d (b :: rest) =
      ((shown i d b).compare i (b :: rest).length).sprintf [0x20, 0x2e, 0x2e] := by
  rw [dumpFrom_cons, if_pos (eq_zero_of_rest h), if_pos h]

def next (i : ℕ) (d : PduDump) (b : UInt8) (rest : List UInt8) : PduDump :=
  if b = 0 then (shown i d b).compare i (b :: rest).length else shown i d b

theorem dumpFrom_next (h : pduRestIsZero (b :: rest) = false) :
    dumpFrom i d (b :: rest) = dumpFrom (i + 1) (next i d b rest) rest := by
  rw [dumpFrom_cons, next, h]
  split
  · rfl
  · rfl

theorem next_p (i : ℕ) (d : PduDump) (b : UInt8) (rest : List UInt8) :
    (next i d b rest).p = (shown i d b).p ∧ (next i d b rest).len = (shown i d b).len ∧
      (next i d b rest).writes = (shown i d b).writes := by
  unfold next
  split
  · exact ⟨rfl, rfl, rfl⟩
  · exact ⟨rfl, rfl, rfl⟩

theorem shown_p (h : d.p.length = d.len) (i : ℕ) (b : UInt8) :
    (shown i d b).p = d.p ++ ((if i = 0 then [] else [0x20]) ++ hex02 b) ∧
      (shown i d b).p.length = (shown i d b).len := by
  unfold shown
  split
  · exact append_p h _
  · obtain ⟨hspace, hlen⟩ := append_p h [0x20]
    obtain ⟨htext, hlen'⟩ := append_p hlen (hex02 b)
    refine ⟨?_, hlen'⟩
    rw [htext, hspace, List.append_assoc]

theorem textFrom_next (h : pduRestIsZero (b :: rest) = false) (i : ℕ) :
    textFrom i (b :: rest) = (if i = 0 then [] else [0x20]) ++ hex02 b ++ textFrom (i + 1) rest := by
  rw [textFrom, h]
  rfl

theorem textFrom_zero (h : pduRestIsZero (b :: rest) = true) (i : ℕ) :
    textFrom i (b :: rest) = (if i = 0 then [] else [0x20]) ++ hex02 b ++ [0x20, 0x2e, 0x2e] := by
  rw [textFrom, h]
  rfl

theorem dumpFrom_p (h : d.p.length = d.len) (i : ℕ) (xs : List UInt8) :
    (dumpFrom i d xs).p = d.p ++ textFrom i xs := by
  induction xs generalizing i d with
  | nil => exact (List.append_nil _).symm
  | cons b rest ih =>
    obtain ⟨hp, hlen⟩ := shown_p h i b
    cases hzero : pduRestIsZero (b :: rest) with
    | true =>
      rw [dumpFrom_zero hzero, textFrom_zero hzero]
      change (shown i d b).p.take (shown i d b).len ++ _ = _
      rw [← hlen, List.take_length, hp, List.append_assoc]
    | false =>
      obtain ⟨hnext, hnextLen, -⟩ := next_p i d b rest
      rw [dumpFrom_next hzero, textFrom_next hzero, ih (by rw [hnext, hnextLen, hlen]), hnext, hp,
        List.append_assoc]

theorem textFrom_ne_dots (i : ℕ) (xs : List UInt8) :
    textFrom (i + 1) xs ≠ [0x20, 0x2e, 0x2e] := by
  cases xs with
  | nil =>
    intro h
    cases h
  | cons b rest =>
    intro h
    have hb := b.toNat_lt
    rw [textFrom, if_neg (Nat.succ_ne_zero i)] at h
    exact hexDigit_ne_dot (b.toNat / 16) (by omega) (List.cons.inj (List.cons.inj h).2).1

theorem eq_of_rest_zero (hlen : xs.length = ys.length) (hxs : pduRestIsZero xs = true)
    (hys : pduRestIsZero ys = true) : xs = ys := by
  unfold pduRestIsZero at hxs hys
  rw [List.all_eq_true] at hxs hys
  rw [List.eq_replicate_of_mem fun x hx => of_decide_eq_true (hxs x hx),
    List.eq_replicate_of_mem fun y hy => of_decide_eq_true (hys y hy), hlen]

theorem textFrom_inj (hlen : xs.length = ys.length) (h : textFrom i xs = textFrom i ys) :
    xs = ys := by
  induction xs generalizing i ys with
  | nil => exact (List.length_eq_zero_iff.mp hlen.symm).symm
  | cons b xs ih =>
    cases ys with
    | nil => cases hlen
    | cons c ys =>
      have hlen' : xs.length = ys.length := Nat.succ.inj hlen
      have hsplit : hex02 b = hex02 c ∧
          (if pduRestIsZero (b :: xs) then [0x20, 0x2e, 0x2e] else textFrom (i + 1) xs) =
            if pduRestIsZero (c :: ys) then [0x20, 0x2e, 0x2e] else textFrom (i + 1) ys := by
        rw [textFrom, textFrom, List.append_assoc, List.append_assoc] at h
        exact List.append_inj (List.append_cancel_left h) rfl
      obtain ⟨hhex, htext⟩ := hsplit
      obtain rfl := hex02_inj hhex
      cases hxs : pduRestIsZero (b :: xs) with
      | true =>
        cases hys : pduRestIsZero (b :: ys) with
        | true => exact eq_of_rest_zero hlen hxs hys
        | false =>
          rw [hxs, hys] at htext
          exact absurd htext.symm (textFrom_ne_dots i ys)
      | false =>
        cases hys : pduRestIsZero (b :: ys) with
        | true =>
          rw [hxs, hys] at htext
          exact absurd htext (textFrom_ne_dots i xs)
        | false =>
          rw [hxs, hys] at htext
          rw [ih hlen' htext]

end PduDump

def beforeZeros : List UInt8 → ℕ
  | [] => 0
  | b :: rest => if pduRestIsZero (b :: rest) then 0 else beforeZeros rest + 1

def hexText : List UInt8 → List UInt8
  | [] => []
  | b :: rest => hex02 b ++ rest.flatMap fun c => 0x20 :: hex02 c

namespace PduDump

variable {d : PduDump} {i n : ℕ} {b : UInt8} {rest xs ys : List UInt8}

theorem textFrom_eq (i : ℕ) (xs : List UInt8) :
    textFrom (i + 1) xs = ((xs.take (beforeZeros xs + 1)).flatMap fun c => 0x20 :: hex02 c) ++
      if beforeZeros xs < xs.length then [0x20, 0x2e, 0x2e] else [] := by
  induction xs generalizing i with
  | nil => rfl
  | cons b rest ih =>
    rw [beforeZeros]
    cases hzero : pduRestIsZero (b :: rest) with
    | true =>
      rw [textFrom_zero hzero, if_neg (Nat.succ_ne_zero i)]
      rfl
    | false =>
      rw [textFrom_next hzero, if_neg (Nat.succ_ne_zero i), ih]
      simp

theorem dumpPdu_text (b : UInt8) (rest : List UInt8) :
    textFrom 0 (b :: rest) = hexText ((b :: rest).take (beforeZeros (b :: rest) + 1)) ++
      if beforeZeros (b :: rest) < (b :: rest).length then [0x20, 0x2e, 0x2e] else [] := by
  rw [beforeZeros]
  cases hzero : pduRestIsZero (b :: rest) with
  | true =>
    rw [textFrom_zero hzero]
    rfl
  | false =>
    rw [textFrom_next hzero, textFrom_eq]
    simp [hexText]

def InBuffer (write : ℕ × ℕ) : Prop := write.1 + write.2 ≤ 4096

theorem shown_len (h : d.len = 3 * i - 1) : (shown i d b).len = 3 * (i + 1) - 1 := by
  have htext : (hex02 b).length = 2 := rfl
  unfold shown
  split
  · change d.len + (hex02 b).length = _
    omega
  · change d.len + 1 + (hex02 b).length = _
    omega

theorem shown_writes (h : d.len = 3 * i - 1) :
    (∀ w ∈ (shown i d b).writes, InBuffer w) ↔
      (∀ w ∈ d.writes, InBuffer w) ∧ 3 * (i + 1) ≤ 4096 := by
  unfold shown
  split
  case isTrue hi =>
    change (∀ w ∈ (d.len, 3) :: d.writes, InBuffer w) ↔ _
    rw [List.forall_mem_cons, and_comm]
    apply and_congr_right
    intro _
    change d.len + 3 ≤ 4096 ↔ _
    omega
  case isFalse hi =>
    change (∀ w ∈ (d.len + 1, 3) :: (d.len, 2) :: d.writes, InBuffer w) ↔ _
    rw [List.forall_mem_cons, List.forall_mem_cons, ← and_assoc, and_comm]
    apply and_congr_right
    intro _
    change d.len + 1 + 3 ≤ 4096 ∧ d.len + 2 ≤ 4096 ↔ _
    omega

def extent (i : ℕ) (xs : List UInt8) : ℕ :=
  if beforeZeros xs = xs.length then 3 * (i + xs.length) else 3 * (i + beforeZeros xs) + 6

theorem extent_next (h : pduRestIsZero (b :: rest) = false) (i : ℕ) :
    extent i (b :: rest) = extent (i + 1) rest := by
  unfold extent
  rw [beforeZeros, h, List.length_cons, if_neg Bool.false_ne_true]
  by_cases heq : beforeZeros rest = rest.length
  · rw [if_pos heq, if_pos (by omega)]
    omega
  · rw [if_neg heq, if_neg (by omega)]
    omega

theorem dumpFrom_writes (h : d.len = 3 * i - 1) :
    (∀ w ∈ (dumpFrom i d xs).writes, InBuffer w) ↔
      (∀ w ∈ d.writes, InBuffer w) ∧ (xs = [] ∨ extent i xs ≤ 4096) := by
  induction xs generalizing i d with
  | nil => simp [dumpFrom]
  | cons b rest ih =>
    have hlen := @shown_len d i b h
    have hshown := @shown_writes d i b h
    rw [or_iff_right (List.cons_ne_nil b rest)]
    cases hzero : pduRestIsZero (b :: rest) with
    | true =>
      rw [dumpFrom_zero hzero]
      change (∀ w ∈ ((shown i d b).len, 4) :: (shown i d b).writes, InBuffer w) ↔ _
      rw [List.forall_mem_cons, hshown, and_left_comm]
      apply and_congr_right
      intro _
      change (shown i d b).len + 4 ≤ 4096 ∧ _ ↔ _
      rw [extent, beforeZeros, if_pos hzero, List.length_cons, if_neg (Nat.succ_ne_zero _).symm]
      omega
    | false =>
      obtain ⟨-, hnextLen, hnextWrites⟩ := next_p i d b rest
      rw [dumpFrom_next hzero, ih (hnextLen.trans hlen), hnextWrites, hshown, and_assoc,
        extent_next hzero]
      apply and_congr_right
      intro _
      constructor
      · rintro ⟨hhex, rfl | hrest⟩
        · exact hhex
        · exact hrest
      · intro hrest
        refine ⟨?_, Or.inr hrest⟩
        unfold extent at hrest
        split at hrest
        · omega
        · omega

theorem next_compares (i : ℕ) (d : PduDump) (b : UInt8) (rest : List UInt8) :
    (next i d b rest).compares =
      if b = 0 then (i, (b :: rest).length) :: d.compares else d.compares := by
  have hshown : (shown i d b).compares = d.compares := by
    unfold shown
    split <;> rfl
  unfold next
  split
  · rw [compare, hshown]
  · exact hshown

theorem dumpFrom_compares_cons (i : ℕ) (d : PduDump) (b : UInt8) (rest : List UInt8) :
    (dumpFrom i d (b :: rest)).compares =
      if pduRestIsZero (b :: rest) then (next i d b rest).compares
      else (dumpFrom (i + 1) (next i d b rest) rest).compares := by
  cases hzero : pduRestIsZero (b :: rest) with
  | true =>
    rw [dumpFrom_zero hzero, next, if_pos (eq_zero_of_rest hzero)]
    rfl
  | false =>
    rw [dumpFrom_next hzero]
    rfl

theorem dumpFrom_compares (i : ℕ) (d : PduDump) (xs : List UInt8) :
    (∀ c ∈ (dumpFrom i d xs).compares, c.2 ≤ 4096) ↔
      (∀ c ∈ d.compares, c.2 ≤ 4096) ∧ (xs.dropWhile (· ≠ 0)).length ≤ 4096 := by
  induction xs generalizing i d with
  | nil => simp [dumpFrom]
  | cons b rest ih =>
    have hnext : (∀ c ∈ (next i d b rest).compares, c.2 ≤ 4096) ↔
        (∀ c ∈ d.compares, c.2 ≤ 4096) ∧ (b = 0 → (b :: rest).length ≤ 4096) := by
      rw [next_compares]
      split
      case isTrue hb =>
        rw [List.forall_mem_cons, and_comm, forall_prop_of_true hb]
      case isFalse hb => simp [hb]
    have hrest : (rest.dropWhile (· ≠ 0)).length ≤ rest.length :=
      (List.dropWhile_suffix _).length_le
    rw [dumpFrom_compares_cons]
    by_cases hb : b = 0
    · have hdrop : (b :: rest).dropWhile (· ≠ 0) = b :: rest := by simp [hb]
      rw [forall_prop_of_true hb] at hnext
      rw [hdrop]
      split
      · exact hnext
      · rw [ih, hnext, and_assoc]
        apply and_congr_right
        intro _
        rw [List.length_cons]
        omega
    · have hdrop : (b :: rest).dropWhile (· ≠ 0) = rest.dropWhile (· ≠ 0) := by simp [hb]
      rw [hdrop]
      split
      case isTrue hzero => exact absurd (eq_zero_of_rest hzero) hb
      case isFalse =>
        rw [ih, hnext, and_assoc]
        apply and_congr_right
        intro _
        simp [hb]

theorem dumpFrom_compares_inside (hn : i + xs.length = n)
    (hd : ∀ c ∈ d.compares, c.1 + c.2 ≤ n) :
    ∀ c ∈ (dumpFrom i d xs).compares, c.1 + c.2 ≤ n := by
  induction xs generalizing i d with
  | nil => exact hd
  | cons b rest ih =>
    have hnext : ∀ c ∈ (next i d b rest).compares, c.1 + c.2 ≤ n := by
      rw [next_compares]
      split
      · exact List.forall_mem_cons.mpr ⟨hn.le, hd⟩
      · exact hd
    rw [dumpFrom_compares_cons]
    split
    · exact hnext
    · apply ih
      · rw [List.length_cons] at hn
        omega
      · exact hnext

end PduDump

/-- All accesses of the dump are in the text buffer, in the array of zeros and in the payload. -/
def DumpsInside (pdu : List UInt8) : Prop :=
  ∀ d, dumpPdu pdu = some d → (∀ w ∈ d.writes, w.1 + w.2 ≤ 4096) ∧
    ∀ c ∈ d.compares, c.2 ≤ 4096 ∧ c.1 + c.2 ≤ pdu.length

/-- The text is that of the bytes up to the first of the zeros at the end, which two dots stand for.
No other payload of the length has it. -/
def DumpsFaithfully (pdu : List UInt8) : Prop :=
  (∀ d, dumpPdu pdu = some d → d.p = hexText (pdu.take (beforeZeros pdu + 1)) ++
      if beforeZeros pdu < pdu.length then [0x20, 0x2e, 0x2e] else []) ∧
    ∀ pdu', pdu'.length = pdu.length →
      (dumpPdu pdu').map PduDump.p = (dumpPdu pdu).map PduDump.p → pdu' = pdu

/-- The text fits into the buffer, and what follows the first zero into the array of zeros. -/
def Dumpable (pdu : List UInt8) : Prop :=
  (if beforeZeros pdu = pdu.length then pdu.length ≤ 1365 else beforeZeros pdu ≤ 1363) ∧
    (pdu.dropWhile (· ≠ 0)).length ≤ 4096

theorem dumpPdu_p (pdu : List UInt8) :
    (dumpPdu pdu).map PduDump.p = if pdu = [] then none else some (PduDump.textFrom 0 pdu) := by
  unfold dumpPdu
  split
  · rfl
  · rw [Option.map_some, PduDump.dumpFrom_p rfl]
    rfl

theorem dumpsFaithfully (pdu : List UInt8) : DumpsFaithfully pdu := by
  constructor
  · intro d hd
    have hp := dumpPdu_p pdu
    rw [hd, Option.map_some] at hp
    cases pdu with
    | nil => cases hd
    | cons b rest =>
      rw [if_neg (List.cons_ne_nil b rest)] at hp
      rw [Option.some.inj hp]
      exact PduDump.dumpPdu_text b rest
  · intro pdu' hlen hsame
    rw [dumpPdu_p, dumpPdu_p] at hsame
    by_cases hpdu : pdu = []
    · rw [hpdu] at hlen ⊢
      exact List.length_eq_zero_iff.mp hlen
    · have hpdu' : pdu' ≠ [] := by
        rintro rfl
        exact hpdu (List.length_eq_zero_iff.mp hlen.symm)
      rw [if_neg hpdu, if_neg hpdu'] at hsame
      exact PduDump.textFrom_inj hlen (Option.some.inj hsame)

theorem dumpsInside_iff (pdu : List UInt8) : DumpsInside pdu ↔ Dumpable pdu := by
  cases pdu with
  | nil =>
    apply iff_of_true
    · rintro d hd
      cases hd
    · unfold Dumpable
      decide
  | cons b rest =>
    have hwrites := @PduDump.dumpFrom_writes ⟨[], 0, [], []⟩ 0 (b :: rest) rfl
    have hcompares := PduDump.dumpFrom_compares 0 ⟨[], 0, [], []⟩ (b :: rest)
    have hinside := @PduDump.dumpFrom_compares_inside ⟨[], 0, [], []⟩ 0 (b :: rest).length
      (b :: rest) (Nat.zero_add _) (List.forall_mem_nil _)
    rw [or_iff_right (List.cons_ne_nil b rest), and_iff_right (List.forall_mem_nil _)] at hwrites
    rw [and_iff_right (List.forall_mem_nil _)] at hcompares
    have hextent : PduDump.extent 0 (b :: rest) ≤ 4096 ↔
        if beforeZeros (b :: rest) = (b :: rest).length then (b :: rest).length ≤ 1365
        else beforeZeros (b :: rest) ≤ 1363 := by
      unfold PduDump.extent
      split
      · omega
      · omega
    have hdump : dumpPdu (b :: rest) = some (PduDump.dumpFrom 0 ⟨[], 0, [], []⟩ (b :: rest)) :=
      if_neg (List.cons_ne_nil b rest)
    unfold DumpsInside Dumpable
    rw [← hextent, ← hwrites, ← hcompares, hdump]
    constructor
    · intro h
      obtain ⟨hw, hc⟩ := h _ rfl
      exact ⟨hw, fun c hc' => (hc c hc').1⟩
    · rintro ⟨hw, hc⟩ d hd
      obtain rfl := Option.some.inj hd
      exact ⟨hw, fun c hc' => ⟨hc c hc', hinside c hc'⟩⟩

/-- The text always tells the payload. A dump stays inside its arrays just if at most 1365 bytes are
to be shown, or 1363 before the zeros, and at most 4096 bytes follow from the first zero on. -/
theorem dump_pdu_iff (pdu : List UInt8) :
    (DumpsInside pdu ∧ DumpsFaithfully pdu) ↔ Dumpable pdu := by
  rw [and_iff_left (dumpsFaithfully pdu)]
  exact dumpsInside_iff pdu

theorem beforeZeros_ones (n : ℕ) : beforeZeros (List.replicate n 1) = n := by
  induction n with
  | zero => rfl
  | succ n ih =>
    have hone : pduRestIsZero (1 :: List.replicate n 1) = false := rfl
    rw [List.replicate_succ, beforeZeros, hone, ih]
    rfl

theorem dropWhile_zeros (n : ℕ) :
    (List.replicate n (0 : UInt8)).dropWhile (· ≠ 0) = List.replicate n 0 := by
  cases n with
  | zero => rfl
  | succ n => rfl

theorem not_dumpsInside_ones {n : ℕ} (hn : 1365 < n) : ¬ DumpsInside (List.replicate n 1) := by
  rw [dumpsInside_iff]
  rintro ⟨hfits, -⟩
  rw [beforeZeros_ones, List.length_replicate, if_pos rfl] at hfits
  omega

theorem not_dumpsInside_zeros {n : ℕ} (hn : 4096 < n) : ¬ DumpsInside (List.replicate n 0) := by
  rw [dumpsInside_iff]
  rintro ⟨-, hfits⟩
  rw [dropWhile_zeros, List.length_replicate] at hfits
  omega

/-- One byte more than fits into the text buffer, and one zero more than the array has. -/
theorem long_pdu_dumped_outside :
    ¬ DumpsInside (List.replicate 1366 1) ∧ ¬ DumpsInside (List.replicate 4097 0) :=
  ⟨not_dumpsInside_ones (by decide), not_dumpsInside_zeros (by decide)⟩

end SBlktrace
