import Mathlib

namespace DecimalText

def readNat (cs : List Char) : Option ℕ :=
  if cs ≠ [] ∧ cs.all Char.isDigit then some (Nat.ofDigitChars 10 cs 0) else none

def readInt : List Char → Option ℤ
  | [] => none
  | c :: cs =>
    if c = '-' then (readNat cs).map fun n => -(n : ℤ) else (readNat (c :: cs)).map fun n => (n : ℤ)

def readInts (cs : List Char) : Option (List ℤ) :=
  ((cs.splitOn ' ').filter fun word => !word.isEmpty).mapM readInt

def text (ns : List ℕ) : List Char := ns.flatMap fun n => Nat.toDigits 10 n ++ [' ']

@[simp] theorem text_nil : text [] = [] := rfl

@[simp] theorem text_cons (n : ℕ) (ns : List ℕ) :
    text (n :: ns) = Nat.toDigits 10 n ++ ' ' :: text ns := by
  simp [text]

theorem isDigit_of_mem {n : ℕ} {c : Char} (hc : c ∈ Nat.toDigits 10 n) : c.isDigit = true :=
  Nat.isDigit_of_mem_toDigits (by omega) (by omega) hc

theorem ne_of_mem {n : ℕ} {c d : Char} (hd : d.isDigit = false) (hc : c ∈ Nat.toDigits 10 n) :
    c ≠ d := by
  rintro rfl
  rw [isDigit_of_mem hc] at hd
  cases hd

theorem mem_text {ns : List ℕ} {c : Char} (hc : c ∈ text ns) : c.isDigit = true ∨ c = ' ' := by
  obtain ⟨n, -, hc⟩ := List.mem_flatMap.mp hc
  obtain hc | hc := List.mem_append.mp hc
  · exact Or.inl (isDigit_of_mem hc)
  · exact Or.inr (List.mem_singleton.mp hc)

theorem readNat_toDigits (n : ℕ) : readNat (Nat.toDigits 10 n) = some n := by
  have hall : (Nat.toDigits 10 n).all Char.isDigit = true :=
    List.all_eq_true.mpr fun c hc => isDigit_of_mem hc
  rw [readNat, if_pos ⟨Nat.toDigits_ne_nil, hall⟩, Nat.ofDigitChars_ten_toDigits]

theorem readInt_toDigits (n : ℕ) : readInt (Nat.toDigits 10 n) = some (n : ℤ) := by
  have hread := readNat_toDigits n
  cases hn : Nat.toDigits 10 n with
  | nil => exact absurd hn Nat.toDigits_ne_nil
  | cons c cs =>
    have hc : c ≠ '-' := by
      apply @ne_of_mem n c '-' (by decide)
      rw [hn]
      exact List.mem_cons_self
    rw [hn] at hread
    rw [readInt, if_neg hc, hread]
    rfl

theorem readInts_text (ns : List ℕ) : readInts (text ns) = some (ns.map fun n : ℕ => (n : ℤ)) := by
  unfold readInts
  induction ns with
  | nil => rfl
  | cons n ns ih =>
    have hspace : ' ' ∉ Nat.toDigits 10 n := fun hc => ne_of_mem (by decide) hc rfl
    have hsplit : (text (n :: ns)).splitOn ' ' = Nat.toDigits 10 n :: (text ns).splitOn ' ' := by
      rw [text_cons]
      exact List.splitOn_append_cons_self_of_not_mem hspace _
    have hword : (!(Nat.toDigits 10 n).isEmpty) = true := by
      simp [Nat.toDigits_ne_nil]
    rw [hsplit, List.filter_cons, if_pos hword, List.mapM_cons, readInt_toDigits, ih]
    rfl

end DecimalText
