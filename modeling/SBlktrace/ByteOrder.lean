import Mathlib

namespace ByteOrder

inductive Endian where
  | little
  | big
deriving DecidableEq

def Endian.other : Endian → Endian
  | .little => .big
  | .big => .little

def lowBytes : ℕ → ℕ → List ℕ
  | 0, _ => []
  | n + 1, x => x % 256 :: lowBytes n (x / 256)

def image : Endian → ℕ → ℕ → List ℕ
  | .little, n, x => lowBytes n x
  | .big, n, x => (lowBytes n x).reverse

def value : Endian → List ℕ → ℕ
  | .little, l => Nat.ofDigits 256 l
  | .big, l => Nat.ofDigits 256 l.reverse

def swap (n x : ℕ) : ℕ := Nat.ofDigits 256 (lowBytes n x).reverse

variable {n x : ℕ}

@[simp] theorem lowBytes_length (n x : ℕ) : (lowBytes n x).length = n := by
  induction n generalizing x with
  | zero => rfl
  | succ n ih => simp [lowBytes, ih]

@[simp] theorem image_length (e : Endian) (n x : ℕ) : (image e n x).length = n := by
  cases e <;> simp [image]

theorem lowBytes_lt (n x : ℕ) : ∀ b ∈ lowBytes n x, b < 256 := by
  induction n generalizing x with
  | zero => simp [lowBytes]
  | succ n ih =>
    intro b hb
    rw [lowBytes, List.mem_cons] at hb
    rcases hb with rfl | hb
    · exact Nat.mod_lt x (by decide)
    · exact ih (x / 256) b hb

theorem ofDigits_lowBytes (n x : ℕ) : Nat.ofDigits 256 (lowBytes n x) = x % 256 ^ n := by
  induction n generalizing x with
  | zero => simp [lowBytes, Nat.mod_one]
  | succ n ih =>
    rw [lowBytes, Nat.ofDigits_cons, ih, pow_succ, Nat.mul_comm (256 ^ n) 256, Nat.mod_mul]

theorem lowBytes_ofDigits (l : List ℕ) (hl : ∀ b ∈ l, b < 256) :
    lowBytes l.length (Nat.ofDigits 256 l) = l := by
  induction l with
  | nil => rfl
  | cons b l ih =>
    have hb : b < 256 := hl b (by simp)
    have hdiv : (b + 256 * Nat.ofDigits 256 l) / 256 = Nat.ofDigits 256 l := by omega
    have hmod : (b + 256 * Nat.ofDigits 256 l) % 256 = b := by omega
    rw [List.length_cons, lowBytes, Nat.ofDigits_cons, hmod, hdiv,
      ih (fun c hc => hl c (List.mem_cons_of_mem b hc))]

theorem value_image (e : Endian) (n x : ℕ) : value e (image e n x) = x % 256 ^ n := by
  cases e <;> simp [value, image, ofDigits_lowBytes]

theorem value_image_other (e : Endian) (n x : ℕ) : value e (image e.other n x) = swap n x := by
  cases e <;> simp [value, image, swap, Endian.other]

theorem value_lt (e : Endian) (l : List ℕ) (hl : ∀ b ∈ l, b < 256) :
    value e l < 256 ^ l.length := by
  cases e with
  | little => exact Nat.ofDigits_lt_base_pow_length (by decide) hl
  | big =>
    rw [value, ← List.length_reverse]
    apply Nat.ofDigits_lt_base_pow_length (by decide)
    intro b hb
    exact hl b (List.mem_reverse.mp hb)

theorem swap_lt (n x : ℕ) : swap n x < 256 ^ n := by
  have h : Nat.ofDigits 256 (lowBytes n x).reverse < 256 ^ (lowBytes n x).reverse.length := by
    apply Nat.ofDigits_lt_base_pow_length (by decide)
    intro b hb
    exact lowBytes_lt n x b (List.mem_reverse.mp hb)
  rwa [List.length_reverse, lowBytes_length] at h

theorem lowBytes_add (k m x : ℕ) : lowBytes (k + m) x = lowBytes k x ++ lowBytes m (x / 256 ^ k) := by
  induction k generalizing x with
  | zero => simp [lowBytes]
  | succ k ih =>
    rw [Nat.add_right_comm, lowBytes, ih, lowBytes, List.cons_append, Nat.div_div_eq_div_mul, pow_succ']

theorem lowBytes_mod (m x : ℕ) : lowBytes m (x % 256 ^ m) = lowBytes m x := by
  have h := lowBytes_ofDigits (lowBytes m x) (lowBytes_lt m x)
  rwa [lowBytes_length, ofDigits_lowBytes] at h

theorem lowBytes_swap (n x : ℕ) : lowBytes n (swap n x) = (lowBytes n x).reverse := by
  have h := lowBytes_ofDigits (lowBytes n x).reverse (fun b hb => lowBytes_lt n x b (List.mem_reverse.mp hb))
  rwa [List.length_reverse, lowBytes_length] at h

theorem swap_swap (hx : x < 256 ^ n) : swap n (swap n x) = x := by
  rw [swap, lowBytes_swap, List.reverse_reverse, ofDigits_lowBytes, Nat.mod_eq_of_lt hx]

theorem swap_swap_low (k m x : ℕ) : swap m (swap (m + k) x % 256 ^ m) = x / 256 ^ k % 256 ^ m := by
  have h : lowBytes m (swap (m + k) x) ++ lowBytes k (swap (m + k) x / 256 ^ m) =
      (lowBytes m (x / 256 ^ k)).reverse ++ (lowBytes k x).reverse := by
    rw [← lowBytes_add, lowBytes_swap, Nat.add_comm m k, lowBytes_add, List.reverse_append]
  have hl := (List.append_inj h (by simp)).1
  rw [swap, lowBytes_mod, hl, List.reverse_reverse, ofDigits_lowBytes]

end ByteOrder
