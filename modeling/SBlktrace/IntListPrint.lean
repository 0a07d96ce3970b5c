import SBlktrace.DecimalText
import SBlktrace.IntList
import Mathlib

namespace SBlktrace

open DecimalText

def intToStringLoop : ℕ → Int32 → List Char
  | 0, _ => []
  | room + 1, value =>
    if 0 < value then
      Char.ofNat ((value % 10).toNatClampNeg + 48) :: intToStringLoop room (value / 10)
    else []

def intToString (value : Int32) (size : ℕ) : List Char :=
  if size = 0 then []
  else
    -- the smallest value is its own negation
    let value := if value < 0 then -value else value
    if value = 0 then ['0'] else intToStringLoop size value

def nul : Char := Char.ofNat 0

/-- `buf[str_len++] = c` for each `c`, and `none` at the first store behind the buffer. -/
def putChars : List Char → ℕ → List Char → Option (List Char × ℕ)
  | buf, strLen, [] => some (buf, strLen)
  | buf, strLen, c :: cs =>
    if strLen < buf.length then putChars (buf.set strLen c) (strLen + 1) cs else none

/-- Each round pops a node, so `fuel` is the size of the list. -/
def tostringLoop (size : ℕ) : ℕ → IntList → List Char → ℕ → Option (IntList × List Char × ℕ)
  | 0, list, buf, strLen => some (list, buf, strLen)
  | fuel + 1, list, buf, strLen =>
    if list.size = 0 then some (list, buf, strLen)
    else do
      let popped ← intListPop list
      match popped with
      | (none, list) => return (list, buf, strLen)
      | (some value, list) =>
        let tmp := intToString value 20
        if tmp.length = 0 ∨ size < tmp.length + 2 + strLen then return (list, buf, strLen)
        else
          let written ← putChars buf strLen (tmp.reverse ++ [' '])
          tostringLoop size fuel list written.1 written.2

def intListTostring (list : IntList) (buf : List Char) (size : ℕ) :
    Option (IntList × List Char × ℕ) :=
  if size = 0 then some (list, buf, 0)
  else do
    let (list, buf, strLen) ← tostringLoop size list.size list buf 0
    let written ← putChars buf strLen [nul]
    return (list, written.1, strLen)

def cString (buf : List Char) : List Char := buf.takeWhile fun c => c ≠ nul

section Digits

theorem digitChar_eq {d : ℕ} (hd : d < 10) : Char.ofNat (d + 48) = Nat.digitChar d := by
  interval_cases d <;> rfl

theorem intToStringLoop_reverse {room n : ℕ} {value : Int32} (hvalue : value.toInt = n)
    (hpos : 0 < n) (hroom : n < 10 ^ room) :
    (intToStringLoop room value).reverse = Nat.toDigits 10 n := by
  induction room generalizing n value with
  | zero => omega
  | succ room ih =>
    have hgt : 0 < value := by
      rw [Int32.lt_iff_toInt_lt, hvalue]
      exact Int.natCast_pos.mpr hpos
    have hmod : (value % 10).toNatClampNeg = n % 10 := by
      rw [← Int32.toNat_toInt, Int32.toInt_mod, hvalue]
      exact Int.toNat_natCast (n % 10)
    have hdiv : (value / 10).toInt = ((n / 10 : ℕ) : ℤ) := by
      rw [Int32.toInt_div_of_ne_right value 10 (by decide), hvalue]
      rfl
    rw [intToStringLoop, if_pos hgt, List.reverse_cons, hmod, digitChar_eq (by omega)]
    by_cases hlast : n < 10
    · have hzero : ¬0 < value / 10 := by
        rw [Int32.lt_iff_toInt_lt, hdiv, Nat.div_eq_of_lt hlast]
        decide
      have hnil : intToStringLoop room (value / 10) = [] := by
        cases room with
        | zero => rfl
        | succ room => rw [intToStringLoop, if_neg hzero]
      rw [hnil, Nat.toDigits_of_lt_base hlast, Nat.mod_eq_of_lt hlast]
      rfl
    · rw [Nat.pow_succ] at hroom
      have hhigh : Nat.toDigits 10 n = Nat.toDigits 10 (n / 10) ++ [Nat.digitChar (n % 10)] :=
        Nat.toDigits_of_base_le (by omega) (by omega)
      rw [ih hdiv (by omega) (by omega), hhigh]

theorem intToString_reverse {value : Int32} (hvalue : value ≠ Int32.minValue) :
    (intToString value 20).reverse = Nat.toDigits 10 value.toInt.natAbs := by
  have hle := value.le_toInt
  have hlt := value.toInt_lt
  have hmin : value.toInt ≠ -2 ^ 31 := fun h => hvalue (Int32.toInt_inj.mp h)
  have habs : (if value < 0 then -value else value).toInt = (value.toInt.natAbs : ℤ) := by
    have hzero : (0 : Int32).toInt = 0 := rfl
    split
    · next hneg =>
      rw [Int32.lt_iff_toInt_lt, hzero] at hneg
      rw [Int32.toInt_neg, Int.bmod_eq_of_le (by omega) (by omega)]
      omega
    · next hneg =>
      rw [Int32.lt_iff_toInt_lt, hzero] at hneg
      omega
  unfold intToString
  simp only [OfNat.ofNat_ne_zero, if_false]
  generalize (if value < 0 then -value else value) = magnitude at habs
  by_cases hz : magnitude = 0
  · rw [if_pos hz]
    rw [hz] at habs
    have hn : value.toInt.natAbs = 0 := by
      have hzero : (0 : Int32).toInt = 0 := rfl
      omega
    rw [hn]
    rfl
  · rw [if_neg hz]
    have hn : value.toInt.natAbs ≠ 0 := by
      intro hn
      rw [hn] at habs
      exact hz (Int32.toInt_inj.mp habs)
    exact intToStringLoop_reverse habs (by omega) (by omega)

theorem intToString_minValue : intToString Int32.minValue 20 = [] := by
  decide

end Digits

def printed (values : List Int32) : List Char :=
  values.flatMap fun value => (intToString value 20).reverse ++ [' ']

def fit : ℕ → List Int32 → List Int32 × List Int32
  | _, [] => ([], [])
  | room, value :: values =>
    let len := (intToString value 20).length
    if len = 0 ∨ room < len + 2 then ([], values)
    else
      let rest := fit (room - (len + 1)) values
      (value :: rest.1, rest.2)

section Buffer

variable {text rest cs : List Char}

theorem putChars_append (h : cs.length ≤ rest.length) :
    putChars (text ++ rest) text.length cs =
      some (text ++ cs ++ rest.drop cs.length, (text ++ cs).length) := by
  induction cs generalizing text rest with
  | nil => simp [putChars]
  | cons c cs ih =>
    cases rest with
    | nil => simp at h
    | cons r rest =>
      have hlt : text.length < (text ++ r :: rest).length := by simp
      have hset : (text ++ r :: rest).set text.length c = (text ++ [c]) ++ rest := by
        simp
      have hlen : text.length + 1 = (text ++ [c]).length := by simp
      rw [putChars, if_pos hlt, hset, hlen, ih (by simpa using h)]
      simp

end Buffer

section Loop

variable {list : IntList} {cells : List (ℕ × Int32)} {text rest : List Char}

theorem tostringLoop_eq (hlist : Holds list cells) (hrest : 0 < rest.length) :
    ∃ list' left rest',
      tostringLoop (text.length + rest.length) cells.length list (text ++ rest) text.length =
        some (list', text ++ printed (fit rest.length (cells.map Prod.snd)).1 ++ rest',
          (text ++ printed (fit rest.length (cells.map Prod.snd)).1).length) ∧
      Holds list' left ∧ left.map Prod.snd = (fit rest.length (cells.map Prod.snd)).2 ∧
      0 < rest'.length ∧
      (printed (fit rest.length (cells.map Prod.snd)).1).length + rest'.length =
        rest.length := by
  induction cells generalizing list text rest with
  | nil => exact ⟨list, [], rest, by simp [tostringLoop, fit, printed], hlist, rfl, hrest,
      by simp [fit, printed]⟩
  | cons cell cells ih =>
    obtain ⟨node, value⟩ := cell
    obtain ⟨popped, hpop, hpopped⟩ := hlist.pop_cons
    have hsize : list.size ≠ 0 := by
      rw [hlist.size]
      simp
    simp only [List.length_cons, List.map_cons, tostringLoop, if_neg hsize, hpop,
      Option.bind_eq_bind, Option.bind_some, fit]
    by_cases hstop : (intToString value 20).length = 0 ∨
        rest.length < (intToString value 20).length + 2
    · have hstop' : (intToString value 20).length = 0 ∨
          text.length + rest.length < (intToString value 20).length + 2 + text.length := by
        omega
      rw [if_pos hstop, if_pos hstop']
      exact ⟨popped, cells, rest, by simp [printed], hpopped, rfl, hrest, by simp [printed]⟩
    · have hgo : ¬((intToString value 20).length = 0 ∨
          text.length + rest.length < (intToString value 20).length + 2 + text.length) := by
        omega
      have hword : ((intToString value 20).reverse ++ [' ']).length =
          (intToString value 20).length + 1 := by
        simp
      rw [if_neg hstop, if_neg hgo, putChars_append (by rw [hword]; omega)]
      simp only [Option.bind_some]
      have hdrop : (rest.drop ((intToString value 20).reverse ++ [' ']).length).length =
          rest.length - ((intToString value 20).length + 1) := by
        rw [List.length_drop, hword]
      have hlen : text.length + rest.length =
          (text ++ ((intToString value 20).reverse ++ [' '])).length +
            (rest.drop ((intToString value 20).reverse ++ [' ']).length).length := by
        rw [hdrop, List.length_append, hword]
        omega
      obtain ⟨list', left, rest', hrun, hleft, hvalues, hpos, hsum⟩ :=
        @ih popped (text ++ ((intToString value 20).reverse ++ [' ']))
          (rest.drop ((intToString value 20).reverse ++ [' ']).length) hpopped
          (by rw [hdrop]; omega)
      rw [← hlen, hdrop] at hrun
      rw [hdrop] at hvalues hsum
      refine ⟨list', left, rest', ?_, hleft, hvalues, hpos, ?_⟩
      · rw [hrun]
        simp [printed]
      · simp only [printed, List.flatMap_cons, List.length_append] at hsum hword ⊢
        omega

end Loop

section Fit

variable {room : ℕ} {values : List Int32}

theorem fit_spec (hroom : 0 < room) (values : List Int32) :
    ∃ lost, values = (fit room values).1 ++ lost ++ (fit room values).2 ∧
      (lost = [] → (fit room values).2 = []) ∧
      (∀ value ∈ (fit room values).1, value ≠ Int32.minValue) ∧
      (printed (fit room values).1).length < room := by
  induction values generalizing room with
  | nil => exact ⟨[], rfl, fun _ => rfl, List.forall_mem_nil _, hroom⟩
  | cons value values ih =>
    by_cases hstop : (intToString value 20).length = 0 ∨ room < (intToString value 20).length + 2
    · have hfit : fit room (value :: values) = ([], values) := by
        simp only [fit, if_pos hstop]
      rw [hfit]
      exact ⟨[value], rfl, fun h => absurd h (by simp), List.forall_mem_nil _, hroom⟩
    · have hfit : fit room (value :: values) =
          (value :: (fit (room - ((intToString value 20).length + 1)) values).1,
            (fit (room - ((intToString value 20).length + 1)) values).2) := by
        simp only [fit, if_neg hstop]
      obtain ⟨lost, hvalues, hlost, hmin, hlen⟩ :=
        @ih (room - ((intToString value 20).length + 1)) (by omega)
      rw [hfit]
      refine ⟨lost, congrArg (value :: ·) hvalues, hlost, List.forall_mem_cons.mpr ⟨?_, hmin⟩, ?_⟩
      · rintro rfl
        rw [intToString_minValue] at hstop
        exact hstop (Or.inl rfl)
      · simp only [printed, List.flatMap_cons, List.length_append, List.length_reverse,
          List.length_singleton] at hlen ⊢
        omega

theorem printed_eq_text (hmin : ∀ value ∈ values, value ≠ Int32.minValue) :
    printed values = text (values.map fun value => value.toInt.natAbs) := by
  induction values with
  | nil => rfl
  | cons value values ih =>
    rw [List.forall_mem_cons] at hmin
    have hword := intToString_reverse hmin.1
    rw [List.map_cons, text_cons, ← ih hmin.2, ← hword]
    simp [printed]

theorem fit_whole (hmin : ∀ value ∈ values, value ≠ Int32.minValue)
    (hlen : (text (values.map fun value => value.toInt.natAbs)).length < room) :
    fit room values = (values, []) := by
  rw [← printed_eq_text hmin] at hlen
  induction values generalizing room with
  | nil => rfl
  | cons value values ih =>
    rw [List.forall_mem_cons] at hmin
    have hword := congrArg List.length (intToString_reverse hmin.1)
    rw [List.length_reverse] at hword
    have hpos : 0 < (Nat.toDigits 10 value.toInt.natAbs).length := Nat.length_toDigits_pos
    simp only [printed, List.flatMap_cons, List.length_append, List.length_reverse,
      List.length_singleton] at hlen
    have hgo : ¬((intToString value 20).length = 0 ∨
        room < (intToString value 20).length + 2) := by
      omega
    simp only [fit, if_neg hgo]
    rw [ih hmin.2 (by unfold printed; omega)]

end Fit

theorem nul_notMem_printed {values : List Int32}
    (hmin : ∀ value ∈ values, value ≠ Int32.minValue) :
    nul ∉ printed values := by
  rw [printed_eq_text hmin]
  intro h
  obtain h | h := mem_text h <;> revert h <;> decide

theorem cString_append {text rest : List Char} (h : nul ∉ text) :
    cString (text ++ nul :: rest) = text := by
  unfold cString
  rw [List.takeWhile_append_of_pos]
  · simp
  · intro c hc
    apply decide_eq_true
    rintro rfl
    exact h hc

theorem intListTostring_eq {list : IntList} {cells : List (ℕ × Int32)} {buf : List Char}
    (hlist : Holds list cells) (hbuf : 0 < buf.length) :
    ∃ list' left buf',
      intListTostring list buf buf.length =
        some (list', buf', (printed (fit buf.length (cells.map Prod.snd)).1).length) ∧
      Holds list' left ∧ left.map Prod.snd = (fit buf.length (cells.map Prod.snd)).2 ∧
      buf'.length = buf.length ∧ nul ∈ buf' ∧
      cString buf' = printed (fit buf.length (cells.map Prod.snd)).1 := by
  obtain ⟨list', left, rest, hrun, hleft, hvalues, hpos, hsum⟩ :=
    @tostringLoop_eq list cells [] buf hlist hbuf
  obtain ⟨-, -, -, hmin, -⟩ := fit_spec hbuf (cells.map Prod.snd)
  simp only [List.length_nil, Nat.zero_add, List.nil_append] at hrun
  refine ⟨list', left, printed (fit buf.length (cells.map Prod.snd)).1 ++ nul :: rest.drop 1, ?_,
    hleft, hvalues, ?_, by simp, cString_append (nul_notMem_printed hmin)⟩
  · rw [intListTostring, if_neg (by omega), hlist.size, hrun]
    simp only [Option.bind_eq_bind, Option.bind_some]
    rw [putChars_append (show [nul].length ≤ rest.length from hpos)]
    simp
  · simp only [List.length_append, List.length_cons, List.length_drop]
    omega

/-- A call writes a text inside the buffer that reads as the values it took off the list. -/
def CallExact (list : IntList) (values : List Int32) (buf : List Char) : Prop :=
  ∃ list' buf' strLen removed,
    intListTostring list buf buf.length = some (list', buf', strLen) ∧
      buf'.length = buf.length ∧ nul ∈ buf' ∧ strLen = (cString buf').length ∧
      values = removed ++ list'.values ∧
      readInts (cString buf') = some (removed.map Int32.toInt)

inductive Drains (size : ℕ) : IntList → List (List Char) → Prop
  | done {list : IntList} (hsize : list.size = 0) : Drains size list []
  | call {list list' : IntList} {buf buf' : List Char} {strLen : ℕ} {texts : List (List Char)}
      (hsize : list.size ≠ 0) (hbuf : buf.length = size)
      (hcall : intListTostring list buf size = some (list', buf', strLen))
      (hrest : Drains size list' texts) : Drains size list (cString buf' :: texts)

/-- Repeated calls come to an end, and their texts read as the values of the list, in order. -/
def CallsExact (list : IntList) (values : List Int32) (size : ℕ) : Prop :=
  (∃ texts, Drains size list texts) ∧
    ∀ texts, Drains size list texts →
      (texts.mapM readInts).map List.flatten = some (values.map Int32.toInt)

def PrintsWhole (values : List Int32) (size : ℕ) : Prop :=
  (∀ value ∈ values, 0 ≤ value) ∧
    (text (values.map fun value => value.toInt.natAbs)).length < size

def magnitudes (values : List Int32) : List ℤ :=
  values.map fun value => (value.toInt.natAbs : ℤ)

theorem readInts_printed {values : List Int32}
    (hmin : ∀ value ∈ values, value ≠ Int32.minValue) :
    readInts (printed values) = some (magnitudes values) := by
  rw [printed_eq_text hmin, readInts_text, List.map_map]
  rfl

theorem magnitudes_eq_iff {values : List Int32} :
    magnitudes values = values.map Int32.toInt ↔ ∀ value ∈ values, 0 ≤ value := by
  have hzero : (0 : Int32).toInt = 0 := rfl
  rw [magnitudes, List.map_inj_left]
  constructor <;> intro h value hvalue <;> have := h value hvalue
  · rw [Int32.le_iff_toInt_le]
    omega
  · rw [Int32.le_iff_toInt_le] at this
    omega

theorem printsWhole_of_read {size : ℕ} (hsize : 0 < size) {values : List Int32} {more : List ℤ}
    (hread : magnitudes (fit size values).1 ++ more = values.map Int32.toInt)
    (hmore : more.length ≤ (fit size values).2.length) : PrintsWhole values size := by
  obtain ⟨lost, hvalues, hlost, hmin, hlen⟩ := fit_spec hsize values
  have hcount := congrArg List.length hread
  have hcount' := congrArg List.length hvalues
  simp only [magnitudes, List.length_append, List.length_map] at hcount hcount'
  obtain rfl : lost = [] := List.eq_nil_of_length_eq_zero (by omega)
  have hleft := hlost rfl
  rw [hleft, List.append_nil, List.append_nil] at hvalues
  rw [hleft] at hmore
  obtain rfl : more = [] := List.eq_nil_of_length_eq_zero (by simpa using hmore)
  rw [← hvalues] at hread hmin hlen
  rw [List.append_nil] at hread
  rw [printed_eq_text hmin] at hlen
  exact ⟨magnitudes_eq_iff.mp hread, hlen⟩

theorem PrintsWhole.ne_minValue {values : List Int32} {size : ℕ} (h : PrintsWhole values size) :
    ∀ value ∈ values, value ≠ Int32.minValue := by
  rintro value hvalue rfl
  exact absurd (h.1 _ hvalue) (by decide)

theorem PrintsWhole.fit_eq {values : List Int32} {size : ℕ} (h : PrintsWhole values size) :
    fit size values = (values, []) :=
  fit_whole h.ne_minValue h.2

theorem PrintsWhole.read_eq {values : List Int32} {size : ℕ} (h : PrintsWhole values size) :
    readInts (printed values) = some (values.map Int32.toInt) := by
  rw [readInts_printed h.ne_minValue, magnitudes_eq_iff.mpr h.1]

section Runs

variable {list : IntList} {cells : List (ℕ × Int32)} {buf : List Char} {size : ℕ}

theorem callExact_iff (hlist : Holds list cells) (hbuf : 0 < buf.length) :
    CallExact list (cells.map Prod.snd) buf ↔ PrintsWhole (cells.map Prod.snd) buf.length := by
  obtain ⟨list', left, buf', hcall, hleft, hvalues, hlen, hnul, htext⟩ :=
    intListTostring_eq hlist hbuf
  obtain ⟨lost, hsplit, -, hmin, -⟩ := fit_spec hbuf (cells.map Prod.snd)
  constructor
  · rintro ⟨list₁, buf₁, strLen, removed, hcall₁, -, -, -, hremoved, hread⟩
    rw [hcall] at hcall₁
    cases hcall₁
    rw [hleft.values_eq, hvalues] at hremoved
    rw [htext, readInts_printed hmin] at hread
    apply @printsWhole_of_read _ hbuf _ ((fit buf.length (cells.map Prod.snd)).2.map Int32.toInt)
    · rw [Option.some.inj hread, ← List.map_append, ← hremoved]
    · rw [List.length_map]
  · intro hwhole
    rw [hwhole.fit_eq] at hcall hvalues htext
    refine ⟨list', buf', _, cells.map Prod.snd, hcall, hlen, hnul, by rw [htext], ?_, ?_⟩
    · rw [hleft.values_eq, hvalues, List.append_nil]
    · rw [htext, hwhole.read_eq]

theorem Drains.printed_of {texts : List (List Char)} (hsize : 0 < size)
    (h : Drains size list texts) (hlist : Holds list cells) :
    ∃ calls : List (List Int32), texts.mapM readInts = some (calls.map magnitudes) ∧
      calls.flatten.length ≤ cells.length := by
  induction h generalizing cells with
  | done hzero => exact ⟨[], rfl, Nat.zero_le _⟩
  | @call list list₁ buf buf₁ strLen texts hne hbuf hcall hrest ih =>
    subst hbuf
    obtain ⟨list', left, buf', hcall', hleft, hvalues, -, -, htext⟩ :=
      intListTostring_eq hlist hsize
    rw [hcall] at hcall'
    cases hcall'
    obtain ⟨lost, hsplit, -, hmin, -⟩ := fit_spec hsize (cells.map Prod.snd)
    obtain ⟨calls, hcalls, hlen⟩ := ih hleft
    refine ⟨(fit buf.length (cells.map Prod.snd)).1 :: calls, ?_, ?_⟩
    · rw [List.mapM_cons, htext, readInts_printed hmin, hcalls]
      rfl
    · have hcount := congrArg List.length hsplit
      have hcount' := congrArg List.length hvalues
      simp only [List.length_append, List.length_map] at hcount hcount'
      rw [List.flatten_cons, List.length_append]
      omega

theorem exists_drains (hsize : 0 < size) (hlist : Holds list cells) :
    ∃ texts, Drains size list texts := by
  -- each call takes a value off a list that is not empty
  induction hn : cells.length using Nat.strong_induction_on generalizing list cells with
  | _ n ih =>
    by_cases hzero : list.size = 0
    · exact ⟨[], .done hzero⟩
    · have hbuf : (List.replicate size nul).length = size := List.length_replicate
      obtain ⟨list', left, buf', hcall, hleft, hvalues, -, -, -⟩ :=
        intListTostring_eq hlist (by rw [hbuf]; exact hsize)
      obtain ⟨lost, hsplit, hlost, -, -⟩ := fit_spec hsize (cells.map Prod.snd)
      rw [hbuf] at hcall hvalues
      have hcount := congrArg List.length hsplit
      have hcount' := congrArg List.length hvalues
      simp only [List.length_append, List.length_map] at hcount hcount'
      have hcells := hlist.size
      have hlt : left.length < n := by
        by_contra hge
        obtain rfl : lost = [] := List.eq_nil_of_length_eq_zero (by omega)
        rw [hlost rfl] at hcount hcount'
        simp only [List.length_nil] at hcount hcount'
        omega
      obtain ⟨texts, htexts⟩ := ih left.length hlt hleft rfl
      exact ⟨_, .call hzero hbuf hcall htexts⟩

theorem callsExact_iff (hlist : Holds list cells) (hsize : 0 < size) :
    CallsExact list (cells.map Prod.snd) size ↔ PrintsWhole (cells.map Prod.snd) size := by
  constructor
  · rintro ⟨⟨texts, htexts⟩, hall⟩
    have hread := hall texts htexts
    cases htexts with
    | done hzero =>
      have hnil : cells = [] := List.eq_nil_of_length_eq_zero (hlist.size ▸ hzero)
      subst hnil
      exact ⟨List.forall_mem_nil _, hsize⟩
    | @call _ list₁ buf buf₁ strLen texts hne hbuf hcall hrest =>
      subst hbuf
      obtain ⟨list', left, buf', hcall', hleft, hvalues, -, -, htext⟩ :=
        intListTostring_eq hlist hsize
      rw [hcall] at hcall'
      cases hcall'
      obtain ⟨-, -, -, hmin, -⟩ := fit_spec hsize (cells.map Prod.snd)
      obtain ⟨calls, hcalls, hlen⟩ := hrest.printed_of hsize hleft
      rw [List.mapM_cons, htext, readInts_printed hmin, hcalls] at hread
      apply @printsWhole_of_read _ hsize _ (calls.map magnitudes).flatten
      · exact Option.some.inj hread
      · rw [← hvalues, List.length_map]
        simpa [magnitudes, Function.comp_def, List.length_flatten] using hlen
  · intro hwhole
    refine ⟨exists_drains hsize hlist, fun texts htexts => ?_⟩
    cases htexts with
    | done hzero =>
      have hnil : cells = [] := List.eq_nil_of_length_eq_zero (hlist.size ▸ hzero)
      subst hnil
      rfl
    | @call _ list₁ buf buf₁ strLen texts hne hbuf hcall hrest =>
      subst hbuf
      obtain ⟨list', left, buf', hcall', hleft, hvalues, -, -, htext⟩ :=
        intListTostring_eq hlist hsize
      rw [hcall] at hcall'
      cases hcall'
      rw [hwhole.fit_eq] at hvalues htext
      have hempty : list₁.size = 0 := by
        rw [hleft.size, ← @List.length_map _ _ left Prod.snd, hvalues]
        rfl
      cases hrest with
      | done _ =>
        rw [List.mapM_cons, htext, hwhole.read_eq]
        simp
      | call hne' => exact absurd hempty hne'

end Runs

/-- A call prints exactly what it takes off a list, and repeated calls print the whole list,
exactly when no value is negative and one buffer holds the text of all of them. -/
theorem intListTostring_exact_iff (list : IntList) (values : List Int32) (buf : List Char)
    (hlist : Built list values) (hbuf : 1 ≤ buf.length) :
    (CallExact list values buf ↔ PrintsWhole values buf.length) ∧
      (CallsExact list values buf.length ↔ PrintsWhole values buf.length) := by
  obtain ⟨cells, hcells, rfl⟩ := hlist.holds
  exact ⟨callExact_iff hcells hbuf, callsExact_iff hcells hbuf⟩

theorem intListTostring_exact_iff_pair :
    ∃ list, Built list [12, 7] ∧ 1 ≤ (List.replicate 6 nul).length ∧
      (CallExact list [12, 7] (List.replicate 6 nul) ↔ PrintsWhole [12, 7] 6) ∧
        (CallsExact list [12, 7] 6 ↔ PrintsWhole [12, 7] 6) := by
  obtain ⟨list, hlist, -⟩ := exists_built [12, 7]
  exact ⟨list, hlist, by decide,
    intListTostring_exact_iff list [12, 7] (List.replicate 6 nul) hlist (by decide)⟩

/-- Any single value fits in 13 characters; the seventh of these is lost between two calls. -/
theorem seventh_value_lost :
    (∃ list, Built list [1, 2, 3, 4, 5, 6, 7] ∧ ∃ list' buf',
      intListTostring list (List.replicate 13 nul) 13 = some (list', buf', 12) ∧
        cString buf' = "1 2 3 4 5 6 ".toList ∧ list'.values = []) ∧
      ¬∀ list values buf, Built list values → 1 ≤ buf.length →
        CallExact list values buf ∧
          (13 ≤ buf.length → CallsExact list values buf.length) := by
  have hbuf : (List.replicate 13 nul).length = 13 := List.length_replicate
  have hfit : fit 13 [1, 2, 3, 4, 5, 6, 7] = ([1, 2, 3, 4, 5, 6], []) := by decide
  have hlen : (printed [1, 2, 3, 4, 5, 6]).length = 12 := by decide
  obtain ⟨list, hlist, -⟩ := exists_built [1, 2, 3, 4, 5, 6, 7]
  obtain ⟨cells, hcells, hvalues⟩ := hlist.holds
  constructor
  · obtain ⟨list', left, buf', hcall, hleft, hlefts, -, -, htext⟩ :=
      intListTostring_eq hcells (by rw [hbuf]; omega)
    rw [hbuf, hvalues, hfit] at hcall hlefts htext
    refine ⟨list, hlist, list', buf', hlen ▸ hcall, htext.trans (by decide), ?_⟩
    rw [hleft.values_eq, hlefts]
  · intro hall
    obtain ⟨hexact, -⟩ := hall list _ (List.replicate 13 nul) hlist (by rw [hbuf]; omega)
    rw [← hvalues, callExact_iff hcells (by rw [hbuf]; omega), hvalues, hbuf] at hexact
    exact absurd hexact.2 (by decide)

example : fit 13 [-5] = ([-5], []) ∧ printed [-5] = "5 ".toList := by decide

end SBlktrace
