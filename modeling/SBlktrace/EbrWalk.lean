import SBlktrace.PartitionTable
import Mathlib

namespace SBlktrace

def EbrStep.table : EbrStep → List PartitionEntry
  | .ret _ table _ => table
  | .next _ table _ => table

def ebrAdvance (fd : UInt32 → Option Buf) : EbrStep → EbrStep
  | .ret buf table code => .ret buf table code
  | .next buf table offsetSector => ebrStep fd buf table offsetSector

section Loop

variable {fd : UInt32 → Option Buf} {buf : Buf} {table : List PartitionEntry}
  {offsetSector : UInt32}

theorem ebrAdvance_ret (fd : UInt32 → Option Buf) (buf : Buf) (table : List PartitionEntry)
    (code : ℤ) (n : ℕ) : (ebrAdvance fd)^[n] (.ret buf table code) = .ret buf table code :=
  Function.iterate_fixed rfl n

theorem parseExtendedBootRecord_eq_some {fuel : ℕ} {buf' : Buf} {table' : List PartitionEntry}
    {code : ℤ} : parseExtendedBootRecord fd fuel buf table offsetSector = some (buf', table', code) ↔
      (ebrAdvance fd)^[fuel] (.next buf table offsetSector) = .ret buf' table' code := by
  induction fuel generalizing buf table offsetSector with
  | zero =>
    rw [parseExtendedBootRecord, Function.iterate_zero, id]
    exact ⟨fun h => (by cases h), fun h => (by cases h)⟩
  | succ fuel ih =>
    rw [parseExtendedBootRecord, Function.iterate_succ_apply, ebrAdvance]
    cases ebrStep fd buf table offsetSector with
    | ret buf'' table'' code' =>
      dsimp only
      rw [ebrAdvance_ret, Option.some.injEq, Prod.mk.injEq, Prod.mk.injEq, EbrStep.ret.injEq]
    | next buf'' table'' offsetSector' => exact ih

end Loop

def ebrLink (disk : UInt32 → Buf) (q : UInt32) : Option UInt32 :=
  if checkMbr (disk q) = true ∧ entryType (disk q) 1 ≠ 0 ∧ entryStart (disk q) 1 ≠ 0 then
    some (q + entryStart (disk q) 1)
  else none

def ebrSector (disk : UInt32 → Buf) (first : UInt32) : ℕ → Option UInt32
  | 0 => some first
  | n + 1 => (ebrSector disk first n).bind (ebrLink disk)

def ebrOccupied (disk : UInt32 → Buf) (q : UInt32) : ℕ := if entryType (disk q) 0 ≠ 0 then 1 else 0

def ebrPassed (disk : UInt32 → Buf) (first : UInt32) : ℕ → ℕ
  | 0 => 0
  | n + 1 => ebrPassed disk first n + ((ebrSector disk first n).map (ebrOccupied disk)).getD 0

/-- The links come back to a record with nothing but empty first entries on the way, and with `n`
rows before, the table is not full until then. -/
def EmptyCycle (disk : UInt32 → Buf) (first : UInt32) (n : ℕ) : Prop :=
  ∃ i j q, i < j ∧ ebrSector disk first i = some q ∧ ebrSector disk first j = some q ∧
    ebrPassed disk first j = ebrPassed disk first i ∧ n + ebrPassed disk first i < maxPartitionNum

section Walk

variable {disk : UInt32 → Buf} {first q : UInt32} {buf : Buf} {table : List PartitionEntry}

theorem addLogical_length (buf : Buf) (q : UInt32) (table : List PartitionEntry) :
    (addLogical buf q table).length = table.length + if entryType buf 0 ≠ 0 then 1 else 0 := by
  unfold addLogical
  split
  · rw [List.length_append, List.length_singleton]
  · rfl

theorem ebrStep_eq (buf : Buf) (htable : table.length < maxPartitionNum) :
    (∃ q', ebrLink disk q = some q' ∧ table.length + ebrOccupied disk q < maxPartitionNum ∧
      ebrStep (fun q => some (disk q)) buf table q =
        .next (disk q) (addLogical (disk q) q table) q') ∨
    ((ebrLink disk q = none ∨ maxPartitionNum ≤ table.length + ebrOccupied disk q) ∧
      ∃ buf' table' code, ebrStep (fun q => some (disk q)) buf table q = .ret buf' table' code ∧
        table'.length ≤ maxPartitionNum) := by
  have hlength := addLogical_length (disk q) q table
  change _ = _ + ebrOccupied disk q at hlength
  have hone : ebrOccupied disk q ≤ 1 := by
    unfold ebrOccupied
    split <;> omega
  have hlt : ¬(entryType (disk q) 0 ≠ 0 ∧ (addLogical (disk q) q table).length = maxPartitionNum) →
      table.length + ebrOccupied disk q < maxPartitionNum := by
    intro h
    by_cases htype : entryType (disk q) 0 ≠ 0
    · have hne : (addLogical (disk q) q table).length ≠ maxPartitionNum := fun heq => h ⟨htype, heq⟩
      omega
    · have hzero : ebrOccupied disk q = 0 := if_neg htype
      omega
  unfold ebrStep
  dsimp only
  by_cases hcheck : checkMbr (disk q) = true
  · rw [if_neg (not_not.mpr hcheck)]
    by_cases hfull : entryType (disk q) 0 ≠ 0 ∧
        (addLogical (disk q) q table).length = maxPartitionNum
    · rw [if_pos hfull]
      exact Or.inr ⟨Or.inr (by omega), _, _, _, rfl, hfull.2.le⟩
    have hcount := hlt hfull
    rw [if_neg hfull]
    by_cases hlinked : entryType (disk q) 1 ≠ 0
    · rw [if_pos hlinked]
      by_cases hzero : entryStart (disk q) 1 = 0
      · rw [if_pos hzero]
        exact Or.inr ⟨Or.inl (if_neg fun h => h.2.2 hzero), _, _, _, rfl, by omega⟩
      · rw [if_neg hzero]
        exact Or.inl ⟨_, if_pos ⟨hcheck, hlinked, hzero⟩, hcount, rfl⟩
    · rw [if_neg hlinked]
      exact Or.inr ⟨Or.inl (if_neg fun h => hlinked h.2.1), _, _, _, rfl, by omega⟩
  · rw [if_pos hcheck]
    exact Or.inr ⟨Or.inl (if_neg fun h => hcheck h.1), _, _, _, rfl, htable.le⟩

theorem ebrAdvance_iterate (buf : Buf) (htable : table.length < maxPartitionNum) (n : ℕ) :
    (∃ q buf' table', ebrSector disk first n = some q ∧
      table'.length = table.length + ebrPassed disk first n ∧ table'.length < maxPartitionNum ∧
      (ebrAdvance fun q => some (disk q))^[n] (.next buf table first) = .next buf' table' q) ∨
    ((ebrSector disk first n = none ∨ maxPartitionNum ≤ table.length + ebrPassed disk first n) ∧
      ∃ buf' table' code, table'.length ≤ maxPartitionNum ∧
        (ebrAdvance fun q => some (disk q))^[n] (.next buf table first) = .ret buf' table' code) := by
  induction n with
  | zero => exact Or.inl ⟨first, buf, table, rfl, rfl, htable, rfl⟩
  | succ n ih =>
    rw [Function.iterate_succ_apply']
    obtain ⟨q, buf', table', hq, hlength, hlt, hstate⟩ | ⟨hend, buf', table', code, hle, hstate⟩ := ih
    · have hpassed : ebrPassed disk first (n + 1) = ebrPassed disk first n + ebrOccupied disk q := by
        rw [ebrPassed, hq]
        rfl
      have hsector : ebrSector disk first (n + 1) = ebrLink disk q := by
        rw [ebrSector, hq]
        rfl
      rw [hstate, ebrAdvance, hpassed, hsector]
      obtain ⟨q', hlink, hcount, hstep⟩ | ⟨hstop, buf'', table'', code, hstep, hle⟩ :=
        @ebrStep_eq disk q table' buf' hlt
      · left
        have hadd := addLogical_length (disk q) q table'
        change _ = _ + ebrOccupied disk q at hadd
        exact ⟨q', _, _, hlink, by omega, by omega, hstep⟩
      · right
        refine ⟨?_, _, _, _, hle, hstep⟩
        obtain hstop | hstop := hstop
        · exact Or.inl hstop
        · exact Or.inr (by omega)
    · right
      rw [hstate, ebrAdvance]
      refine ⟨?_, _, _, _, hle, rfl⟩
      obtain hnone | hfull := hend
      · left
        rw [ebrSector, hnone]
        rfl
      · right
        rw [ebrPassed]
        omega

theorem parseExtendedBootRecord_ends (buf : Buf) (htable : table.length < maxPartitionNum) :
    (∃ fuel r, parseExtendedBootRecord (fun q => some (disk q)) fuel buf table first = some r) ↔
      ∃ n, ebrSector disk first n = none ∨ maxPartitionNum ≤ table.length + ebrPassed disk first n := by
  constructor
  · rintro ⟨n, ⟨buf', table', code⟩, hr⟩
    rw [parseExtendedBootRecord_eq_some] at hr
    obtain ⟨q, buf'', table'', -, -, -, hstate⟩ | ⟨hend, -⟩ :=
      @ebrAdvance_iterate disk first table buf htable n
    · rw [hr] at hstate
      cases hstate
    · exact ⟨n, hend⟩
  · rintro ⟨n, hend⟩
    obtain ⟨q, buf', table', hq, hlength, hlt, -⟩ | ⟨-, buf', table', code, -, hstate⟩ :=
      @ebrAdvance_iterate disk first table buf htable n
    · obtain hnone | hfull := hend
      · rw [hq] at hnone
        cases hnone
      · omega
    · exact ⟨n, _, parseExtendedBootRecord_eq_some.mpr hstate⟩

theorem ebrPassed_mono {n m : ℕ} (h : n ≤ m) : ebrPassed disk first n ≤ ebrPassed disk first m := by
  induction m, h using Nat.le_induction with
  | base => exact le_rfl
  | succ m _ ih =>
    rw [ebrPassed]
    omega

theorem ebrSector_isSome {n m : ℕ} (h : n ≤ m) (hm : (ebrSector disk first m).isSome) :
    (ebrSector disk first n).isSome := by
  induction m, h using Nat.le_induction with
  | base => exact hm
  | succ m _ ih =>
    apply ih
    rw [ebrSector] at hm
    cases hq : ebrSector disk first m with
    | none =>
      rw [hq] at hm
      cases hm
    | some q => rfl

theorem ebrSector_repeats {i d : ℕ} (hsector : ebrSector disk first (i + d) = ebrSector disk first i)
    (hpassed : ebrPassed disk first (i + d) = ebrPassed disk first i) (k : ℕ) :
    ebrSector disk first (i + k + d) = ebrSector disk first (i + k) ∧
      ebrPassed disk first (i + k + d) = ebrPassed disk first (i + k) := by
  induction k with
  | zero => exact ⟨hsector, hpassed⟩
  | succ k ih =>
    obtain ⟨ihs, ihp⟩ := ih
    have hnext : i + (k + 1) + d = i + k + d + 1 := by omega
    rw [hnext, ← Nat.add_assoc, ebrSector, ebrSector, ebrPassed, ebrPassed, ihs, ihp]
    exact ⟨rfl, rfl⟩

theorem emptyCycle_goesOn {n : ℕ} (h : EmptyCycle disk first n) (k : ℕ) :
    (ebrSector disk first k).isSome ∧ n + ebrPassed disk first k < maxPartitionNum := by
  obtain ⟨i, j, q, hij, hi, hj, hpassed, hlt⟩ := h
  obtain ⟨d, rfl⟩ := Nat.exists_eq_add_of_lt hij
  rw [Nat.add_assoc] at hj hpassed
  induction k using Nat.strong_induction_on with
  | _ k ih =>
    by_cases hk : k ≤ i + (d + 1)
    · refine ⟨ebrSector_isSome hk (by rw [hj]; rfl), ?_⟩
      have := @ebrPassed_mono disk first k (i + (d + 1)) hk
      omega
    · obtain ⟨hs, hp⟩ := ebrSector_repeats (hj.trans hi.symm) hpassed (k - (d + 1) - i)
      have hback : i + (k - (d + 1) - i) = k - (d + 1) := by omega
      have hforth : k - (d + 1) + (d + 1) = k := by omega
      rw [hback, hforth] at hs hp
      rw [hs, hp]
      exact ih (k - (d + 1)) (by omega)

theorem exists_end_of_noCycle {n : ℕ} (h : ¬EmptyCycle disk first n) :
    ∃ k, ebrSector disk first k = none ∨ maxPartitionNum ≤ n + ebrPassed disk first k := by
  by_contra hnot
  push Not at hnot
  have hfinite : Finite UInt32 := Finite.of_injective UInt32.toFin fun a b => UInt32.toFin_inj.mp
  -- There are finitely many sectors and numbers of rows, so both come back together.
  have hlt := fun k => (hnot k).2
  obtain ⟨i, j, hne, heq⟩ := Finite.exists_ne_map_eq_of_infinite
    fun k => (ebrSector disk first k, (⟨n + ebrPassed disk first k, hlt k⟩ : Fin maxPartitionNum))
  obtain ⟨hsector, hrows⟩ := Prod.mk.inj heq
  have hpassed : ebrPassed disk first i = ebrPassed disk first j := by
    have := Fin.mk.inj hrows
    omega
  have hcycle : ∀ i j, i < j → ebrSector disk first i = ebrSector disk first j →
      ebrPassed disk first i = ebrPassed disk first j → False := by
    intro i j hij hs hp
    obtain ⟨q, hq⟩ := Option.ne_none_iff_exists'.mp (hnot i).1
    exact h ⟨i, j, q, hij, hq, hs ▸ hq, hp.symm, hlt i⟩
  obtain hij | hij := Nat.lt_or_gt_of_ne hne
  · exact hcycle i j hij hsector hpassed
  · exact hcycle j i hij hsector.symm hpassed.symm

theorem ebrAdvance_table_le (buf : Buf) (htable : table.length < maxPartitionNum) (n : ℕ) :
    ((ebrAdvance fun q => some (disk q))^[n] (.next buf table first)).table.length ≤
      maxPartitionNum := by
  obtain ⟨q, buf', table', -, -, hlt, hstate⟩ | ⟨-, buf', table', code, hle, hstate⟩ :=
    @ebrAdvance_iterate disk first table buf htable n
  · rw [hstate]
    exact hlt.le
  · rw [hstate]
    exact hle

end Walk

/-- With the rows of at most four primary partitions before, the walk over the extended boot records
returns and stays within the table, exactly if there is no cycle of records with empty first
entries that it comes to before the table is full. -/
theorem parseExtendedBootRecord_returns_iff (disk : UInt32 → Buf) (buf : Buf)
    (table : List PartitionEntry) (first : UInt32) (hprimary : table.length ≤ 4) :
    ((∃ fuel r, parseExtendedBootRecord (fun q => some (disk q)) fuel buf table first = some r) ∧
      ∀ n, ((ebrAdvance fun q => some (disk q))^[n] (.next buf table first)).table.length ≤
        maxPartitionNum) ↔ ¬EmptyCycle disk first table.length := by
  have htable : table.length < maxPartitionNum := hprimary.trans_lt (by decide)
  constructor
  · rintro ⟨hends, -⟩ hcycle
    obtain ⟨n, hend⟩ := (parseExtendedBootRecord_ends buf htable).mp hends
    obtain ⟨hsome, hlt⟩ := emptyCycle_goesOn hcycle n
    obtain hnone | hfull := hend
    · rw [hnone] at hsome
      cases hsome
    · omega
  · intro hcycle
    exact ⟨(parseExtendedBootRecord_ends buf htable).mpr (exists_end_of_noCycle hcycle),
      ebrAdvance_table_le buf htable⟩

def sectorOf (l : List (ℕ × UInt8)) : Buf := fun i => (l.lookup i).getD 0

def lastRecord : Buf := sectorOf [(0x1fe, 0x55), (0x1ff, 0xaa), (0x1c2, 0x83), (0x1c6, 63), (0x1ca, 100)]

def emptyRecord : Buf := sectorOf [(0x1fe, 0x55), (0x1ff, 0xaa), (0x1d2, 5), (0x1d9, 0x80)]

def linkedRecord (link : UInt8) : Buf :=
  sectorOf [(0x1fe, 0x55), (0x1ff, 0xaa), (0x1c2, 0x83), (0x1c6, 63), (0x1ca, 100), (0x1d2, 5),
    (0x1d7, link)]

def threeRecords (q : UInt32) : Buf :=
  if q = 4096 then linkedRecord 4 else if q = 5120 then emptyRecord else lastRecord

theorem parseExtendedBootRecord_returns_three : [(⟨2048, 2148, 0x83⟩ : PartitionEntry)].length ≤ 4 ∧
    ∃ fuel r, parseExtendedBootRecord (fun q => some (threeRecords q)) fuel (sectorOf [])
      [⟨2048, 2148, 0x83⟩] 4096 = some r := by
  have hlast : ∀ n, ebrSector threeRecords 4096 (n + 3) = none := by
    intro n
    induction n with
    | zero => decide
    | succ n ih => rw [ebrSector, ih, Option.bind_none]
  have hcycle : ¬EmptyCycle threeRecords 4096 1 := by
    rintro ⟨i, j, q, hij, hi, hj, -⟩
    have hlt : j < 3 := by
      by_contra hge
      obtain ⟨d, rfl⟩ := Nat.exists_eq_add_of_le' (not_lt.mp hge)
      rw [hlast] at hj
      cases hj
    have hdistinct : ∀ j < 3, ∀ i < j, ebrSector threeRecords 4096 i ≠ ebrSector threeRecords 4096 j := by decide
    exact hdistinct j hlt i hij (hi.trans hj.symm)
  exact ⟨by decide, ((parseExtendedBootRecord_returns_iff threeRecords (sectorOf []) [⟨2048, 2148, 0x83⟩] 4096
    (by decide)).mpr hcycle).1⟩

/-- Two records that link each other. -/
theorem ebr_walk_unending :
    ¬∀ (disk : UInt32 → Buf) (buf : Buf) (table : List PartitionEntry) (first : UInt32),
      table.length ≤ 4 →
      (∃ fuel r, parseExtendedBootRecord (fun q => some (disk q)) fuel buf table first = some r) ∧
        ∀ n, ((ebrAdvance fun q => some (disk q))^[n] (.next buf table first)).table.length ≤
          maxPartitionNum := by
  intro hall
  have hcycle : EmptyCycle (fun _ => emptyRecord) 1 0 := ⟨0, 2, 1, by decide⟩
  have htable : ([] : List PartitionEntry).length < maxPartitionNum := by decide
  have hreturns := (hall (fun _ => emptyRecord) emptyRecord [] 1 (by decide)).1
  obtain ⟨n, hend⟩ := (parseExtendedBootRecord_ends emptyRecord htable).mp hreturns
  obtain ⟨hsome, hlt⟩ := emptyCycle_goesOn hcycle n
  obtain hnone | hfull := hend
  · rw [hnone] at hsome
    cases hsome
  · exact absurd hlt (not_lt.mpr hfull)

end SBlktrace
