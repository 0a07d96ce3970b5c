import SBlktrace.EbrWalk
import Mathlib

namespace SBlktrace

def PartitionEntry.sectors (e : PartitionEntry) : ℕ × ℕ := (e.startAddr.toNat, e.endAddr.toNat)

def primaries (mbr : Buf) : List (ℕ × ℕ) :=
  (List.range 4).filterMap fun i =>
    if entryType mbr i = 0 ∨ entryType mbr i = 5 then none
    else some ((entryStart mbr i).toNat, (entryStart mbr i).toNat + (entryLength mbr i).toNat)

def logical (fd : UInt32 → Option Buf) (e : UInt32) : ℕ × ℕ :=
  match fd e with
  | none => (0, 0)
  | some buf => (e.toNat + (entryStart buf 0).toNat,
      e.toNat + (entryStart buf 0).toNat + (entryLength buf 0).toNat)

/-- Boot records in these sectors, each with a logical partition and a link to the next one, relative
to the first sector of the extended partition. -/
def EbrChain (fd : UInt32 → Option Buf) (ext : UInt32) : List UInt32 → Prop
  | [] => False
  | [e] => ∃ buf, fd e = some buf ∧ checkMbr buf = true ∧ entryType buf 0 ≠ 0 ∧ entryType buf 1 = 0
  | e :: e' :: es =>
    (∃ buf, fd e = some buf ∧ checkMbr buf = true ∧ entryType buf 0 ≠ 0 ∧ entryType buf 1 ≠ 0 ∧
      entryStart buf 1 ≠ 0 ∧ e'.toNat = ext.toNat + (entryStart buf 1).toNat) ∧
    EbrChain fd ext (e' :: es)

/-- A disk with a master boot record and with extended boot records in the sectors `es`, if one of
its entries is an extended partition. -/
structure PartitionedDisk (fd : UInt32 → Option Buf) (mbr : Buf) (es : List UInt32) : Prop where
  first : fd 0 = some mbr
  signature : checkMbr mbr = true
  unique : ∀ i < 4, ∀ j < 4, entryType mbr i = 5 → entryType mbr j = 5 → i = j
  unextended : (∀ i < 4, entryType mbr i ≠ 5) → es = []
  extended : ∀ i < 4, entryType mbr i = 5 → es.head? = some (entryStart mbr i) ∧
    0 < (entryStart mbr i).toNat ∧ EbrChain fd (entryStart mbr i) es
  count : (primaries mbr).length + es.length ≤ maxPartitionNum
  sectors : ∀ e ∈ es, (logical fd e).2 ≤ 2 ^ 32

def Enumerated (fd : UInt32 → Option Buf) (mbr : Buf) (es : List UInt32) : Prop :=
  ∃ fuel r, getMbr fuel fd = some r ∧
    (r.table.map PartitionEntry.sectors).Perm (primaries mbr ++ es.map (logical fd))

def NoStray (fd : UInt32 → Option Buf) (es : List UInt32) : Prop :=
  ∀ a b c rest, es = a :: b :: c :: rest → ∀ buf, fd (b + (c - a)) = some buf → checkMbr buf = false

section Mbr

variable {mbr : Buf} {s : UInt32 × List PartitionEntry} {l : List ℕ}

theorem mbrEntry_table (mbr : Buf) (s : UInt32 × List PartitionEntry) (l : List ℕ) :
    (l.foldl (mbrEntry mbr) s).2.map PartitionEntry.sectors =
      s.2.map PartitionEntry.sectors ++ l.filterMap fun i =>
        if entryType mbr i = 0 ∨ entryType mbr i = 5 then none
        else some ((entryStart mbr i).toNat,
          (entryStart mbr i).toNat + (entryLength mbr i).toNat) := by
  induction l generalizing s with
  | nil => simp
  | cons i l ih =>
    rw [List.foldl_cons, ih, List.filterMap_cons]
    unfold mbrEntry
    by_cases hext : entryType mbr i = 5
    · rw [if_pos hext, if_pos (Or.inr hext)]
    by_cases hempty : entryType mbr i = 0
    · rw [if_neg hext, if_neg (not_not.mpr hempty), if_pos (Or.inl hempty)]
    · have hboth : ¬(entryType mbr i = 0 ∨ entryType mbr i = 5) := not_or.mpr ⟨hempty, hext⟩
      have hend : ((entryStart mbr i).toUInt64 + (entryLength mbr i).toUInt64).toNat =
          (entryStart mbr i).toNat + (entryLength mbr i).toNat := by
        have h₁ := (entryStart mbr i).toNat_lt
        have h₂ := (entryLength mbr i).toNat_lt
        rw [UInt64.toNat_add, UInt32.toNat_toUInt64, UInt32.toNat_toUInt64]
        omega
      rw [if_neg hext, if_pos hempty, if_neg hboth]
      simp [PartitionEntry.sectors, hend]

theorem mbrEntry_none (h : ∀ i ∈ l, entryType mbr i ≠ 5) : (l.foldl (mbrEntry mbr) s).1 = s.1 := by
  induction l generalizing s with
  | nil => rfl
  | cons i l ih =>
    rw [List.foldl_cons, ih fun j hj => h j (List.mem_cons_of_mem i hj), mbrEntry,
      if_neg (h i List.mem_cons_self)]
    split
    · rfl
    · rfl

theorem mbrEntry_extended {i : ℕ} (hi : i ∈ l) (hext : entryType mbr i = 5)
    (hone : ∀ j ∈ l, entryType mbr j = 5 → j = i) :
    (l.foldl (mbrEntry mbr) s).1 = entryStart mbr i := by
  induction l generalizing s with
  | nil => cases hi
  | cons j l ih =>
    rw [List.foldl_cons]
    by_cases hrest : i ∈ l
    · exact ih hrest fun k hk => hone k (List.mem_cons_of_mem j hk)
    · obtain rfl : i = j := (List.mem_cons.mp hi).resolve_right hrest
      rw [mbrEntry_none, mbrEntry, if_pos hext]
      intro k hk hk5
      obtain rfl := hone k (List.mem_cons_of_mem i hk) hk5
      exact hrest hk

end Mbr

def wrapped (fd : UInt32 → Option Buf) (e : UInt32) : ℕ × ℕ :=
  ((logical fd e).1 % 2 ^ 32, (logical fd e).2 % 2 ^ 32)

section Walk

variable {fd : UInt32 → Option Buf} {buf : Buf} {table : List PartitionEntry} {ext e e' : UInt32}
  {es : List UInt32}

theorem addLogical_sectors (hbuf : fd e = some buf) (htype : entryType buf 0 ≠ 0) :
    (addLogical buf e table).map PartitionEntry.sectors =
      table.map PartitionEntry.sectors ++ [wrapped fd e] := by
  have hlogical : logical fd e = (e.toNat + (entryStart buf 0).toNat,
      e.toNat + (entryStart buf 0).toNat + (entryLength buf 0).toNat) := by
    rw [logical, hbuf]
  rw [addLogical, if_pos htype, List.map_append, wrapped, hlogical]
  congr 1
  simp only [List.map_cons, List.map_nil, PartitionEntry.sectors, UInt32.toNat_toUInt64,
    UInt32.toNat_add, List.cons.injEq, Prod.mk.injEq, and_true]
  omega

theorem addLogical_count (htype : entryType buf 0 ≠ 0) :
    (addLogical buf e table).length = table.length + 1 := by
  rw [addLogical_length, if_pos htype]

theorem ebrStep_link (hbuf : fd e = some buf) (hcheck : checkMbr buf = true)
    (htype : entryType buf 0 ≠ 0) (hlink : entryType buf 1 ≠ 0) (hstart : entryStart buf 1 ≠ 0)
    (hnext : e'.toNat = ext.toNat + (entryStart buf 1).toNat)
    (hcount : table.length + 1 < maxPartitionNum) (old : Buf) :
    ebrStep fd old table e = .next buf (addLogical buf e table) (e + (e' - ext)) := by
  have hdiff : e' - ext = entryStart buf 1 := by
    have hsum : e' = ext + entryStart buf 1 := by
      rw [← UInt32.toNat_inj, UInt32.toNat_add, hnext, Nat.mod_eq_of_lt]
      rw [← hnext]
      exact e'.toNat_lt
    rw [hsum, UInt32.add_comm]
    exact UInt32.add_sub_cancel ..
  have hfull : ¬(entryType buf 0 ≠ 0 ∧ (addLogical buf e table).length = maxPartitionNum) := by
    rintro ⟨-, h⟩
    rw [addLogical_count htype] at h
    omega
  rw [ebrStep, hbuf]
  dsimp only
  rw [if_neg (not_not.mpr hcheck), if_neg hfull, if_pos hlink, if_neg hstart, hdiff]

theorem ebrStep_last (hbuf : fd e = some buf) (hcheck : checkMbr buf = true)
    (hlast : entryType buf 1 = 0) (old : Buf) :
    ebrStep fd old table e = .ret buf (addLogical buf e table) 0 := by
  rw [ebrStep, hbuf]
  dsimp only
  rw [if_neg (not_not.mpr hcheck)]
  split
  · rfl
  · rw [if_neg (not_not.mpr hlast)]

theorem ebrStep_stray (hstray : ∀ buf, fd e = some buf → checkMbr buf = false) (old : Buf) :
    ∃ buf, ebrStep fd old table e = .ret buf table (-1) := by
  rw [ebrStep]
  cases hbuf : fd e with
  | none => exact ⟨_, rfl⟩
  | some buf =>
    dsimp only
    rw [if_pos (by rw [hstray buf hbuf]; decide)]
    exact ⟨_, rfl⟩

theorem parseExtendedBootRecord_chain (hchain : EbrChain fd ext es) (hhead : es.head? = some ext)
    (hstray : NoStray fd es) (hcount : table.length + es.length ≤ maxPartitionNum) (old : Buf) :
    ∃ r, (∀ fuel, parseExtendedBootRecord fd (fuel + 3) old table ext = some r) ∧
      r.2.1.map PartitionEntry.sectors =
        table.map PartitionEntry.sectors ++ (es.take 2).map (wrapped fd) := by
  have hself : ∀ e : UInt32, ext + (e - ext) = e := fun e => by
    rw [UInt32.add_comm]
    exact UInt32.sub_add_cancel ..
  cases es with
  | nil => exact hchain.elim
  | cons e es =>
    obtain rfl : e = ext := Option.some.inj hhead
    cases es with
    | nil =>
      obtain ⟨buf, hbuf, hcheck, htype, hlast⟩ := hchain
      refine ⟨(buf, addLogical buf e table, 0), fun fuel => ?_, addLogical_sectors hbuf htype⟩
      rw [parseExtendedBootRecord, ebrStep_last hbuf hcheck hlast]
    | cons e' es =>
      obtain ⟨⟨buf, hbuf, hcheck, htype, hlink, hstart, hnext⟩, hchain⟩ := hchain
      rw [List.length_cons, List.length_cons] at hcount
      have hfirst := @ebrStep_link fd buf table e e e' hbuf hcheck htype hlink hstart hnext
        (by omega) old
      rw [hself] at hfirst
      have hlength := @addLogical_count buf table e htype
      have hsectors := @addLogical_sectors fd buf table e hbuf htype
      cases es with
      | nil =>
        obtain ⟨buf', hbuf', hcheck', htype', hlast⟩ := hchain
        refine ⟨(buf', addLogical buf' e' (addLogical buf e table), 0), fun fuel => ?_, ?_⟩
        · rw [parseExtendedBootRecord, hfirst]
          dsimp only
          rw [parseExtendedBootRecord, ebrStep_last hbuf' hcheck' hlast]
        · rw [addLogical_sectors hbuf' htype', hsectors, List.append_assoc]
          rfl
      | cons e'' es =>
        obtain ⟨⟨buf', hbuf', hcheck', htype', hlink', hstart', hnext'⟩, -⟩ := hchain
        rw [List.length_cons] at hcount
        have hsecond := @ebrStep_link fd buf' (addLogical buf e table) e e' e'' hbuf' hcheck' htype'
          hlink' hstart' hnext' (by omega) buf
        obtain ⟨buf'', hthird⟩ := @ebrStep_stray fd (addLogical buf' e' (addLogical buf e table))
          (e' + (e'' - e)) (hstray e e' e'' es rfl) buf'
        refine ⟨(buf'', addLogical buf' e' (addLogical buf e table), -1), fun fuel => ?_, ?_⟩
        · rw [parseExtendedBootRecord, hfirst]
          dsimp only
          rw [parseExtendedBootRecord, hsecond]
          dsimp only
          rw [parseExtendedBootRecord, hthird]
        · rw [addLogical_sectors hbuf' htype', hsectors, List.append_assoc]
          rfl

theorem parseExtendedBootRecord_mono {fuel : ℕ} {r : Buf × List PartitionEntry × ℤ}
    (h : parseExtendedBootRecord fd fuel buf table ext = some r) (k : ℕ) :
    parseExtendedBootRecord fd (k + fuel) buf table ext = some r := by
  obtain ⟨buf', table', code⟩ := r
  rw [parseExtendedBootRecord_eq_some] at h ⊢
  rw [Function.iterate_add_apply, h, ebrAdvance_ret]

end Walk

/-- Of the extended boot records, those that the walk reads as they are meant. -/
def reached (es : List UInt32) : List UInt32 :=
  if ∀ e ∈ es.head?, e.toNat < 2 ^ 31 then es.take 2 else []

section Scan

variable {fd : UInt32 → Option Buf} {mbr : Buf} {es : List UInt32}

theorem parsePartitionTable_eq (hd : PartitionedDisk fd mbr es) (hstray : NoStray fd es) :
    ∃ r, (∀ fuel, parsePartitionTable (fuel + 3) fd mbr [] = some r) ∧
      r.2.map PartitionEntry.sectors = primaries mbr ++ (reached es).map (wrapped fd) := by
  have htable := mbrEntry_table mbr (0xffffffff, []) (List.range 4)
  rw [List.map_nil, List.nil_append] at htable
  unfold parsePartitionTable
  dsimp only
  by_cases hext : ∃ i < 4, entryType mbr i = 5
  · obtain ⟨i, hi, htype⟩ := hext
    obtain ⟨hhead, hpos, hchain⟩ := hd.extended i hi htype
    have hfirst := @mbrEntry_extended mbr (0xffffffff, []) (List.range 4) i (List.mem_range.mpr hi) htype
      fun j hj hj5 => hd.unique j (List.mem_range.mp hj) i hi hj5 htype
    generalize (List.range 4).foldl (mbrEntry mbr) (0xffffffff, []) = s at htable hfirst
    rw [hfirst]
    unfold reached
    rw [hhead]
    simp only [Option.mem_def, Option.some.injEq, forall_eq']
    have hcount := hd.count
    have hlength : s.2.length = (primaries mbr).length := by
      rw [← List.length_map, htable]
      rfl
    by_cases hint : (entryStart mbr i).toNat < 2 ^ 31
    · obtain ⟨r, hr, hsectors⟩ := @parseExtendedBootRecord_chain fd s.2 (entryStart mbr i) es hchain hhead
        hstray (by omega) mbr
      refine ⟨(r.1, r.2.1), fun fuel => ?_, ?_⟩
      · rw [if_pos ⟨hpos, hint⟩, hr]
        rfl
      · rw [if_pos hint, hsectors, htable]
        rfl
    · refine ⟨(mbr, s.2), fun fuel => if_neg fun h => hint h.2, ?_⟩
      rw [if_neg hint, List.map_nil, List.append_nil]
      exact htable
  · have hnone : ∀ i < 4, entryType mbr i ≠ 5 := fun i hi htype => hext ⟨i, hi, htype⟩
    have hfirst := @mbrEntry_none mbr (0xffffffff, []) (List.range 4)
      fun i hi => hnone i (List.mem_range.mp hi)
    obtain rfl := hd.unextended hnone
    generalize (List.range 4).foldl (mbrEntry mbr) (0xffffffff, []) = s at htable hfirst
    have hnegative : ¬s.1.toNat < 2 ^ 31 := by
      rw [hfirst]
      decide
    have hreached : reached [] = [] := ite_self _
    refine ⟨(mbr, s.2), fun fuel => if_neg fun h => hnegative h.2, ?_⟩
    rw [hreached, List.map_nil, List.append_nil]
    exact htable

theorem enumerated_iff (hd : PartitionedDisk fd mbr es) (hstray : NoStray fd es) :
    Enumerated fd mbr es ↔ ((reached es).map (wrapped fd)).Perm (es.map (logical fd)) := by
  obtain ⟨r, hr, hsectors⟩ := parsePartitionTable_eq hd hstray
  have hmbr : ∀ fuel, getMbr fuel fd = (parsePartitionTable fuel fd mbr []).map fun r =>
      ⟨r.2, getFirstPartitionOffset r.1 * 512, 0⟩ := by
    intro fuel
    rw [getMbr, hd.first]
    exact if_pos hd.signature
  rw [← List.perm_append_left_iff (primaries mbr), ← hsectors]
  constructor
  · rintro ⟨fuel, r', hr', hperm⟩
    rw [hmbr] at hr'
    obtain ⟨r'', hr'', rfl⟩ := Option.map_eq_some_iff.mp hr'
    have hsame : parsePartitionTable (fuel + 3) fd mbr [] = some r'' := by
      unfold parsePartitionTable at hr'' ⊢
      dsimp only at hr'' ⊢
      split
      · next hint =>
        rw [if_pos hint] at hr''
        obtain ⟨r₀, hr₀, rfl⟩ := Option.map_eq_some_iff.mp hr''
        rw [Nat.add_comm, parseExtendedBootRecord_mono hr₀]
        rfl
      · next hint =>
        rw [if_neg hint] at hr''
        exact hr''
    rw [hr] at hsame
    cases hsame
    exact hperm
  · intro hperm
    refine ⟨3, ⟨r.2, getFirstPartitionOffset r.1 * 512, 0⟩, ?_, hperm⟩
    rw [hmbr, hr 0]
    rfl

structure ShortChain (fd : UInt32 → Option Buf) (es : List UInt32) : Prop where
  length : es.length ≤ 2
  start : ∀ e ∈ es.head?, e.toNat < 2 ^ 31
  sectors : ∀ e ∈ es, (logical fd e).2 < 2 ^ 32

theorem logical_le (fd : UInt32 → Option Buf) (e : UInt32) : (logical fd e).1 ≤ (logical fd e).2 := by
  rw [logical]
  cases fd e with
  | none => exact le_rfl
  | some buf => exact Nat.le_add_right _ _

/-- A disk's partitions are enumerated if there are at most two extended boot records, the first below
`2 ^ 31`, and no logical partition ends with the last sector below `2 ^ 32`; and only then, unless
there is a boot record where the walk looks for the third one. -/
theorem partitions_enumerated (fd : UInt32 → Option Buf) (mbr : Buf) (es : List UInt32)
    (hd : PartitionedDisk fd mbr es) :
    (ShortChain fd es → Enumerated fd mbr es) ∧
      (NoStray fd es → Enumerated fd mbr es → ShortChain fd es) := by
  constructor
  · intro hshort
    have hlength := hshort.length
    have hstray : NoStray fd es := by
      rintro a b c rest rfl
      simp only [List.length_cons] at hlength
      omega
    rw [enumerated_iff hd hstray, reached, if_pos hshort.start, List.take_of_length_le hlength]
    apply List.Perm.of_eq
    apply List.map_congr_left
    intro e he
    have hend := hshort.sectors e he
    have hle := logical_le fd e
    rw [wrapped, Nat.mod_eq_of_lt hend, Nat.mod_eq_of_lt (hle.trans_lt hend)]
  · intro hstray henum
    rw [enumerated_iff hd hstray] at henum
    have hlength := henum.length_eq
    rw [List.length_map, List.length_map] at hlength
    have hwrapped : ∀ e ∈ es, (logical fd e).2 < 2 ^ 32 := by
      intro e he
      have hmem := henum.mem_iff.mpr (List.mem_map_of_mem he)
      obtain ⟨e', -, he'⟩ := List.mem_map.mp hmem
      rw [← he']
      exact Nat.mod_lt _ (by norm_num)
    unfold reached at hlength
    split at hlength
    · next hstart =>
      rw [List.length_take] at hlength
      exact ⟨by omega, hstart, hwrapped⟩
    · obtain rfl := List.eq_nil_of_length_eq_zero hlength.symm
      exact ⟨by decide, fun e he => (by cases he), hwrapped⟩

end Scan

def extendedMbr : Buf :=
  sectorOf [(0x1fe, 0x55), (0x1ff, 0xaa), (0x1c2, 0x83), (0x1c7, 8), (0x1ca, 100), (0x1d2, 5),
    (0x1d7, 16)]

def ebrDisk (second : Buf) (q : UInt32) : Option Buf :=
  if q = 0 then some extendedMbr
  else if q = 4096 then some (linkedRecord 4)
  else if q = 5120 then some second
  else if q = 6144 then some lastRecord
  else some (sectorOf [])

theorem ebrDisk_partitioned {second : Buf} {es : List UInt32} (hhead : es.head? = some 4096)
    (hchain : EbrChain (ebrDisk second) 4096 es) (hcount : es.length ≤ 99)
    (hsectors : ∀ e ∈ es, (logical (ebrDisk second) e).2 ≤ 2 ^ 32) :
    PartitionedDisk (ebrDisk second) extendedMbr es where
  first := rfl
  signature := by decide
  unique := by decide
  unextended h := absurd rfl (h 1 (by decide))
  extended i hi htype := by
    have hentry : ∀ i < 4, entryType extendedMbr i = 5 → entryStart extendedMbr i = 4096 := by decide
    rw [hentry i hi htype]
    exact ⟨hhead, by decide, hchain⟩
  count := by
    have hprimaries : (primaries extendedMbr).length = 1 := by decide
    rw [hprimaries, maxPartitionNum]
    omega
  sectors := hsectors

theorem logical_lt {fd : UInt32 → Option Buf} {e : UInt32} {buf : Buf} (hbuf : fd e = some buf)
    (hstart : entryStart buf 0 = 63) (hlength : entryLength buf 0 = 100) (he : e < 10000) :
    (logical fd e).2 < 2 ^ 32 := by
  have he' : e.toNat < 10000 := UInt32.lt_iff_toNat_lt.mp he
  rw [logical, hbuf]
  dsimp only
  rw [hstart, hlength]
  change e.toNat + 63 + 100 < 4294967296
  omega

theorem ebrDisk_logical_lt {second : Buf} (hstart : entryStart second 0 = 63)
    (hlength : entryLength second 0 = 100) (e : UInt32) (he : e = 4096 ∨ e = 5120 ∨ e = 6144) :
    (logical (ebrDisk second) e).2 < 2 ^ 32 := by
  obtain rfl | rfl | rfl := he
  · exact @logical_lt _ _ (linkedRecord 4) rfl (by decide) (by decide) (by decide)
  · exact @logical_lt _ _ second rfl hstart hlength (by decide)
  · exact @logical_lt _ _ lastRecord rfl (by decide) (by decide) (by decide)

theorem ebrDisk_two_lt : ∀ e ∈ [4096, 5120], (logical (ebrDisk lastRecord) e).2 < 2 ^ 32 := by
  intro e he
  apply ebrDisk_logical_lt (by decide) (by decide)
  simp only [List.mem_cons, List.not_mem_nil, or_false] at he
  exact he.imp_right Or.inl

theorem ebrDisk_three_lt :
    ∀ e ∈ [4096, 5120, 6144], (logical (ebrDisk (linkedRecord 8)) e).2 < 2 ^ 32 := by
  intro e he
  apply ebrDisk_logical_lt (by decide) (by decide)
  simpa only [List.mem_cons, List.not_mem_nil, or_false] using he

theorem ebrDisk_two : PartitionedDisk (ebrDisk lastRecord) extendedMbr [4096, 5120] := by
  refine ebrDisk_partitioned rfl ⟨⟨linkedRecord 4, rfl, ?_⟩, lastRecord, rfl, ?_⟩ (by decide)
    fun e he => (ebrDisk_two_lt e he).le
  · decide
  · decide

theorem ebrDisk_three :
    PartitionedDisk (ebrDisk (linkedRecord 8)) extendedMbr [4096, 5120, 6144] := by
  refine ebrDisk_partitioned rfl
    ⟨⟨linkedRecord 4, rfl, ?_⟩, ⟨linkedRecord 8, rfl, ?_⟩, lastRecord, rfl, ?_⟩ (by decide)
    fun e he => (ebrDisk_three_lt e he).le
  · decide
  · decide
  · decide

theorem partitions_enumerated_two : PartitionedDisk (ebrDisk lastRecord) extendedMbr [4096, 5120] ∧
    Enumerated (ebrDisk lastRecord) extendedMbr [4096, 5120] := by
  refine ⟨ebrDisk_two, (partitions_enumerated _ _ _ ebrDisk_two).1 ?_⟩
  refine ⟨by decide, fun e he => ?_, ebrDisk_two_lt⟩
  obtain rfl : 4096 = e := Option.some.inj he
  decide

/-- The third logical partition is not found. -/
theorem third_logical_lost : ¬∀ (fd : UInt32 → Option Buf) (mbr : Buf) (es : List UInt32),
    PartitionedDisk fd mbr es → Enumerated fd mbr es := by
  intro hall
  have hstray : NoStray (ebrDisk (linkedRecord 8)) [4096, 5120, 6144] := by
    rintro a b c rest heq buf hbuf
    cases heq
    obtain rfl : sectorOf [] = buf := Option.some.inj hbuf
    decide
  have henum := hall _ _ _ ebrDisk_three
  rw [enumerated_iff ebrDisk_three hstray] at henum
  have hlength := henum.length_eq
  rw [List.length_map, List.length_map, reached] at hlength
  split at hlength
  · rw [List.length_take] at hlength
    exact absurd hlength (by decide)
  · exact absurd hlength (by decide)

end SBlktrace
