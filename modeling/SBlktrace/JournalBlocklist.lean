import SBlktrace.SiblingForest
import SBlktrace.BlockTree
import SBlktrace.JournalRuns
import Mathlib

namespace SBlktrace

open Function Forest

structure ExtJournalSuperblock where
  jsHeader : JournalStandardHeader
  jsBlockSize : UInt32
  jsBlocks : UInt32
  jsFirstJournalBlock : UInt32
  jsFirstSequence : UInt32
  jsFirstTransactionBlock : UInt32
  jsError : UInt32

def parseJournalSuperblock (buf : Buf) : Option ExtJournalSuperblock :=
  (parseJournalStandardHeader buf 12).map fun header =>
    { jsHeader := header
      jsBlockSize := readui32be buf 12
      jsBlocks := readui32be buf 16
      jsFirstJournalBlock := readui32be buf 20
      jsFirstSequence := readui32be buf 24
      jsFirstTransactionBlock := readui32be buf 28
      jsError := readui32be buf 32 }

/-- From the entry `journalBlock` on: the entry after the last one, and what is written to which
entry. The loop is `none` when it does not end. -/
def initJournalBlocklist (blist : UInt32 → SBlock) :
    ℕ → ℕ → UInt32 → Option (ℕ × List (UInt32 × ℕ))
  | 0, _, _ => none
  | fuel + 1, journalBlock, blockid =>
    if blockid = 0 then some (journalBlock, [])
    else if (blist blockid).sbLevel ≠ 0 then do
      let (journalBlock, below) ← initJournalBlocklist blist fuel journalBlock (blist blockid).sbBh
      let (journalBlock, after) ← initJournalBlocklist blist fuel journalBlock (blist blockid).sbSib
      some (journalBlock, below ++ after)
    else do
      let (journalBlock', after) ←
        initJournalBlocklist blist fuel (journalBlock + 1) (blist blockid).sbSib
      some (journalBlock', (blockid, journalBlock) :: after)

def sjBlocklist (writes : List (UInt32 × ℕ)) : ℕ → UInt32 :=
  writes.foldl (fun mem w => update mem w.2 w.1) (fun _ => 0)

def getJournal (fuel : ℕ) (extdesc : ExtDesc) (fd : UInt32 → Option Buf) (p : PartitionData) :
    Option (Option (ExtJournalSuperblock × (ℕ → UInt32))) :=
  match (fd (p.ilist extdesc.edJournalInum).siBh).bind parseJournalSuperblock with
  | none => some none
  | some jsb => do
    let (journalBlock, writes) ←
      initJournalBlocklist p.blist fuel 0 (p.ilist extdesc.edJournalInum).siBh
    if journalBlock ≠ jsb.jsBlocks.toNat then some none
    else some (some (jsb, sjBlocklist writes))

/-- `js_blocks` as the `int` it is passed as; nothing is searched where that is negative. -/
def intSize (jsBlocks : UInt32) : ℕ := if jsBlocks.toNat < 2 ^ 31 then jsBlocks.toNat else 0

def journalOf (extdesc : ExtDesc) (jsb : ExtJournalSuperblock) (journalBlocklist : ℕ → UInt32) :
    Journal where
  jsBlockSize := jsb.jsBlockSize.toNat
  jsBlocks := intSize jsb.jsBlocks
  sjbBlockid := journalBlocklist
  extdesc := extdesc

def journalBh (blist : UInt32 → SBlock) (b : UInt32) : UInt32 :=
  if (blist b).sbLevel = 0 then 0 else (blist b).sbBh

def journalSib (blist : UInt32 → SBlock) (b : UInt32) : UInt32 := (blist b).sbSib

def dataBlocks (blist : UInt32 → SBlock) (F : Forest UInt32) : List UInt32 :=
  F.nodes.filter fun b => (blist b).sbLevel = 0

section Walk

variable {blist : UInt32 → SBlock} {F : Forest UInt32} {h : UInt32}

theorem dataBlocks_node (a : UInt32) (kids rest : Forest UInt32) :
    dataBlocks blist (node a kids rest) = (if (blist a).sbLevel = 0 then [a] else []) ++
      (dataBlocks blist kids ++ dataBlocks blist rest) := by
  unfold dataBlocks
  rw [nodes, List.filter_cons, List.filter_append]
  split <;> simp_all

theorem rep_dataBlock {a : UInt32} {kids : Forest UInt32} (ha : (blist a).sbLevel = 0)
    (hkids : Rep (journalBh blist) (journalSib blist) id (journalBh blist a) kids) : kids = nil := by
  rw [journalBh, if_pos ha] at hkids
  cases kids with
  | nil => rfl
  | node b kids' rest' => exact absurd hkids.1.symm hkids.2.1

theorem initJournalBlocklist_sound (hrep : Rep (journalBh blist) (journalSib blist) id h F)
    {fuel q q' : ℕ} {w : List (UInt32 × ℕ)} (hw : initJournalBlocklist blist fuel q h = some (q', w)) :
    q' = q + (dataBlocks blist F).length ∧ w = (dataBlocks blist F).zipIdx q := by
  induction fuel generalizing h F q q' w with
  | zero => cases hw
  | succ fuel ih =>
    cases F with
    | nil =>
      obtain rfl : h = 0 := hrep
      rw [initJournalBlocklist, if_pos rfl] at hw
      cases hw
      exact ⟨rfl, rfl⟩
    | node a kids rest =>
      obtain ⟨rfl, hne, hkids, hrest⟩ := hrep
      simp only [id_eq] at hw hne hkids hrest
      rw [initJournalBlocklist, if_neg hne] at hw
      rw [dataBlocks_node]
      by_cases hlevel : (blist h).sbLevel = 0
      · rw [if_neg (not_not.mpr hlevel)] at hw
        obtain ⟨⟨q₁, after⟩, hafter, hw⟩ := Option.bind_eq_some_iff.mp hw
        cases hw
        obtain ⟨hq, rfl⟩ := ih hrest hafter
        obtain rfl := rep_dataBlock hlevel hkids
        rw [if_pos hlevel]
        refine ⟨?_, rfl⟩
        simp only [dataBlocks, nodes, List.filter_nil, List.nil_append, List.length_append,
          List.length_singleton] at hq ⊢
        omega
      · rw [if_pos hlevel] at hw
        obtain ⟨⟨q₁, below⟩, hbelow, hw⟩ := Option.bind_eq_some_iff.mp hw
        obtain ⟨⟨q₂, after⟩, hafter, hw⟩ := Option.bind_eq_some_iff.mp hw
        cases hw
        have hkids' : Rep (journalBh blist) (journalSib blist) id (blist h).sbBh kids := by
          rwa [journalBh, if_neg hlevel] at hkids
        obtain ⟨rfl, rfl⟩ := ih hkids' hbelow
        obtain ⟨rfl, rfl⟩ := ih hrest hafter
        rw [if_neg hlevel, List.nil_append, List.length_append, List.zipIdx_append]
        exact ⟨by omega, rfl⟩

theorem initJournalBlocklist_ends (hrep : Rep (journalBh blist) (journalSib blist) id h F) :
    ∃ fuel, ∀ n ≥ fuel, ∀ q, ∃ r, initJournalBlocklist blist n q h = some r := by
  induction F generalizing h with
  | nil =>
    obtain rfl : h = 0 := hrep
    refine ⟨1, fun n hn q => ⟨(q, []), ?_⟩⟩
    obtain ⟨n, rfl⟩ : ∃ m, n = m + 1 := ⟨n - 1, by omega⟩
    rw [initJournalBlocklist, if_pos rfl]
  | node a kids rest ihk ihr =>
    obtain ⟨rfl, hne, hkids, hrest⟩ := hrep
    simp only [id_eq] at hne hkids hrest ⊢
    obtain ⟨fuel, hends⟩ := ihk hkids
    obtain ⟨fuel', hends'⟩ := ihr hrest
    refine ⟨fuel + fuel' + 1, fun n hn q => ?_⟩
    obtain ⟨n, rfl⟩ : ∃ m, n = m + 1 := ⟨n - 1, by omega⟩
    rw [initJournalBlocklist, if_neg hne]
    by_cases hlevel : (blist h).sbLevel = 0
    · obtain ⟨r, hr⟩ := hends' n (by omega) (q + 1)
      rw [if_neg (not_not.mpr hlevel)]
      change initJournalBlocklist blist n (q + 1) (blist h).sbSib = some r at hr
      rw [hr]
      exact ⟨_, rfl⟩
    · obtain ⟨r, hr⟩ := hends n (by omega) q
      obtain ⟨r', hr'⟩ := hends' n (by omega) r.1
      rw [journalBh, if_neg hlevel] at hr
      change initJournalBlocklist blist n r.1 (blist h).sbSib = some r' at hr'
      rw [if_pos hlevel, hr]
      refine ⟨(r'.1, r.2 ++ r'.2), ?_⟩
      change (initJournalBlocklist blist n r.1 (blist h).sbSib).bind _ = _
      rw [hr']
      rfl

theorem foldl_zipIdx (ids : List UInt32) (q : ℕ) (mem : ℕ → UInt32) (k : ℕ) :
    (ids.zipIdx q).foldl (fun mem w => update mem w.2 w.1) mem k =
      if k < q then mem k else ids[k - q]?.getD (mem k) := by
  induction ids generalizing q mem with
  | nil => simp
  | cons a ids ih =>
    rw [List.zipIdx_cons, List.foldl_cons, ih (q + 1)]
    rcases lt_trichotomy k q with hlt | rfl | hgt
    · rw [if_pos (by omega), if_pos hlt, update_of_ne (by omega)]
    · simp
    · have hsub : k - q = k - (q + 1) + 1 := by omega
      rw [if_neg (by omega), if_neg (by omega), update_of_ne (by omega), hsub, List.getElem?_cons_succ]

theorem sjBlocklist_zipIdx {ids : List UInt32} {k : ℕ} (hk : k < ids.length) :
    sjBlocklist (ids.zipIdx 0) k = ids[k] := by
  have h := foldl_zipIdx ids 0 (fun _ => 0) k
  rw [if_neg (Nat.not_lt_zero k), Nat.sub_zero, List.getElem?_eq_getElem hk] at h
  exact h

end Walk

section Search

variable {journalBlocklist : ℕ → UInt32}

theorem searchFrom_ge {blockid : UInt32} {ll ul : ℤ} {k : ℕ} (hll : 0 ≤ ll)
    (h : searchFrom blockid journalBlocklist ll ul = some k) : ll ≤ k := by
  fun_induction searchFrom blockid journalBlocklist ll ul with
  | case1 ll ul hle mid hlt ih => exact ih hll h
  | case2 ll ul hle mid hnlt hgt ih =>
    have hk := ih (by omega) h
    omega
  | case3 ll ul hle mid hnlt hngt =>
    obtain rfl := Option.some.inj h
    omega
  | case4 ll ul hgt => cases h

theorem searchFrom_side {ll ul : ℤ} {k : ℕ} (hll : 0 ≤ ll) (hle : ll ≤ ul)
    (h : searchFrom (journalBlocklist k) journalBlocklist ll ul = some k) :
    ((k : ℤ) < ll + (ul - ll) / 2 →
      journalBlocklist k < journalBlocklist (ll + (ul - ll) / 2).toNat ∧
        searchFrom (journalBlocklist k) journalBlocklist ll (ll + (ul - ll) / 2 - 1) = some k) ∧
    (ll + (ul - ll) / 2 < (k : ℤ) →
      journalBlocklist (ll + (ul - ll) / 2).toNat < journalBlocklist k ∧
        searchFrom (journalBlocklist k) journalBlocklist (ll + (ul - ll) / 2 + 1) ul = some k) := by
  rw [searchFrom, if_pos hle] at h
  dsimp only at h
  constructor
  · intro hk
    split at h
    · next hlt => exact ⟨hlt, h⟩
    · split at h
      · have := searchFrom_ge (by omega) h
        omega
      · have := Option.some.inj h
        omega
  · intro hk
    split at h
    · have := (searchFrom_sound hll h).2
      omega
    · split at h
      · next hgt => exact ⟨hgt, h⟩
      · have := Option.some.inj h
        omega

theorem ascending_of_found {ll ul : ℤ} (hll : 0 ≤ ll)
    (hfound : ∀ k : ℕ, ll ≤ k → (k : ℤ) ≤ ul →
      searchFrom (journalBlocklist k) journalBlocklist ll ul = some k) (i j : ℕ) (hi : ll ≤ i)
    (hij : i < j) (hj : (j : ℤ) ≤ ul) : journalBlocklist i < journalBlocklist j := by
  induction hn : (ul + 1 - ll).toNat using Nat.strong_induction_on generalizing ll ul with
  | _ n ih =>
    have hside := fun k hk hk' => searchFrom_side hll (by omega) (hfound k hk hk')
    generalize hmid : ll + (ul - ll) / 2 = mid at hside
    have hleft : ∀ k : ℕ, ll ≤ k → (k : ℤ) ≤ mid - 1 →
        searchFrom (journalBlocklist k) journalBlocklist ll (mid - 1) = some k :=
      fun k hk hk' => ((hside k hk (by omega)).1 (by omega)).2
    have hright : ∀ k : ℕ, mid + 1 ≤ k → (k : ℤ) ≤ ul →
        searchFrom (journalBlocklist k) journalBlocklist (mid + 1) ul = some k :=
      fun k hk hk' => ((hside k (by omega) hk').2 (by omega)).2
    by_cases hjmid : (j : ℤ) < mid
    · exact ih _ (by omega) hll hleft hi (by omega) rfl
    by_cases himid : mid < (i : ℤ)
    · exact ih _ (by omega) (by omega) hright (by omega) hj rfl
    -- The middle entry is between the two, or one of them.
    obtain hi' | hi' := (not_lt.mp himid).eq_or_lt
    · have hj' := ((hside j (by omega) hj).2 (by omega)).1
      rwa [← hi', Int.toNat_natCast] at hj'
    · have hlt := ((hside i hi (by omega)).1 hi').1
      obtain hj' | hj' := (not_lt.mp hjmid).eq_or_lt
      · rwa [hj', Int.toNat_natCast] at hlt
      · exact UInt32.lt_trans hlt ((hside j (by omega) hj).2 hj').1

end Search

/-- The search finds each entry for its own block id, and nothing for others. -/
def Journal.LookupExact (jn : Journal) (size : ℕ) : Prop :=
  (∀ k < size, jn.lookup (jn.sjbBlockid k) = some k) ∧
    ∀ blockid, (∀ k < size, jn.sjbBlockid k ≠ blockid) → jn.lookup blockid = none

namespace Journal

variable {jn : Journal}

theorem lookupExact_iff_ascending : jn.LookupExact jn.jsBlocks ↔
    ∀ i j, i < j → j < jn.jsBlocks → jn.sjbBlockid i < jn.sjbBlockid j := by
  constructor
  · rintro ⟨hfound, -⟩ i j hij hj
    have hsearch : ∀ k : ℕ, (0 : ℤ) ≤ k → (k : ℤ) ≤ jn.jsBlocks - 1 →
        searchFrom (jn.sjbBlockid k) jn.sjbBlockid 0 (jn.jsBlocks - 1) = some k := by
      intro k _ hk
      have h := hfound k (by omega)
      unfold lookup getJournalblockFromDatablock at h
      split at h
      · cases h
      · exact h
    exact ascending_of_found le_rfl hsearch i j (by omega) hij (by omega)
  · intro hasc
    refine ⟨fun k hk => ?_, fun blockid hother => ?_⟩
    · have h := heard_of_ascending hasc hk
      rwa [heard, decide_eq_true_eq] at h
    · cases hl : jn.lookup blockid with
      | none => rfl
      | some q =>
        obtain ⟨hid, hq⟩ := lookup_sound hl
        exact absurd hid (hother q hq)

end Journal

section GetJournal

variable {fuel : ℕ} {extdesc : ExtDesc} {fd : UInt32 → Option Buf} {p : PartitionData}
  {F : Forest UInt32} {jsb : ExtJournalSuperblock} {journalBlocklist : ℕ → UInt32}

def JournalTree (p : PartitionData) (extdesc : ExtDesc) (F : Forest UInt32) : Prop :=
  Rep (journalBh p.blist) (journalSib p.blist) id (p.ilist extdesc.edJournalInum).siBh F

theorem getJournal_some (htree : JournalTree p extdesc F)
    (h : getJournal fuel extdesc fd p = some (some (jsb, journalBlocklist))) :
    jsb.jsBlocks.toNat = (dataBlocks p.blist F).length ∧
      journalBlocklist = sjBlocklist ((dataBlocks p.blist F).zipIdx 0) := by
  unfold getJournal at h
  split at h
  · cases h
  · obtain ⟨⟨q, w⟩, hw, h⟩ := Option.bind_eq_some_iff.mp h
    obtain ⟨rfl, rfl⟩ := initJournalBlocklist_sound htree hw
    dsimp only at h
    split at h
    · cases h
    · next heq =>
      cases h
      rw [not_not, Nat.zero_add] at heq
      exact ⟨heq.symm, rfl⟩

/-- The lookup in an accepted journal is exact exactly if its data blocks ascend in the order of the
file, and an `int` counts them. -/
theorem journalLookup_exact_iff (fuel : ℕ) (extdesc : ExtDesc) (fd : UInt32 → Option Buf)
    (p : PartitionData) (F : Forest UInt32) (jsb : ExtJournalSuperblock)
    (journalBlocklist : ℕ → UInt32) (htree : JournalTree p extdesc F)
    (hget : getJournal fuel extdesc fd p = some (some (jsb, journalBlocklist))) :
    (journalOf extdesc jsb journalBlocklist).LookupExact jsb.jsBlocks.toNat ↔
      (dataBlocks p.blist F).length < 2 ^ 31 ∧ (dataBlocks p.blist F).Pairwise (· < ·) := by
  obtain ⟨hsize, rfl⟩ := getJournal_some htree hget
  rw [List.pairwise_iff_getElem]
  generalize dataBlocks p.blist F = ids at hsize
  by_cases hint : jsb.jsBlocks.toNat < 2 ^ 31
  · have hblocks : (journalOf extdesc jsb (sjBlocklist (ids.zipIdx 0))).jsBlocks =
        jsb.jsBlocks.toNat := if_pos hint
    have hiff := @Journal.lookupExact_iff_ascending
      (journalOf extdesc jsb (sjBlocklist (ids.zipIdx 0)))
    rw [hblocks] at hiff
    rw [hiff]
    constructor
    · intro hasc
      refine ⟨hsize ▸ hint, fun i j hi hj hij => ?_⟩
      have h := hasc i j hij (hsize.symm ▸ hj)
      change sjBlocklist _ i < sjBlocklist _ j at h
      rwa [sjBlocklist_zipIdx hi, sjBlocklist_zipIdx hj] at h
    · rintro ⟨-, hasc⟩ i j hij hj
      rw [hsize] at hj
      change sjBlocklist _ i < sjBlocklist _ j
      rw [sjBlocklist_zipIdx (hij.trans hj), sjBlocklist_zipIdx hj]
      exact hasc i j (hij.trans hj) hj hij
  · -- The size is negative, and the first entry is not found.
    constructor
    · rintro ⟨hfound, -⟩
      have hq := (Journal.lookup_sound (hfound 0 (by omega))).2
      have hnone : (journalOf extdesc jsb (sjBlocklist (ids.zipIdx 0))).jsBlocks = 0 := if_neg hint
      omega
    · rintro ⟨h, -⟩
      exact absurd (hsize ▸ h) hint

end GetJournal

def journalSuperblock (size : UInt8) : Buf := fun i =>
  [0xc0, 0x3b, 0x39, 0x98, 0, 0, 0, 4, 0, 0, 0, 0, 0, 0, 4, 0, 0, 0, 0, size].getD i 0

def threeBlocks (second third : UInt32) : PartitionData where
  blist b := ⟨0, 0, if b = 10 then second else if b = second then third else 0, 0, 3⟩
  ilist _ := ⟨0, 0, 0, 0, 0, 10⟩
  dataCache _ := none
  globalVersion := 0
  tmpfs _ := none
  queue := []

def smallDisk : ExtDesc := initExtDesc ⟨8192, 1, 0, 8192, 64, 128, 3⟩ ⟨3⟩ .ext3

def threeForest (second third : UInt32) : Forest UInt32 :=
  node 10 nil (node second nil (node third nil nil))

theorem threeBlocks_tree {second third : UInt32} (h₁ : second ≠ 0 ∧ second ≠ 10)
    (h₂ : third ≠ 0 ∧ third ≠ 10 ∧ third ≠ second) :
    JournalTree (threeBlocks second third) smallDisk (threeForest second third) := by
  have hbh : ∀ b, journalBh (threeBlocks second third).blist b = 0 := fun b => if_pos rfl
  have hsib : ∀ b, journalSib (threeBlocks second third).blist b =
    if b = 10 then second else if b = second then third else 0 := fun b => rfl
  refine ⟨rfl, by decide, hbh _, ?_⟩
  refine ⟨hsib _, h₁.1, hbh _, ?_⟩
  refine ⟨?_, h₂.1, hbh _, ?_⟩
  · rw [hsib, id, if_neg h₁.2, if_pos rfl]
    rfl
  · change journalSib _ _ = 0
    rw [hsib, id, if_neg h₂.2.1, if_neg h₂.2.2]

theorem getJournal_three : ∃ jsb, jsb.jsBlocks = 3 ∧
    getJournal 4 smallDisk (fun _ => some (journalSuperblock 3)) (threeBlocks 11 12) =
      some (some (jsb, sjBlocklist [(10, 0), (11, 1), (12, 2)])) ∧
    getJournal 4 smallDisk (fun _ => some (journalSuperblock 3)) (threeBlocks 12 11) =
      some (some (jsb, sjBlocklist [(10, 0), (12, 1), (11, 2)])) := by
  refine ⟨⟨⟨journalSignature, 4, 0⟩, 1024, 3, 0, 0, 0, 0⟩, rfl, ?_, ?_⟩
  · rfl
  · rfl

theorem journalLookup_exact_three : ∃ jsb : ExtJournalSuperblock, jsb.jsBlocks = 3 ∧
    JournalTree (threeBlocks 11 12) smallDisk (threeForest 11 12) ∧
    getJournal 4 smallDisk (fun _ => some (journalSuperblock 3)) (threeBlocks 11 12) =
      some (some (jsb, sjBlocklist [(10, 0), (11, 1), (12, 2)])) ∧
    (journalOf smallDisk jsb (sjBlocklist [(10, 0), (11, 1), (12, 2)])).LookupExact 3 := by
  obtain ⟨jsb, hsize, hget, -⟩ := getJournal_three
  have htree : JournalTree (threeBlocks 11 12) smallDisk (threeForest 11 12) :=
    threeBlocks_tree (by decide) (by decide)
  have hids : dataBlocks (threeBlocks 11 12).blist (threeForest 11 12) = [10, 11, 12] := rfl
  have hexact := (journalLookup_exact_iff _ _ _ _ _ _ _ htree hget).mpr
  rw [hids, hsize] at hexact
  exact ⟨jsb, hsize, htree, hget, hexact (by decide)⟩

/-- In a fragmented journal, the block 12 is not found. -/
theorem fragmented_journal_missed :
    ¬∀ (fuel : ℕ) (extdesc : ExtDesc) (fd : UInt32 → Option Buf) (p : PartitionData)
      (F : Forest UInt32) (jsb : ExtJournalSuperblock) (journalBlocklist : ℕ → UInt32),
      JournalTree p extdesc F → (dataBlocks p.blist F).Nodup →
      getJournal fuel extdesc fd p = some (some (jsb, journalBlocklist)) →
      (journalOf extdesc jsb journalBlocklist).LookupExact jsb.jsBlocks.toNat := by
  intro hall
  obtain ⟨jsb, hsize, -, hget⟩ := getJournal_three
  have htree : JournalTree (threeBlocks 12 11) smallDisk (threeForest 12 11) :=
    threeBlocks_tree (by decide) (by decide)
  have hids : dataBlocks (threeBlocks 12 11).blist (threeForest 12 11) = [10, 12, 11] := rfl
  have hexact := hall _ _ _ _ _ _ _ htree (hids ▸ by decide) hget
  have hblocks : (journalOf smallDisk jsb (sjBlocklist [(10, 0), (12, 1), (11, 2)])).jsBlocks =
      jsb.jsBlocks.toNat := by
    change intSize jsb.jsBlocks = _
    rw [hsize]
    rfl
  rw [← hblocks, Journal.lookupExact_iff_ascending, hblocks, hsize] at hexact
  have hlt : sjBlocklist [(10, 0), (12, 1), (11, 2)] 1 < sjBlocklist [(10, 0), (12, 1), (11, 2)] 2 :=
    hexact 1 2 (by decide) (by decide)
  exact absurd hlt (by decide)

end SBlktrace
