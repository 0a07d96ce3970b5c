import SBlktrace.BttIostat
import SBlktrace.IoMonitor
import SBlktrace.RangeTree
import Mathlib

namespace SBlktrace

open Function

structure IoTimes where
  allocationTime : UInt64
  queueTime : UInt64
  dispatchTime : UInt64

/-- `struct io_track`, which the number of its allocation stands for; `ppm` is that of the process.
The completion time is read nowhere but where it is set. -/
structure IoTrack where
  address : ℕ
  pid : UInt32
  sector : UInt64
  times : IoTimes

/-- What `rb_insert_color` and `rb_erase` make of a tree: the order of its nodes is that of before,
without the one that is erased. -/
structure RbOps where
  insertColor : RangeTree IoTrack → RangeTree IoTrack
  erase : ℕ → RangeTree IoTrack → RangeTree IoTrack
  insertColor_toList : ∀ t, (insertColor t).toList = t.toList
  erase_toList : ∀ address t, (erase address t).toList = t.toList.filter (·.address ≠ address)

namespace BlkIoTraceRecord

inductive TrackAction where
  | queue
  | insert
  | frontmerge
  | getrq
  | issue
  | complete
deriving DecidableEq

def trackActionFs (t : BlkIoTraceRecord) : Option TrackAction :=
  let act := t.action &&& 0xffff
  if act = blkTaQueue then some .queue
  else if act = blkTaInsert then some .insert
  else if act = blkTaFrontmerge then some .frontmerge
  else if act = blkTaGetrq then some .getrq
  else if act = blkTaIssue then some .issue
  else if act = blkTaComplete then some .complete
  else none

def trackAction (t : BlkIoTraceRecord) : Option TrackAction :=
  if t.action = blkTnMessage then none
  else if t.has blkTcPc then none
  else t.trackActionFs

end BlkIoTraceRecord

structure IoTracking where
  rbTrack : RangeTree IoTrack
  allocated : ℕ

def newIoTracking : IoTracking := ⟨.nil, 0⟩

def isRemapper (dev : UInt32) : Bool := dev >>> 20 = 253 || dev >>> 20 = 9

namespace IoTracking

def sectorOf (iot : IoTrack) : ℕ := iot.sector.toNat

def behind (iot : IoTrack) : ℕ := iot.sector.toNat + 1

section

variable (rb : RbOps) (malloc : ℕ → IoTimes) (dev : UInt32) (st : IoTracking)

def trackRbInsert (iot : IoTrack) : IoTracking × ℕ :=
  match st.rbTrack.insert sectorOf iot with
  | none => (st, 1)
  | some tree => ({ st with rbTrack := rb.insertColor tree }, 0)

def lookupTrack (sector : UInt64) : Option IoTrack :=
  st.rbTrack.find sectorOf behind sector.toNat

def findTrack (pid : UInt32) (sector : UInt64) : IoTracking × IoTrack :=
  match st.lookupTrack sector with
  | some iot => (st, iot)
  | none =>
    let iot : IoTrack := ⟨st.allocated, pid, sector, malloc st.allocated⟩
    (({ st with allocated := st.allocated + 1 } : IoTracking).trackRbInsert rb iot |>.1, iot)

def store (address : ℕ) (f : IoTimes → IoTimes) : IoTracking :=
  { st with
    rbTrack := st.rbTrack.map fun iot =>
      if iot.address = address then { iot with times := f iot.times } else iot }

def rbErase (address : ℕ) : IoTracking := { st with rbTrack := rb.erase address st.rbTrack }

def logTrackFrontmerge (t : BlkIoTraceRecord) : IoTracking :=
  match st.lookupTrack (t.sector + t.tSec.toUInt64) with
  | none => st
  | some iot =>
    ((st.rbErase rb iot.address).trackRbInsert rb
      { iot with sector := iot.sector - t.tSec.toUInt64 }).1

def logTrackGetrq (t : BlkIoTraceRecord) : IoTracking :=
  let (st, iot) := st.findTrack rb malloc t.pid t.sector
  st.store iot.address fun times => { times with allocationTime := t.time }

def logTrackQueue (t : BlkIoTraceRecord) : IoTracking :=
  if isRemapper dev then
    let (st, iot) := st.findTrack rb malloc t.pid t.sector
    st.store iot.address fun times => { times with dispatchTime := t.time }
  else st

def logTrackInsert (t : BlkIoTraceRecord) : IoTracking × UInt64 :=
  let (st, iot) := st.findTrack rb malloc t.pid t.sector
  let st := st.store iot.address fun times => { times with queueTime := t.time }
  if iot.times.allocationTime = 0 then (st, -1) else (st, t.time - iot.times.allocationTime)

def logTrackIssue (t : BlkIoTraceRecord) : IoTracking × UInt64 :=
  if t.has blkTcFs then
    match st.lookupTrack t.sector with
    | none => (st, -1)
    | some iot =>
      (st.store iot.address fun times => { times with dispatchTime := t.time },
        t.time - iot.times.queueTime)
  else (st, -1)

def logTrackComplete (t : BlkIoTraceRecord) : IoTracking × UInt64 :=
  match st.lookupTrack t.sector with
  | none => (st, -1)
  | some iot => (st.rbErase rb iot.address, t.time - iot.times.dispatchTime)

def dumpTrace (t : BlkIoTraceRecord) : IoTracking × UInt64 :=
  match t.trackAction with
  | none => (st, -1)
  | some .queue => (st.logTrackQueue rb malloc dev t, -1)
  | some .insert => st.logTrackInsert rb malloc t
  | some .frontmerge => (st.logTrackFrontmerge rb t, -1)
  | some .getrq => (st.logTrackGetrq rb malloc t, -1)
  | some .issue => st.logTrackIssue t
  | some .complete => st.logTrackComplete rb t

end

abbrev Seen := ℕ → Option UInt64

def note (rb : RbOps) (malloc : ℕ → IoTimes) (st : IoTracking) (seen : Seen)
    (t : BlkIoTraceRecord) : Seen :=
  if t.trackAction = some .getrq then
    update seen (st.findTrack rb malloc t.pid t.sector).2.address (some t.time)
  else seen

def watch (rb : RbOps) (malloc : ℕ → IoTimes) (dev : UInt32) (ts : List BlkIoTraceRecord) :
    IoTracking × Seen :=
  ts.foldl (fun s t => ((s.1.dumpTrace rb malloc dev t).1, s.1.note rb malloc s.2 t))
    (newIoTracking, fun _ => none)

def Searchable (st : IoTracking) : Prop := RangeTree.Ordered sectorOf behind st.rbTrack.toList

variable {rb : RbOps} {malloc : ℕ → IoTimes} {dev : UInt32} {st : IoTracking} {iot : IoTrack}
  {sector : UInt64}

theorem searchable_iff :
    Searchable st ↔ (st.rbTrack.toList.map IoTrack.sector).Pairwise (· < ·) := by
  rw [List.pairwise_map]
  apply List.Pairwise.iff
  intro x y
  unfold sectorOf behind
  rw [UInt64.lt_iff_toNat_lt]
  omega

theorem Searchable.eq_of_sector (h : Searchable st) {iot' : IoTrack} (hiot : iot ∈ st.rbTrack.toList)
    (hiot' : iot' ∈ st.rbTrack.toList) (heq : iot.sector = iot'.sector) : iot = iot' :=
  h.eq_of_start hiot hiot' (congrArg UInt64.toNat heq)

theorem lookupTrack_eq_some (h : Searchable st) :
    st.lookupTrack sector = some iot ↔ iot ∈ st.rbTrack.toList ∧ iot.sector = sector := by
  unfold lookupTrack
  constructor
  · intro hfind
    obtain ⟨hle, hlt⟩ := RangeTree.find_contains hfind
    refine ⟨RangeTree.find_mem hfind, UInt64.toNat_inj.mp ?_⟩
    unfold sectorOf at hle
    unfold behind at hlt
    omega
  · rintro ⟨hmem, rfl⟩
    apply RangeTree.find_of_mem h hmem
    · exact le_refl _
    · exact Nat.lt_succ_self _
    · intro y hy hne
      have hsector : y.sector.toNat ≠ iot.sector.toNat := by
        intro heq
        exact hne (h.eq_of_sector hy hmem (UInt64.toNat_inj.mp heq))
      unfold sectorOf behind
      omega

theorem lookupTrack_eq_none (h : Searchable st) :
    st.lookupTrack sector = none ↔ ∀ iot ∈ st.rbTrack.toList, iot.sector ≠ sector := by
  constructor
  · rintro hnone iot hiot hsector
    rw [(lookupTrack_eq_some h).mpr ⟨hiot, hsector⟩] at hnone
    cases hnone
  · intro hne
    cases hfind : st.lookupTrack sector with
    | none => rfl
    | some iot =>
      obtain ⟨hiot, hsector⟩ := (lookupTrack_eq_some h).mp hfind
      exact absurd hsector (hne iot hiot)

theorem trackRbInsert_new (h : Searchable st)
    (hnew : ∀ y ∈ st.rbTrack.toList, y.sector ≠ iot.sector) :
    (st.trackRbInsert rb iot).1.rbTrack.toList.Perm (iot :: st.rbTrack.toList) ∧
      Searchable (st.trackRbInsert rb iot).1 := by
  have hnested : ∀ y ∈ st.rbTrack.toList, ¬ RangeTree.Nested sectorOf behind iot y := by
    intro y hy hn
    have hne : y.sector.toNat ≠ iot.sector.toNat := fun heq => hnew y hy (UInt64.toNat_inj.mp heq)
    unfold RangeTree.Nested sectorOf behind at hn
    omega
  obtain ⟨tree, hinsert, hperm, hordered⟩ := RangeTree.insert_ordered h hnested
  have hres : st.trackRbInsert rb iot = ({ st with rbTrack := rb.insertColor tree }, 0) := by
    rw [trackRbInsert, hinsert]
  rw [hres, Searchable, rb.insertColor_toList]
  exact ⟨hperm, hordered⟩

theorem trackRbInsert_alias (h : Searchable st) {y : IoTrack} (hy : y ∈ st.rbTrack.toList)
    (hsector : y.sector = iot.sector) : st.trackRbInsert rb iot = (st, 1) := by
  rw [trackRbInsert, RangeTree.insert_of_mem h hy (congrArg UInt64.toNat hsector.symm)]

theorem rbErase_searchable (h : Searchable st) (address : ℕ) :
    Searchable (st.rbErase rb address) := by
  have hlist : (st.rbErase rb address).rbTrack.toList =
      st.rbTrack.toList.filter (·.address ≠ address) := rb.erase_toList address st.rbTrack
  rw [Searchable, hlist]
  exact List.Pairwise.filter _ h

theorem mem_rbErase {address : ℕ} :
    iot ∈ (st.rbErase rb address).rbTrack.toList ↔
      iot ∈ st.rbTrack.toList ∧ iot.address ≠ address := by
  have hlist : (st.rbErase rb address).rbTrack.toList =
      st.rbTrack.toList.filter (·.address ≠ address) := rb.erase_toList address st.rbTrack
  rw [hlist, List.mem_filter]
  simp

theorem mem_store {address : ℕ} {f : IoTimes → IoTimes} :
    iot ∈ (st.store address f).rbTrack.toList ↔
      ∃ old ∈ st.rbTrack.toList,
        (if old.address = address then { old with times := f old.times } else old) = iot := by
  rw [store, RangeTree.toList_map, List.mem_map]

theorem store_map {α : Type} {g : IoTrack → α}
    (hg : ∀ iot times, g { iot with times := times } = g iot) (st : IoTracking) (address : ℕ)
    (f : IoTimes → IoTimes) :
    (st.store address f).rbTrack.toList.map g = st.rbTrack.toList.map g := by
  rw [store, RangeTree.toList_map, List.map_map]
  apply List.map_congr_left
  intro iot _
  change g (if _ then _ else _) = g iot
  split
  · apply hg
  · rfl

structure Inv (st : IoTracking) (seen : Seen) : Prop where
  searchable : Searchable st
  nodup : (st.rbTrack.toList.map IoTrack.address).Nodup
  allocated : ∀ iot ∈ st.rbTrack.toList, iot.address < st.allocated
  seen_lt : ∀ address g, seen address = some g → address < st.allocated
  time : ∀ iot ∈ st.rbTrack.toList, ∀ g, seen iot.address = some g → iot.times.allocationTime = g

variable {seen : Seen} {t : BlkIoTraceRecord} {pid : UInt32}

theorem newIoTracking_inv : Inv newIoTracking fun _ => none where
  searchable := List.Pairwise.nil
  nodup := List.nodup_nil
  allocated iot hiot := absurd hiot List.not_mem_nil
  seen_lt _ _ h := by cases h
  time iot hiot := absurd hiot List.not_mem_nil

def Retains (st st' : IoTracking) : Prop :=
  ∀ iot ∈ st.rbTrack.toList, ∃ iot' ∈ st'.rbTrack.toList,
    iot'.address = iot.address ∧ iot'.sector = iot.sector

theorem Retains.refl (st : IoTracking) : Retains st st := fun iot hiot => ⟨iot, hiot, rfl, rfl⟩

theorem Retains.trans {st' st'' : IoTracking} (h : Retains st st') (h' : Retains st' st'') :
    Retains st st'' := by
  intro iot hiot
  obtain ⟨iot', hiot', haddress, hsector⟩ := h iot hiot
  obtain ⟨iot'', hiot'', haddress', hsector'⟩ := h' iot' hiot'
  exact ⟨iot'', hiot'', haddress'.trans haddress, hsector'.trans hsector⟩

theorem store_retains (st : IoTracking) (address : ℕ) (f : IoTimes → IoTimes) :
    Retains st (st.store address f) := by
  intro iot hiot
  refine ⟨_, mem_store.mpr ⟨iot, hiot, rfl⟩, ?_, ?_⟩
  · split <;> rfl
  · split <;> rfl

theorem store_searchable (h : Searchable st) (address : ℕ) (f : IoTimes → IoTimes) :
    Searchable (st.store address f) := by
  rw [searchable_iff] at h ⊢
  rwa [store_map fun _ _ => rfl]

theorem Inv.store (h : Inv st seen) (address : ℕ) {f : IoTimes → IoTimes} {seen' : Seen}
    (hlt : ∀ a g, seen' a = some g → a < st.allocated)
    (htime : ∀ iot ∈ st.rbTrack.toList, ∀ g, seen' iot.address = some g →
      (if iot.address = address then (f iot.times).allocationTime
        else iot.times.allocationTime) = g) :
    Inv (st.store address f) seen' where
  searchable := store_searchable h.searchable address f
  nodup := by
    rw [store_map fun _ _ => rfl]
    exact h.nodup
  allocated iot hiot := by
    obtain ⟨old, hold, rfl⟩ := mem_store.mp hiot
    have hlt := h.allocated old hold
    split <;> exact hlt
  seen_lt := hlt
  time iot hiot g hg := by
    obtain ⟨old, hold, rfl⟩ := mem_store.mp hiot
    have hold' := htime old hold g
    by_cases haddress : old.address = address
    · rw [if_pos haddress] at hg hold' ⊢
      exact hold' hg
    · rw [if_neg haddress] at hg hold' ⊢
      exact hold' hg

theorem Inv.store_same (h : Inv st seen) (address : ℕ) {f : IoTimes → IoTimes}
    (hf : ∀ times, (f times).allocationTime = times.allocationTime) :
    Inv (st.store address f) seen := by
  apply h.store address h.seen_lt
  intro iot hiot g hg
  rw [hf, ite_self]
  exact h.time iot hiot g hg

theorem Inv.rbErase (h : Inv st seen) (rb : RbOps) (address : ℕ) : Inv (st.rbErase rb address) seen where
  searchable := rbErase_searchable h.searchable address
  nodup := by
    have hlist : (st.rbErase rb address).rbTrack.toList =
        st.rbTrack.toList.filter (·.address ≠ address) := rb.erase_toList address st.rbTrack
    rw [hlist]
    exact h.nodup.sublist (List.filter_sublist.map _)
  allocated iot hiot := h.allocated iot (mem_rbErase.mp hiot).1
  seen_lt := h.seen_lt
  time iot hiot := h.time iot (mem_rbErase.mp hiot).1

theorem Inv.trackRbInsert (h : Inv st seen)
    (hnew : ∀ y ∈ st.rbTrack.toList, y.sector ≠ iot.sector ∧ y.address ≠ iot.address)
    (hlt : iot.address < st.allocated)
    (htime : ∀ g, seen iot.address = some g → iot.times.allocationTime = g) :
    Inv (st.trackRbInsert rb iot).1 seen ∧
      (st.trackRbInsert rb iot).1.rbTrack.toList.Perm (iot :: st.rbTrack.toList) := by
  obtain ⟨hperm, hsearchable⟩ := @trackRbInsert_new rb st iot h.searchable fun y hy => (hnew y hy).1
  have hallocated : (st.trackRbInsert rb iot).1.allocated = st.allocated := by
    unfold IoTracking.trackRbInsert
    split <;> rfl
  refine ⟨⟨hsearchable, ?_, ?_, ?_, ?_⟩, hperm⟩
  · rw [(hperm.map _).nodup_iff, List.map_cons, List.nodup_cons]
    refine ⟨?_, h.nodup⟩
    intro hmem
    obtain ⟨y, hy, heq⟩ := List.mem_map.mp hmem
    exact (hnew y hy).2 heq
  · intro y hy
    rw [hallocated]
    obtain rfl | hy := List.mem_cons.mp (hperm.mem_iff.mp hy)
    · exact hlt
    · exact h.allocated y hy
  · rw [hallocated]
    exact h.seen_lt
  · intro y hy
    obtain rfl | hy := List.mem_cons.mp (hperm.mem_iff.mp hy)
    · exact htime
    · exact h.time y hy

theorem findTrack_spec (h : Inv st seen) (malloc : ℕ → IoTimes) (pid : UInt32) (sector : UInt64) :
    Inv (st.findTrack rb malloc pid sector).1 seen ∧
      Retains st (st.findTrack rb malloc pid sector).1 ∧
      (st.findTrack rb malloc pid sector).2 ∈
        (st.findTrack rb malloc pid sector).1.rbTrack.toList := by
  unfold findTrack
  cases hfind : st.lookupTrack sector with
  | some iot => exact ⟨h, Retains.refl st, ((lookupTrack_eq_some h.searchable).mp hfind).1⟩
  | none =>
    have hnone := (lookupTrack_eq_none h.searchable).mp hfind
    have hnew : Inv { st with allocated := st.allocated + 1 } seen :=
      ⟨h.searchable, h.nodup, fun iot hiot => Nat.lt_succ_of_lt (h.allocated iot hiot),
        fun a g hg => Nat.lt_succ_of_lt (h.seen_lt a g hg), h.time⟩
    obtain ⟨hinv, hperm⟩ := @Inv.trackRbInsert rb { st with allocated := st.allocated + 1 }
      ⟨st.allocated, pid, sector, malloc st.allocated⟩ seen hnew
      (fun y hy => ⟨hnone y hy, (h.allocated y hy).ne⟩) (Nat.lt_succ_self _)
      (fun g hg => absurd (h.seen_lt _ g hg) (lt_irrefl _))
    refine ⟨hinv, ?_, hperm.mem_iff.mpr List.mem_cons_self⟩
    intro iot hiot
    exact ⟨iot, hperm.mem_iff.mpr (List.mem_cons_of_mem _ hiot), rfl, rfl⟩

theorem note_of_ne (hact : t.trackAction ≠ some .getrq) : st.note rb malloc seen t = seen :=
  if_neg hact

theorem logTrackGetrq_inv (h : Inv st seen) (hact : t.trackAction = some .getrq) :
    Inv (st.logTrackGetrq rb malloc t) (st.note rb malloc seen t) ∧
      Retains st (st.logTrackGetrq rb malloc t) := by
  obtain ⟨hinv, hretains, hmem⟩ := @findTrack_spec rb st seen h malloc t.pid t.sector
  refine ⟨?_, hretains.trans (store_retains _ _ _)⟩
  rw [note, if_pos hact]
  unfold logTrackGetrq
  dsimp only
  apply hinv.store
  · intro a g hg
    by_cases ha : a = (st.findTrack rb malloc t.pid t.sector).2.address
    · rw [ha]
      exact hinv.allocated _ hmem
    · rw [update_of_ne ha] at hg
      exact hinv.seen_lt a g hg
  · intro iot hiot g hg
    by_cases ha : iot.address = (st.findTrack rb malloc t.pid t.sector).2.address
    · rw [ha, update_self] at hg
      rw [if_pos ha]
      exact Option.some.inj hg
    · rw [update_of_ne ha] at hg
      rw [if_neg ha]
      exact hinv.time iot hiot g hg

theorem logTrackQueue_inv (h : Inv st seen) (t : BlkIoTraceRecord) :
    Inv (st.logTrackQueue rb malloc dev t) seen ∧
      Retains st (st.logTrackQueue rb malloc dev t) := by
  obtain ⟨hinv, hretains, -⟩ := @findTrack_spec rb st seen h malloc t.pid t.sector
  unfold logTrackQueue
  split
  · exact ⟨hinv.store_same _ fun _ => rfl, hretains.trans (store_retains _ _ _)⟩
  · exact ⟨h, Retains.refl st⟩

theorem logTrackInsert_inv (h : Inv st seen) (t : BlkIoTraceRecord) :
    Inv (st.logTrackInsert rb malloc t).1 seen ∧
      Retains st (st.logTrackInsert rb malloc t).1 := by
  obtain ⟨hinv, hretains, -⟩ := @findTrack_spec rb st seen h malloc t.pid t.sector
  unfold logTrackInsert
  dsimp only
  split
  · dsimp only
    exact ⟨hinv.store_same _ fun _ => rfl, hretains.trans (store_retains _ _ _)⟩
  · dsimp only
    exact ⟨hinv.store_same _ fun _ => rfl, hretains.trans (store_retains _ _ _)⟩

theorem logTrackIssue_inv (h : Inv st seen) (t : BlkIoTraceRecord) :
    Inv (st.logTrackIssue t).1 seen ∧ Retains st (st.logTrackIssue t).1 := by
  unfold logTrackIssue
  split
  · cases st.lookupTrack t.sector with
    | none => exact ⟨h, Retains.refl st⟩
    | some iot =>
      dsimp only
      exact ⟨h.store_same _ fun _ => rfl, store_retains _ _ _⟩
  · exact ⟨h, Retains.refl st⟩

theorem logTrackComplete_inv (h : Inv st seen) (t : BlkIoTraceRecord) :
    Inv (st.logTrackComplete rb t).1 seen ∧
      ∀ iot ∈ st.rbTrack.toList, iot.sector ≠ t.sector →
        iot ∈ (st.logTrackComplete rb t).1.rbTrack.toList := by
  unfold logTrackComplete
  cases hfind : st.lookupTrack t.sector with
  | none => exact ⟨h, fun iot hiot _ => hiot⟩
  | some found =>
    obtain ⟨hfound, hsector⟩ := (lookupTrack_eq_some h.searchable).mp hfind
    refine ⟨h.rbErase rb found.address, fun iot hiot hne => mem_rbErase.mpr ⟨hiot, ?_⟩⟩
    intro haddress
    apply hne
    rw [List.inj_on_of_nodup_map h.nodup hiot hfound haddress, hsector]

theorem logTrackFrontmerge_inv (h : Inv st seen) (t : BlkIoTraceRecord) :
    Inv (st.logTrackFrontmerge rb t) seen := by
  unfold logTrackFrontmerge
  cases hfind : st.lookupTrack (t.sector + t.tSec.toUInt64) with
  | none => exact h
  | some found =>
    obtain ⟨hfound, -⟩ := (lookupTrack_eq_some h.searchable).mp hfind
    have hinv := h.rbErase rb found.address
    dsimp only
    by_cases hnew : ∀ y ∈ (st.rbErase rb found.address).rbTrack.toList,
        y.sector ≠ found.sector - t.tSec.toUInt64
    · exact (@Inv.trackRbInsert rb _ { found with sector := found.sector - t.tSec.toUInt64 } seen
        hinv (fun y hy => ⟨hnew y hy, (mem_rbErase.mp hy).2⟩) (h.allocated found hfound)
        (h.time found hfound)).1
    · push Not at hnew
      obtain ⟨y, hy, hsector⟩ := hnew
      rw [@trackRbInsert_alias rb _ { found with sector := found.sector - t.tSec.toUInt64 }
        hinv.searchable y hy hsector]
      exact hinv

theorem dumpTrace_inv (h : Inv st seen) (t : BlkIoTraceRecord) :
    Inv (st.dumpTrace rb malloc dev t).1 (st.note rb malloc seen t) := by
  unfold dumpTrace
  cases hact : t.trackAction with
  | none => rwa [note_of_ne (by simp [hact])]
  | some act =>
    cases act with
    | getrq => exact (logTrackGetrq_inv h hact).1
    | queue => rw [note_of_ne (by simp [hact])]; exact (logTrackQueue_inv h t).1
    | insert => rw [note_of_ne (by simp [hact])]; exact (logTrackInsert_inv h t).1
    | frontmerge => rw [note_of_ne (by simp [hact])]; exact logTrackFrontmerge_inv h t
    | issue => rw [note_of_ne (by simp [hact])]; exact (logTrackIssue_inv h t).1
    | complete => rw [note_of_ne (by simp [hact])]; exact (logTrackComplete_inv h t).1

end IoTracking

namespace BlkIoTraceRecord

def rekeyed (t : BlkIoTraceRecord) (sector : UInt64) : UInt64 :=
  if t.trackAction = some .frontmerge ∧ sector = t.sector + t.tSec.toUInt64 then t.sector
  else sector

end BlkIoTraceRecord

namespace IoTracking

def Kept (st st' : IoTracking) (t : BlkIoTraceRecord) : Prop :=
  ∀ iot ∈ st.rbTrack.toList, t.trackAction = some .complete ∧ iot.sector = t.sector ∨
    ∃ iot' ∈ st'.rbTrack.toList, iot'.address = iot.address ∧ iot'.sector = t.rekeyed iot.sector

def Reported (rb : RbOps) (malloc : ℕ → IoTimes) (st : IoTracking) (seen : Seen)
    (t : BlkIoTraceRecord) (elapsed : UInt64) : Prop :=
  t.trackAction = some .insert →
    elapsed = match seen (st.findTrack rb malloc t.pid t.sector).2.address with
      | none => -1
      | some time => t.time - time

/-- Where a front merge finds its request, it finds no other one at the new sector. -/
def NoAlias (st : IoTracking) (t : BlkIoTraceRecord) : Prop :=
  t.trackAction = some .frontmerge → t.tSec.toUInt64 ≠ 0 →
    (st.lookupTrack (t.sector + t.tSec.toUInt64)).isSome → st.lookupTrack t.sector = none

/-- The allocation time of an inserted request is that of a getrq, at a time other than 0, or it is
0 although nothing has set it. -/
def TimeKnown (malloc : ℕ → IoTimes) (st : IoTracking) (seen : Seen) (t : BlkIoTraceRecord) :
    Prop :=
  t.trackAction = some .insert →
    match st.lookupTrack t.sector with
    | none => (malloc st.allocated).allocationTime ∈ [0, t.time + 1]
    | some iot =>
      match seen iot.address with
      | none => iot.times.allocationTime ∈ [0, t.time + 1]
      | some time => time ≠ 0 ∨ t.time + 1 = 0

variable {rb : RbOps} {malloc : ℕ → IoTimes} {dev : UInt32} {st st' : IoTracking}
  {seen : Seen} {t : BlkIoTraceRecord}

theorem rekeyed_of_ne (hact : t.trackAction ≠ some .frontmerge) (sector : UInt64) :
    t.rekeyed sector = sector :=
  if_neg fun h => hact h.1

theorem Retains.kept (h : Retains st st') (hact : t.trackAction ≠ some .frontmerge) :
    Kept st st' t := by
  intro iot hiot
  rw [rekeyed_of_ne hact]
  exact Or.inr (h iot hiot)

theorem sub_of_eq_add {a b c : UInt64} (h : a = b + c) : a - c = b := by
  rw [h, add_sub_cancel_right]

theorem logTrackFrontmerge_kept_iff (h : Inv st seen) (hact : t.trackAction = some .frontmerge) :
    Kept st (st.logTrackFrontmerge rb t) t ↔ NoAlias st t := by
  have hrekeyed (sector : UInt64) : t.rekeyed sector =
      if sector = t.sector + t.tSec.toUInt64 then t.sector else sector := by
    simp [BlkIoTraceRecord.rekeyed, hact]
  unfold Kept NoAlias logTrackFrontmerge
  cases hfind : st.lookupTrack (t.sector + t.tSec.toUInt64) with
  | none =>
    have hnone := (lookupTrack_eq_none h.searchable).mp hfind
    constructor
    · rintro - - - hsome
      cases hsome
    · intro _ iot hiot
      refine Or.inr ⟨iot, hiot, rfl, ?_⟩
      rw [hrekeyed, if_neg (hnone iot hiot)]
  | some found =>
    obtain ⟨hfound, hsector⟩ := (lookupTrack_eq_some h.searchable).mp hfind
    have hinv := h.rbErase rb found.address
    have hnewSector := sub_of_eq_add hsector
    dsimp only
    by_cases hnew : ∀ y ∈ (st.rbErase rb found.address).rbTrack.toList,
        y.sector ≠ found.sector - t.tSec.toUInt64
    · obtain ⟨-, hperm⟩ := @Inv.trackRbInsert rb _
        { found with sector := found.sector - t.tSec.toUInt64 } seen hinv
        (fun y hy => ⟨hnew y hy, (mem_rbErase.mp hy).2⟩) (h.allocated found hfound)
        (h.time found hfound)
      rw [hnewSector] at hnew
      constructor
      · rintro - - hsec -
        apply (lookupTrack_eq_none h.searchable).mpr
        intro y hy hysector
        apply hnew y (mem_rbErase.mpr ⟨hy, ?_⟩) hysector
        intro haddress
        rw [List.inj_on_of_nodup_map h.nodup hy hfound haddress, hsector] at hysector
        exact hsec (left_eq_add.mp hysector.symm)
      · intro _ iot hiot
        right
        by_cases haddress : iot.address = found.address
        · obtain rfl := List.inj_on_of_nodup_map h.nodup hiot hfound haddress
          refine ⟨_, hperm.mem_iff.mpr List.mem_cons_self, rfl, ?_⟩
          rw [hrekeyed, if_pos hsector]
          exact hnewSector
        · refine ⟨iot, hperm.mem_iff.mpr (List.mem_cons_of_mem _ ?_), rfl, ?_⟩
          · exact mem_rbErase.mpr ⟨hiot, haddress⟩
          · rw [hrekeyed, if_neg]
            intro heq
            apply haddress
            rw [h.searchable.eq_of_sector hiot hfound (heq.trans hsector.symm)]
    · push Not at hnew
      obtain ⟨y, hy, hysector⟩ := hnew
      rw [@trackRbInsert_alias rb _ { found with sector := found.sector - t.tSec.toUInt64 }
        hinv.searchable y hy hysector]
      rw [hnewSector] at hysector
      obtain ⟨hyold, hyaddress⟩ := mem_rbErase.mp hy
      constructor
      · intro hkept
        obtain ⟨hcomplete, -⟩ | ⟨iot', hiot', haddress, -⟩ := hkept found hfound
        · rw [hact] at hcomplete
          cases hcomplete
        · exact absurd haddress (mem_rbErase.mp hiot').2
      · intro hno
        exfalso
        have hsec : t.tSec.toUInt64 ≠ 0 := by
          intro hzero
          rw [hzero, add_zero] at hsector
          apply hyaddress
          rw [h.searchable.eq_of_sector hyold hfound (hysector.trans hsector.symm)]
        have hnone := hno hact hsec rfl
        exact (lookupTrack_eq_none h.searchable).mp hnone y hyold hysector

theorem kept_iff (h : Inv st seen) (t : BlkIoTraceRecord) :
    Kept st (st.dumpTrace rb malloc dev t).1 t ↔ NoAlias st t := by
  by_cases hact : t.trackAction = some .frontmerge
  · have hres : st.dumpTrace rb malloc dev t = (st.logTrackFrontmerge rb t, -1) := by
      rw [dumpTrace, hact]
    rw [hres]
    exact logTrackFrontmerge_kept_iff h hact
  refine iff_of_true ?_ fun hfront => absurd hfront hact
  unfold dumpTrace
  cases hact' : t.trackAction with
  | none => exact (Retains.refl st).kept hact
  | some act =>
    cases act with
    | frontmerge => exact absurd hact' hact
    | getrq => exact (logTrackGetrq_inv h hact').2.kept hact
    | queue => exact (logTrackQueue_inv h t).2.kept hact
    | insert => exact (logTrackInsert_inv h t).2.kept hact
    | issue => exact (logTrackIssue_inv h t).2.kept hact
    | complete =>
      intro iot hiot
      by_cases hsector : iot.sector = t.sector
      · exact Or.inl ⟨hact', hsector⟩
      · right
        refine ⟨iot, (logTrackComplete_inv h t).2 iot hiot hsector, rfl, ?_⟩
        rw [rekeyed_of_ne hact]

theorem elapsed_unset_iff (time a : UInt64) :
    (if a = 0 then -1 else time - a) = -1 ↔ a ∈ [0, time + 1] := by
  rw [List.mem_pair]
  split
  case isTrue ha => simp [ha]
  case isFalse ha =>
    simp only [ha, false_or]
    rw [sub_eq_iff_eq_add, ← sub_eq_iff_eq_add', sub_neg_eq_add, eq_comm]

theorem elapsed_set_iff (time a : UInt64) :
    (if a = 0 then -1 else time - a) = time - a ↔ a ≠ 0 ∨ time + 1 = 0 := by
  split
  case isTrue ha =>
    rw [ha, sub_zero, eq_comm, eq_neg_iff_add_eq_zero]
    simp
  case isFalse ha => simp [ha]

theorem reported_iff (h : Inv st seen) (t : BlkIoTraceRecord) :
    Reported rb malloc st seen t (st.dumpTrace rb malloc dev t).2 ↔
      TimeKnown malloc st seen t := by
  unfold Reported TimeKnown
  apply imp_congr_right
  intro hact
  have hres : (st.dumpTrace rb malloc dev t).2 =
      if (st.findTrack rb malloc t.pid t.sector).2.times.allocationTime = 0 then -1
      else t.time - (st.findTrack rb malloc t.pid t.sector).2.times.allocationTime := by
    rw [dumpTrace, hact]
    dsimp only
    rw [logTrackInsert]
    dsimp only
    split
    · rfl
    · rfl
  rw [hres, findTrack]
  cases hfind : st.lookupTrack t.sector with
  | none =>
    have hunseen : seen st.allocated = none := by
      cases hseen : seen st.allocated with
      | none => rfl
      | some g => exact absurd (h.seen_lt _ g hseen) (lt_irrefl _)
    dsimp only
    rw [hunseen]
    apply elapsed_unset_iff
  | some iot =>
    dsimp only
    cases hseen : seen iot.address with
    | none => apply elapsed_unset_iff
    | some time =>
      have hmem := ((lookupTrack_eq_some h.searchable).mp hfind).1
      rw [h.time iot hmem time hseen]
      apply elapsed_set_iff

theorem watch_concat (rb : RbOps) (malloc : ℕ → IoTimes) (dev : UInt32)
    (ts : List BlkIoTraceRecord) (t : BlkIoTraceRecord) :
    watch rb malloc dev (ts ++ [t]) =
      (((watch rb malloc dev ts).1.dumpTrace rb malloc dev t).1,
        (watch rb malloc dev ts).1.note rb malloc (watch rb malloc dev ts).2 t) :=
  List.foldl_concat _ _ _ _

theorem watch_inv (rb : RbOps) (malloc : ℕ → IoTimes) (dev : UInt32)
    (ts : List BlkIoTraceRecord) : Inv (watch rb malloc dev ts).1 (watch rb malloc dev ts).2 := by
  induction ts using List.reverseRecOn with
  | nil => exact newIoTracking_inv
  | append_singleton ts t ih =>
    rw [watch_concat]
    exact dumpTrace_inv ih t

/-- The step that the trace makes after the others keeps the requests and reports the right time. -/
def StepTracks (rb : RbOps) (malloc : ℕ → IoTimes) (dev : UInt32) (ts : List BlkIoTraceRecord)
    (t : BlkIoTraceRecord) : Prop :=
  let (st, seen) := watch rb malloc dev ts
  Kept st (st.dumpTrace rb malloc dev t).1 t ∧
    Reported rb malloc st seen t (st.dumpTrace rb malloc dev t).2

/-- The tree of the tracked requests can always be searched. Every request stays in it up to its
completion just if no front merge takes one to the sector of another, and the times of the inserts
are right just if they are those of getrqs, or the memory of the entries was clear. -/
theorem tracking_keeps_iff (rb : RbOps) (malloc : ℕ → IoTimes) (dev : UInt32)
    (ts : List BlkIoTraceRecord) :
    ((∀ us, us <+: ts → Searchable (watch rb malloc dev us).1) ∧
        ∀ us t, us ++ [t] <+: ts → StepTracks rb malloc dev us t) ↔
      ∀ us t, us ++ [t] <+: ts → NoAlias (watch rb malloc dev us).1 t ∧
        TimeKnown malloc (watch rb malloc dev us).1 (watch rb malloc dev us).2 t := by
  have hstep (us : List BlkIoTraceRecord) (t : BlkIoTraceRecord) :
      StepTracks rb malloc dev us t ↔ NoAlias (watch rb malloc dev us).1 t ∧
        TimeKnown malloc (watch rb malloc dev us).1 (watch rb malloc dev us).2 t := by
    have hinv := watch_inv rb malloc dev us
    exact and_congr (kept_iff hinv t) (reported_iff hinv t)
  constructor
  · rintro ⟨-, hsteps⟩ us t hus
    exact (hstep us t).mp (hsteps us t hus)
  · intro hsteps
    constructor
    · intro us _
      exact (watch_inv rb malloc dev us).searchable
    · intro us t hus
      exact (hstep us t).mpr (hsteps us t hus)

section Failing

def chain (iots : List IoTrack) : RangeTree IoTrack :=
  iots.foldr (fun iot rest => .node .nil iot rest) .nil

theorem chain_toList (iots : List IoTrack) : (chain iots).toList = iots := by
  induction iots with
  | nil => rfl
  | cons iot iots ih => exact congrArg (List.cons iot) ih

def plainRb : RbOps where
  insertColor := id
  erase address t := chain (t.toList.filter (·.address ≠ address))
  insertColor_toList _ := rfl
  erase_toList _ _ := chain_toList _

def traced (action : UInt32) (sector time : UInt64) : BlkIoTraceRecord where
  magic := 0
  sequence := 0
  time := time
  device := 0
  cpu := 0
  action := action
  sector := sector
  bytes := 4096
  pid := 0
  error := 0
  vecCount := 0
  seq := 0
  pduLen := 0

def clearMemory (_ : ℕ) : IoTimes := ⟨0, 0, 0⟩

def usedMemory (n : ℕ) : IoTimes := if n = 1 then ⟨5, 0, 0⟩ else ⟨0, 0, 0⟩

/-- A front merge takes a request to the sector of another one; an insert without a getrq comes
after the completion of a request in the same memory. -/
theorem front_merge_loses_request :
    ¬ StepTracks plainRb clearMemory 0 [traced blkTaGetrq 0 1, traced blkTaGetrq 8 2]
        (traced blkTaFrontmerge 0 3) ∧
      ¬ StepTracks plainRb usedMemory 0 [traced blkTaGetrq 8 5, traced blkTaComplete 8 7]
        (traced blkTaInsert 8 9) := by
  constructor
  · rintro ⟨hkept, -⟩
    have hinv := watch_inv plainRb clearMemory 0 [traced blkTaGetrq 0 1, traced blkTaGetrq 8 2]
    have hnone := (kept_iff hinv _).mp hkept (by decide) (by decide) (by decide)
    have hsome : ((watch plainRb clearMemory 0
      [traced blkTaGetrq 0 1, traced blkTaGetrq 8 2]).1.lookupTrack 0).isSome = true := by decide
    change IoTracking.lookupTrack _ 0 = none at hnone
    rw [hnone] at hsome
    cases hsome
  · rintro ⟨-, hreported⟩
    have htime := hreported (by decide)
    exact absurd htime (by decide)

end Failing

end IoTracking

end SBlktrace
