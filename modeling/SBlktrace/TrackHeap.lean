import SBlktrace.IoTracking
import SBlktrace.RbWalk

namespace SBlktrace

open RBTree Function

structure IotFields where
  pid : UInt32
  sector : UInt64
  times : IoTimes

/-- The memory of the entries of `rb_track`, by the addresses of their nodes, after so many calls
of `malloc`. -/
structure TrackMemory where
  rb : RbState
  iots : UInt64 → IotFields
  allocated : ℕ

/-- The address that `malloc` returns, and what is there. -/
structure Malloc where
  address : TrackMemory → UInt64
  content : ℕ → IoTimes

/-- While there are fewer entries than `limit`, `malloc` succeeds, with memory that is not in use
and as aligned as a node has to be. -/
def Malloc.Fresh (malloc : Malloc) (limit : ℕ) : Prop :=
  ∀ m t, m.rb.IsTree t → t.toList.length < limit →
    malloc.address m ∉ t.toList ∧ malloc.address m ≠ 0 ∧ Aligned (malloc.address m)

namespace TrackMemory

section

variable (fuel : ℕ) (m : TrackMemory)

def compareSector (sector : UInt64) (n : UInt64) : Ordering :=
  if sector < (m.iots n).sector then .lt
  else if sector > (m.iots n).sector then .gt
  else .eq

def lookupTrack (sector : UInt64) : Option UInt64 := m.rb.rbFind (m.compareSector sector) fuel

def trackRbInsert (iot : UInt64) : Option (TrackMemory × ℕ) := do
  let (rb, found) ← m.rb.rbInsertBy (m.compareSector (m.iots iot).sector) fuel iot
  if found ≠ 0 then return (m, 1) else return ({ m with rb := rb }, 0)

def store (iot : UInt64) (f : IotFields → IotFields) : TrackMemory :=
  { m with iots := update m.iots iot (f (m.iots iot)) }

def storeTimes (iot : UInt64) (f : IoTimes → IoTimes) : TrackMemory :=
  m.store iot fun r => { r with times := f r.times }

def findTrack (malloc : Malloc) (pid : UInt32) (sector : UInt64) :
    Option (TrackMemory × UInt64) := do
  let iot ← m.lookupTrack fuel sector
  if iot = 0 then
    let new := malloc.address m
    let m := { m with allocated := m.allocated + 1 }.store new fun _ =>
      ⟨pid, sector, malloc.content m.allocated⟩
    let (m, _) ← m.trackRbInsert fuel new
    return (m, new)
  else return (m, iot)

def erase (iot : UInt64) : Option TrackMemory := do
  let rb ← m.rb.rbErase fuel iot
  return { m with rb := rb }

def logTrackFrontmerge (t : BlkIoTraceRecord) : Option TrackMemory := do
  let iot ← m.lookupTrack fuel (t.sector + t.tSec.toUInt64)
  if iot = 0 then return m
  else
    let m ← m.erase fuel iot
    let m := m.store iot fun r => { r with sector := r.sector - t.tSec.toUInt64 }
    let (m, _) ← m.trackRbInsert fuel iot
    return m

variable (malloc : Malloc)

def logTrackGetrq (t : BlkIoTraceRecord) : Option TrackMemory := do
  let (m, iot) ← m.findTrack fuel malloc t.pid t.sector
  return m.storeTimes iot fun times => { times with allocationTime := t.time }

def logTrackQueue (dev : UInt32) (t : BlkIoTraceRecord) : Option TrackMemory := do
  if isRemapper dev then
    let (m, iot) ← m.findTrack fuel malloc t.pid t.sector
    return m.storeTimes iot fun times => { times with dispatchTime := t.time }
  else return m

def logTrackInsert (t : BlkIoTraceRecord) : Option (TrackMemory × UInt64) := do
  let (m, iot) ← m.findTrack fuel malloc t.pid t.sector
  let m := m.storeTimes iot fun times => { times with queueTime := t.time }
  if (m.iots iot).times.allocationTime = 0 then return (m, -1)
  else return (m, (m.iots iot).times.queueTime - (m.iots iot).times.allocationTime)

def logTrackIssue (t : BlkIoTraceRecord) : Option (TrackMemory × UInt64) := do
  if t.has blkTcFs then
    let iot ← m.lookupTrack fuel t.sector
    if iot = 0 then return (m, -1)
    else
      let m := m.storeTimes iot fun times => { times with dispatchTime := t.time }
      return (m, (m.iots iot).times.dispatchTime - (m.iots iot).times.queueTime)
  else return (m, -1)

def logTrackComplete (t : BlkIoTraceRecord) : Option (TrackMemory × UInt64) := do
  let iot ← m.lookupTrack fuel t.sector
  if iot = 0 then return (m, -1)
  else
    let elapsed := t.time - (m.iots iot).times.dispatchTime
    return (← m.erase fuel iot, elapsed)

def dumpTrace (dev : UInt32) (t : BlkIoTraceRecord) : Option (TrackMemory × UInt64) :=
  match t.trackAction with
  | none => some (m, -1)
  | some .queue => do return (← m.logTrackQueue fuel malloc dev t, -1)
  | some .insert => m.logTrackInsert fuel malloc t
  | some .frontmerge => do return (← m.logTrackFrontmerge fuel t, -1)
  | some .getrq => do return (← m.logTrackGetrq fuel malloc t, -1)
  | some .issue => m.logTrackIssue fuel t
  | some .complete => m.logTrackComplete fuel t

end

def track (m : TrackMemory) (num : UInt64 → ℕ) (n : UInt64) : IoTrack :=
  ⟨num n, (m.iots n).pid, (m.iots n).sector, (m.iots n).times⟩

/-- The tree in memory has the entries of the tree `st.rbTrack`, in the same order. -/
structure Mirrors (m : TrackMemory) (t : RBNode UInt64) (num : UInt64 → ℕ) (st : IoTracking) :
    Prop where
  tree : m.rb.IsRbTree t
  list : t.toList.map (m.track num) = st.rbTrack.toList
  searchable : st.Searchable
  number : ∀ a ∈ t.toList, ∀ b ∈ t.toList, num a = num b → a = b
  lt_allocated : ∀ a ∈ t.toList, num a < st.allocated
  allocated : m.allocated = st.allocated

variable {m m' : TrackMemory} {t t' : RBNode UInt64} {num num' : UInt64 → ℕ} {st : IoTracking}
  {fuel : ℕ} {n sector : UInt64} {rb : RbOps}

theorem Mirrors.sorted (h : m.Mirrors t num st) (sector : UInt64) :
    RbState.Sorted (m.compareSector sector) t.toList := by
  have hsearchable := h.searchable
  rw [IoTracking.searchable_iff, ← h.list, List.map_map, List.pairwise_map] at hsearchable
  refine hsearchable.imp fun {a b} hlt => ?_
  replace hlt : (m.iots a).sector < (m.iots b).sector := hlt
  rw [UInt64.lt_iff_toNat_lt] at hlt
  unfold compareSector
  simp only [UInt64.lt_iff_toNat_lt, gt_iff_lt]
  constructor
  · intro ha
    split_ifs at ha with h₁
    rw [if_pos (by omega)]
  · intro hb
    split_ifs at hb with h₁ h₂
    rw [if_neg (by omega), if_pos (by omega)]

theorem compareSector_eq_iff : m.compareSector sector n = .eq ↔ (m.iots n).sector = sector := by
  unfold compareSector
  rw [← UInt64.toNat_inj]
  simp only [UInt64.lt_iff_toNat_lt, gt_iff_lt]
  constructor
  · intro h
    split_ifs at h
    omega
  · intro h
    rw [if_neg (by omega), if_neg (by omega)]

theorem compareSector_lt_iff : m.compareSector sector n = .lt ↔ sector < (m.iots n).sector := by
  unfold compareSector
  split_ifs <;> simp_all

theorem compareSector_gt_iff : m.compareSector sector n = .gt ↔ (m.iots n).sector < sector := by
  unfold compareSector
  simp only [UInt64.lt_iff_toNat_lt, gt_iff_lt]
  split_ifs with h₁ h₂
  · exact iff_of_false nofun (by omega)
  · exact iff_of_true rfl h₂
  · exact iff_of_false nofun h₂

theorem Mirrors.lookup (h : m.Mirrors t num st) (hfuel : t.toList.length < fuel)
    (sector : UInt64) :
    (∃ n ∈ t.toList, m.lookupTrack fuel sector = some n ∧
        st.lookupTrack sector = some (m.track num n)) ∨
      m.lookupTrack fuel sector = some 0 ∧ st.lookupTrack sector = none := by
  obtain ⟨n, hn, heq, hfind⟩ | ⟨hfind, hne⟩ := RbState.rbFind_eq h.tree.toIsTree (h.sorted sector)
    (t.depth_le_length.trans_lt hfuel)
  · refine .inl ⟨n, hn, hfind, (IoTracking.lookupTrack_eq_some h.searchable).mpr ⟨?_, ?_⟩⟩
    · rw [← h.list]
      exact List.mem_map_of_mem hn
    · exact compareSector_eq_iff.mp heq
  · refine .inr ⟨hfind, (IoTracking.lookupTrack_eq_none h.searchable).mpr fun iot hiot hsector => ?_⟩
    rw [← h.list] at hiot
    obtain ⟨n, hn, rfl⟩ := List.mem_map.mp hiot
    exact hne n hn (compareSector_eq_iff.mpr hsector)

theorem Mirrors.congr (h : m.Mirrors t num st) (hrb : m'.rb = m.rb)
    (hallocated : m'.allocated = m.allocated)
    (htrack : ∀ n ∈ t.toList, m'.track num' n = m.track num n) : m'.Mirrors t num' st where
  tree := hrb ▸ h.tree
  list := (List.map_congr_left htrack).trans h.list
  searchable := h.searchable
  number a ha b hb heq := by
    have hnum : ∀ n ∈ t.toList, num' n = num n := fun n hn =>
      congrArg IoTrack.address (htrack n hn)
    rw [hnum a ha, hnum b hb] at heq
    exact h.number a ha b hb heq
  lt_allocated a ha := by
    have hnum : num' a = num a := congrArg IoTrack.address (htrack a ha)
    rw [hnum]
    exact h.lt_allocated a ha
  allocated := hallocated.trans h.allocated

theorem storeTimes_self (f : IoTimes → IoTimes) :
    ((m.storeTimes n f).iots n).times = f (m.iots n).times := by
  simp [TrackMemory.storeTimes, TrackMemory.store]

theorem Mirrors.storeTimes (h : m.Mirrors t num st) (hn : n ∈ t.toList)
    (f : IoTimes → IoTimes) : (m.storeTimes n f).Mirrors t num (st.store (num n) f) where
  tree := h.tree
  list := by
    have hstore : (st.store (num n) f).rbTrack.toList = st.rbTrack.toList.map fun iot =>
        if iot.address = num n then { iot with times := f iot.times } else iot :=
      RangeTree.toList_map _ _
    rw [hstore, ← h.list, List.map_map]
    refine List.map_congr_left fun a ha => ?_
    by_cases han : a = n
    · subst han
      simp [track, TrackMemory.storeTimes, TrackMemory.store]
    · have hnum : num a ≠ num n := fun heq => han (h.number a ha n hn heq)
      simp [track, TrackMemory.storeTimes, TrackMemory.store, update_of_ne han, hnum]
  searchable := IoTracking.store_searchable h.searchable _ _
  number := h.number
  lt_allocated := h.lt_allocated
  allocated := h.allocated

variable (rb)

theorem Mirrors.erase (h : m.Mirrors t num st) (hn : n ∈ t.toList)
    (hfuel : t.toList.length < fuel) :
    ∃ m' t', m.erase fuel n = some m' ∧ m'.iots = m.iots ∧ t'.toList = t.toList.erase n ∧
      m'.Mirrors t' num (st.rbErase rb (num n)) := by
  obtain ⟨s', t', hs', htree, hlist, -⟩ := RbState.rbErase_spec h.tree hn hfuel
  refine ⟨{ m with rb := s' }, t', ?_, rfl, hlist, ⟨htree, ?_, ?_, ?_, ?_, h.allocated⟩⟩
  · rw [TrackMemory.erase, hs']
    rfl
  · have herase : (st.rbErase rb (num n)).rbTrack.toList =
        st.rbTrack.toList.filter (·.address ≠ num n) := rb.erase_toList _ _
    rw [herase, ← h.list, List.filter_map, hlist, h.tree.nodup.erase_eq_filter]
    refine congrArg (List.map (m.track num)) (List.filter_congr fun a ha => ?_)
    have hiff : num a = num n ↔ a = n := ⟨h.number a ha n hn, fun heq => heq ▸ rfl⟩
    rw [Bool.eq_iff_iff]
    simp [track, hiff]
  · exact IoTracking.rbErase_searchable h.searchable _
  · intro a ha b hb
    rw [hlist] at ha hb
    exact h.number a (List.mem_of_mem_erase ha) b (List.mem_of_mem_erase hb)
  · intro a ha
    rw [hlist] at ha
    exact h.lt_allocated a (List.mem_of_mem_erase ha)

theorem Mirrors.trackRbInsert (h : m.Mirrors t num st) (hn : n ∉ t.toList) (hne : n ≠ 0)
    (hal : Aligned n) (hnum : num n < st.allocated) (hnew : ∀ a ∈ t.toList, num a ≠ num n)
    (hfuel : t.toList.length < fuel) :
    ∃ m' t' r st', m.trackRbInsert fuel n = some (m', r) ∧
      st.trackRbInsert rb (m.track num n) = (st', r) ∧ m'.iots = m.iots ∧
      m'.Mirrors t' num st' ∧ t'.toList.length ≤ t.toList.length + 1 ∧
      (n ∈ t'.toList ∨ ∃ y ∈ st.rbTrack.toList, y.sector = (m.iots n).sector) := by
  obtain ⟨y, hy, heq, hins⟩ | ⟨before, after, s', t', hlist, hgt, hlt, hins, htree, hlist', -⟩ :=
    RbState.rbInsertBy_spec h.tree (h.sorted (m.iots n).sector) hn hne hal hfuel
  · have hmem : m.track num y ∈ st.rbTrack.toList := by
      rw [← h.list]
      exact List.mem_map_of_mem hy
    have hsector := compareSector_eq_iff.mp heq
    refine ⟨m, t, 1, st, ?_, IoTracking.trackRbInsert_alias h.searchable hmem hsector, rfl, h,
      Nat.le_succ _, .inr ⟨_, hmem, hsector⟩⟩
    rw [TrackMemory.trackRbInsert, hins]
    exact if_pos (h.tree.rep.ne_zero hy)
  · have hother : ∀ y ∈ st.rbTrack.toList, y.sector ≠ (m.track num n).sector := by
      intro y hy
      rw [← h.list, hlist] at hy
      obtain ⟨a, ha, rfl⟩ := List.mem_map.mp hy
      intro heq
      have hcmp : m.compareSector (m.iots n).sector a = .eq := compareSector_eq_iff.mpr heq
      obtain ha | ha := List.mem_append.mp ha
      · cases (hgt a ha).symm.trans hcmp
      · cases (hlt a ha).symm.trans hcmp
    obtain ⟨hperm, hsearchable⟩ := @IoTracking.trackRbInsert_new rb _ _ h.searchable hother
    have hmem' : ∀ a, a ∈ t'.toList ↔ a = n ∨ a ∈ t.toList := by
      intro a
      rw [hlist', hlist]
      simp only [List.mem_append, List.mem_cons]
      tauto
    have hsame : (st.trackRbInsert rb (m.track num n)).1.allocated = st.allocated := by
      unfold IoTracking.trackRbInsert
      split <;> rfl
    refine ⟨{ m with rb := s' }, t', 0, (st.trackRbInsert rb (m.track num n)).1, ?_, ?_, rfl,
      ⟨htree, ?_, hsearchable, ?_, ?_, h.allocated.trans hsame.symm⟩, ?_,
      .inl ((hmem' n).mpr (.inl rfl))⟩
    · rw [TrackMemory.trackRbInsert, hins]
      rfl
    · unfold IoTracking.trackRbInsert at hperm ⊢
      split at hperm
      · exact absurd hperm.length_eq (Nat.succ_ne_self _).symm
      · rfl
    · have hold := h.searchable
      rw [IoTracking.searchable_iff, ← h.list, hlist, List.map_map, List.pairwise_map] at hold
      obtain ⟨hbefore, hafter, hcross⟩ := List.pairwise_append.mp hold
      have hsorted := List.pairwise_map.mp (IoTracking.searchable_iff.mp hsearchable)
      refine List.Perm.eq_of_pairwise (fun a b _ _ hab hba => absurd hab (UInt64.lt_asymm hba)) ?_
        hsorted ?_
      · rw [List.pairwise_map, hlist']
        refine List.pairwise_append.mpr ⟨hbefore, List.pairwise_cons.mpr
          ⟨fun a ha => compareSector_lt_iff.mp (hlt a ha), hafter⟩, fun a ha b hb => ?_⟩
        obtain rfl | hb := List.mem_cons.mp hb
        · exact compareSector_gt_iff.mp (hgt a ha)
        · exact hcross a ha b hb
      · refine List.Perm.trans ?_ hperm.symm
        rw [← h.list, hlist, hlist', List.map_append, List.map_cons, List.map_append]
        exact List.perm_middle
    · intro a ha b hb hab
      obtain rfl | ha := (hmem' a).mp ha
      · obtain rfl | hb := (hmem' b).mp hb
        · rfl
        · exact absurd hab.symm (hnew b hb)
      · obtain rfl | hb := (hmem' b).mp hb
        · exact absurd hab (hnew a ha)
        · exact h.number a ha b hb hab
    · intro a ha
      rw [hsame]
      obtain rfl | ha := (hmem' a).mp ha
      · exact hnum
      · exact h.lt_allocated a ha
    · rw [hlist', hlist]
      simp only [List.length_append, List.length_cons]
      omega

variable {malloc : Malloc} {pid : UInt32} {dev : UInt32} {r : BlkIoTraceRecord}

theorem Mirrors.findTrack (h : m.Mirrors t num st) (hfresh : malloc.address m ∉ t.toList)
    (hne : malloc.address m ≠ 0) (hal : Aligned (malloc.address m))
    (hfuel : t.toList.length < fuel) (pid : UInt32) (sector : UInt64) :
    ∃ m' t' num' n st', m.findTrack fuel malloc pid sector = some (m', n) ∧
      st.findTrack rb malloc.content pid sector = (st', m'.track num' n) ∧
      m'.Mirrors t' num' st' ∧ n ∈ t'.toList ∧ t'.toList.length ≤ t.toList.length + 1 := by
  obtain ⟨n, hn, hlookup, hlookup'⟩ | ⟨hlookup, hlookup'⟩ := h.lookup hfuel sector
  · refine ⟨m, t, num, n, st, ?_, ?_, h, hn, Nat.le_succ _⟩
    · rw [TrackMemory.findTrack, hlookup]
      exact if_neg (h.tree.rep.ne_zero hn)
    · rw [IoTracking.findTrack, hlookup']
  · obtain ⟨new, hnew⟩ : ∃ new, malloc.address m = new := ⟨_, rfl⟩
    rw [hnew] at hfresh hne hal
    let m₁ := { m with allocated := m.allocated + 1 }.store new fun _ =>
      ⟨pid, sector, malloc.content m.allocated⟩
    let num₁ := update num new st.allocated
    have hself : num₁ new = st.allocated := update_self _ _ _
    have hother : ∀ a ∈ t.toList, num₁ a = num a ∧ m₁.iots a = m.iots a := fun a ha => by
      have hne : a ≠ new := fun heq => hfresh (heq ▸ ha)
      exact ⟨update_of_ne hne _ _, update_of_ne hne _ _⟩
    have htrack : m₁.track num₁ new = ⟨st.allocated, pid, sector, malloc.content st.allocated⟩ := by
      simp [m₁, num₁, track, TrackMemory.store, h.allocated]
    have h₁ : m₁.Mirrors t num₁ { st with allocated := st.allocated + 1 } := by
      refine ⟨h.tree, ?_, h.searchable, fun a ha b hb heq => ?_, fun a ha => ?_,
        congrArg (· + 1) h.allocated⟩
      · refine (List.map_congr_left fun a ha => ?_).trans h.list
        rw [track, track, (hother a ha).1, (hother a ha).2]
      · rw [(hother a ha).1, (hother b hb).1] at heq
        exact h.number a ha b hb heq
      · rw [(hother a ha).1]
        exact Nat.lt_succ_of_lt (h.lt_allocated a ha)
    obtain ⟨m₂, t₂, res, st₂, hs₂, hst₂, hiots₂, h₂, hlen, hmem⟩ :=
      h₁.trackRbInsert rb hfresh hne hal
        (hself.trans_lt (Nat.lt_succ_self _))
        (fun a ha => by rw [hself, (hother a ha).1]; exact (h.lt_allocated a ha).ne) hfuel
    rw [htrack] at hst₂
    refine ⟨m₂, t₂, num₁, new, st₂, ?_, ?_, h₂, ?_, hlen⟩
    · rw [TrackMemory.findTrack, hlookup, Option.bind_eq_bind, Option.bind_some, if_pos rfl, hnew]
      change ((m₁.trackRbInsert fuel new).bind fun r => some (r.1, new)) = _
      rw [hs₂]
      rfl
    · rw [IoTracking.findTrack, hlookup']
      dsimp only
      rw [hst₂, track, hiots₂, ← track, htrack]
    · obtain hmem | ⟨y, hy, hsector⟩ := hmem
      · exact hmem
      · refine absurd (hsector.trans ?_) ((IoTracking.lookupTrack_eq_none h.searchable).mp hlookup' y hy)
        exact congrArg IoTrack.sector htrack

def Follows (t : RBNode UInt64) (out : Option (TrackMemory × UInt64))
    (res : IoTracking × UInt64) : Prop :=
  ∃ m' t' num', out = some (m', res.2) ∧ m'.Mirrors t' num' res.1 ∧
    t'.toList.length ≤ t.toList.length + 1

theorem Mirrors.logTrackFrontmerge (h : m.Mirrors t num st) (hfuel : t.toList.length < fuel)
    (r : BlkIoTraceRecord) :
    ∃ m' t', m.logTrackFrontmerge fuel r = some m' ∧
      m'.Mirrors t' num (st.logTrackFrontmerge rb r) ∧
      t'.toList.length ≤ t.toList.length + 1 := by
  obtain ⟨n, hn, hlookup, hlookup'⟩ | ⟨hlookup, hlookup'⟩ :=
    h.lookup hfuel (r.sector + r.tSec.toUInt64)
  · obtain ⟨m₁, t₁, hm₁, hiots₁, hlist₁, h₁⟩ := h.erase rb hn hfuel
    have hnot : n ∉ t₁.toList := by
      rw [hlist₁]
      exact h.tree.nodup.not_mem_erase
    have hlen₁ : t₁.toList.length ≤ t.toList.length := by
      rw [hlist₁]
      exact List.length_erase_le
    have hne : n ≠ 0 := h.tree.rep.ne_zero hn
    have hal := (h.tree.rep.valid hn).2
    let m₂ := m₁.store n fun iot => { iot with sector := iot.sector - r.tSec.toUInt64 }
    have h₂ : m₂.Mirrors t₁ num (st.rbErase rb (num n)) := by
      refine h₁.congr rfl rfl fun a ha => ?_
      have han : a ≠ n := fun heq => hnot (heq ▸ ha)
      simp [m₂, track, TrackMemory.store, update_of_ne han]
    have hnum : ∀ a ∈ t₁.toList, num a ≠ num n := fun a ha heq => by
      rw [hlist₁] at ha
      have han := h.number a (List.mem_of_mem_erase ha) n hn heq
      rw [han] at ha
      exact h.tree.nodup.not_mem_erase ha
    have htrack : m₂.track num n =
        { m.track num n with sector := (m.track num n).sector - r.tSec.toUInt64 } := by
      simp [m₂, track, TrackMemory.store, hiots₁]
    obtain ⟨m₃, t₃, res, st₃, hm₃, hst₃, -, h₃, hlen₃, -⟩ := h₂.trackRbInsert rb hnot hne hal (h.lt_allocated n hn) hnum (hlen₁.trans_lt hfuel)
    refine ⟨m₃, t₃, ?_, ?_, hlen₃.trans (Nat.succ_le_succ hlen₁)⟩
    · rw [TrackMemory.logTrackFrontmerge, hlookup, Option.bind_eq_bind, Option.bind_some,
        if_neg hne, hm₁]
      change ((m₂.trackRbInsert fuel n).bind fun r => some r.1) = _
      rw [hm₃]
      rfl
    · rw [IoTracking.logTrackFrontmerge, hlookup']
      rw [htrack] at hst₃
      change m₃.Mirrors t₃ num (IoTracking.trackRbInsert rb (st.rbErase rb (num n)) _).1
      rw [hst₃]
      exact h₃
  · refine ⟨m, t, ?_, ?_, Nat.le_succ _⟩
    · rw [TrackMemory.logTrackFrontmerge, hlookup]
      rfl
    · rw [IoTracking.logTrackFrontmerge, hlookup']
      exact h

section

variable (h : m.Mirrors t num st) (hfresh : malloc.address m ∉ t.toList)
  (hne : malloc.address m ≠ 0) (hal : Aligned (malloc.address m))
  (hfuel : t.toList.length < fuel)

include h hfresh hne hal hfuel

theorem Mirrors.findStore (f : IoTimes → IoTimes) (r : BlkIoTraceRecord) :
    ∃ m' n st' iot t' num', m.findTrack fuel malloc r.pid r.sector = some (m', n) ∧
      st.findTrack rb malloc.content r.pid r.sector = (st', iot) ∧
      (m'.iots n).times = iot.times ∧
      (m'.storeTimes n f).Mirrors t' num' (st'.store iot.address f) ∧
      t'.toList.length ≤ t.toList.length + 1 := by
  obtain ⟨m₁, t₁, num₁, n, st₁, hm₁, hst₁, h₁, hn, hlen⟩ :=
    h.findTrack rb hfresh hne hal hfuel r.pid r.sector
  exact ⟨m₁, n, st₁, m₁.track num₁ n, t₁, num₁, hm₁, hst₁, rfl, h₁.storeTimes hn f, hlen⟩

theorem Mirrors.dumpTrace (dev : UInt32) (r : BlkIoTraceRecord) :
    Follows t (m.dumpTrace fuel malloc dev r) (st.dumpTrace rb malloc.content dev r) := by
  unfold TrackMemory.dumpTrace IoTracking.dumpTrace
  cases r.trackAction with
  | none => exact ⟨m, t, num, rfl, h, Nat.le_succ _⟩
  | some action =>
    cases action with
    | queue =>
      dsimp only
      unfold TrackMemory.logTrackQueue IoTracking.logTrackQueue
      by_cases hremap : isRemapper dev
      · obtain ⟨m₁, n, st₁, iot, t₁, num₁, hm₁, hst₁, -, h₁, hlen⟩ :=
          h.findStore rb hfresh hne hal hfuel
            (fun times => { times with dispatchTime := r.time }) r
        rw [if_pos hremap, if_pos hremap, hm₁, hst₁]
        exact ⟨_, t₁, num₁, rfl, h₁, hlen⟩
      · rw [if_neg hremap, if_neg hremap]
        exact ⟨m, t, num, rfl, h, Nat.le_succ _⟩
    | insert =>
      dsimp only
      unfold TrackMemory.logTrackInsert IoTracking.logTrackInsert
      obtain ⟨m₁, n, st₁, iot, t₁, num₁, hm₁, hst₁, htimes, h₁, hlen⟩ :=
        h.findStore rb hfresh hne hal hfuel
          (fun times => { times with queueTime := r.time }) r
      rw [hm₁, hst₁]
      simp only [Option.bind_eq_bind, Option.bind_some, storeTimes_self, htimes]
      by_cases hzero : iot.times.allocationTime = 0
      · rw [if_pos hzero, if_pos hzero]
        exact ⟨_, t₁, num₁, rfl, h₁, hlen⟩
      · rw [if_neg hzero, if_neg hzero]
        exact ⟨_, t₁, num₁, rfl, h₁, hlen⟩
    | frontmerge =>
      obtain ⟨m₁, t₁, hm₁, h₁, hlen⟩ := h.logTrackFrontmerge rb hfuel r
      refine ⟨m₁, t₁, num, ?_, h₁, hlen⟩
      dsimp only
      rw [hm₁]
      rfl
    | getrq =>
      obtain ⟨m₁, n, st₁, iot, t₁, num₁, hm₁, hst₁, -, h₁, hlen⟩ :=
        h.findStore rb hfresh hne hal hfuel
          (fun times => { times with allocationTime := r.time }) r
      dsimp only
      unfold TrackMemory.logTrackGetrq IoTracking.logTrackGetrq
      rw [hm₁, hst₁]
      exact ⟨_, t₁, num₁, rfl, h₁, hlen⟩
    | issue =>
      dsimp only
      unfold TrackMemory.logTrackIssue IoTracking.logTrackIssue
      by_cases hfs : r.has blkTcFs
      · rw [if_pos hfs, if_pos hfs]
        obtain ⟨n, hn, hlookup, hlookup'⟩ | ⟨hlookup, hlookup'⟩ := h.lookup hfuel r.sector
        · rw [hlookup, hlookup']
          simp only [Option.bind_eq_bind, Option.bind_some, storeTimes_self]
          rw [if_neg (h.tree.rep.ne_zero hn)]
          exact ⟨_, t, num, rfl, h.storeTimes hn _, Nat.le_succ _⟩
        · rw [hlookup, hlookup']
          exact ⟨m, t, num, rfl, h, Nat.le_succ _⟩
      · rw [if_neg hfs, if_neg hfs]
        exact ⟨m, t, num, rfl, h, Nat.le_succ _⟩
    | complete =>
      dsimp only
      unfold TrackMemory.logTrackComplete IoTracking.logTrackComplete
      obtain ⟨n, hn, hlookup, hlookup'⟩ | ⟨hlookup, hlookup'⟩ := h.lookup hfuel r.sector
      · obtain ⟨m₁, t₁, hm₁, -, hlist₁, h₁⟩ := h.erase rb hn hfuel
        rw [hlookup, hlookup', Option.bind_eq_bind, Option.bind_some,
          if_neg (h.tree.rep.ne_zero hn), hm₁]
        refine ⟨m₁, t₁, num, rfl, h₁, ?_⟩
        rw [hlist₁]
        exact List.length_erase_le.trans (Nat.le_succ _)
      · rw [hlookup, hlookup']
        exact ⟨m, t, num, rfl, h, Nat.le_succ _⟩

end

def run (fuel : ℕ) (malloc : Malloc) (dev : UInt32) :
    TrackMemory → List BlkIoTraceRecord → Option (TrackMemory × List UInt64)
  | m, [] => some (m, [])
  | m, r :: rs => do
    let (m, elapsed) ← m.dumpTrace fuel malloc dev r
    let (m, rest) ← m.run fuel malloc dev rs
    return (m, elapsed :: rest)

def start (mem : UInt64 → RbNode) (iots : UInt64 → IotFields) : TrackMemory := ⟨⟨mem, 0⟩, iots, 0⟩

end TrackMemory

namespace IoTracking

def run (rb : RbOps) (malloc : ℕ → IoTimes) (dev : UInt32) :
    IoTracking → List BlkIoTraceRecord → IoTracking × List UInt64
  | st, [] => (st, [])
  | st, r :: rs =>
    let (st, elapsed) := st.dumpTrace rb malloc dev r
    let (st, rest) := st.run rb malloc dev rs
    (st, elapsed :: rest)

end IoTracking

namespace TrackMemory

variable {m : TrackMemory} {t : RBNode UInt64} {num : UInt64 → ℕ} {st : IoTracking} {fuel : ℕ}
  {malloc : Malloc}

theorem run_mirrors (rb : RbOps) (dev : UInt32) (rs : List BlkIoTraceRecord)
    (h : m.Mirrors t num st) (hfresh : malloc.Fresh fuel)
    (hfuel : t.toList.length + rs.length < fuel) :
    ∃ m' t' num', m.run fuel malloc dev rs = some (m', (st.run rb malloc.content dev rs).2) ∧
      m'.Mirrors t' num' (st.run rb malloc.content dev rs).1 := by
  induction rs generalizing m t num st with
  | nil => exact ⟨m, t, num, rfl, h⟩
  | cons r rs ih =>
    rw [List.length_cons] at hfuel
    have hlen : t.toList.length < fuel := by omega
    obtain ⟨hnot, hne, hal⟩ := hfresh m t h.tree.toIsTree hlen
    obtain ⟨m₁, t₁, num₁, hm₁, h₁, hlen₁⟩ := h.dumpTrace rb hnot hne hal hlen dev r
    obtain ⟨m₂, t₂, num₂, hm₂, h₂⟩ := ih h₁ (by omega)
    refine ⟨m₂, t₂, num₂, ?_, h₂⟩
    rw [TrackMemory.run, hm₁, Option.bind_eq_bind, Option.bind_some]
    dsimp only
    rw [hm₂]
    rfl

theorem start_mirrors (mem : UInt64 → RbNode) (iots : UInt64 → IotFields) :
    (start mem iots).Mirrors .nil (fun _ => 0) newIoTracking where
  tree := ⟨⟨rfl, trivial, List.nodup_nil⟩, 0, .nil⟩
  list := rfl
  searchable := List.Pairwise.nil
  number a ha := by cases ha
  lt_allocated a ha := by cases ha
  allocated := rfl

/-- On a stream of records the tracking over nodes in memory never fails, prints the times that it
prints over any tree that keeps the order of its entries, and leaves a red-black tree of the same
entries. -/
theorem tracking_in_memory (rb : RbOps) (dev : UInt32) (rs : List BlkIoTraceRecord)
    (mem : UInt64 → RbNode) (iots : UInt64 → IotFields) (hfresh : malloc.Fresh fuel)
    (hfuel : rs.length < fuel) :
    ∃ m t num, (start mem iots).run fuel malloc dev rs =
        some (m, (newIoTracking.run rb malloc.content dev rs).2) ∧ m.rb.IsRbTree t ∧
      t.toList.map (m.track num) = (newIoTracking.run rb malloc.content dev rs).1.rbTrack.toList := by
  obtain ⟨m, t, num, hm, h⟩ := run_mirrors rb dev rs (start_mirrors mem iots) hfresh
    (by rwa [RBNode.toList_nil, List.length_nil, Nat.zero_add])
  exact ⟨m, t, num, hm, h.tree, h.list⟩

def eightPlaces : Malloc where
  address m := freePlace (m.rb.addresses 8)
  content _ := ⟨0, 0, 0⟩

theorem eightPlaces_fresh : eightPlaces.Fresh 8 := by
  intro m t ht hlen
  have huse : m.rb.addresses 8 = t.toList := RbState.addresses_eq ht hlen
  have hspec := freePlace_spec (huse.symm ▸ hlen : (m.rb.addresses 8).length < 8)
  rw [← huse]
  exact hspec

def twoRequests : List BlkIoTraceRecord :=
  [IoTracking.traced blkTaGetrq 8 1, IoTracking.traced blkTaInsert 8 3, IoTracking.traced blkTaGetrq 24 4,
    IoTracking.traced blkTaInsert 24 6, IoTracking.traced (blkTaIssue ||| blkTcFs <<< 16) 8 10,
    IoTracking.traced blkTaComplete 8 15]

theorem tracking_in_memory_twoRequests :
    ∃ m t num, (start (fun _ => ⟨0, 0, 0⟩) fun _ => ⟨0, 0, ⟨0, 0, 0⟩⟩).run 8 eightPlaces 0 twoRequests =
        some (m, [-1, 2, -1, 2, 7, 5]) ∧ m.rb.IsRbTree t ∧
      t.toList.map (m.track num) = [⟨1, 0, 24, ⟨4, 6, 0⟩⟩] := by
  have htimes : (newIoTracking.run IoTracking.plainRb eightPlaces.content 0 twoRequests).2 =
      [-1, 2, -1, 2, 7, 5] := by decide
  have hleft : (newIoTracking.run IoTracking.plainRb eightPlaces.content 0 twoRequests).1.rbTrack.toList =
      [⟨1, 0, 24, ⟨4, 6, 0⟩⟩] := rfl
  rw [← htimes, ← hleft]
  exact tracking_in_memory _ _ _ _ _ eightPlaces_fresh (by decide)

end TrackMemory

end SBlktrace
