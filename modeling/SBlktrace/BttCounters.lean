import SBlktrace.RequestQueue
import SBlktrace.Transition

namespace SBlktrace

open Function

namespace Btt

def heard (btt : Btt) (t : BlkIoTraceRecord) : Bool :=
  !t.has blkTcNotify && !t.has blkTcPc && !(btt.timeBounded && (btt.early t.time || btt.late t.time))

end Btt

namespace DInfo

def queueIo (dip : DInfo) (p : ℕ) : QueueIo := .of (dip.io p).t

structure Ended (dip : DInfo) (t : BlkIoTraceRecord) (p : ℕ) : Prop where
  mem : p ∈ dip.queue.toList
  start : bitStart t ≤ bitStart (dip.io p).t
  stop : bitEnd (dip.io p).t ≤ bitEnd t
  found : ¬ dip.queue.RightOfLonger (fun p => bitEnd (dip.io p).t) (bitEnd t) p
  dispatched : (dip.io p).dTime ≠ -1

structure Kept (dip dip' : DInfo) : Prop where
  queue : dip'.queue = dip.queue
  preCulling : dip'.preCulling = dip.preCulling
  io : ∀ p, dip'.queueIo p = dip.queueIo p

structure Touched (dip dip' : DInfo) : Prop extends Kept dip dip' where
  dTime : ∀ p, (dip.io p).dTime ≠ -1 → (dip'.io p).dTime ≠ -1

structure Moved (dip dip' : DInfo) (dev qusz : ℤ) : Prop where
  stats : dip'.stats.curDev = dip.stats.curDev + dev ∧ dip'.stats.curQusz = dip.stats.curQusz + qusz
  allStats : dip'.allStats.curDev = dip.allStats.curDev + dev ∧
    dip'.allStats.curQusz = dip.allStats.curQusz + qusz

structure Sound (dip : DInfo) : Prop where
  sorted : RangeTree.Sorted (fun p => bitStart (dip.io p).t) dip.queue.toList
  live : dip.queue.toList ≠ [] → dip.preCulling = false

def InBalance (q : RequestQueue) (dip : DInfo) : Prop :=
  dip.stats.Balanced q ∧ dip.allStats.Balanced q

variable {q q' : RequestQueue} {dip dip' dip'' : DInfo} {t : BlkIoTraceRecord} {p : ℕ}

theorem inBalance_moved_iff {dev qusz : ℤ} (hb : InBalance q dip) (hm : Moved dip dip' dev qusz) :
    InBalance q' dip' ↔
      (q.requests.countP BlkRequest.issued : ℤ) + dev = q'.requests.countP BlkRequest.issued ∧
        (q.requests.length : ℤ) + qusz = q'.requests.length := by
  obtain ⟨hstats, hall⟩ := hb
  rw [balanced_iff_counts] at hstats hall
  rw [InBalance, balanced_iff_counts, balanced_iff_counts, hm.stats.1, hm.stats.2, hm.allStats.1,
    hm.allStats.2, hstats.1, hstats.2, hall.1, hall.2]
  exact and_self_iff

theorem moved_of_eq (hstats : dip'.stats = dip.stats) (hall : dip'.allStats = dip.allStats) :
    Moved dip dip' 0 0 := by
  refine ⟨?_, ?_⟩
  · rw [hstats, add_zero, add_zero]
    exact ⟨rfl, rfl⟩
  · rw [hall, add_zero, add_zero]
    exact ⟨rfl, rfl⟩

theorem Moved.trans {dev dev' qusz qusz' : ℤ} (h : Moved dip dip' dev qusz)
    (h' : Moved dip' dip'' dev' qusz') : Moved dip dip'' (dev + dev') (qusz + qusz') := by
  refine ⟨?_, ?_⟩
  · rw [h'.stats.1, h'.stats.2, h.stats.1, h.stats.2, add_assoc, add_assoc]
    exact ⟨rfl, rfl⟩
  · rw [h'.allStats.1, h'.allStats.2, h.allStats.1, h.allStats.2, add_assoc, add_assoc]
    exact ⟨rfl, rfl⟩

theorem touched_rfl (dip : DInfo) : dip.Touched dip where
  queue := rfl
  preCulling := rfl
  io _ := rfl
  dTime _ h := h

theorem Kept.trans (h : dip.Kept dip') (h' : dip'.Kept dip'') : dip.Kept dip'' where
  queue := h'.queue.trans h.queue
  preCulling := h'.preCulling.trans h.preCulling
  io p := (h'.io p).trans (h.io p)

theorem Touched.trans (h : dip.Touched dip') (h' : dip'.Touched dip'') : dip.Touched dip'' where
  toKept := h.toKept.trans h'.toKept
  dTime p hp := h'.dTime p (h.dTime p hp)

theorem sorted_congr {l : List ℕ} (h : RangeTree.Sorted (fun p => bitStart (dip.io p).t) l)
    (hio : ∀ p ∈ l, dip'.queueIo p = dip.queueIo p) :
    RangeTree.Sorted (fun p => bitStart (dip'.io p).t) l := by
  refine List.Pairwise.imp_of_mem (fun {m m'} hm hm' hlt => ?_) h
  have hstart : ∀ p ∈ l, bitStart (dip'.io p).t = bitStart (dip.io p).t := fun p hp =>
    congrArg QueueIo.start (hio p hp)
  beta_reduce
  rw [hstart m hm, hstart m' hm']
  exact hlt

theorem Sound.kept (h : dip.Sound) (hk : dip.Kept dip') : dip'.Sound where
  sorted := by
    rw [hk.queue]
    exact sorted_congr h.sorted fun p _ => hk.io p
  live := by
    rw [hk.queue, hk.preCulling]
    exact h.live

theorem io_setIo_self (dip : DInfo) (p : ℕ) (f : BttIo → BttIo) :
    (dip.setIo p f).io p = f (dip.io p) :=
  update_self _ _ _

theorem io_setIo_of_ne {m : ℕ} (hne : m ≠ p) (f : BttIo → BttIo) :
    (dip.setIo p f).io m = dip.io m :=
  update_of_ne hne _ _

theorem kept_setIo (dip : DInfo) (p : ℕ) {f : BttIo → BttIo} (ht : ∀ q, (f q).t = q.t) :
    dip.Kept (dip.setIo p f) where
  queue := rfl
  preCulling := rfl
  io m := by
    obtain rfl | hne := eq_or_ne m p
    · rw [queueIo, io_setIo_self, ht, queueIo]
    · rw [queueIo, io_setIo_of_ne hne, queueIo]

theorem touched_setIo (dip : DInfo) (p : ℕ) {f : BttIo → BttIo} (ht : ∀ q, (f q).t = q.t)
    (hd : ∀ q, q.dTime ≠ -1 → (f q).dTime ≠ -1) : dip.Touched (dip.setIo p f) where
  toKept := kept_setIo dip p ht
  dTime m hm := by
    obtain rfl | hne := eq_or_ne m p
    · rw [io_setIo_self]
      exact hd _ hm
    · rw [io_setIo_of_ne hne]
      exact hm

theorem touched_atSec (dip : DInfo) (t : BlkIoTraceRecord) {f : BttIo → BttIo}
    (ht : ∀ q, (f q).t = q.t) (hd : ∀ q, q.dTime ≠ -1 → (f q).dTime ≠ -1) :
    dip.Touched (dip.atSec t f) ∧ Moved dip (dip.atSec t f) 0 0 := by
  rw [atSec]
  split
  · exact ⟨touched_setIo dip _ ht hd, moved_of_eq rfl rfl⟩
  · exact ⟨touched_rfl dip, moved_of_eq rfl rfl⟩

theorem touched_bothStats (dip : DInfo) (f : BttStats → BttStats) :
    dip.Touched (dip.bothStats f) := ⟨⟨rfl, rfl, fun _ => rfl⟩, fun _ h => h⟩

theorem touched_nActQ (dip : DInfo) (n : UInt64) :
    dip.Touched { dip with nActQ := n } ∧ Moved dip { dip with nActQ := n } 0 0 :=
  ⟨⟨⟨rfl, rfl, fun _ => rfl⟩, fun _ h => h⟩, moved_of_eq rfl rfl⟩

theorem touched_handleG (dip : DInfo) (t : BlkIoTraceRecord) :
    dip.Touched (dip.handleG t) ∧ Moved dip (dip.handleG t) 0 1 := by
  obtain ⟨htouched, hmoved⟩ := touched_atSec dip.iostatGetrq t
    (f := fun q => { q with gTime := t.time }) (fun _ => rfl) fun _ h => h
  have hcount : Moved dip dip.iostatGetrq 0 1 :=
    ⟨⟨(add_zero _).symm, rfl⟩, (add_zero _).symm, rfl⟩
  exact ⟨(touched_bothStats dip _).trans htouched, hcount.trans hmoved⟩

theorem touched_handleM (dip : DInfo) (t : BlkIoTraceRecord) :
    dip.Touched (dip.handleM t) ∧ Moved dip (dip.handleM t) 0 0 := by
  obtain ⟨htouched, hmoved⟩ := touched_atSec (dip.iostatMerge t) t
    (f := fun q => { q with mTime := t.time }) (fun _ => rfl) fun _ h => h
  have hmerge : Moved dip (dip.iostatMerge t) 0 0 :=
    ⟨⟨(add_zero _).symm, (add_zero _).symm⟩, (add_zero _).symm, (add_zero _).symm⟩
  have hsec := (touched_bothStats dip _).trans htouched
  rw [handleM]
  split
  · obtain ⟨hless, hsame⟩ := touched_nActQ
      ((dip.iostatMerge t).atSec t fun q => { q with mTime := t.time }) _
    exact ⟨hsec.trans hless, (hmerge.trans hmoved).trans hsame⟩
  · exact ⟨hsec, hmerge.trans hmoved⟩

def issued (dip : DInfo) (t : BlkIoTraceRecord) : DInfo :=
  let dip := if dip.nActQ ≠ 0 then { dip with nActQ := dip.nActQ - 1 } else dip
  { dip.iostatIssue t with nDs := dip.nDs + 1 }

theorem touched_issued (dip : DInfo) (t : BlkIoTraceRecord) :
    dip.Touched (dip.issued t) ∧ Moved dip (dip.issued t) 1 0 := by
  rw [issued]
  split <;>
    exact ⟨⟨⟨rfl, rfl, fun _ => rfl⟩, fun _ h => h⟩, ⟨rfl, (add_zero _).symm⟩, rfl, (add_zero _).symm⟩

theorem kept_dispatch (t : BlkIoTraceRecord) (ps : List ℕ) (dip : DInfo) :
    let dip' := ps.foldl (fun dip p => dip.setIo p fun q =>
      { q with dTime := t.time, dSec := t.sector, dNsec := t.tSec }) dip
    dip.Kept dip' ∧ Moved dip dip' 0 0 := by
  induction ps generalizing dip with
  | nil => exact ⟨(touched_rfl dip).toKept, moved_of_eq rfl rfl⟩
  | cons p ps ih =>
    let f : BttIo → BttIo := fun q => { q with dTime := t.time, dSec := t.sector, dNsec := t.tSec }
    have hset : dip.Kept (dip.setIo p f) := kept_setIo dip p fun _ => rfl
    have hmoved : Moved dip (dip.setIo p f) 0 0 := moved_of_eq rfl rfl
    obtain ⟨hkept, hrest⟩ := ih (dip.setIo p f)
    exact ⟨hset.trans hkept, hmoved.trans hrest⟩

theorem kept_handleIssue (dip : DInfo) (t : BlkIoTraceRecord) :
    dip.Kept (dip.handleIssue t) ∧ Moved dip (dip.handleIssue t) 1 0 := by
  obtain ⟨htouched, hmoved⟩ := touched_issued dip t
  obtain ⟨hkept, hsame⟩ := kept_dispatch t ((dip.issued t).foreachList t) (dip.issued t)
  exact ⟨htouched.toKept.trans hkept, hmoved.trans hsame⟩

theorem walked_complete (rb : RbBalance ℕ) (t : BlkIoTraceRecord) (ps : List ℕ) (dip : DInfo) :
    let dip' := ps.foldl (completeIo rb t) dip
    dip'.io = dip.io ∧ dip'.preCulling = dip.preCulling ∧
      dip'.queue.toList = dip.queue.toList.diff ps ∧
      Moved dip dip' (-(ps.countP fun p => (dip.io p).dTime ≠ -1 : ℕ))
        (-(ps.countP fun p => (dip.io p).dTime ≠ -1 : ℕ)) := by
  induction ps generalizing dip with
  | nil => exact ⟨rfl, rfl, rfl, moved_of_eq rfl rfl⟩
  | cons p ps ih =>
    obtain ⟨hio, hculling, hlist, hmoved⟩ := ih (completeIo rb t dip p)
    have hfirst : (completeIo rb t dip p).io = dip.io ∧
        (completeIo rb t dip p).preCulling = dip.preCulling ∧
        (completeIo rb t dip p).queue.toList = dip.queue.toList.erase p := by
      rw [completeIo]
      split <;> exact ⟨rfl, rfl, rb.erase_toList p dip.queue⟩
    have hcount : Moved dip (completeIo rb t dip p) (-(if (dip.io p).dTime ≠ -1 then 1 else 0))
        (-(if (dip.io p).dTime ≠ -1 then 1 else 0)) := by
      rw [completeIo]
      split
      · exact ⟨⟨rfl, rfl⟩, rfl, rfl⟩
      · exact moved_of_eq rfl rfl
    rw [hfirst.1] at hio hmoved
    rw [hfirst.2.1] at hculling
    rw [hfirst.2.2] at hlist
    refine ⟨hio, hculling, ?_, ?_⟩
    · rw [List.diff_cons]
      exact hlist
    · have hboth := hcount.trans hmoved
      rw [← neg_add] at hboth
      rw [List.countP_cons, Nat.cast_add, add_comm, Nat.cast_ite]
      simpa using hboth

theorem countP_eq_one_iff {l : List ℕ} (h : l.Nodup) (f : ℕ → Bool) :
    l.countP f = 1 ↔ ∃! p, p ∈ l ∧ f p = true := by
  rw [List.countP_eq_length_filter, List.length_eq_one_iff]
  constructor
  · rintro ⟨p, hp⟩
    have hmem : ∀ m, m ∈ l ∧ f m = true ↔ m = p := by
      intro m
      rw [← List.mem_filter, hp, List.mem_singleton]
    exact ⟨p, (hmem p).mpr rfl, fun m hm => (hmem m).mp hm⟩
  · rintro ⟨p, hp, hunique⟩
    have hnodup : (l.filter f).Nodup := h.filter f
    refine ⟨p, List.perm_singleton.mp ?_⟩
    refine (List.perm_ext_iff_of_nodup hnodup (List.nodup_singleton p)).mpr fun m => ?_
    rw [List.mem_filter, List.mem_singleton]
    refine ⟨hunique m, ?_⟩
    rintro rfl
    exact hp

theorem handled_of_live (hdata : t.bytes ≠ 0) (hlive : dip.preCulling = false)
    (handle : DInfo → BlkIoTraceRecord → DInfo) : dip.handled t handle = handle dip t := by
  rw [handled, if_neg hdata, ioSetup, hlive]
  rfl

theorem handled_of_not (h : ¬ (t.bytes ≠ 0 ∧ dip.preCulling = false))
    (handle : DInfo → BlkIoTraceRecord → DInfo) : dip.handled t handle = dip := by
  rw [handled]
  split
  · rfl
  · rename_i hdata
    have hculling : dip.preCulling = true := eq_true_of_ne_false fun hlive => h ⟨hdata, hlive⟩
    rw [ioSetup, hculling]
    rfl

theorem Sound.handled (h : dip.Sound) {handle : DInfo → BlkIoTraceRecord → DInfo}
    (hhandle : (handle dip t).Sound) : (dip.handled t handle).Sound := by
  by_cases hlive : t.bytes ≠ 0 ∧ dip.preCulling = false
  · rw [handled_of_live hlive.1 hlive.2]
    exact hhandle
  · rw [handled_of_not hlive]
    exact h

theorem moved_handled {handle : DInfo → BlkIoTraceRecord → DInfo}
    (h : Moved dip (handle dip t) 0 0) : Moved dip (dip.handled t handle) 0 0 := by
  by_cases hlive : t.bytes ≠ 0 ∧ dip.preCulling = false
  · rw [handled_of_live hlive.1 hlive.2]
    exact h
  · rw [handled_of_not hlive]
    exact moved_of_eq rfl rfl

theorem mem_foreachList_iff (h : dip.Sound) :
    p ∈ dip.foreachList t ∧ decide ((dip.io p).dTime ≠ -1) = true ↔ dip.Ended t p := by
  rw [foreachList, RangeTree.mem_gather_iff h.sorted, decide_eq_true_iff]
  constructor
  · rintro ⟨⟨hmem, hstart, hstop, hfound⟩, hdispatched⟩
    exact ⟨hmem, hstart, hstop, hfound, hdispatched⟩
  · rintro ⟨hmem, hstart, hstop, hfound, hdispatched⟩
    exact ⟨⟨hmem, hstart, hstop, hfound⟩, hdispatched⟩

theorem ended_countP (h : dip.Sound) :
    ((dip.foreachList t).countP fun p => (dip.io p).dTime ≠ -1) = 1 ↔ ∃! p, dip.Ended t p := by
  have hnodup : (dip.foreachList t).Nodup := RangeTree.gather_nodup h.sorted
  rw [countP_eq_one_iff hnodup]
  exact existsUnique_congr fun p => mem_foreachList_iff h

theorem Sound.complete (h : dip.Sound) (rb : RbBalance ℕ) : (dip.handleComplete rb t).Sound := by
  obtain ⟨hio, hculling, hlist, -⟩ := walked_complete rb t (dip.foreachList t) dip
  have hsub : (dip.handleComplete rb t).queue.toList.Sublist dip.queue.toList := by
    rw [handleComplete, hlist]
    exact List.diff_sublist _ _
  refine ⟨?_, fun hne => ?_⟩
  · rw [handleComplete, hio]
    exact List.Pairwise.sublist hsub h.sorted
  · rw [handleComplete, hculling]
    refine h.live fun hnil => hne ?_
    rw [hnil] at hsub
    exact List.eq_nil_of_sublist_nil hsub

theorem Sound.queued (h : dip.Sound) (rb : RbBalance ℕ) (hp : p ∉ dip.queue.toList) :
    (dip.traceQueue rb t p).Sound := by
  rw [traceQueue]
  split
  · exact h
  · let read : DInfo := { dip with io := update dip.io p (zeroIo t), preCulling := false }
    have hread : ∀ m ∈ dip.queue.toList, read.queueIo m = dip.queueIo m := by
      intro m hm
      refine congrArg (fun io : BttIo => QueueIo.of io.t) (update_of_ne ?_ _ _)
      rintro rfl
      exact hp hm
    have hsorted := sorted_congr h.sorted hread
    dsimp only
    by_cases hnew : ∀ m ∈ dip.queue.toList, bitStart (read.io p).t ≠ bitStart (read.io m).t
    · obtain ⟨queue, hinsert, -, hqueue⟩ := RangeTree.insert_sorted hsorted hnew
      rw [show dip.queue.insert (fun q => bitStart (update dip.io p (zeroIo t) q).t) p = some queue
        from hinsert]
      let grown : DInfo := { read with queue := rb.insertColor queue }
      have hgrown : grown.Sound := by
        refine ⟨?_, fun _ => rfl⟩
        rw [show grown.queue.toList = queue.toList from rb.insertColor_toList queue]
        exact hqueue
      obtain ⟨hlist, hculling, hio⟩ := kept_setIo grown p
        (f := fun q => { q with iTime := -1, gTime := -1, mTime := -1, dTime := -1 }) fun _ => rfl
      exact hgrown.kept ⟨hlist, hculling, hio⟩
    · push Not at hnew
      obtain ⟨m, hm, heq⟩ := hnew
      rw [show dip.queue.insert (fun q => bitStart (update dip.io p (zeroIo t) q).t) p = none from
        RangeTree.insert_sorted_of_mem hsorted hm heq]
      exact ⟨hsorted, fun _ => rfl⟩

theorem moved_queued (rb : RbBalance ℕ) : Moved dip (dip.traceQueue rb t p) 0 0 := by
  rw [traceQueue]
  split
  · exact moved_of_eq rfl rfl
  · dsimp only
    split <;> exact moved_of_eq rfl rfl

theorem Sound.addTraceAction (h : dip.Sound) (btt : Btt) (hp : p ∉ dip.queue.toList) :
    (dip.addTraceAction btt t p).Sound := by
  have hsec : ∀ f : BttIo → BttIo, (∀ q, (f q).t = q.t) → (∀ q, (f q).dTime = q.dTime) →
      (dip.atSec t f).Sound := fun f ht hd =>
    h.kept (touched_atSec dip t ht fun q hq => (hd q).symm ▸ hq).1.toKept
  have hmerge : (dip.handleM t).Sound := h.kept (touched_handleM dip t).1.toKept
  rw [DInfo.addTraceAction]
  split_ifs
  · exact h.queued btt.rb hp
  · exact h
  · exact ⟨h.sorted, fun _ => rfl⟩
  · exact h.handled (hsec _ (fun _ => rfl) fun _ => rfl)
  · exact h.handled (h.kept (touched_handleG dip t).1.toKept)
  · exact h.handled hmerge
  · exact h.handled hmerge
  · exact ⟨h.sorted, h.live⟩
  · exact h
  · exact h.handled (h.kept (kept_handleIssue dip t).1)
  · exact h.handled (h.complete btt.rb)
  · exact h.handled (hsec _ (fun _ => rfl) fun _ => rfl)
  · exact h

theorem moved_addTraceAction (btt : Btt)
    (hkind : kind t ≠ blkTaGetrq ∧ kind t ≠ blkTaIssue ∧ kind t ≠ blkTaComplete) :
    Moved dip (dip.addTraceAction btt t p) 0 0 := by
  have hsec : ∀ f : BttIo → BttIo, (∀ q, (f q).t = q.t) → (∀ q, (f q).dTime = q.dTime) →
      Moved dip (dip.atSec t f) 0 0 := fun f ht hd =>
    (touched_atSec dip t ht fun q hq => (hd q).symm ▸ hq).2
  have hmerge := (touched_handleM dip t).2
  rw [DInfo.addTraceAction, if_neg hkind.1, if_neg hkind.2.1, if_neg hkind.2.2]
  split_ifs
  · exact moved_queued btt.rb
  · exact moved_of_eq rfl rfl
  · exact moved_of_eq rfl rfl
  · exact moved_handled (hsec _ (fun _ => rfl) fun _ => rfl)
  · exact moved_handled hmerge
  · exact moved_handled hmerge
  · exact moved_of_eq rfl rfl
  · exact moved_of_eq rfl rfl
  · exact moved_handled (hsec _ (fun _ => rfl) fun _ => rfl)
  · exact moved_of_eq rfl rfl

theorem addTrace_of_heard {btt : Btt} (h : btt.heard t = true) :
    dip.addTrace btt t p = (dip.addTraceAction btt t p, false) := by
  simp only [Btt.heard, Bool.and_eq_true, Bool.not_eq_true', Bool.and_eq_false_iff,
    Bool.or_eq_false_iff] at h
  obtain ⟨⟨hnotify, hpc⟩, hbound⟩ := h
  rw [addTrace, hnotify, hpc]
  obtain hbound | ⟨hearly, hlate⟩ := hbound
  · rw [hbound]
    rfl
  · rw [hearly, hlate, Bool.and_false]
    rfl

theorem addTrace_of_not_heard {btt : Btt} (h : btt.heard t = false) :
    (dip.addTrace btt t p).1 = dip := by
  rw [addTrace]
  split_ifs with hnotify hpc hearly hlate
  · rfl
  · rfl
  · rfl
  · rfl
  · -- none of the four tests has held, so that the trace is heard
    rw [Btt.heard] at h
    simp_all

theorem Sound.addTrace (h : dip.Sound) (btt : Btt) (hp : p ∉ dip.queue.toList) :
    (dip.addTrace btt t p).1.Sound := by
  cases hheard : btt.heard t with
  | true =>
    rw [addTrace_of_heard hheard]
    exact h.addTraceAction btt hp
  | false =>
    rw [addTrace_of_not_heard hheard]
    exact h

theorem moved_addTrace (btt : Btt)
    (hkind : btt.heard t = true →
      kind t ≠ blkTaGetrq ∧ kind t ≠ blkTaIssue ∧ kind t ≠ blkTaComplete) :
    Moved dip (dip.addTrace btt t p).1 0 0 := by
  cases hheard : btt.heard t with
  | true =>
    rw [addTrace_of_heard hheard]
    exact moved_addTraceAction btt (hkind hheard)
  | false =>
    rw [addTrace_of_not_heard hheard]
    exact moved_of_eq rfl rfl

/-- The counters follow an event: it is heard where it moves them, nothing is requeued, and of the
I/Os that a completion gathers just one has been dispatched. -/
def Counted (dip : DInfo) (btt : Btt) (event : RequestEvent) (t : BlkIoTraceRecord) : Prop :=
  match event with
  | .getrq | .issue _ => btt.heard t = true ∧ t.bytes ≠ 0 ∧ dip.preCulling = false
  | .requeue _ => False
  | .complete _ => btt.heard t = true ∧ t.bytes ≠ 0 ∧ ∃! p, dip.Ended t p
  | _ => True

variable {r : BlkRequest} {i : ℕ}

theorem moved_addTrace_or (btt : Btt) {handle : DInfo → BlkIoTraceRecord → DInfo}
    (haction : dip.addTraceAction btt t p = dip.handled t handle) :
    (btt.heard t = true ∧ t.bytes ≠ 0 ∧ dip.preCulling = false) ∧
        (dip.addTrace btt t p).1 = handle dip t ∨
      ¬ (btt.heard t = true ∧ t.bytes ≠ 0 ∧ dip.preCulling = false) ∧
        (dip.addTrace btt t p).1 = dip := by
  cases hheard : btt.heard t with
  | true =>
    rw [addTrace_of_heard hheard, haction]
    by_cases hlive : t.bytes ≠ 0 ∧ dip.preCulling = false
    · exact .inl ⟨⟨rfl, hlive⟩, handled_of_live hlive.1 hlive.2 handle⟩
    · exact .inr ⟨fun h => hlive h.2, handled_of_not hlive handle⟩
  | false => exact .inr ⟨fun h => Bool.noConfusion h.1, addTrace_of_not_heard hheard⟩

theorem inBalance_still (hb : InBalance q dip) (hm : Moved dip dip' 0 0)
    (hissued : q'.requests.countP BlkRequest.issued = q.requests.countP BlkRequest.issued)
    (hlength : q'.requests.length = q.requests.length) : InBalance q' dip' := by
  rw [inBalance_moved_iff hb hm, hissued, hlength, add_zero, add_zero]
  exact ⟨rfl, rfl⟩

theorem inBalance_getrq_iff (hb : InBalance q dip) (btt : Btt) (hkind : kind t = blkTaGetrq)
    (hissued : r.issued = false) (hrequests : q'.requests = q.requests ++ [r]) :
    InBalance q' (dip.addTrace btt t p).1 ↔
      btt.heard t = true ∧ t.bytes ≠ 0 ∧ dip.preCulling = false := by
  have haction : dip.addTraceAction btt t p = dip.handled t handleG := by
    rw [DInfo.addTraceAction, hkind]
    rfl
  have hcount : q'.requests.countP BlkRequest.issued = q.requests.countP BlkRequest.issued ∧
      q'.requests.length = q.requests.length + 1 := by
    rw [hrequests, List.countP_append, List.countP_singleton, hissued, List.length_append]
    exact ⟨rfl, rfl⟩
  obtain ⟨hyes, heq⟩ | ⟨hno, heq⟩ := moved_addTrace_or btt haction
  · refine iff_of_true ?_ hyes
    rw [heq, inBalance_moved_iff hb (touched_handleG dip t).2, hcount.1, hcount.2]
    exact ⟨add_zero _, rfl⟩
  · refine iff_of_false (fun hbal => ?_) hno
    rw [heq, inBalance_moved_iff hb (moved_of_eq rfl rfl), hcount.2] at hbal
    omega

theorem inBalance_issue_iff (hb : InBalance q dip) (btt : Btt) (hkind : kind t = blkTaIssue)
    (hr : q.requests[i]? = some r) (hissued : r.issued = false)
    (hrequests : q'.requests = q.requests.set i { r with issued := true }) :
    InBalance q' (dip.addTrace btt t p).1 ↔
      btt.heard t = true ∧ t.bytes ≠ 0 ∧ dip.preCulling = false := by
  have haction : dip.addTraceAction btt t p = dip.handled t handleIssue := by
    rw [DInfo.addTraceAction, hkind]
    rfl
  have hcount := countP_set hr { r with issued := true }
  have hlength : q'.requests.length = q.requests.length := by
    rw [hrequests, List.length_set]
  rw [← hrequests, hissued, if_neg Bool.false_ne_true, if_pos rfl, add_zero] at hcount
  obtain ⟨hyes, heq⟩ | ⟨hno, heq⟩ := moved_addTrace_or btt haction
  · refine iff_of_true ?_ hyes
    rw [heq, inBalance_moved_iff hb (kept_handleIssue dip t).2, hcount, hlength]
    exact ⟨rfl, add_zero _⟩
  · refine iff_of_false (fun hbal => ?_) hno
    rw [heq, inBalance_moved_iff hb (moved_of_eq rfl rfl), hcount] at hbal
    omega

theorem inBalance_complete_iff (hs : dip.Sound) (hb : InBalance q dip) (btt : Btt)
    (hkind : kind t = blkTaComplete) (hr : q.requests[i]? = some r) (hissued : r.issued = true)
    (hrequests : q'.requests = q.requests.eraseIdx i) :
    InBalance q' (dip.addTrace btt t p).1 ↔
      btt.heard t = true ∧ t.bytes ≠ 0 ∧ ∃! p, dip.Ended t p := by
  have haction : dip.addTraceAction btt t p = dip.handled t (handleComplete btt.rb) := by
    rw [DInfo.addTraceAction, hkind]
    rfl
  obtain ⟨hcount, hlength⟩ := countP_eraseIdx hr
  rw [← hrequests, hissued, if_pos rfl] at hcount
  rw [← hrequests] at hlength
  obtain ⟨hyes, heq⟩ | ⟨hno, heq⟩ := moved_addTrace_or btt haction
  · obtain ⟨-, -, -, hmoved⟩ := walked_complete btt.rb t (dip.foreachList t) dip
    rw [heq, handleComplete, inBalance_moved_iff hb hmoved, ← ended_countP hs]
    constructor
    · rintro ⟨hdev, -⟩
      exact ⟨hyes.1, hyes.2.1, by omega⟩
    · rintro ⟨-, -, hone⟩
      rw [hone]
      exact ⟨by omega, by omega⟩
  · refine iff_of_false (fun hbal => ?_) fun ⟨hheard, hdata, m, hm, _⟩ => hno ⟨hheard, hdata, ?_⟩
    · rw [heq, inBalance_moved_iff hb (moved_of_eq rfl rfl)] at hbal
      omega
    · exact hs.live (List.ne_nil_of_mem hm.mem)

theorem inBalance_next_iff (hs : dip.Sound) (hb : InBalance q dip) (btt : Btt)
    {event : RequestEvent} (hnext : q.next event t = some q') :
    InBalance q' (dip.addTrace btt t p).1 ↔ dip.Counted btt event t := by
  have hstill : ∀ k : UInt32, kind t = k →
      k ≠ blkTaGetrq ∧ k ≠ blkTaIssue ∧ k ≠ blkTaComplete →
      Moved dip (dip.addTrace btt t p).1 0 0 := fun k hkind hk =>
    moved_addTrace btt fun _ => hkind ▸ hk
  cases event with
  | queue =>
    rw [RequestQueue.next] at hnext
    split at hnext
    · rename_i hkind
      cases hnext
      exact iff_of_true (inBalance_still hb (hstill _ hkind (by decide)) rfl rfl) trivial
    · cases hnext
  | getrq =>
    rw [RequestQueue.next] at hnext
    split at hnext
    · rename_i hall
      cases hnext
      exact inBalance_getrq_iff hb btt hall.1 rfl rfl
    · cases hnext
  | backmerge i =>
    obtain ⟨r, hr, hnext⟩ := Option.bind_eq_some_iff.mp hnext
    split at hnext
    · rename_i hall
      cases hnext
      exact iff_of_true (inBalance_still hb (hstill _ hall.1 (by decide))
        (Nat.add_right_cancel (countP_set hr _)) List.length_set) trivial
    · cases hnext
  | frontmerge i =>
    obtain ⟨r, hr, hnext⟩ := Option.bind_eq_some_iff.mp hnext
    split at hnext
    · rename_i hall
      cases hnext
      exact iff_of_true (inBalance_still hb (hstill _ hall.1 (by decide))
        (Nat.add_right_cancel (countP_set hr _)) List.length_set) trivial
    · cases hnext
  | insert i =>
    obtain ⟨r, hr, hnext⟩ := Option.bind_eq_some_iff.mp hnext
    split at hnext
    · rename_i hall
      cases hnext
      exact iff_of_true (inBalance_still hb (hstill _ hall.1 (by decide)) rfl rfl) trivial
    · cases hnext
  | issue i =>
    obtain ⟨r, hr, hnext⟩ := Option.bind_eq_some_iff.mp hnext
    split at hnext
    · rename_i hall
      cases hnext
      exact inBalance_issue_iff hb btt hall.1 hr hall.2.1 rfl
    · cases hnext
  | requeue i =>
    obtain ⟨r, hr, hnext⟩ := Option.bind_eq_some_iff.mp hnext
    split at hnext
    · rename_i hall
      cases hnext
      refine iff_of_false (fun hbal => ?_) not_false
      have hcount := countP_set hr { r with issued := false }
      rw [hall.2.1, if_pos rfl, if_neg Bool.false_ne_true] at hcount
      have hdev := ((inBalance_moved_iff hb (hstill _ hall.1 (by decide))).mp hbal).1
      rw [← Int.natCast_inj] at hcount
      push_cast at hcount
      linarith
    · cases hnext
  | complete i =>
    obtain ⟨r, hr, hnext⟩ := Option.bind_eq_some_iff.mp hnext
    split at hnext
    · rename_i hall
      cases hnext
      exact inBalance_complete_iff hs hb btt hall.1 hr hall.2.1 rfl
    · cases hnext
  | other =>
    rw [RequestQueue.next] at hnext
    split at hnext
    · rename_i hor
      cases hnext
      have hkind : btt.heard t = true →
          kind t ≠ blkTaGetrq ∧ kind t ≠ blkTaIssue ∧ kind t ≠ blkTaComplete := by
        intro hheard
        obtain hnotify | hnot := hor
        · rw [Btt.heard, hnotify] at hheard
          cases hheard
        · simp only [List.mem_cons, not_or] at hnot
          exact ⟨hnot.2.1, hnot.2.2.2.2.2.1, hnot.2.2.2.2.2.2.2.1⟩
      exact iff_of_true (inBalance_still hb (moved_addTrace btt hkind) rfl rfl) trivial
    · cases hnext

end DInfo

end SBlktrace
