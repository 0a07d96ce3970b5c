import SBlktrace.ReplayThreads

namespace SBlktrace

open Function

def Sender.mapped {ι : Type} : Sender ι → List ι
  | .ioSubmit list _ => list
  | _ => []

def Sender.left {ι : Type} : Sender ι → List IoPkt
  | .processBunch pkts | .nfreeCurrent pkts | .asleep pkts | .iocbsMap _ pkts | .ioSubmit _ pkts
  | .countOut _ pkts => pkts
  | .nextBunch | .finished => []

def Sender.uncounted {ι : Type} : Sender ι → ℤ
  | .countOut ndone _ => ndone
  | _ => 0

def Sender.Ok {ι : Type} (naiosFree : ℤ) : Sender ι → Prop
  | .nfreeCurrent pkts | .asleep pkts => pkts ≠ []
  | .iocbsMap nfree pkts => 0 < nfree ∧ nfree ≤ naiosFree ∧ pkts ≠ []
  | .countOut ndone _ => 0 ≤ ndone
  | _ => True

theorem Sender.Ok.mono {ι : Type} {free free' : ℤ} {sender : Sender ι} (h : sender.Ok free)
    (hle : free ≤ free') : sender.Ok free' := by
  cases sender with
  | iocbsMap nfree pkts => exact ⟨h.1, h.2.1.trans hle, h.2.2⟩
  | _ => exact h

def Reaper.held {ι : Type} : Reaper ι → List ι
  | .reclaimIos _ events => events
  | _ => []

def Reaper.Ok {ι : Type} (naiosOut : ℤ) : Reaper ι → Prop
  | .ioGetevents limit => 0 < limit ∧ limit ≤ naiosOut
  | .reclaimIos limit events => events.length ≤ limit ∧ limit ≤ naiosOut
  | _ => True

theorem Reaper.Ok.mono {ι : Type} {out out' : ℤ} {reaper : Reaper ι} (h : reaper.Ok out)
    (hle : out ≤ out') : reaper.Ok out' := by
  cases reaper with
  | ioGetevents limit => exact ⟨h.1, h.2.trans hle⟩
  | reclaimIos limit events => exact ⟨h.1, h.2.trans hle⟩
  | _ => trivial

namespace ThrInfo

variable {ι : Type} {tip tip' : ThrInfo ι}

theorem signalReaper_held (tip : ThrInfo ι) : tip.signalReaper.reaper.held = tip.reaper.held := by
  cases h : tip.reaper <;> simp [signalReaper, h, Reaper.held]

theorem signalReaper_ok {out : ℤ} (h : tip.reaper.Ok out) : tip.signalReaper.reaper.Ok out := by
  cases hreaper : tip.reaper <;> rw [hreaper] at h <;>
    simp_all [signalReaper, Reaper.Ok]

theorem signalSender_phase (tip : ThrInfo ι) :
    tip.signalSender.sender.mapped = tip.sender.mapped ∧
      tip.signalSender.sender.left = tip.sender.left ∧
      tip.signalSender.sender.uncounted = tip.sender.uncounted := by
  cases h : tip.sender <;>
    simp [signalSender, h, Sender.mapped, Sender.left, Sender.uncounted]

theorem signalSender_ok {free : ℤ} (h : tip.sender.Ok free) : tip.signalSender.sender.Ok free := by
  cases hsender : tip.sender <;> rw [hsender] at h <;>
    simp_all [signalSender, Sender.Ok]

def handed (step : ReplayStep ι) : List ι :=
  match step.2.1 with
  | .iocbsMap => step.2.2.sender.mapped
  | _ => []

def reaped (step : ReplayStep ι) : List ι :=
  match step.2.1 with
  | .ioGetevents events => events
  | _ => []

def readPkts (step : ReplayStep ι) : List IoPkt :=
  match step.2.1 with
  | .nextBunch bunch => bunch.pkts
  | _ => []

def submitted (step : ReplayStep ι) : List IoRequest :=
  match step.2.1 with
  | .ioSubmit => step.1.sender.mapped.map fun x => (step.1.iocb x).io
  | _ => []

variable [DecidableEq ι]

/-- The lists and counters against what the run has handed out, submitted and reaped. -/
structure Accounted (pool : ReplayPool ι) (steps : List (ReplayStep ι)) (tip : ThrInfo ι) :
    Prop where
  perm : (tip.freeIocbs ++ tip.usedIocbs).Perm pool.iocbs
  free : (tip.freeIocbs.length : ℤ) = tip.naiosFree
  used : tip.usedIocbs.Perm (tip.sender.mapped ++ tip.inFlight ++ tip.reaper.held)
  out : tip.naiosOut + tip.sender.uncounted = tip.inFlight.length + tip.reaper.held.length
  nonneg : 0 ≤ tip.naiosOut
  sender : tip.sender.Ok tip.naiosFree
  reaper : tip.reaper.Ok tip.naiosOut
  io : steps.flatMap submitted ++ tip.sender.mapped.map (fun x => (tip.iocb x).io) ++
      tip.sender.left.map (·.request pool.writeEnabled) =
    (steps.flatMap readPkts).map (·.request pool.writeEnabled)
  count : ∀ x, (steps.flatMap handed).count x =
    (steps.flatMap reaped).count x + (tip.sender.mapped ++ tip.inFlight).count x

variable {pool : ReplayPool ι} {steps : List (ReplayStep ι)}
  {act : ReplayAction ι}

theorem accounted_tipInit : Accounted pool [] (tipInit pool) where
  perm := by
    rw [tipInit, List.append_nil]
  free := rfl
  used := List.Perm.refl _
  out := rfl
  nonneg := le_refl _
  sender := trivial
  reaper := trivial
  io := rfl
  count x := rfl

theorem Accounted.quiet {step : ReplayStep ι} (h : Accounted pool steps tip)
    (hhanded : handed step = []) (hreaped : reaped step = []) (hread : readPkts step = [])
    (hsubmitted : submitted step = []) (hfree : tip'.freeIocbs = tip.freeIocbs)
    (hused : tip'.usedIocbs = tip.usedIocbs) (hiocb : tip'.iocb = tip.iocb)
    (hnaios : tip'.naiosFree = tip.naiosFree) (hout : tip'.naiosOut = tip.naiosOut)
    (hflight : tip'.inFlight = tip.inFlight) (hmapped : tip'.sender.mapped = tip.sender.mapped)
    (hleft : tip'.sender.left = tip.sender.left)
    (huncounted : tip'.sender.uncounted = tip.sender.uncounted)
    (hheld : tip'.reaper.held = tip.reaper.held) (hsender : tip'.sender.Ok tip'.naiosFree)
    (hreaper : tip'.reaper.Ok tip'.naiosOut) : Accounted pool (steps ++ [step]) tip' where
  perm := by rw [hfree, hused]; exact h.perm
  free := by rw [hfree, hnaios]; exact h.free
  used := by rw [hused, hmapped, hflight, hheld]; exact h.used
  out := by rw [hout, huncounted, hflight, hheld]; exact h.out
  nonneg := by rw [hout]; exact h.nonneg
  sender := hsender
  reaper := hreaper
  io := by
    rw [hmapped, hleft, hiocb, List.flatMap_append, List.flatMap_append, List.flatMap_singleton,
      List.flatMap_singleton, hread, hsubmitted, List.append_nil, List.append_nil]
    exact h.io
  count x := by
    rw [hmapped, hflight, List.flatMap_append, List.flatMap_append, List.flatMap_singleton,
      List.flatMap_singleton, hhanded, hreaped, List.append_nil, List.append_nil]
    exact h.count x

theorem mapPkts_spec {writeEnabled : Bool} {list : List ι} {pkts : List IoPkt}
    {r : ThrInfo ι × List ι} (hnodup : tip.freeIocbs.Nodup)
    (h : tip.mapPkts writeEnabled list pkts = some r) :
    ∃ taken, r.2 = list ++ taken ∧ tip.freeIocbs = taken ++ r.1.freeIocbs ∧
      r.1.usedIocbs = tip.usedIocbs ++ taken ∧ taken.length = pkts.length ∧
      taken.map (fun x => (r.1.iocb x).io) = pkts.map (·.request writeEnabled) ∧
      ∀ x ∉ taken, r.1.iocb x = tip.iocb x := by
  induction pkts generalizing tip list with
  | nil =>
    cases h
    exact ⟨[], by simp⟩
  | cons pkt pkts ih =>
    rw [mapPkts] at h
    split at h
    · cases h
    · rename_i x free hfree
      obtain ⟨iocbp, hsetup, h⟩ := Option.bind_eq_some_iff.mp h
      rw [hfree, List.nodup_cons] at hnodup
      obtain ⟨taken, hlist, htaken, hused, hlen, hio, hother⟩ := ih hnodup.2 h
      dsimp only at htaken hused hother
      have hx : x ∉ taken := by
        rw [htaken] at hnodup
        exact fun hmem => hnodup.1 (List.mem_append_left _ hmem)
      refine ⟨x :: taken, ?_, ?_, ?_, ?_, ?_, ?_⟩
      · rw [hlist, List.append_assoc, List.singleton_append]
      · rw [hfree, htaken, List.cons_append]
      · rw [hused, List.append_assoc, List.singleton_append]
      · rw [List.length_cons, List.length_cons, hlen]
      · rw [List.map_cons, List.map_cons, hio, hother x hx, update_self, IoPkt.setup_io hsetup]
      · intro y hy
        rw [List.mem_cons, not_or] at hy
        rw [hother y hy.2, update_of_ne hy.1]

theorem iocbsMap_spec {pkts : List IoPkt} {ntodo : ℕ} {r : ThrInfo ι × List ι}
    (hnodup : tip.freeIocbs.Nodup) (h : tip.iocbsMap pool pkts ntodo = some r) :
    tip.freeIocbs = r.2 ++ r.1.freeIocbs ∧ r.1.usedIocbs = tip.usedIocbs ++ r.2 ∧
      r.2.length = (pkts.take ntodo).length ∧
      r.2.map (fun x => (r.1.iocb x).io) = (pkts.take ntodo).map (·.request pool.writeEnabled) := by
  obtain ⟨r', hr', rfl⟩ := iocbsMap_mapPkts h
  obtain ⟨taken, hlist, htaken, hused, hlen, hio, -⟩ := mapPkts_spec hnodup hr'
  rw [List.nil_append] at hlist
  rw [← hlist] at htaken hused hlen hio
  exact ⟨htaken, hused, hlen, hio⟩

theorem moveFree_spec {events rest : List ι} (h : tip.usedIocbs.Perm (events ++ rest)) :
    (tip.moveFree events).freeIocbs = tip.freeIocbs ++ events ∧
      (tip.moveFree events).usedIocbs.Perm rest := by
  induction events generalizing tip with
  | nil => exact ⟨(List.append_nil _).symm, h⟩
  | cons x events ih =>
    have herase := h.erase x
    rw [List.cons_append, List.erase_cons_head] at herase
    obtain ⟨hfree, hused⟩ := @ih
      { tip with usedIocbs := tip.usedIocbs.erase x, freeIocbs := tip.freeIocbs ++ [x] } herase
    refine ⟨?_, hused⟩
    rw [List.append_assoc, List.singleton_append] at hfree
    exact hfree

theorem Accounted.nodup (h : Accounted pool steps tip) :
    (tip.freeIocbs ++ tip.usedIocbs).Nodup :=
  h.perm.nodup_iff.mpr pool.nodup

theorem Accounted.used_nodup (h : Accounted pool steps tip) :
    (tip.sender.mapped ++ tip.inFlight ++ tip.reaper.held).Nodup :=
  h.used.nodup_iff.mp (List.nodup_append'.mp h.nodup).2.1

theorem Accounted.nextBunch {bunch : IoBunch} (h : Accounted pool steps tip)
    (hnext : tip.next pool (.nextBunch bunch) = some tip') :
    Accounted pool (steps ++ [(tip, .nextBunch bunch, tip')]) tip' := by
  obtain ⟨hsender, -, rfl⟩ := next_nextBunch hnext
  obtain ⟨perm, free, used, out, nonneg, -, reaper, io, count⟩ := h
  rw [hsender] at used out io count
  refine ⟨perm, free, used, out, nonneg, trivial, reaper, ?_, ?_⟩
  · rw [List.flatMap_append, List.flatMap_append, List.flatMap_singleton, List.flatMap_singleton,
      List.map_append, ← io]
    simp [submitted, readPkts, Sender.mapped, Sender.left]
  · intro x
    rw [List.flatMap_append, List.flatMap_append, List.flatMap_singleton, List.flatMap_singleton]
    simpa [handed, reaped, Sender.mapped] using count x

theorem Accounted.iocbsMap (h : Accounted pool steps tip)
    (hnext : tip.next pool .iocbsMap = some tip') :
    Accounted pool (steps ++ [(tip, .iocbsMap, tip')]) tip' := by
  obtain ⟨nfree, pkts, r, hsender, hr, rfl⟩ := next_iocbsMap hnext
  obtain ⟨hfree, hused, hlen, hio⟩ := iocbsMap_spec (List.nodup_append'.mp h.nodup).1 hr
  have hframe := iocbsMap_frame hr
  have hflight : r.1.inFlight = tip.inFlight := by rw [hframe]
  have hout : r.1.naiosOut = tip.naiosOut := by rw [hframe]
  have hreaper : r.1.reaper = tip.reaper := by rw [hframe]
  have hnaios := congrArg ThrInfo.naiosFree hframe
  obtain ⟨perm, free, used, out, nonneg, -, reaper, io, count⟩ := h
  rw [hsender] at used out io count
  refine ⟨?_, ?_, ?_, ?_, ?_, trivial, ?_, ?_, ?_⟩
  · dsimp only
    rw [hused, ← List.append_assoc]
    refine List.perm_append_comm.trans ?_
    rw [← List.append_assoc, ← hfree]
    exact perm
  · dsimp only at hnaios ⊢
    rw [hfree, List.length_append, hlen, List.length_take] at free
    omega
  · dsimp only
    rw [hused, hflight, hreaper]
    exact (used.append_right r.2).trans (List.perm_append_comm.trans (by simp [Sender.mapped]))
  · dsimp only
    rw [hout, hflight, hreaper]
    exact out
  · dsimp only
    rw [hout]
    exact nonneg
  · dsimp only
    rw [hreaper, hout]
    exact reaper
  · simp only [List.flatMap_append, List.flatMap_singleton, submitted, readPkts, Sender.mapped,
      Sender.left, List.append_nil, List.map_nil] at io ⊢
    rw [hio, List.append_assoc, ← List.map_append, List.take_append_drop, io]
  · intro x
    have hcount := count x
    simp only [List.flatMap_append, List.flatMap_singleton, handed, reaped, Sender.mapped,
      List.append_nil, List.nil_append, List.count_append, hflight] at hcount ⊢
    omega

theorem Accounted.ioSubmit (h : Accounted pool steps tip)
    (hnext : tip.next pool .ioSubmit = some tip') :
    Accounted pool (steps ++ [(tip, .ioSubmit, tip')]) tip' := by
  obtain ⟨list, pkts, hsender, rfl⟩ := next_ioSubmit hnext
  obtain ⟨perm, free, used, out, nonneg, -, reaper, io, count⟩ := h
  rw [hsender] at used out io count
  refine ⟨perm, free, ?_, ?_, nonneg, Int.natCast_nonneg _, reaper, ?_, ?_⟩
  · exact used.trans (List.Perm.append_right _ List.perm_append_comm)
  · simp only [Sender.uncounted, List.length_append] at out ⊢
    push_cast
    omega
  · rw [List.flatMap_append, List.flatMap_append, List.flatMap_singleton, List.flatMap_singleton,
      List.map_append, ← io]
    simp [submitted, readPkts, Sender.mapped, Sender.left, hsender]
  · intro x
    rw [List.flatMap_append, List.flatMap_append, List.flatMap_singleton, List.flatMap_singleton]
    have hcount := count x
    simp only [handed, reaped, Sender.mapped, List.append_nil, List.nil_append,
      List.count_append] at hcount ⊢
    omega

theorem Accounted.countOut (h : Accounted pool steps tip)
    (hnext : tip.next pool .countOut = some tip') :
    Accounted pool (steps ++ [(tip, .countOut, tip')]) tip' := by
  obtain ⟨ndone, pkts, hsender, -, rfl⟩ := next_countOut hnext
  obtain ⟨perm, free, used, out, nonneg, sender, reaper, io, count⟩ := h
  rw [hsender] at used out io count sender
  have hheld : (if tip.reapWait then tip.signalReaper.reaper else tip.reaper).held =
      tip.reaper.held := by
    split
    · exact signalReaper_held tip
    · rfl
  have hok : (if tip.reapWait then tip.signalReaper.reaper else tip.reaper).Ok
      (tip.naiosOut + ndone) := by
    split
    · exact signalReaper_ok (reaper.mono (le_add_of_nonneg_right sender))
    · exact reaper.mono (le_add_of_nonneg_right sender)
  refine ⟨perm, free, ?_, ?_, ?_, trivial, hok, ?_, ?_⟩
  · dsimp only
    rw [hheld]
    exact used
  · dsimp only
    rw [hheld]
    simpa [Sender.uncounted] using out
  · exact add_nonneg nonneg sender
  · rw [List.flatMap_append, List.flatMap_append, List.flatMap_singleton, List.flatMap_singleton]
    simpa [submitted, readPkts, Sender.mapped, Sender.left] using io
  · intro x
    rw [List.flatMap_append, List.flatMap_append, List.flatMap_singleton, List.flatMap_singleton]
    simpa [handed, reaped, Sender.mapped] using count x

theorem filter_append_perm {l events : List ι} (hl : l.Nodup) (hnodup : events.Nodup)
    (hsub : events ⊆ l) : l.Perm (l.filter (· ∉ events) ++ events) := by
  refine (List.perm_ext_iff_of_nodup hl ?_).mpr fun x => ?_
  · refine List.nodup_append'.mpr ⟨hl.filter _, hnodup, fun x hx hmem => ?_⟩
    exact of_decide_eq_true (List.mem_filter.mp hx).2 hmem
  · rw [List.mem_append, List.mem_filter, decide_eq_true_eq]
    have hmem := @hsub x
    tauto

theorem Accounted.ioGetevents {events : List ι} (h : Accounted pool steps tip)
    (hnext : tip.next pool (.ioGetevents events) = some tip') :
    Accounted pool (steps ++ [(tip, .ioGetevents events, tip')]) tip' := by
  obtain ⟨limit, hreaper, -, hle, hnodup, hsub, rfl⟩ := next_ioGetevents hnext
  have hflight : tip.inFlight.Nodup :=
    (List.nodup_append'.mp (List.nodup_append'.mp h.used_nodup).1).2.1
  have hperm := filter_append_perm hflight hnodup hsub
  obtain ⟨perm, free, used, out, nonneg, sender, reaper, io, count⟩ := h
  rw [hreaper] at used out reaper
  refine ⟨perm, free, ?_, ?_, nonneg, sender, ⟨hle, reaper.2⟩, ?_, ?_⟩
  · have hsplit := hperm.append_left tip.sender.mapped
    rw [← List.append_assoc] at hsplit
    simp only [Reaper.held, List.append_nil] at used
    exact used.trans hsplit
  · have hlen := hperm.length_eq
    rw [List.length_append] at hlen
    simp only [Reaper.held, List.length_nil] at out ⊢
    omega
  · rw [List.flatMap_append, List.flatMap_append, List.flatMap_singleton, List.flatMap_singleton]
    simpa [submitted, readPkts] using io
  · intro x
    rw [List.flatMap_append, List.flatMap_append, List.flatMap_singleton, List.flatMap_singleton]
    have hcount := count x
    have hx := hperm.count_eq x
    simp only [handed, reaped, List.append_nil, List.count_append] at hcount hx ⊢
    omega

theorem Accounted.reclaimIos (h : Accounted pool steps tip)
    (hnext : tip.next pool .reclaimIos = some tip') :
    Accounted pool (steps ++ [(tip, .reclaimIos, tip')]) tip' := by
  obtain ⟨limit, events, hreaper, rfl⟩ := next_reclaimIos hnext
  obtain ⟨perm, free, used, out, nonneg, sender, reaper, io, count⟩ := h
  rw [hreaper] at used out reaper
  obtain ⟨hfree, hused⟩ := moveFree_spec (used.trans List.perm_append_comm)
  simp only [Reaper.held] at hfree hused out
  obtain ⟨hle, hlimit⟩ := reaper
  have hphase : ∀ sender', sender' = (if tip.sendWait then tip.signalSender.sender else tip.sender) →
      sender'.mapped = tip.sender.mapped ∧ sender'.left = tip.sender.left ∧
        sender'.uncounted = tip.sender.uncounted ∧ sender'.Ok tip.naiosFree := by
    rintro _ rfl
    obtain ⟨hmapped, hleft, huncounted⟩ := signalSender_phase tip
    split
    · exact ⟨hmapped, hleft, huncounted, signalSender_ok sender⟩
    · exact ⟨rfl, rfl, rfl, sender⟩
  obtain ⟨hmapped, hleft, huncounted, hok⟩ := hphase _ rfl
  have hreap : ∀ limit' out' : ℤ, 0 ≤ limit' → limit' ≤ out' →
      (if limit' ≠ 0 then Reaper.ioGetevents limit' else .isReapDone : Reaper ι).held = [] ∧
        (if limit' ≠ 0 then Reaper.ioGetevents limit' else .isReapDone : Reaper ι).Ok out' := by
    intro limit' out' hnonneg hout'
    split
    · exact ⟨rfl, by omega, hout'⟩
    · exact ⟨rfl, trivial⟩
  obtain ⟨hheld, hreaper⟩ := hreap (min limit (tip.naiosOut - events.length))
    (tip.naiosOut - events.length) (by omega) (min_le_right _ _)
  rw [reclaim_eq]
  refine ⟨?_, ?_, ?_, ?_, ?_, hok.mono (by simp), hreaper, ?_, ?_⟩
  · dsimp only
    rw [hfree]
    have hback : (events ++ (tip.moveFree events).usedIocbs).Perm tip.usedIocbs :=
      (hused.append_left events).trans (used.trans List.perm_append_comm).symm
    rw [List.append_assoc]
    exact (hback.append_left tip.freeIocbs).trans perm
  · dsimp only
    rw [hfree, List.length_append, ← free]
    push_cast
    rfl
  · dsimp only
    rw [hmapped, hheld, List.append_nil]
    exact hused
  · dsimp only
    rw [huncounted, hheld, List.length_nil]
    omega
  · dsimp only
    omega
  · dsimp only
    rw [hmapped, hleft]
    simpa [List.flatMap_append, submitted, readPkts] using io
  · intro x
    dsimp only
    rw [hmapped]
    simpa [List.flatMap_append, handed, reaped] using count x

theorem Accounted.next (h : Accounted pool steps tip) (hnext : tip.next pool act = some tip') :
    Accounted pool (steps ++ [(tip, act, tip')]) tip' := by
  cases act with
  | nextBunch bunch => exact h.nextBunch hnext
  | sendDone =>
    obtain ⟨hsender, rfl⟩ := next_sendDone hnext
    exact h.quiet rfl rfl rfl rfl rfl rfl rfl rfl rfl rfl (by rw [hsender]; rfl)
      (by rw [hsender]; rfl) (by rw [hsender]; rfl) rfl trivial h.reaper
  | processBunch =>
    obtain ⟨hsender, rfl⟩ | ⟨pkts, hne, hsender, rfl⟩ := next_processBunch hnext
    · exact h.quiet rfl rfl rfl rfl rfl rfl rfl rfl rfl rfl (by rw [hsender]; rfl)
        (by rw [hsender]; rfl) (by rw [hsender]; rfl) rfl trivial h.reaper
    · exact h.quiet rfl rfl rfl rfl rfl rfl rfl rfl rfl rfl (by rw [hsender]; rfl)
        (by rw [hsender]; rfl) (by rw [hsender]; rfl) rfl hne h.reaper
  | nfreeCurrent =>
    obtain ⟨pkts, hsender, ⟨-, rfl⟩ | ⟨hfree, rfl⟩⟩ := next_nfreeCurrent hnext
    all_goals
      have hok := h.sender
      have hlen := h.free
      rw [hsender] at hok
    · exact h.quiet rfl rfl rfl rfl rfl rfl rfl rfl rfl rfl (by rw [hsender]; rfl)
        (by rw [hsender]; rfl) (by rw [hsender]; rfl) rfl hok h.reaper
    · exact h.quiet rfl rfl rfl rfl rfl rfl rfl rfl rfl rfl (by rw [hsender]; rfl)
        (by rw [hsender]; rfl) (by rw [hsender]; rfl) rfl ⟨by omega, le_refl _, hok⟩ h.reaper
  | wakeSender =>
    obtain ⟨pkts, hsender, rfl⟩ := next_wakeSender hnext
    have hok := h.sender
    rw [hsender] at hok
    exact h.quiet rfl rfl rfl rfl rfl rfl rfl rfl rfl rfl (by rw [hsender]; rfl)
      (by rw [hsender]; rfl) (by rw [hsender]; rfl) rfl hok h.reaper
  | iocbsMap => exact h.iocbsMap hnext
  | ioSubmit => exact h.ioSubmit hnext
  | countOut => exact h.countOut hnext
  | isReapDone =>
    obtain ⟨hreaper, ⟨-, -, rfl⟩ | rfl⟩ := next_isReapDone hnext
    · exact h.quiet rfl rfl rfl rfl rfl rfl rfl rfl rfl rfl rfl rfl rfl (by rw [hreaper]; rfl)
        h.sender trivial
    · exact h.quiet rfl rfl rfl rfl rfl rfl rfl rfl rfl rfl rfl rfl rfl (by rw [hreaper]; rfl)
        h.sender trivial
  | reapWaitAios =>
    obtain ⟨hreaper, ⟨-, rfl⟩ | ⟨hpos, rfl⟩⟩ := next_reapWaitAios hnext
    · exact h.quiet rfl rfl rfl rfl rfl rfl rfl rfl rfl rfl rfl rfl rfl (by rw [hreaper]; rfl)
        h.sender trivial
    · exact h.quiet rfl rfl rfl rfl rfl rfl rfl rfl rfl rfl rfl rfl rfl (by rw [hreaper]; rfl)
        h.sender ⟨hpos, le_refl _⟩
  | wakeReaper =>
    obtain ⟨hreaper, rfl⟩ := next_wakeReaper hnext
    exact h.quiet rfl rfl rfl rfl rfl rfl rfl rfl rfl rfl rfl rfl rfl (by rw [hreaper]; rfl)
      h.sender trivial
  | ioGetevents events => exact h.ioGetevents hnext
  | reclaimIos => exact h.reclaimIos hnext

def HandsOutReaped (before : List (ReplayStep ι)) (step : ReplayStep ι) : Prop :=
  (handed step).Nodup ∧
    ∀ x ∈ handed step, (before.flatMap handed).count x = (before.flatMap reaped).count x

/-- What the accounting of the requests promises in a state that a run reaches. -/
structure Accounting (pool : ReplayPool ι) (steps : List (ReplayStep ι)) (tip : ThrInfo ι) :
    Prop where
  once : (tip.freeIocbs ++ tip.usedIocbs).Nodup
  exclusive : ∀ x ∈ pool.iocbs, Xor (x ∈ tip.freeIocbs) (x ∈ tip.usedIocbs)
  free_length : (tip.freeIocbs.length : ℤ) = tip.naiosFree
  out_nonneg : 0 ≤ tip.naiosOut
  out_le : tip.naiosOut ≤ tip.usedIocbs.length
  used_le : tip.usedIocbs.length ≤ pool.iocbs.length
  handed_reaped : ∀ before step after, steps = before ++ step :: after → HandsOutReaped before step
  submitted_prefix :
    steps.flatMap submitted <+: (steps.flatMap readPkts).map (·.request pool.writeEnabled)
  submitted_all : tip.sender = .nextBunch ∨ tip.sender = .finished →
    steps.flatMap submitted = (steps.flatMap readPkts).map (·.request pool.writeEnabled)

theorem Accounted.handsOut (h : Accounted pool steps tip) (hnext : tip.next pool act = some tip') :
    HandsOutReaped steps (tip, act, tip') := by
  cases act with
  | iocbsMap =>
    obtain ⟨nfree, pkts, r, hsender, hr, rfl⟩ := next_iocbsMap hnext
    have hnodup := List.nodup_append'.mp h.nodup
    obtain ⟨hfree, -⟩ := iocbsMap_spec hnodup.1 hr
    refine ⟨?_, fun x hx => ?_⟩
    · rw [hfree] at hnodup
      exact (List.nodup_append'.mp hnodup.1).1
    · have hmem : x ∈ tip.freeIocbs := by
        rw [hfree]
        exact List.mem_append_left _ hx
      have hused : x ∉ tip.sender.mapped ++ tip.inFlight := fun hx' =>
        hnodup.2.2 hmem (h.used.mem_iff.mpr (List.mem_append_left _ hx'))
      rw [h.count, List.count_eq_zero_of_not_mem hused, add_zero]
  | _ => exact ⟨List.nodup_nil, fun x hx => absurd hx List.not_mem_nil⟩

theorem Accounted.lists_le (h : Accounted pool steps tip) :
    tip.naiosOut ≤ tip.usedIocbs.length ∧ tip.usedIocbs.length ≤ pool.iocbs.length := by
  have hused := h.used.length_eq
  have hall := h.perm.length_eq
  have hout := h.out
  have hcount : 0 ≤ tip.sender.uncounted := by
    have hok := h.sender
    cases hsender : tip.sender <;> rw [hsender] at hok <;> simp_all [Sender.uncounted, Sender.Ok]
  simp only [List.length_append] at hused hall
  omega

theorem Accounted.asserts (h : Accounted pool steps tip) :
    (∀ nfree pkts, tip.sender = .iocbsMap nfree pkts →
      0 < (min nfree (pkts.length : ℤ)).toNat ∧
        (min nfree (pkts.length : ℤ)).toNat ≤ tip.freeIocbs.length) ∧
      (∀ ndone pkts, tip.sender = .countOut ndone pkts →
        tip.naiosOut + ndone ≤ pool.iocbs.length) ∧
      (tip.naiosOut ≠ 0 → 0 < tip.naiosOut) := by
  have hok := h.sender
  have hused := h.used.length_eq
  have hall := h.perm.length_eq
  simp only [List.length_append] at hused hall
  refine ⟨fun nfree pkts hsender => ?_, fun ndone pkts hsender => ?_, fun hne => ?_⟩
  · rw [hsender] at hok
    obtain ⟨hnfree, hle, hpkts⟩ := hok
    have hfree := h.free
    have hpos := List.length_pos_iff.mpr hpkts
    omega
  · have hout := h.out
    rw [hsender] at hout
    simp only [Sender.uncounted] at hout
    omega
  · have hnonneg := h.nonneg
    omega

theorem Accounted.submitted_prefix (h : Accounted pool steps tip) :
    steps.flatMap submitted <+: (steps.flatMap readPkts).map (·.request pool.writeEnabled) := by
  rw [← h.io, List.append_assoc]
  exact List.prefix_append _ _

theorem Accounted.submitted_all (h : Accounted pool steps tip)
    (hsender : tip.sender = .nextBunch ∨ tip.sender = .finished) :
    steps.flatMap submitted = (steps.flatMap readPkts).map (·.request pool.writeEnabled) := by
  have hio := h.io
  obtain hsender | hsender := hsender
  · simpa [hsender, Sender.mapped, Sender.left] using hio
  · simpa [hsender, Sender.mapped, Sender.left] using hio

theorem iocbs_accounted (pool : ReplayPool ι) (steps : List (ReplayStep ι)) (tip : ThrInfo ι)
    (h : Replayed pool steps tip) : Accounting pool steps tip := by
  have hfirst : ∀ tip : ThrInfo ι, tip = tipInit pool → Accounted pool [] tip := by
    rintro tip rfl
    exact accounted_tipInit
  have hacc : Accounted pool steps tip :=
    Run.invariant_history hfirst (fun _ _ _ _ hacc hnext _ => hacc.next hnext) h
      (fun _ _ => trivial)
  have hhanded := (Run.forall_iff_history (Accounted pool) hfirst
    (fun _ _ _ _ hacc hnext _ => hacc.next hnext)
    (fun _ _ _ _ hacc hnext => iff_true_intro (hacc.handsOut hnext)) h).mpr fun _ _ => trivial
  refine ⟨hacc.nodup, fun x hx => ?_, hacc.free, hacc.nonneg, hacc.lists_le.1, hacc.lists_le.2,
    hhanded, hacc.submitted_prefix, hacc.submitted_all⟩
  have hdisjoint := (List.nodup_append'.mp hacc.nodup).2.2
  obtain hfree | hused := List.mem_append.mp (hacc.perm.mem_iff.mpr hx)
  · exact .inl ⟨hfree, hdisjoint hfree⟩
  · exact .inr ⟨hused, fun hfree => hdisjoint hfree hused⟩

def twoIocbs : ReplayPool (Fin 2) where
  iocbs := [0, 1]
  nodup := by decide
  writeEnabled := false

def threePkts : IoBunch where
  timeStamp := 0
  pkts := [{ sector := 8, nbytes := 512, rw := 1 }, { sector := 16, nbytes := 1024, rw := 0 },
    { sector := 24, nbytes := 512, rw := 1 }]

theorem accounting_threePkts :
    ∃ (steps : List (ReplayStep (Fin 2))) (tip : ThrInfo (Fin 2)), Replayed twoIocbs steps tip ∧
      (steps.flatMap handed) = [0, 1, 1] ∧ Accounting twoIocbs steps tip := by
  have hrun := @replayed_trySteps (Fin 2) _ twoIocbs
    [.nextBunch threePkts, .processBunch, .nfreeCurrent, .iocbsMap, .ioSubmit, .countOut,
      .isReapDone, .reapWaitAios, .processBunch, .nfreeCurrent, .ioGetevents [1], .reclaimIos,
      .nfreeCurrent, .iocbsMap, .ioSubmit, .ioGetevents [1], .countOut, .reclaimIos,
      .processBunch] _ _ rfl
  exact ⟨_, _, hrun, rfl, iocbs_accounted _ _ _ hrun⟩

end ThrInfo

end SBlktrace
