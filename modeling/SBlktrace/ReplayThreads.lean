import SBlktrace.ReplayIo
import SBlktrace.Transition
import Mathlib

namespace SBlktrace

open Function

inductive Sender (ι : Type) where
  | nextBunch
  | processBunch (pkts : List IoPkt)
  | nfreeCurrent (pkts : List IoPkt)
  | asleep (pkts : List IoPkt)
  | iocbsMap (nfree : ℤ) (pkts : List IoPkt)
  | ioSubmit (list : List ι) (pkts : List IoPkt)
  | countOut (ndone : ℤ) (pkts : List IoPkt)
  | finished

inductive Reaper (ι : Type) where
  | isReapDone
  | reapWaitAios
  | asleep
  | ioGetevents (naiosOut : ℤ)
  | reclaimIos (naiosOut : ℤ) (events : List ι)
  | finished

/-- The requests of one input file and its device, each one a separate object. -/
structure ReplayPool (ι : Type) where
  iocbs : List ι
  nodup : iocbs.Nodup
  writeEnabled : Bool

/-- `inFlight` is what the kernel was given and has not returned. -/
structure ThrInfo (ι : Type) where
  freeIocbs : List ι
  usedIocbs : List ι
  iocb : ι → IocbPkt
  naiosOut : ℤ
  naiosFree : ℤ
  sendWait : Bool
  reapWait : Bool
  sendDone : Bool
  reapDone : Bool
  inFlight : List ι
  sender : Sender ι
  reaper : Reaper ι

inductive ReplayAction (ι : Type) where
  | nextBunch (bunch : IoBunch)
  | sendDone
  | processBunch
  | nfreeCurrent
  | wakeSender
  | iocbsMap
  | ioSubmit
  | countOut
  | isReapDone
  | reapWaitAios
  | wakeReaper
  | ioGetevents (events : List ι)
  | reclaimIos

namespace ThrInfo

variable {ι : Type}

def tipInit (pool : ReplayPool ι) : ThrInfo ι where
  freeIocbs := pool.iocbs
  usedIocbs := []
  iocb _ := .init
  naiosOut := 0
  naiosFree := pool.iocbs.length
  sendWait := false
  reapWait := false
  sendDone := false
  reapDone := false
  inFlight := []
  sender := .nextBunch
  reaper := .isReapDone

def signalReaper (tip : ThrInfo ι) : ThrInfo ι :=
  match tip.reaper with
  | .asleep => { tip with reaper := .reapWaitAios }
  | _ => tip

def signalSender (tip : ThrInfo ι) : ThrInfo ι :=
  match tip.sender with
  | .asleep pkts => { tip with sender := .nfreeCurrent pkts }
  | _ => tip

variable [DecidableEq ι]

def mapPkts (writeEnabled : Bool) (tip : ThrInfo ι) (list : List ι) :
    List IoPkt → Option (ThrInfo ι × List ι)
  | [] => some (tip, list)
  | pkt :: pkts =>
    match tip.freeIocbs with
    | [] => none
    | x :: free =>
      (pkt.setup writeEnabled (tip.iocb x)).bind fun iocbp =>
        mapPkts writeEnabled
          { tip with
            freeIocbs := free
            usedIocbs := tip.usedIocbs ++ [x]
            iocb := update tip.iocb x iocbp }
          (list ++ [x]) pkts

def iocbsMap (pool : ReplayPool ι) (tip : ThrInfo ι) (pkts : List IoPkt) (ntodo : ℕ) :
    Option (ThrInfo ι × List ι) :=
  if ¬ (0 < ntodo ∧ ntodo ≤ pool.iocbs.length) then none
  else if ¬ ntodo ≤ tip.freeIocbs.length then none
  else
    (tip.mapPkts pool.writeEnabled [] (pkts.take ntodo)).bind fun r =>
      let tip := { r.1 with naiosFree := r.1.naiosFree - ntodo }
      if 0 ≤ tip.naiosFree then some (tip, r.2) else none

def moveFree (tip : ThrInfo ι) (events : List ι) : ThrInfo ι :=
  events.foldl (fun tip x =>
    { tip with usedIocbs := tip.usedIocbs.erase x, freeIocbs := tip.freeIocbs ++ [x] }) tip

def reclaim (tip : ThrInfo ι) (naiosOut : ℤ) (events : List ι) : ThrInfo ι :=
  let tip := tip.moveFree events
  let tip := { tip with
    naiosFree := tip.naiosFree + events.length, naiosOut := tip.naiosOut - events.length }
  let naiosOut := min naiosOut tip.naiosOut
  let tip := if tip.sendWait then { tip with sendWait := false }.signalSender else tip
  { tip with reaper := if naiosOut ≠ 0 then .ioGetevents naiosOut else .isReapDone }

/-- A step of one of the two threads: a critical section, or what a thread does between two of
them. A wait may end without a signal. -/
def next (pool : ReplayPool ι) (tip : ThrInfo ι) : ReplayAction ι → Option (ThrInfo ι)
  | .nextBunch bunch =>
    match tip.sender with
    | .nextBunch =>
      if 0 < bunch.pkts.length ∧ bunch.pkts.length ≤ BT_MAX_PKTS then
        some { tip with sender := .processBunch bunch.pkts }
      else none
    | _ => none
  | .sendDone =>
    match tip.sender with
    | .nextBunch => some { tip with sendDone := true, sender := .finished }
    | _ => none
  | .processBunch =>
    match tip.sender with
    | .processBunch [] => some { tip with sender := .nextBunch }
    | .processBunch (pkt :: pkts) => some { tip with sender := .nfreeCurrent (pkt :: pkts) }
    | _ => none
  | .nfreeCurrent =>
    match tip.sender with
    | .nfreeCurrent pkts =>
      if tip.naiosFree = 0 then some { tip with sendWait := true, sender := .asleep pkts }
      else some { tip with sender := .iocbsMap tip.naiosFree pkts }
    | _ => none
  | .wakeSender =>
    match tip.sender with
    | .asleep pkts => some { tip with sender := .nfreeCurrent pkts }
    | _ => none
  | .iocbsMap =>
    match tip.sender with
    | .iocbsMap nfree pkts =>
      let ntodo := (min nfree (pkts.length : ℤ)).toNat
      (tip.iocbsMap pool pkts ntodo).map fun r =>
        { r.1 with sender := .ioSubmit r.2 (pkts.drop ntodo) }
    | _ => none
  | .ioSubmit =>
    match tip.sender with
    | .ioSubmit list pkts =>
      some { tip with inFlight := tip.inFlight ++ list, sender := .countOut list.length pkts }
    | _ => none
  | .countOut =>
    match tip.sender with
    | .countOut ndone pkts =>
      let tip := { tip with naiosOut := tip.naiosOut + ndone, sender := .processBunch pkts }
      if tip.naiosOut ≤ (pool.iocbs.length : ℤ) then
        some (if tip.reapWait then { tip with reapWait := false }.signalReaper else tip)
      else none
    | _ => none
  | .isReapDone =>
    match tip.reaper with
    | .isReapDone =>
      if tip.sendDone ∧ tip.naiosOut = 0 then
        some { tip with reapDone := true, reaper := .finished }
      else some { tip with reaper := .reapWaitAios }
    | _ => none
  | .reapWaitAios =>
    match tip.reaper with
    | .reapWaitAios =>
      if tip.naiosOut = 0 then some { tip with reapWait := true, reaper := .asleep }
      else if 0 < tip.naiosOut then some { tip with reaper := .ioGetevents tip.naiosOut }
      else none
    | _ => none
  | .wakeReaper =>
    match tip.reaper with
    | .asleep => some { tip with reaper := .reapWaitAios }
    | _ => none
  | .ioGetevents events =>
    match tip.reaper with
    | .ioGetevents naiosOut =>
      if events ≠ [] ∧ events.length ≤ naiosOut ∧ events.Nodup ∧ events ⊆ tip.inFlight then
        some { tip with
          inFlight := tip.inFlight.filter (· ∉ events), reaper := .reclaimIos naiosOut events }
      else none
    | _ => none
  | .reclaimIos =>
    match tip.reaper with
    | .reclaimIos naiosOut events => some (tip.reclaim naiosOut events)
    | _ => none

section Inversion

variable {pool : ReplayPool ι} {tip tip' : ThrInfo ι}

theorem next_nextBunch {bunch : IoBunch} (h : tip.next pool (.nextBunch bunch) = some tip') :
    tip.sender = .nextBunch ∧ bunch.pkts ≠ [] ∧
      tip' = { tip with sender := .processBunch bunch.pkts } := by
  rw [next] at h
  split at h <;> simp_all [List.length_pos_iff]

theorem next_sendDone (h : tip.next pool .sendDone = some tip') :
    tip.sender = .nextBunch ∧ tip' = { tip with sendDone := true, sender := .finished } := by
  rw [next] at h
  split at h <;> simp_all

theorem next_processBunch (h : tip.next pool .processBunch = some tip') :
    (tip.sender = .processBunch [] ∧ tip' = { tip with sender := .nextBunch }) ∨
      ∃ pkts, pkts ≠ [] ∧ tip.sender = .processBunch pkts ∧
        tip' = { tip with sender := .nfreeCurrent pkts } := by
  rw [next] at h
  split at h <;> simp_all

theorem next_nfreeCurrent (h : tip.next pool .nfreeCurrent = some tip') :
    ∃ pkts, tip.sender = .nfreeCurrent pkts ∧
      ((tip.naiosFree = 0 ∧ tip' = { tip with sendWait := true, sender := .asleep pkts }) ∨
        (tip.naiosFree ≠ 0 ∧ tip' = { tip with sender := .iocbsMap tip.naiosFree pkts })) := by
  rw [next] at h
  split at h
  · rename_i pkts hsender
    refine ⟨pkts, hsender, ?_⟩
    split at h <;> simp_all
  · cases h

theorem next_wakeSender (h : tip.next pool .wakeSender = some tip') :
    ∃ pkts, tip.sender = .asleep pkts ∧ tip' = { tip with sender := .nfreeCurrent pkts } := by
  rw [next] at h
  split at h <;> simp_all

theorem next_iocbsMap (h : tip.next pool .iocbsMap = some tip') :
    ∃ nfree pkts r, tip.sender = .iocbsMap nfree pkts ∧
      tip.iocbsMap pool pkts (min nfree (pkts.length : ℤ)).toNat = some r ∧
      tip' = { r.1 with
        sender := .ioSubmit r.2 (pkts.drop (min nfree (pkts.length : ℤ)).toNat) } := by
  rw [next] at h
  split at h
  · rename_i nfree pkts hsender
    obtain ⟨r, hr, rfl⟩ := Option.map_eq_some_iff.mp h
    exact ⟨nfree, pkts, r, hsender, hr, rfl⟩
  · cases h

theorem next_ioSubmit (h : tip.next pool .ioSubmit = some tip') :
    ∃ list pkts, tip.sender = .ioSubmit list pkts ∧
      tip' = { tip with
        inFlight := tip.inFlight ++ list, sender := .countOut list.length pkts } := by
  rw [next] at h
  split at h <;> simp_all

theorem next_countOut (h : tip.next pool .countOut = some tip') :
    ∃ ndone pkts, tip.sender = .countOut ndone pkts ∧ tip'.naiosOut ≤ pool.iocbs.length ∧
      tip' = { tip with
        naiosOut := tip.naiosOut + ndone, sender := .processBunch pkts, reapWait := false,
        reaper := if tip.reapWait then tip.signalReaper.reaper else tip.reaper } := by
  rw [next] at h
  split at h
  · rename_i ndone pkts hsender
    rw [Option.ite_none_right_eq_some] at h
    obtain ⟨hle, h⟩ := h
    refine ⟨ndone, pkts, hsender, ?_⟩
    cases h
    cases hwait : tip.reapWait
    · exact ⟨hle, by simp⟩
    · cases hreaper : tip.reaper <;> exact ⟨hle, by simp [signalReaper, hreaper]⟩
  · cases h

theorem next_isReapDone (h : tip.next pool .isReapDone = some tip') :
    tip.reaper = .isReapDone ∧
      ((tip.sendDone = true ∧ tip.naiosOut = 0 ∧
          tip' = { tip with reapDone := true, reaper := .finished }) ∨
        tip' = { tip with reaper := .reapWaitAios }) := by
  rw [next] at h
  split at h
  · rename_i hreaper
    refine ⟨hreaper, ?_⟩
    split at h <;> simp_all
  · cases h

theorem next_reapWaitAios (h : tip.next pool .reapWaitAios = some tip') :
    tip.reaper = .reapWaitAios ∧
      ((tip.naiosOut = 0 ∧ tip' = { tip with reapWait := true, reaper := .asleep }) ∨
        (0 < tip.naiosOut ∧ tip' = { tip with reaper := .ioGetevents tip.naiosOut })) := by
  rw [next] at h
  split at h
  · rename_i hreaper
    refine ⟨hreaper, ?_⟩
    split at h
    · simp_all
    · rw [Option.ite_none_right_eq_some] at h
      exact .inr ⟨h.1, (Option.some.inj h.2).symm⟩
  · cases h

theorem next_wakeReaper (h : tip.next pool .wakeReaper = some tip') :
    tip.reaper = .asleep ∧ tip' = { tip with reaper := .reapWaitAios } := by
  rw [next] at h
  split at h <;> simp_all

theorem next_ioGetevents {events : List ι} (h : tip.next pool (.ioGetevents events) = some tip') :
    ∃ naiosOut, tip.reaper = .ioGetevents naiosOut ∧ events ≠ [] ∧ events.length ≤ naiosOut ∧
      events.Nodup ∧ events ⊆ tip.inFlight ∧
      tip' = { tip with
        inFlight := tip.inFlight.filter (· ∉ events), reaper := .reclaimIos naiosOut events } := by
  rw [next] at h
  split at h
  · rename_i naiosOut hreaper
    rw [Option.ite_none_right_eq_some] at h
    obtain ⟨⟨hne, hle, hnodup, hsub⟩, h⟩ := h
    exact ⟨naiosOut, hreaper, hne, hle, hnodup, hsub, (Option.some.inj h).symm⟩
  · cases h

theorem next_reclaimIos (h : tip.next pool .reclaimIos = some tip') :
    ∃ naiosOut events, tip.reaper = .reclaimIos naiosOut events ∧
      tip' = tip.reclaim naiosOut events := by
  rw [next] at h
  split at h <;> simp_all

theorem mapPkts_frame {writeEnabled : Bool} {list : List ι} {pkts : List IoPkt}
    {r : ThrInfo ι × List ι} (h : tip.mapPkts writeEnabled list pkts = some r) :
    r.1 = { tip with
      freeIocbs := r.1.freeIocbs, usedIocbs := r.1.usedIocbs, iocb := r.1.iocb } := by
  induction pkts generalizing tip list with
  | nil =>
    cases h
    rfl
  | cons pkt pkts ih =>
    rw [mapPkts] at h
    split at h
    · cases h
    · obtain ⟨iocbp, -, h⟩ := Option.bind_eq_some_iff.mp h
      have hframe := ih h
      exact hframe

theorem iocbsMap_mapPkts {pkts : List IoPkt} {ntodo : ℕ} {r : ThrInfo ι × List ι}
    (h : tip.iocbsMap pool pkts ntodo = some r) :
    ∃ r', tip.mapPkts pool.writeEnabled [] (pkts.take ntodo) = some r' ∧
      r = ({ r'.1 with naiosFree := r'.1.naiosFree - ntodo }, r'.2) := by
  rw [iocbsMap] at h
  split at h
  · cases h
  split at h
  · cases h
  obtain ⟨r', hr', h⟩ := Option.bind_eq_some_iff.mp h
  rw [Option.ite_none_right_eq_some] at h
  exact ⟨r', hr', (Option.some.inj h.2).symm⟩

theorem iocbsMap_frame {pkts : List IoPkt} {ntodo : ℕ} {r : ThrInfo ι × List ι}
    (h : tip.iocbsMap pool pkts ntodo = some r) :
    r.1 = { tip with
      freeIocbs := r.1.freeIocbs, usedIocbs := r.1.usedIocbs, iocb := r.1.iocb
      naiosFree := tip.naiosFree - ntodo } := by
  obtain ⟨r', hr', rfl⟩ := iocbsMap_mapPkts h
  have hframe := mapPkts_frame hr'
  dsimp only
  rw [hframe]

theorem moveFree_frame (tip : ThrInfo ι) (events : List ι) :
    tip.moveFree events = { tip with
      freeIocbs := (tip.moveFree events).freeIocbs
      usedIocbs := (tip.moveFree events).usedIocbs } := by
  induction events generalizing tip with
  | nil => rfl
  | cons x events ih => exact ih _

theorem reclaim_eq (tip : ThrInfo ι) (naiosOut : ℤ) (events : List ι) :
    tip.reclaim naiosOut events = { tip with
      freeIocbs := (tip.moveFree events).freeIocbs
      usedIocbs := (tip.moveFree events).usedIocbs
      naiosFree := tip.naiosFree + events.length
      naiosOut := tip.naiosOut - events.length
      sendWait := false
      sender := if tip.sendWait then tip.signalSender.sender else tip.sender
      reaper :=
        if min naiosOut (tip.naiosOut - events.length) ≠ 0 then
          .ioGetevents (min naiosOut (tip.naiosOut - events.length))
        else .isReapDone } := by
  rw [reclaim, moveFree_frame]
  cases hwait : tip.sendWait
  · simp
  · cases hsender : tip.sender <;> simp [signalSender, hsender]

end Inversion

abbrev ReplayStep (ι : Type) := ThrInfo ι × ReplayAction ι × ThrInfo ι

def Replayed (pool : ReplayPool ι) : List (ReplayStep ι) → ThrInfo ι → Prop :=
  Run (· = tipInit pool) fun tip act tip' => tip.next pool act = some tip'

theorem replayed_trySteps {pool : ReplayPool ι} {acts : List (ReplayAction ι)} {tip : ThrInfo ι}
    {steps : List (ReplayStep ι)}
    (h : Run.trySteps (next pool) (tipInit pool) acts = some (steps, tip)) :
    Replayed pool steps tip :=
  Run.trySteps_run (fun _ _ _ h => h) rfl h

end ThrInfo

end SBlktrace
