import SBlktrace.TraceSetup
import SBlktrace.Transition
import Mathlib.Data.Fintype.Basic

namespace SBlktrace

open Function

inductive BlkTraceCmd where
  | setup (copied : Option BlkUserTraceSetup) (al : SetupAllocs) (returned : Bool)
  | start
  | stop
  | teardown
  | other
  deriving DecidableEq, Repr

inductive BlkTraceAttr where
  | enable | actMask | pid | startLba | endLba
  deriving DecidableEq, Repr

/-- A write to a sysfs file; `value` is what the text in the buffer parses to, `bt` and `msgData`
are the allocations of a setup. -/
structure AttrStore where
  attr : BlkTraceAttr
  count : ℕ
  value : Except Errno UInt64
  bdev : Bool
  bt : Option ℕ
  msgData : Bool

/-- A request to the kernel through the block device `bdev`, whose queue may be missing, or the shutdown
of a queue. -/
inductive ProbeAction (κ : Type) where
  | ioctl (bdev : BlockDevice) (q : Option κ) (cmd : BlkTraceCmd)
  | store (bdev : BlockDevice) (q : Option κ) (w : AttrStore)
  | shutdown (q : κ)

namespace Kernel

variable {κ : Type}

def errnoOf {α : Type} : Except Errno α → Option Errno
  | .error e => some e
  | .ok _ => none

/-- The tracepoints are registered and counted for the traces in memory, and each of these is
attached to one queue. -/
structure Balanced (s : Kernel κ) : Prop where
  ref : s.blkProbesRef = s.live.card
  attached : ∀ bt ∈ s.live, ∃! q, s.queue q = some bt
  owned : ∀ q bt, s.queue q = some bt → bt ∈ s.live
  registered : s.registered = true ↔ 0 < s.blkProbesRef

structure Fresh (s s' : Kernel κ) (bt : ℕ) : Prop where
  queue : s'.queue = s.queue
  ref : s'.blkProbesRef = s.blkProbesRef
  registered : s'.registered = s.registered
  notMem : bt ∉ s.live
  live : s'.live = insert bt s.live

variable {s s' : Kernel κ} {bt : ℕ}

theorem balanced_boot : Balanced (boot κ) where
  ref := rfl
  attached bt hbt := absurd hbt (Finset.notMem_empty bt)
  owned q bt h := by cases h
  registered := by
    refine ⟨fun h => ?_, fun h => ?_⟩
    · cases h
    · exact absurd h (lt_irrefl _)

theorem Balanced.congr (h : Balanced s) (hqueue : s'.queue = s.queue) (hlive : s'.live = s.live)
    (href : s'.blkProbesRef = s.blkProbesRef) (hreg : s'.registered = s.registered) :
    Balanced s' where
  ref := by rw [href, hlive, h.ref]
  attached := by rw [hqueue, hlive]; exact h.attached
  owned := by rw [hqueue, hlive]; exact h.owned
  registered := by rw [hreg, href]; exact h.registered

theorem Balanced.modify (h : Balanced s) (f : KernelTrace → KernelTrace) :
    Balanced (s.modify bt f) :=
  h.congr rfl rfl rfl rfl

theorem kzalloc_fresh {al : Option ℕ} (h : s.kzalloc al = some (bt, s')) : Fresh s s' bt := by
  rw [kzalloc, Option.bind_eq_some_iff] at h
  obtain ⟨a, -, h⟩ := h
  by_cases ha : a ∈ s.live
  · rw [if_pos ha] at h
    cases h
  · rw [if_neg ha] at h
    cases h
    exact ⟨rfl, rfl, rfl, ha, rfl⟩

theorem Fresh.modify (h : Fresh s s' bt) (f : KernelTrace → KernelTrace) :
    Fresh s (s'.modify bt f) bt :=
  ⟨h.queue, h.ref, h.registered, h.notMem, h.live⟩

theorem Fresh.treeRoot (h : Fresh s s' bt) (b : Bool) :
    Fresh s { s' with blkTreeRoot := b } bt :=
  ⟨h.queue, h.ref, h.registered, h.notMem, h.live⟩

theorem Fresh.free (h : Fresh s s' bt) (hs : Balanced s) : Balanced (s'.blkTraceFree bt) := by
  have hlive : (s'.blkTraceFree bt).live = s.live := by
    rw [blkTraceFree, h.live]
    exact Finset.erase_insert h.notMem
  exact hs.congr h.queue hlive h.ref h.registered

theorem Balanced.ref_nonneg (h : Balanced s) : 0 ≤ s.blkProbesRef := by
  rw [h.ref]
  exact Int.natCast_nonneg _

theorem Balanced.blkTraceStartstop (h : Balanced s) (q : κ) (start : Bool) :
    Balanced (s.blkTraceStartstop q start).2 := by
  rw [Kernel.blkTraceStartstop]
  cases s.queue q with
  | none => exact h
  | some bt =>
    dsimp only
    split_ifs
    · exact h.congr rfl rfl rfl rfl
    · exact h
    · exact h.congr rfl rfl rfl rfl
    · exact h

def SetUp (q : κ) (r : Option Errno × Kernel κ) : Prop :=
  Balanced r.2 ∧ (r.1 = none → ∃ bt, r.2.queue q = some bt ∧ (r.2.trace bt).traceState = .setup)

theorem SetUp.ite {q : κ} {c : Prop} [Decidable c] {r r' : Option Errno × Kernel κ} (h : c → SetUp q r)
    (h' : SetUp q r') : SetUp q (if c then r else r') := by
  by_cases hc : c
  · rw [if_pos hc]
    exact h hc
  · rw [if_neg hc]
    exact h'

theorem Fresh.setupError (h : Fresh s s' bt) (hs : Balanced s) (q : κ) (e : Errno) :
    SetUp q (s'.setupError bt e) :=
  ⟨h.free hs, fun h => by cases h⟩

variable [DecidableEq κ] {q : κ}

def blkTraceIoctl (s : Kernel κ) (bdev : BlockDevice) (q : Option κ) (cmd : BlkTraceCmd) :
    Option Errno × Kernel κ :=
  match q with
  | none => (some Errno.ENXIO, s)
  | some q =>
    match cmd with
    | .setup copied al returned =>
      let r := s.blkTraceSetup q bdev copied al returned
      (errnoOf r.1, r.2)
    | .start => s.blkTraceStartstop q true
    | .stop => s.blkTraceStartstop q false
    | .teardown => s.blkTraceRemove q
    | .other => (some .ENOTTY, s)

def storeAttr (attr : BlkTraceAttr) (value : UInt64) (t : KernelTrace) : KernelTrace :=
  match attr with
  | .enable => t
  | .actMask => { t with actMask := value.toUInt16 }
  | .pid => { t with pid := value.toUInt32 }
  | .startLba => { t with startLba := value }
  | .endLba => { t with endLba := value }

def sysfsBlkTraceAttrStore (s : Kernel κ) (bdev : BlockDevice) (q : Option κ) (w : AttrStore) :
    Except Errno ℕ × Kernel κ :=
  if w.count = 0 then (.error .EINVAL, s)
  else
    match w.value with
    | .error e => (.error e, s)
    | .ok value =>
      if !w.bdev then (.error Errno.ENXIO, s)
      else
        match q with
        | none => (.error Errno.ENXIO, s)
        | some q =>
          let r :=
            if w.attr = .enable then
              if value ≠ 0 then s.blkTraceSetupQueue q bdev w.bt w.msgData
              else s.blkTraceRemoveQueue q
            else
              let r :=
                if s.queue q = none then s.blkTraceSetupQueue q bdev w.bt w.msgData else (none, s)
              match r with
              | (some e, s) => (some e, s)
              | (none, s) =>
                match s.queue q with
                | some bt => (none, s.modify bt (storeAttr w.attr value))
                | none => (none, s)
          match r with
          | (some e, s) => (.error e, s)
          | (none, s) => (.ok w.count, s)

def exec (s : Kernel κ) : ProbeAction κ → Kernel κ
  | .ioctl bdev q cmd => (s.blkTraceIoctl bdev q cmd).2
  | .store bdev q w => (s.sysfsBlkTraceAttrStore bdev q w).2
  | .shutdown q => s.blkTraceShutdown q

def Traced : List (Kernel κ × ProbeAction κ × Kernel κ) → Kernel κ → Prop :=
  Run (· = boot κ) fun s act s' => s' = s.exec act

def TearsDownRunning (s : Kernel κ) : ProbeAction κ → Prop
  | .ioctl _ (some q) .teardown => ∃ bt ∈ s.queue q, (s.trace bt).traceState = .running
  | _ => False

instance (s : Kernel κ) : (act : ProbeAction κ) → Decidable (TearsDownRunning s act)
  | .ioctl _ (some q) .teardown =>
    inferInstanceAs (Decidable (∃ bt ∈ s.queue q, (s.trace bt).traceState = .running))
  | .ioctl _ none _ | .ioctl _ (some _) (.setup ..) | .ioctl _ (some _) .start
  | .ioctl _ (some _) .stop | .ioctl _ (some _) .other | .store .. | .shutdown _ =>
    inferInstanceAs (Decidable False)

theorem Fresh.attach (h : Fresh s s' bt) (hs : Balanced s) (hq : s.queue q = none) :
    Balanced (s'.setQueue q (some bt)).probesInc where
  ref := by
    change s'.blkProbesRef + 1 = (s'.live.card : ℤ)
    rw [h.ref, h.live, Finset.card_insert_of_notMem h.notMem, hs.ref]
    rfl
  attached bt' hbt' := by
    change ∃! q', update s'.queue q (some bt) q' = some bt'
    rw [h.queue]
    change bt' ∈ s'.live at hbt'
    rw [h.live, Finset.mem_insert] at hbt'
    obtain rfl | hold := hbt'
    · refine ⟨q, update_self .., fun q' hq' => ?_⟩
      by_contra hne
      dsimp only at hq'
      rw [update_of_ne hne] at hq'
      exact h.notMem (hs.owned q' _ hq')
    · obtain ⟨q₀, hq₀, honly⟩ := hs.attached bt' hold
      have hne : q₀ ≠ q := by
        rintro rfl
        cases hq.symm.trans hq₀
      refine ⟨q₀, (update_of_ne hne ..).trans hq₀, fun q' hq' => ?_⟩
      by_cases heq : q' = q
      · subst heq
        rw [update_self] at hq'
        cases hq'
        exact absurd hold h.notMem
      · dsimp only at hq'
        rw [update_of_ne heq] at hq'
        exact honly q' hq'
  owned q' bt' hq' := by
    change update s'.queue q (some bt) q' = some bt' at hq'
    change bt' ∈ s'.live
    rw [h.live, Finset.mem_insert]
    by_cases heq : q' = q
    · subst heq
      rw [update_self] at hq'
      exact .inl (Option.some.inj hq').symm
    · rw [update_of_ne heq, h.queue] at hq'
      exact .inr (hs.owned q' bt' hq')
  registered := by
    change (if s'.blkProbesRef + 1 = 1 then true else s'.registered) = true ↔ 0 < s'.blkProbesRef + 1
    have hnonneg := hs.ref_nonneg
    rw [h.ref, h.registered]
    by_cases hone : s.blkProbesRef + 1 = 1
    · rw [if_pos hone]
      exact iff_of_true rfl (by omega)
    · rw [if_neg hone, hs.registered]
      omega

theorem Fresh.publish (h : Fresh s s' bt) (hs : Balanced s) (q : κ) :
    Balanced (s'.publish q bt).2 ∧
      ((s'.publish q bt).1 = none →
        (s'.publish q bt).2.queue q = some bt ∧ (s'.publish q bt).2.trace = s'.trace) := by
  cases hq : s'.queue q with
  | none =>
    have heq : s'.publish q bt = (none, (s'.setQueue q (some bt)).probesInc) := by
      rw [Kernel.publish, hq]
    rw [heq]
    rw [h.queue] at hq
    exact ⟨h.attach hs hq, fun _ => ⟨update_self .., rfl⟩⟩
  | some oldBt =>
    have heq : s'.publish q bt =
        ((s'.setQueue q (some bt)).setQueue q (some oldBt)).setupError bt .EBUSY := by
      rw [Kernel.publish, hq]
    rw [heq]
    refine ⟨?_, fun h => by cases h⟩
    have hback : update (update s'.queue q (some bt)) q (some oldBt) = s.queue := by
      rw [update_idem, ← hq, update_eq_self, h.queue]
    exact (h.free hs).congr (hback.trans h.queue.symm) rfl rfl rfl

theorem Balanced.detach (h : Balanced s) (hq : s.queue q = some bt) :
    Balanced ((s.setQueue q none).blkTraceCleanup bt) where
  ref := by
    change s.blkProbesRef - 1 = ((s.live.erase bt).card : ℤ)
    have hmem := h.owned q bt hq
    have hpos : 0 < s.live.card := Finset.card_pos.mpr ⟨bt, hmem⟩
    rw [h.ref, Finset.card_erase_of_mem hmem]
    omega
  attached bt' hbt' := by
    change bt' ∈ s.live.erase bt at hbt'
    change ∃! q', update s.queue q none q' = some bt'
    rw [Finset.mem_erase] at hbt'
    obtain ⟨q₀, hq₀, honly⟩ := h.attached bt' hbt'.2
    have hne : q₀ ≠ q := by
      rintro rfl
      exact hbt'.1 (Option.some.inj (hq₀.symm.trans hq))
    refine ⟨q₀, (update_of_ne hne ..).trans hq₀, fun q' hq' => ?_⟩
    by_cases heq : q' = q
    · subst heq
      rw [update_self] at hq'
      cases hq'
    · dsimp only at hq'
      rw [update_of_ne heq] at hq'
      exact honly q' hq'
  owned q' bt' hq' := by
    change update s.queue q none q' = some bt' at hq'
    change bt' ∈ s.live.erase bt
    by_cases heq : q' = q
    · subst heq
      rw [update_self] at hq'
      cases hq'
    · rw [update_of_ne heq] at hq'
      refine Finset.mem_erase.mpr ⟨?_, h.owned q' bt' hq'⟩
      rintro rfl
      exact heq ((h.attached bt' (h.owned q' bt' hq')).unique hq' hq)
  registered := by
    change (if s.blkProbesRef - 1 = 0 then false else s.registered) = true ↔ 0 < s.blkProbesRef - 1
    have hpos : 0 < s.live.card := Finset.card_pos.mpr ⟨bt, h.owned q bt hq⟩
    have href := h.ref
    by_cases hzero : s.blkProbesRef - 1 = 0
    · rw [if_pos hzero]
      exact iff_of_false (fun h => by cases h) (by omega)
    · rw [if_neg hzero, h.registered]
      omega

theorem blkTraceRemove_idle (hq : s.queue q = some bt) (h : (s.trace bt).traceState ≠ .running) :
    s.blkTraceRemove q = (none, (s.setQueue q none).blkTraceCleanup bt) := by
  rw [blkTraceRemove, hq]
  exact if_pos h

theorem blkTraceRemove_running (hq : s.queue q = some bt)
    (h : (s.trace bt).traceState = .running) :
    s.blkTraceRemove q = (none, s.setQueue q none) := by
  rw [blkTraceRemove, hq]
  exact if_neg (not_not_intro h)

theorem Balanced.remove (h : Balanced s)
    (hidle : ∀ bt, s.queue q = some bt → (s.trace bt).traceState ≠ .running) :
    Balanced (s.blkTraceRemove q).2 := by
  cases hq : s.queue q with
  | none =>
    rw [blkTraceRemove, hq]
    exact h
  | some bt =>
    rw [blkTraceRemove_idle hq (hidle bt hq)]
    exact h.detach hq

theorem Balanced.not_remove (h : Balanced s) (hq : s.queue q = some bt)
    (hrun : (s.trace bt).traceState = .running) : ¬ Balanced (s.blkTraceRemove q).2 := by
  intro hbad
  rw [blkTraceRemove_running hq hrun] at hbad
  obtain ⟨q', hq', -⟩ := hbad.attached bt (h.owned q bt hq)
  change update s.queue q none q' = some bt at hq'
  by_cases heq : q' = q
  · subst heq
    rw [update_self] at hq'
    cases hq'
  · rw [update_of_ne heq] at hq'
    exact heq ((h.attached bt (h.owned q bt hq)).unique hq' hq)

theorem Balanced.doBlkTraceSetup (h : Balanced s) (q : κ) (bdev : BlockDevice)
    (buts : BlkUserTraceSetup) (al : SetupAllocs) : SetUp q (s.doBlkTraceSetup q bdev buts al) := by
  refine SetUp.ite (fun _ => ⟨h, fun h => by cases h⟩) ?_
  cases hz : s.kzalloc al.bt with
  | none => exact ⟨h, fun h => by cases h⟩
  | some p =>
    obtain ⟨bt, s₁⟩ := p
    have hfresh := kzalloc_fresh hz
    have hroot := hfresh.treeRoot true
    refine SetUp.ite (fun _ => hfresh.setupError h q _) ?_
    refine SetUp.ite (fun _ => hfresh.setupError h q _) ?_
    refine SetUp.ite (fun _ => hfresh.setupError h q _) ?_
    refine SetUp.ite (fun _ => hroot.setupError h q _) ?_
    refine SetUp.ite (fun _ => hroot.setupError h q _) ?_
    refine SetUp.ite (fun _ => hroot.setupError h q _) ?_
    refine SetUp.ite (fun _ => hroot.setupError h q _) ?_
    obtain ⟨hbal, hok⟩ := (hroot.modify _).publish h q
    refine ⟨hbal, fun hnone => ?_⟩
    obtain ⟨hqueue, htrace⟩ := hok hnone
    refine ⟨bt, hqueue, ?_⟩
    rw [htrace]
    change (update s₁.trace bt _ bt).traceState = .setup
    rw [update_self]

theorem Balanced.blkTraceSetup (h : Balanced s) (q : κ) (bdev : BlockDevice)
    (copied : Option BlkUserTraceSetup) (al : SetupAllocs) (returned : Bool) :
    Balanced (s.blkTraceSetup q bdev copied al returned).2 := by
  cases copied with
  | none => exact h
  | some buts =>
    obtain ⟨hbal, hok⟩ := h.doBlkTraceSetup q bdev buts al
    rw [Kernel.blkTraceSetup]
    revert hbal hok
    cases s.doBlkTraceSetup q bdev buts al with
    | mk ret s₁ =>
      intro hbal hok
      cases ret with
      | some e => exact hbal
      | none =>
        cases returned with
        | true => exact hbal
        | false =>
          -- the copy back to the user failed: the new trace is removed again
          obtain ⟨bt, hq, hstate⟩ := hok rfl
          refine hbal.remove fun bt' hq' => ?_
          cases hq.symm.trans hq'
          rw [hstate]
          decide

theorem Balanced.blkTraceRemoveQueue (h : Balanced s) (q : κ) :
    Balanced (s.blkTraceRemoveQueue q).2 := by
  rw [Kernel.blkTraceRemoveQueue]
  cases hq : s.queue q with
  | none => exact h
  | some bt => exact h.detach hq

theorem Balanced.blkTraceSetupQueue (h : Balanced s) (q : κ) (bdev : BlockDevice) (al : Option ℕ)
    (msgData : Bool) :
    Balanced (s.blkTraceSetupQueue q bdev al msgData).2 := by
  rw [Kernel.blkTraceSetupQueue]
  cases hz : s.kzalloc al with
  | none => exact h
  | some p =>
    obtain ⟨bt, s₁⟩ := p
    have hfresh := kzalloc_fresh hz
    cases msgData with
    | false => exact hfresh.free h
    | true => exact ((hfresh.modify _).publish h q).1

theorem Balanced.blkTraceShutdown (h : Balanced s) (q : κ) : Balanced (s.blkTraceShutdown q) := by
  rw [Kernel.blkTraceShutdown]
  cases hq : s.queue q with
  | none => exact h
  | some bt =>
    refine (h.blkTraceStartstop q false).remove fun bt' hq' => ?_
    rw [Kernel.blkTraceStartstop, hq] at hq' ⊢
    by_cases hrun : (s.trace bt).traceState = .running
    · simp only [Bool.false_eq_true, if_false, if_pos hrun] at hq' ⊢
      cases hq.symm.trans hq'
      change (update s.trace bt _ bt).traceState ≠ .running
      rw [update_self]
      exact fun hstopped => by cases hstopped
    · simp only [Bool.false_eq_true, if_false, if_neg hrun] at hq' ⊢
      cases hq.symm.trans hq'
      exact hrun

theorem Balanced.sysfsBlkTraceAttrStore (h : Balanced s) (bdev : BlockDevice) (q : Option κ)
    (w : AttrStore) : Balanced (s.sysfsBlkTraceAttrStore bdev q w).2 := by
  rw [Kernel.sysfsBlkTraceAttrStore]
  by_cases hcount : w.count = 0
  · rw [if_pos hcount]
    exact h
  rw [if_neg hcount]
  cases w.value with
  | error e => exact h
  | ok value =>
    cases w.bdev with
    | false => exact h
    | true =>
      cases q with
      | none => exact h
      | some q =>
        have hsetup := h.blkTraceSetupQueue q bdev w.bt w.msgData
        have hremove := h.blkTraceRemoveQueue q
        have hend : ∀ r : Option Errno × Kernel κ, Balanced r.2 →
            Balanced (match r with
              | (some e, s) => ((.error e, s) : Except Errno ℕ × Kernel κ)
              | (none, s) => (.ok w.count, s)).2 := by
          rintro ⟨_ | e, s₁⟩ hs₁ <;> exact hs₁
        apply hend
        by_cases henable : w.attr = .enable
        · rw [if_pos henable]
          by_cases hvalue : value ≠ 0
          · rw [if_pos hvalue]
            exact hsetup
          · rw [if_neg hvalue]
            exact hremove
        · rw [if_neg henable]
          have hattr : ∀ r : Option Errno × Kernel κ, Balanced r.2 →
              Balanced (match r with
                | (some e, s) => (some e, s)
                | (none, s) =>
                  match s.queue q with
                  | some bt => (none, s.modify bt (storeAttr w.attr value))
                  | none => (none, s)).2 := by
            rintro ⟨_ | e, s₁⟩ hs₁
            · dsimp only
              cases s₁.queue q with
              | none => exact hs₁
              | some bt => exact hs₁.modify _
            · exact hs₁
          apply hattr
          by_cases hqueue : s.queue q = none
          · rw [if_pos hqueue]
            exact hsetup
          · rw [if_neg hqueue]
            exact h

theorem Balanced.exec_iff (h : Balanced s) (act : ProbeAction κ) :
    Balanced (s.exec act) ↔ ¬ TearsDownRunning s act := by
  cases act with
  | store bdev q w => exact iff_of_true (h.sysfsBlkTraceAttrStore bdev q w) not_false
  | shutdown q => exact iff_of_true (h.blkTraceShutdown q) not_false
  | ioctl bdev q cmd =>
    cases q with
    | none => exact iff_of_true h not_false
    | some q =>
      cases cmd with
      | setup copied al returned =>
        exact iff_of_true (h.blkTraceSetup q bdev copied al returned) not_false
      | start => exact iff_of_true (h.blkTraceStartstop q true) not_false
      | stop => exact iff_of_true (h.blkTraceStartstop q false) not_false
      | other => exact iff_of_true h not_false
      | teardown =>
        change Balanced (s.blkTraceRemove q).2 ↔ _
        refine ⟨?_, fun hidle => ?_⟩
        · rintro hbal ⟨bt, hq, hrun⟩
          exact h.not_remove hq hrun hbal
        · exact h.remove fun bt hq hrun => hidle ⟨bt, hq, hrun⟩

/-- The lifecycle is balanced in every state of a run when no request tears down a running
trace. -/
theorem balanced_iff (steps : List (Kernel κ × ProbeAction κ × Kernel κ)) (s : Kernel κ)
    (h : Traced steps s) :
    (Balanced (boot κ) ∧ ∀ step ∈ steps, Balanced step.2.2) ↔
      ∀ step ∈ steps, ¬ TearsDownRunning step.1 step.2.1 := by
  rw [and_iff_right balanced_boot]
  refine h.forall_iff Balanced ?_ (fun s act s' hs hstep => ?_) fun s act s' hs hstep => ?_
  · rintro s rfl
    exact balanced_boot
  · subst hstep
    exact (hs.exec_iff act).mpr
  · subst hstep
    exact hs.exec_iff act

theorem traced_exec (acts : List (ProbeAction κ)) :
    Traced (Run.execSteps exec (boot κ) acts) (acts.foldl exec (boot κ)) := by
  apply Run.execSteps_run
  · exact fun s act => rfl
  · rfl

def sda : BlockDevice where
  dev := 0x800010
  name := ['s', 'd', 'a']
  part := none

def sdaSetup (a : ℕ) : ProbeAction Unit :=
  .ioctl sda (some ()) (.setup
    (some { name := [], actMask := 0, bufSize := 524288, bufNr := 4, startLba := 0, endLba := 0,
            pid := 0 })
    { bt := some a, sequence := true, msgData := true, treeRoot := true, dir := true,
      droppedFile := true, msgFile := true, rchan := true } true)

def sdaCmd (cmd : BlkTraceCmd) : ProbeAction Unit :=
  .ioctl sda (some ()) cmd

theorem balanced_stopped :
    ∃ (steps : List (Kernel Unit × ProbeAction Unit × Kernel Unit)) (s : Kernel Unit),
      Traced steps s ∧ s.live = {2} ∧ Balanced (boot Unit) ∧ ∀ step ∈ steps, Balanced step.2.2 := by
  have hrun := traced_exec
    [sdaSetup 0, sdaCmd .start, sdaCmd .stop, sdaCmd .teardown, sdaSetup 1, sdaCmd .start, .shutdown (),
      sdaSetup 2]
  exact ⟨_, _, hrun, by decide, (balanced_iff _ _ hrun).mpr (by decide)⟩

/-- The teardown of a running trace leaves it in memory, counted and on no queue. -/
theorem teardown_leaks :
    ∃ (steps : List (Kernel Unit × ProbeAction Unit × Kernel Unit)) (s : Kernel Unit),
      Traced steps s ∧ ¬ (Balanced (boot Unit) ∧ ∀ step ∈ steps, Balanced step.2.2) := by
  refine ⟨_, _, traced_exec [sdaSetup 0, sdaCmd .start, sdaCmd .teardown], fun h => ?_⟩
  have hlast := h.2 (_, _, _) (List.mem_of_getLast? rfl)
  obtain ⟨q, hq, -⟩ := hlast.attached 0 (by decide)
  cases hq

end Kernel

end SBlktrace
