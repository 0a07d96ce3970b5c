import SBlktrace.ClientRuns
import Mathlib

namespace SBlktrace

open Function

namespace World

variable {κ ρ : Type}

def opensLeft (w : World κ) (c : κ) : ℕ := (w.todo c).countP ClientMsg.isOpen

def closesLeft (w : World κ) (c : κ) : ℕ := (w.todo c).countP ClientMsg.isClose

def openNow (w : World κ) (c : κ) : ℤ := w.closesLeft c - w.opensLeft c

def HasOpened (cl : Clients κ ρ) (w : World κ) (c : κ) : Prop :=
  w.opensLeft c < (cl.script c).countP ClientMsg.isOpen

/-- A host is removed only by a close after which none of its connections has more to send. -/
def RemovesIdle (step : World κ × WorldAction κ × World κ) : Prop :=
  ∀ p ∈ step.1.server.chList, p ∉ step.2.2.server.chList →
    (∃ c m rest, step.2.1 = .message c ∧ step.1.todo c = m :: rest ∧ m.isClose = true) ∧
      ∀ ch, step.1.server.ch p = some ch → ∀ c ∈ ch.connList, step.2.2.todo c = []

/-- A close that finds one open left finds no connection of the host that has yet to open. -/
def NoneWaiting (cl : Clients κ ρ) (step : World κ × WorldAction κ × World κ) : Prop :=
  ∀ c m rest, step.2.1 = .message c → step.1.todo c = m :: rest → m.isClose = true →
    ∀ nc ch, step.1.server.conn c = some nc → step.1.server.ch nc.ch = some ch →
      ch.clOpens = 1 → ∀ c' ∈ ch.connList, HasOpened cl step.1 c'

structure Balance (cl : Clients κ ρ) (w : World κ) (a : Sessions κ) : Prop where
  opens : ∀ addr s, a.session addr = some s → s.opens = (s.conns.map w.openNow).sum
  unclosed : ∀ c, w.opensLeft c = 0 ∨ w.closesLeft c = (cl.script c).countP ClientMsg.isClose
  idle : ∀ addr s, a.session addr = some s → s.opens = 0 → ∀ c ∈ s.conns, ¬ HasOpened cl w c
  used : ∀ addr s, a.session addr = some s → s.conns ≠ []

variable {cl : Clients κ ρ} {w : World κ} {a : Sessions κ} {host : UInt32 → ℕ} {c : κ}
  {m : ClientMsg} {rest : List ClientMsg}

theorem balance_start (cl : Clients κ ρ) : Balance cl (start cl) Sessions.empty where
  opens addr s hs := by cases hs
  unclosed c := .inr rfl
  idle addr s hs := by cases hs
  used addr s hs := by cases hs

theorem Inv.opensLeft_le (h : Inv cl w a host) (c : κ) :
    w.opensLeft c ≤ (cl.script c).countP ClientMsg.isOpen :=
  (h.suffix c).sublist.countP_le

theorem Balance.openNow_nonneg (hb : Balance cl w a) (h : Inv cl w a host) (c : κ) :
    0 ≤ w.openNow c := by
  have hle := h.opensLeft_le c
  have hvalid := (cl.valid c).balanced
  rw [openNow]
  obtain hzero | hall := hb.unclosed c
  · omega
  · omega

theorem Balance.opens_nonneg (hb : Balance cl w a) (h : Inv cl w a host) {addr : UInt32}
    {s : Session κ} (hs : a.session addr = some s) : 0 ≤ s.opens := by
  rw [hb.opens addr s hs]
  apply List.sum_nonneg
  rintro x hx
  obtain ⟨c', -, rfl⟩ := List.mem_map.mp hx
  exact hb.openNow_nonneg h c'

theorem Inv.todo_nil (h : Inv cl w a host) (hclose : w.closesLeft c = 0) : w.todo c = [] := by
  by_contra hne
  obtain ⟨m, hm, hmclose⟩ := (cl.valid c).last
  obtain ⟨pre, hpre⟩ := h.suffix c
  rw [← hpre, List.getLast?_append_of_ne_nil _ hne] at hm
  have hmem : m ∈ w.todo c := List.mem_of_getLast? hm
  exact List.countP_eq_zero.mp hclose m hmem hmclose

theorem script_opens_pos (cl : Clients κ ρ) (c : κ) :
    0 < (cl.script c).countP ClientMsg.isOpen := by
  obtain ⟨m, hm, hmclose⟩ := (cl.valid c).last
  rw [(cl.valid c).balanced]
  exact List.countP_pos_iff.mpr ⟨m, List.mem_of_getLast? hm, hmclose⟩

theorem header_len (hm : m ∈ cl.script c) :
    ((cl.header c m).len = 0 ↔ m.isOpen = true) ∧ ((cl.header c m).len = 1 ↔ m.isClose = true) := by
  cases m with
  | opens name cpu =>
    have hne : (cl.header c (.opens name cpu)).len ≠ 1 := by
      rw [show (cl.header c (.opens name cpu)).len = 0 from rfl]
      decide
    exact ⟨⟨fun _ => rfl, fun _ => rfl⟩, fun h => absurd h hne, fun h => by cases h⟩
  | closes name drops =>
    have hne : (cl.header c (.closes name drops)).len ≠ 0 := by
      rw [show (cl.header c (.closes name drops)).len = 1 from rfl]
      decide
    exact ⟨⟨fun h => absurd h hne, fun h => by cases h⟩, fun _ => rfl, fun _ => rfl⟩
  | data name cpu payload =>
    obtain ⟨hlt, hlt'⟩ := (cl.valid c).data _ hm name cpu payload rfl
    have hlen : (UInt32.ofNat payload.length).toNat = payload.length := UInt32.toNat_ofNat_of_lt' hlt'
    refine ⟨⟨fun h => ?_, fun h => by cases h⟩, fun h => ?_, fun h => by cases h⟩
    · have hzero := congrArg UInt32.toNat h
      rw [show (cl.header c (.data name cpu payload)).len = UInt32.ofNat payload.length from rfl,
        hlen] at hzero
      rw [hzero] at hlt
      exact absurd hlt (by decide)
    · have hone := congrArg UInt32.toNat h
      rw [show (cl.header c (.data name cpu payload)).len = UInt32.ofNat payload.length from rfl,
        hlen] at hone
      rw [hone] at hlt
      exact absurd hlt (by decide)

def change (m : ClientMsg) : ℤ := if m.isOpen then 1 else if m.isClose then -1 else 0

theorem balance_header (hm : m ∈ cl.script c) :
    Sessions.balance (cl.header c m) = change m := by
  obtain ⟨hopen, hclose⟩ := header_len hm
  simp only [Sessions.balance, change, hopen, hclose]

theorem Inv.mem_script (h : Inv cl w a host) (htodo : w.todo c = m :: rest) : m ∈ cl.script c := by
  have hsuffix := h.suffix c
  rw [htodo] at hsuffix
  exact hsuffix.subset List.mem_cons_self

theorem change_eq (m : ClientMsg) :
    change m = (if m.isOpen then 1 else 0) - (if m.isClose then 1 else 0) := by
  cases m <;> rfl

theorem not_hasOpened_script (h : w.todo c = cl.script c) : ¬ HasOpened cl w c := by
  rw [HasOpened, opensLeft, h]
  exact lt_irrefl _

theorem openNow_script (h : w.todo c = cl.script c) : w.openNow c = 0 := by
  rw [openNow, opensLeft, closesLeft, h, (cl.valid c).balanced]
  ring

def Reached (cl : Clients κ ρ) (w : World κ) : Prop :=
  ∃ a host, Inv cl w a host ∧ Balance cl w a

theorem reached_start (cl : Clients κ ρ) : Reached cl (start cl) :=
  ⟨_, _, inv_start cl, balance_start cl⟩

theorem Reached.removed (hw : Reached cl w) {addr : UInt32}
    (hdone : ∀ c, cl.hostname c = addr → w.todo c = []) {p : ℕ} (hp : p ∈ w.server.chList)
    {ch : ClHost κ} (hch : w.server.ch p = some ch) : ch.clInAddr ≠ addr := by
  obtain ⟨a, host, h, hb⟩ := hw
  obtain ⟨addr', s, hs, rfl⟩ := h.represents.chList p hp
  obtain ⟨-, ds, hch', -⟩ := h.represents.session addr' s hs
  rw [hch] at hch'
  cases hch'
  rintro rfl
  have hnil : ∀ c ∈ s.conns, w.todo c = [] := by
    rintro c hc
    obtain ⟨i, hi, hhost⟩ := h.represents.member addr' s hs c hc
    exact hdone c ((h.hostname c i hi).symm.trans hhost)
  have hzero : s.opens = 0 := by
    rw [hb.opens addr' s hs]
    apply List.sum_eq_zero
    rintro x hx
    obtain ⟨c, hc, rfl⟩ := List.mem_map.mp hx
    rw [openNow, opensLeft, closesLeft, hnil c hc]
    rfl
  obtain ⟨c, hc⟩ := List.exists_mem_of_ne_nil _ (hb.used addr' s hs)
  apply hb.idle addr' s hs hzero c hc
  rw [HasOpened, opensLeft, hnil c hc]
  exact script_opens_pos cl c

section Message

variable [DecidableEq κ] {ns : NetServer κ} {got : List (κ × ClientMsg)}

def after (w : World κ) (ns : NetServer κ) (c : κ) (rest : List ClientMsg)
    (got : List (κ × ClientMsg)) : World κ :=
  { w with server := ns, todo := update w.todo c rest, got := got }

theorem opensLeft_after_ne {c' : κ} (hc' : c' ≠ c) :
    (after w ns c rest got).opensLeft c' = w.opensLeft c' := by
  rw [opensLeft, after]
  dsimp only
  rw [update_of_ne hc']
  rfl

theorem closesLeft_after_ne {c' : κ} (hc' : c' ≠ c) :
    (after w ns c rest got).closesLeft c' = w.closesLeft c' := by
  rw [closesLeft, after]
  dsimp only
  rw [update_of_ne hc']
  rfl

variable (ns got)

theorem opensLeft_after (htodo : w.todo c = m :: rest) :
    w.opensLeft c = (after w ns c rest got).opensLeft c + if m.isOpen then 1 else 0 := by
  rw [opensLeft, opensLeft, after, htodo]
  dsimp only
  rw [update_self, List.countP_cons]

theorem closesLeft_after (htodo : w.todo c = m :: rest) :
    w.closesLeft c = (after w ns c rest got).closesLeft c + if m.isClose then 1 else 0 := by
  rw [closesLeft, closesLeft, after, htodo]
  dsimp only
  rw [update_self, List.countP_cons]

variable {ns got}

theorem openNow_after_ne {c' : κ} (hc' : c' ≠ c) :
    (after w ns c rest got).openNow c' = w.openNow c' := by
  rw [openNow, openNow, opensLeft_after_ne hc', closesLeft_after_ne hc']

theorem openNow_after (htodo : w.todo c = m :: rest) :
    (after w ns c rest got).openNow c = w.openNow c + change m := by
  have hopens := opensLeft_after ns got htodo
  have hcloses := closesLeft_after ns got htodo
  rw [openNow, openNow, hopens, hcloses, change_eq]
  push_cast
  ring

theorem sum_after (htodo : w.todo c = m :: rest) {conns : List κ} (hnodup : conns.Nodup)
    (hmem : c ∈ conns) :
    (conns.map (after w ns c rest got).openNow).sum = (conns.map w.openNow).sum + change m := by
  induction conns with
  | nil => cases hmem
  | cons c' conns ih =>
    obtain ⟨hnot, hnodup'⟩ := List.nodup_cons.mp hnodup
    rw [List.map_cons, List.map_cons, List.sum_cons, List.sum_cons]
    by_cases hc' : c = c'
    · subst hc'
      have hsame : conns.map (after w ns c rest got).openNow = conns.map w.openNow := by
        refine List.map_congr_left fun c' hc' => openNow_after_ne ?_
        rintro rfl
        exact hnot hc'
      rw [openNow_after htodo, hsame]
      ring
    · have hin := (List.mem_cons.mp hmem).resolve_left hc'
      rw [openNow_after_ne (Ne.symm hc'), ih hnodup' hin]
      ring

theorem sum_after_notMem {conns : List κ} (hnot : c ∉ conns) :
    (conns.map (after w ns c rest got).openNow).sum = (conns.map w.openNow).sum := by
  congr 1
  refine List.map_congr_left fun c' hc' => openNow_after_ne ?_
  rintro rfl
  exact hnot hc'

theorem Balance.accept (hb : Balance cl w a) (h : Inv cl w a host) (hnew : w.accepted c = false)
    (time : ℤ) :
    Balance cl { w with server := ns, accepted := update w.accepted c true }
      (a.accept (cl.hostname c) c time) := by
  have hscript := h.unsent c hnew
  refine ⟨fun addr t ht => ?_, hb.unclosed, fun addr t ht hzero c' hc' => ?_, fun addr t ht => ?_⟩
  · obtain ⟨rfl, rfl⟩ | ⟨-, hold⟩ := Sessions.put_cases ht
    · dsimp only
      rw [List.map_append, List.sum_append]
      have hnow : ([c].map w.openNow).sum = 0 := by simp [openNow_script hscript]
      cases hs : a.session (cl.hostname c) with
      | none =>
        change (0 : ℤ) = (([] : List κ).map w.openNow).sum + ([c].map w.openNow).sum
        rw [hnow]
        rfl
      | some s =>
        have hsum := hb.opens _ s hs
        simp only [Option.getD_some]
        rw [hsum]
        have hgoal : (s.conns.map w.openNow).sum =
          (s.conns.map w.openNow).sum + ([c].map w.openNow).sum := by rw [hnow, add_zero]
        exact hgoal
    · exact hb.opens addr t hold
  · obtain ⟨rfl, rfl⟩ | ⟨-, hold⟩ := Sessions.put_cases ht
    · obtain hc' | hc' := List.mem_append.mp hc'
      · cases hs : a.session (cl.hostname c) with
        | none =>
          rw [hs] at hc'
          cases hc'
        | some s =>
          rw [hs] at hc' hzero
          exact hb.idle _ s hs hzero c' hc'
      · obtain rfl := List.mem_singleton.mp hc'
        exact not_hasOpened_script hscript
    · exact hb.idle addr t hold hzero c' hc'
  · obtain ⟨-, rfl⟩ | ⟨-, hold⟩ := Sessions.put_cases ht
    · simp
    · exact hb.used addr t hold

theorem session_message {i : ConnInfo} {s t : Session κ} (hhost : i.hostname = cl.hostname c)
    (hm : m ∈ cl.script c)
    (ht : (a.message c i s (cl.header c m) m.payload).session (cl.hostname c) = some t) :
    ¬ Sessions.closesLast s (cl.header c m) ∧ t.conns = s.conns ∧ t.opens = s.opens + change m := by
  obtain ⟨-, hlast, hstays⟩ := Sessions.message_session a c i s (cl.header c m) m.payload
  rw [hhost] at hlast hstays
  by_cases hcl : Sessions.closesLast s (cl.header c m)
  · rw [hlast hcl] at ht
    cases ht
  · obtain ⟨devices, hdevices⟩ := hstays hcl
    rw [hdevices] at ht
    cases ht
    rw [← balance_header hm]
    exact ⟨hcl, rfl, rfl⟩

-- The opens fall to zero by a close, which removes the host, or were zero before.
theorem Balance.idle_message (hb : Balance cl w a) (h : Inv cl w a host) {s : Session κ}
    (hs : a.session (cl.hostname c) = some s) (htodo : w.todo c = m :: rest)
    (hcl : ¬ Sessions.closesLast s (cl.header c m)) (hzero : s.opens + change m = 0) :
    ∀ c' ∈ s.conns, ¬ HasOpened cl (after w ns c rest got) c' := by
  have hnonneg := hb.opens_nonneg h hs
  intro c' hc'
  cases m with
  | opens name cpu =>
    rw [show change (.opens name cpu) = 1 from rfl] at hzero
    omega
  | closes name drops =>
    refine absurd ⟨rfl, ?_⟩ hcl
    rw [show change (.closes name drops) = -1 from rfl] at hzero
    omega
  | data name cpu payload =>
    rw [show change (.data name cpu payload) = 0 from rfl, add_zero] at hzero
    have hidle := hb.idle _ s hs hzero c' hc'
    by_cases heq : c' = c
    · subst heq
      have hopens := opensLeft_after ns got htodo
      rw [HasOpened] at hidle ⊢
      rw [hopens] at hidle
      exact hidle
    · rw [HasOpened, opensLeft_after_ne heq]
      exact hidle

theorem Balance.unclosed_message (hb : Balance cl w a) (htodo : w.todo c = m :: rest)
    (hclose : m.isClose = true → w.opensLeft c = 0) (c' : κ) :
    (after w ns c rest got).opensLeft c' = 0 ∨
      (after w ns c rest got).closesLeft c' = (cl.script c').countP ClientMsg.isClose := by
  by_cases hc' : c' = c
  · subst hc'
    have hopens := opensLeft_after ns got htodo
    have hcloses := closesLeft_after ns got htodo
    obtain hzero | hall := hb.unclosed c'
    · left
      omega
    · by_cases hm : m.isClose = true
      · left
        have hzero := hclose hm
        omega
      · right
        rw [if_neg hm] at hcloses
        omega
  · rw [opensLeft_after_ne hc', closesLeft_after_ne hc']
    exact hb.unclosed c'

theorem Balance.message (hb : Balance cl w a) (h : Inv cl w a host) {i : ConnInfo} {s : Session κ}
    (hi : a.info c = some i) (hhost : i.hostname = cl.hostname c)
    (hs : a.session (cl.hostname c) = some s) (hmem : c ∈ s.conns) (htodo : w.todo c = m :: rest)
    (hclose : m.isClose = true → w.opensLeft c = 0) :
    Balance cl (after w ns c rest got) (a.message c i s (cl.header c m) m.payload) := by
  have hscript := h.mem_script htodo
  obtain ⟨hother, -, -⟩ := Sessions.message_session a c i s (cl.header c m) m.payload
  rw [hhost] at hother
  have hdisjoint : ∀ addr t, addr ≠ cl.hostname c → a.session addr = some t → c ∉ t.conns := by
    rintro addr t haddr ht hc
    rw [h.represents.member_iff ht hi, hhost] at hc
    exact haddr hc.symm
  refine ⟨fun addr t ht => ?_, hb.unclosed_message htodo hclose, fun addr t ht hzero c' hc' => ?_,
    fun addr t ht => ?_⟩
  · by_cases haddr : addr = cl.hostname c
    · subst haddr
      obtain ⟨-, hconns, hopens⟩ := session_message hhost hscript ht
      rw [hopens, hconns, sum_after htodo (h.represents.distinct _ s hs) hmem, hb.opens _ s hs]
    · rw [hother addr haddr] at ht
      rw [sum_after_notMem (hdisjoint addr t haddr ht)]
      exact hb.opens addr t ht
  · by_cases haddr : addr = cl.hostname c
    · subst haddr
      obtain ⟨hcl, hconns, hopens⟩ := session_message hhost hscript ht
      rw [hconns] at hc'
      rw [hzero] at hopens
      exact hb.idle_message h hs htodo hcl hopens.symm c' hc'
    · rw [hother addr haddr] at ht
      have hne : c' ≠ c := by
        rintro rfl
        exact hdisjoint addr t haddr ht hc'
      rw [HasOpened, opensLeft_after_ne hne]
      exact hb.idle addr t ht hzero c' hc'
  · by_cases haddr : addr = cl.hostname c
    · subst haddr
      rw [(session_message hhost hscript ht).2.1]
      exact hb.used _ s hs
    · rw [hother addr haddr] at ht
      exact hb.used addr t ht

theorem Reached.step {w' : World κ} {act : WorldAction κ} (hw : Reached cl w)
    (hstep : Step cl w act w') : Reached cl w' := by
  obtain ⟨a, host, h, hb⟩ := hw
  cases hstep with
  | accept c time ns hnew hns =>
    obtain ⟨host', h'⟩ := h.accept hnew hns
    exact ⟨_, host', h', hb.accept h hnew time⟩
  | message c m rest ns hc htodo hclose hns =>
    obtain ⟨i, s, hi, hhost, hs, hmem, h'⟩ := h.message hc htodo hns (w.got ++ [(c, m)])
    exact ⟨_, host, h', hb.message h hi hhost hs hmem htodo fun hm => hclose hm c rfl⟩

theorem Runs.reached {steps : List (World κ × WorldAction κ × World κ)} (h : Runs cl steps w) :
    Reached cl w := by
  induction h with
  | start => exact reached_start cl
  | step _ _ _ _ _ hstep ih => exact ih.step hstep

theorem Runs.reached_of_mem {steps : List (World κ × WorldAction κ × World κ)} (h : Runs cl steps w)
    {step : World κ × WorldAction κ × World κ} (hmem : step ∈ steps) :
    Reached cl step.1 ∧ Step cl step.1 step.2.1 step.2.2 := by
  induction h with
  | start => cases hmem
  | step steps w w' a hruns hstep ih =>
    obtain hmem | hmem := List.mem_append.mp hmem
    · exact ih hmem
    · obtain rfl := List.mem_singleton.mp hmem
      exact ⟨hruns.reached, hstep⟩

theorem netAddConnection_chList {ns ns' : NetServer κ} {addr : UInt32} {time : ℤ}
    (h : ns.netAddConnection addr c time = some ns') : ns.chList ⊆ ns'.chList := by
  obtain ⟨found, -, h⟩ := Option.bind_eq_some_iff.mp h
  cases found with
  | none =>
    obtain ⟨ch, -, h⟩ := Option.bind_eq_some_iff.mp h
    cases h
    exact List.subset_append_left _ _
  | some p =>
    obtain ⟨ch, -, h⟩ := Option.bind_eq_some_iff.mp h
    cases h
    exact List.Subset.refl _

theorem opensLeft_after_le (htodo : w.todo c = m :: rest) (c' : κ) :
    (after w ns c rest got).opensLeft c' ≤ w.opensLeft c' := by
  by_cases hc' : c' = c
  · rw [hc', opensLeft_after ns got htodo]
    exact Nat.le_add_right _ _
  · rw [opensLeft_after_ne hc']

theorem done_iff (hb : Balance cl (after w ns c rest got) a) (h : Inv cl (after w ns c rest got) a host)
    (htodo : w.todo c = m :: rest) (hm : m.isClose = true) {c' : κ}
    (hzero : (after w ns c rest got).openNow c' = 0) :
    (after w ns c rest got).todo c' = [] ↔ HasOpened cl w c' := by
  have hle : (after w ns c rest got).opensLeft c' ≤ w.opensLeft c' := opensLeft_after_le htodo c'
  rw [openNow] at hzero
  refine ⟨fun hnil => ?_, fun hopened => ?_⟩
  · have hleft : w.opensLeft c' = (after w ns c rest got).opensLeft c' := by
      by_cases hc' : c' = c
      · have hopen : m.isOpen = false := by
          cases m with
          | opens => cases hm
          | data => cases hm
          | closes => rfl
        have hafter := opensLeft_after ns got htodo
        rw [hopen] at hafter
        rw [hc']
        exact hafter
      · exact (opensLeft_after_ne hc').symm
    have hnone : (after w ns c rest got).opensLeft c' = 0 := by
      rw [opensLeft, hnil]
      rfl
    rw [HasOpened, hleft, hnone]
    exact script_opens_pos cl c'
  · rw [HasOpened] at hopened
    have hbalanced := (cl.valid c').balanced
    apply h.todo_nil
    obtain hnone | hall := hb.unclosed c'
    · omega
    · omega

section Removal

variable {i : ConnInfo} {s : Session κ}

-- Only the host of the connection can be removed.
theorem removed_sender (h : Inv cl w a host)
    (h' : Inv cl (after w ns c rest got) (a.message c i s (cl.header c m) m.payload) host)
    (hhost : i.hostname = cl.hostname c) {p : ℕ} (hp : p ∈ w.server.chList) (hp' : p ∉ ns.chList) :
    p = host (cl.hostname c) ∧ Sessions.closesLast s (cl.header c m) := by
  obtain ⟨hother, -, hstays⟩ := Sessions.message_session a c i s (cl.header c m) m.payload
  rw [hhost] at hother hstays
  obtain ⟨addr, t, ht, rfl⟩ := h.represents.chList p hp
  by_cases haddr : addr = cl.hostname c
  · refine ⟨by rw [haddr], ?_⟩
    by_contra hcl
    obtain ⟨devices, hdevices⟩ := hstays hcl
    rw [haddr] at hp'
    exact hp' (h'.represents.session _ _ hdevices).1
  · rw [← hother addr haddr] at ht
    exact absurd (h'.represents.session _ _ ht).1 hp'

theorem notMem_chList_closed (h : Inv cl w a host)
    (h' : Inv cl (after w ns c rest got) (a.message c i s (cl.header c m) m.payload) host)
    (hhost : i.hostname = cl.hostname c) (hs : a.session (cl.hostname c) = some s)
    (hcl : Sessions.closesLast s (cl.header c m)) : host (cl.hostname c) ∉ ns.chList := by
  obtain ⟨hother, hlast, -⟩ := Sessions.message_session a c i s (cl.header c m) m.payload
  rw [hhost] at hother hlast
  intro hin
  obtain ⟨addr, t, ht, heq⟩ := h'.represents.chList _ hin
  have haddr : addr = cl.hostname c := by
    by_contra hne
    rw [hother addr hne] at ht
    exact hne (h.represents.host_inj ht hs heq)
  rw [haddr, hlast hcl] at ht
  cases ht

theorem done_iff_closed (hb : Balance cl w a) (h : Inv cl w a host)
    (hb' : Balance cl (after w ns c rest got) (a.message c i s (cl.header c m) m.payload))
    (h' : Inv cl (after w ns c rest got) (a.message c i s (cl.header c m) m.payload) host)
    (hs : a.session (cl.hostname c) = some s) (hmem : c ∈ s.conns) (htodo : w.todo c = m :: rest)
    (hcl : Sessions.closesLast s (cl.header c m)) :
    ∀ c' ∈ s.conns, (after w ns c rest got).todo c' = [] ↔ HasOpened cl w c' := by
  have hm := (header_len (h.mem_script htodo)).2.mp hcl.1
  have hsum : (s.conns.map (after w ns c rest got).openNow).sum =
      (s.conns.map w.openNow).sum + change m :=
    sum_after htodo (h.represents.distinct _ s hs) hmem
  have hchange : change m = -1 := by
    cases m with
    | opens => cases hm
    | data => cases hm
    | closes => rfl
  have hzero : (s.conns.map (after w ns c rest got).openNow).sum = 0 := by
    have hone := hcl.2
    rw [hsum, ← hb.opens _ s hs, hchange]
    omega
  have hnonneg : ∀ x ∈ s.conns.map (after w ns c rest got).openNow, 0 ≤ x := by
    rintro x hx
    obtain ⟨c', -, rfl⟩ := List.mem_map.mp hx
    exact hb'.openNow_nonneg h' c'
  intro c' hc'
  apply done_iff hb' h' htodo hm
  have hle := List.single_le_sum hnonneg _ (List.mem_map_of_mem hc')
  have hge := hb'.openNow_nonneg h' c'
  rw [hzero] at hle
  omega

end Removal

theorem removesIdle_iff {w' : World κ} {act : WorldAction κ} (hw : Reached cl w)
    (hstep : Step cl w act w') : RemovesIdle (w, act, w') ↔ NoneWaiting cl (w, act, w') := by
  obtain ⟨a, host, h, hb⟩ := hw
  cases hstep with
  | accept c time ns hnew hns =>
    refine ⟨fun _ c' m rest hact => (nomatch hact), fun _ p hp hp' => ?_⟩
    exact absurd (netAddConnection_chList hns hp) hp'
  | message c m rest ns hc htodo hclose hns =>
    obtain ⟨i, s, hi, hhost, hs, hmem, h'⟩ := h.message hc htodo hns (w.got ++ [(c, m)])
    have hb' : Balance cl (after w ns c rest (w.got ++ [(c, m)]))
        (a.message c i s (cl.header c m) m.payload) :=
      hb.message h hi hhost hs hmem htodo fun hm => hclose hm c rfl
    have hlen := (header_len (h.mem_script htodo)).2
    obtain ⟨hp₀, ds, hch, -⟩ := h.represents.session _ s hs
    have hconn : w.server.conn c = some ⟨host (cl.hostname c), i.ncpus, i.connectTime⟩ := by
      rw [h.represents.conn c, hi, Option.map_some, hhost]
    by_cases hcl : Sessions.closesLast s (cl.header c m)
    · have hdone := done_iff_closed hb h hb' h' hs hmem htodo hcl
      have hgone := notMem_chList_closed h h' hhost hs hcl
      refine ⟨fun hidle c' m' rest' hact htodo' hm' nc ch hnc hch' hone c'' hc'' => ?_,
        fun hwaiting p hp hp' => ?_⟩
      · cases hact
        rw [hconn] at hnc
        cases hnc
        rw [hch] at hch'
        cases hch'
        exact (hdone c'' hc'').mp ((hidle _ hp₀ hgone).2 _ hch c'' hc'')
      · obtain ⟨rfl, -⟩ := removed_sender h h' hhost hp hp'
        have hm := hlen.mp hcl.1
        refine ⟨⟨c, m, rest, rfl, htodo, hm⟩, fun ch hch' c' hc' => ?_⟩
        rw [hch] at hch'
        cases hch'
        have hone : s.opens = 1 := by
          have hcl' := hcl.2
          omega
        exact (hdone c' hc').mpr (hwaiting c m rest rfl htodo hm _ _ hconn hch hone c' hc')
    · refine ⟨fun _ c' m' rest' hact htodo' hm' nc ch hnc hch' hone => ?_, fun _ p hp hp' => ?_⟩
      · cases hact
        rw [htodo] at htodo'
        cases htodo'
        rw [hconn] at hnc
        cases hnc
        rw [hch] at hch'
        cases hch'
        refine absurd ⟨hlen.mpr hm', ?_⟩ hcl
        have hone' : s.opens = 1 := hone
        omega
      · exact absurd (removed_sender h h' hhost hp hp').2 hcl

theorem Reached.handles (hw : Reached cl w) (hc : c ∈ w.server.connList) :
    (w.server.netClientData c (cl.header c m) m.payload).isSome := by
  obtain ⟨a, host, h, -⟩ := hw
  obtain ⟨i, -, hi, -⟩ := h.session hc
  obtain ⟨ns, -, hns, -⟩ := h.represents.netClientData hi (cl.header c m) m.payload
  rw [hns]
  rfl

/-- In every run of the server: hosts are removed only when their connections are done just if no
last close finds a connection waiting to open; no message is applied to freed memory; and a host is
gone when its connections have sent everything. -/
theorem net_ch_remove_iff (cl : Clients κ ρ) (steps : List (World κ × WorldAction κ × World κ))
    (w : World κ) (h : Runs cl steps w) :
    ((∀ step ∈ steps, RemovesIdle step) ↔ ∀ step ∈ steps, NoneWaiting cl step) ∧
      (∀ c m rest, c ∈ w.server.connList → w.todo c = m :: rest →
        (w.server.netClientData c (cl.header c m) m.payload).isSome) ∧
      ∀ addr, (∀ c, cl.hostname c = addr → w.todo c = []) →
        ∀ p ∈ w.server.chList, ∀ ch, w.server.ch p = some ch → ch.clInAddr ≠ addr := by
  refine ⟨?_, fun c m rest hc _ => h.reached.handles hc, fun addr hdone p hp ch hch =>
    h.reached.removed hdone hp hch⟩
  refine forall₂_congr fun step hmem => ?_
  obtain ⟨hreached, hstep⟩ := h.reached_of_mem hmem
  exact removesIdle_iff hreached hstep

end Message

def twoRuns : Clients Bool Bool where
  run := id
  client r := ⟨1, if r then 8 else 7, 1⟩
  script _ := [.opens "sda" 0, .closes "sda" 0]
  valid _ :=
    { balanced := rfl
      last := ⟨_, rfl, rfl⟩
      data := by simp }

theorem net_ch_remove_iff_twoRuns :
    ∃ steps w, Runs twoRuns steps w ∧ (∃ step ∈ steps, 0 ∈ step.1.server.chList ∧ 0 ∉ step.2.2.server.chList) ∧
      ((∀ step ∈ steps, RemovesIdle step) ↔ ∀ step ∈ steps, NoneWaiting twoRuns step) := by
  have hrun : ∃ steps w₅ w₆, Runs twoRuns (steps ++ [(w₅, .message true, w₆)]) w₆ ∧
      0 ∈ w₅.server.chList ∧ 0 ∉ w₆.server.chList := by
    have hopen : ∀ c c', twoRuns.run c' = twoRuns.run c → c' = c := fun _ _ hc' => hc'
    have h₁ := Runs.step _ _ _ _ (@Runs.start _ _ _ twoRuns) (.accept _ false 0 _ rfl rfl)
    have h₂ := Runs.step _ _ _ _ h₁ (.accept _ true 0 _ rfl rfl)
    have h₃ := Runs.step _ _ _ _ h₂
      (.message _ false _ _ _ List.mem_cons_self rfl (fun hm => (nomatch hm)) rfl)
    have h₄ := Runs.step _ _ _ _ h₃
      (.message _ true _ _ _ (List.mem_cons_of_mem _ List.mem_cons_self) rfl (fun hm => (nomatch hm)) rfl)
    have h₅ := Runs.step _ _ _ _ h₄ (.message _ false _ _ _ List.mem_cons_self rfl
      (fun _ c' hc' => by rw [hopen false c' hc']; rfl) rfl)
    have h₆ := Runs.step _ _ _ _ h₅ (.message _ true _ _ _ (List.mem_cons_of_mem _ List.mem_cons_self) rfl
      (fun _ c' hc' => by rw [hopen true c' hc']; rfl) rfl)
    exact ⟨_, _, _, h₆, List.mem_cons_self, List.not_mem_nil⟩
  obtain ⟨steps, w₅, w₆, hruns, hin, hout⟩ := hrun
  exact ⟨_, w₆, hruns, ⟨(w₅, .message true, w₆), by simp, hin, hout⟩, (net_ch_remove_iff twoRuns _ w₆ hruns).1⟩

/-- The close of the first run removes the host, with the connection of the second. -/
theorem waiting_connection_removed :
    ∃ steps w, Runs twoRuns steps w ∧ ¬ (∀ step ∈ steps, RemovesIdle step) ∧
      w.server.conn true = none ∧ w.todo true = twoRuns.script true := by
  have hrun : ∃ steps w₃ w₄, Runs twoRuns (steps ++ [(w₃, .message false, w₄)]) w₄ ∧
      0 ∈ w₃.server.chList ∧ 0 ∉ w₄.server.chList ∧
      (∃ ch, w₃.server.ch 0 = some ch ∧ true ∈ ch.connList) ∧
      w₄.server.conn true = none ∧ w₄.todo true = twoRuns.script true := by
    have hopen : ∀ c', twoRuns.run c' = twoRuns.run false → c' = false := fun _ hc' => hc'
    have h₁ := Runs.step _ _ _ _ (@Runs.start _ _ _ twoRuns) (.accept _ false 0 _ rfl rfl)
    have h₂ := Runs.step _ _ _ _ h₁ (.accept _ true 0 _ rfl rfl)
    have h₃ := Runs.step _ _ _ _ h₂
      (.message _ false _ _ _ List.mem_cons_self rfl (fun hm => (nomatch hm)) rfl)
    have h₄ := Runs.step _ _ _ _ h₃ (.message _ false _ _ _ List.mem_cons_self rfl
      (fun _ c' hc' => by rw [hopen c' hc']; rfl) rfl)
    exact ⟨_, _, _, h₄, List.mem_cons_self, List.not_mem_nil,
      ⟨_, rfl, List.mem_cons_of_mem _ List.mem_cons_self⟩, rfl, rfl⟩
  obtain ⟨steps, w₃, w₄, hruns, hin, hout, ⟨ch, hch, hmem⟩, hconn, htodo⟩ := hrun
  refine ⟨_, w₄, hruns, fun hidle => ?_, hconn, htodo⟩
  have hlast := (hidle (w₃, .message false, w₄) (by simp) 0 hin hout).2 ch hch true hmem
  have hnil : w₄.todo true = [] := hlast
  rw [htodo] at hnil
  cases hnil

end World

end SBlktrace
