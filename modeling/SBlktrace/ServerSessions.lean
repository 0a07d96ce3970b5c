import SBlktrace.NetServer
import Mathlib

namespace SBlktrace

open Function

structure Session (κ : Type) where
  conns : List κ
  opens : ℤ
  devices : List Device

structure ConnInfo where
  hostname : UInt32
  ncpus : ℤ
  connectTime : ℤ

structure Sessions (κ : Type) where
  session : UInt32 → Option (Session κ)
  info : κ → Option ConnInfo
  files : List (Device × ℤ)

def onDevice (name : String) (f : Device → Device) (devices : List Device) : List Device :=
  devices.map fun dev => if dev.butsName = name then f dev else dev

theorem onDevice_of_notMem {name : String} {f : Device → Device} {devices : List Device}
    (h : name ∉ devices.map Device.butsName) : onDevice name f devices = devices := by
  refine (List.map_congr_left fun dev hdev => ?_).trans (List.map_id devices)
  rw [if_neg fun heq => h (List.mem_map.mpr ⟨dev, hdev, heq⟩), id]

theorem onDevice_names {name : String} {f : Device → Device}
    (hf : ∀ dev, (f dev).butsName = dev.butsName) (devices : List Device) :
    (onDevice name f devices).map Device.butsName = devices.map Device.butsName := by
  rw [onDevice, List.map_map]
  refine List.map_congr_left fun dev _ => ?_
  dsimp only [comp]
  split
  · exact hf dev
  · rfl

def newTime (clId : UInt32) (time : ℤ) (devices : List Device) : ℤ :=
  devices.foldl (fun t dev => if dev.clId = clId then dev.clConnectTime else t) time

def newDevice (i : ConnInfo) (bnh : BlktraceNetHdr) (time : ℤ) : Device where
  butsName := bnh.butsName
  hostname := i.hostname
  clId := bnh.clId
  clConnectTime := time
  ncpus := i.ncpus
  drops := 0
  stats _ := 0
  ios _ := []

def ensureDevice (i : ConnInfo) (bnh : BlktraceNetHdr) (devices : List Device) : List Device :=
  if bnh.butsName ∈ devices.map Device.butsName then devices
  else devices ++ [newDevice i bnh (newTime bnh.clId i.connectTime devices)]

def ConnInfo.known (i : ConnInfo) (bnh : BlktraceNetHdr) : ConnInfo :=
  if i.ncpus = -1 then { i with ncpus := asInt bnh.maxCpus } else i

@[simp] theorem ConnInfo.known_hostname (i : ConnInfo) (bnh : BlktraceNetHdr) :
    (i.known bnh).hostname = i.hostname := by
  unfold known
  split <;> rfl

@[simp] theorem ConnInfo.known_connectTime (i : ConnInfo) (bnh : BlktraceNetHdr) :
    (i.known bnh).connectTime = i.connectTime := by
  unfold known
  split <;> rfl

def Device.received (dev : Device) (bnh : BlktraceNetHdr) (payload : List UInt8) : Device :=
  { dev with
    stats := update dev.stats bnh.cpu (dev.stats bnh.cpu + bnh.len.toUInt64)
    ios := update dev.ios bnh.cpu (dev.ios bnh.cpu ++ payload) }

namespace Sessions

variable {κ : Type}

def empty : Sessions κ := ⟨fun _ => none, fun _ => none, []⟩

def put (a : Sessions κ) (addr : UInt32) (s : Session κ) : Sessions κ :=
  { a with session := update a.session addr (some s) }

theorem put_cases {a : Sessions κ} {addr addr' : UInt32} {s t : Session κ}
    (h : (a.put addr s).session addr' = some t) :
    addr' = addr ∧ t = s ∨ addr' ≠ addr ∧ a.session addr' = some t := by
  have hput : update a.session addr (some s) addr' = some t := h
  rw [update_apply] at hput
  split at hput
  case isTrue haddr => exact .inl ⟨haddr, (Option.some_inj.mp hput).symm⟩
  case isFalse haddr => exact .inr ⟨haddr, hput⟩

variable [DecidableEq κ]

def remove (a : Sessions κ) (addr : UInt32) (s : Session κ) (ncpus : ℤ) : Sessions κ where
  session := update a.session addr none
  info c := if c ∈ s.conns then none else a.info c
  files := a.files ++ s.devices.map fun dev => (dev, ncpus)

def accept (a : Sessions κ) (addr : UInt32) (c : κ) (time : ℤ) : Sessions κ :=
  let s := (a.session addr).getD ⟨[], 0, []⟩
  { a.put addr { s with conns := s.conns ++ [c] } with
    info := update a.info c (some ⟨addr, -1, time⟩) }

def deliver (a : Sessions κ) (i : ConnInfo) (s : Session κ) (bnh : BlktraceNetHdr)
    (payload : List UInt8) : Sessions κ :=
  if bnh.len = 0 then a.put i.hostname { s with opens := s.opens + 1 }
  else if bnh.len = 1 then
    let s := { s with
      opens := s.opens - 1
      devices := onDevice bnh.butsName (fun dev => { dev with drops := bnh.cpu.toUInt64 }) s.devices }
    if s.opens = 0 then a.remove i.hostname s i.ncpus else a.put i.hostname s
  else
    a.put i.hostname
      { s with devices := onDevice bnh.butsName (·.received bnh payload) s.devices }

def message (a : Sessions κ) (c : κ) (i : ConnInfo) (s : Session κ) (bnh : BlktraceNetHdr)
    (payload : List UInt8) : Sessions κ :=
  { a with info := update a.info c (some (i.known bnh)) }.deliver (i.known bnh)
    { s with devices := ensureDevice (i.known bnh) bnh s.devices } bnh payload

theorem deliver_info {a : Sessions κ} {i i' : ConnInfo} {s : Session κ} {bnh : BlktraceNetHdr}
    {payload : List UInt8} {c : κ} (h : (a.deliver i s bnh payload).info c = some i') :
    a.info c = some i' := by
  rw [deliver] at h
  split at h
  case isTrue => exact h
  case isFalse =>
  split at h
  case isFalse => exact h
  case isTrue =>
    dsimp only at h
    split at h
    case isFalse => exact h
    case isTrue =>
      rw [remove] at h
      dsimp only at h
      split at h
      · cases h
      · exact h

theorem message_info {a : Sessions κ} {i i' : ConnInfo} {s : Session κ} {bnh : BlktraceNetHdr}
    {payload : List UInt8} {c c' : κ} (hi : a.info c = some i)
    (h : (a.message c i s bnh payload).info c' = some i') :
    ∃ i₀, a.info c' = some i₀ ∧ i'.hostname = i₀.hostname := by
  have hupdate : update a.info c (some (i.known bnh)) c' = some i' := deliver_info h
  rw [update_apply] at hupdate
  split at hupdate
  case isFalse => exact ⟨i', hupdate, rfl⟩
  case isTrue hc =>
    cases hupdate
    rw [hc]
    exact ⟨i, hi, i.known_hostname bnh⟩

def balance (bnh : BlktraceNetHdr) : ℤ := if bnh.len = 0 then 1 else if bnh.len = 1 then -1 else 0

def closesLast (s : Session κ) (bnh : BlktraceNetHdr) : Prop := bnh.len = 1 ∧ s.opens - 1 = 0

theorem message_session (a : Sessions κ) (c : κ) (i : ConnInfo) (s : Session κ)
    (bnh : BlktraceNetHdr) (payload : List UInt8) :
    (∀ addr, addr ≠ i.hostname →
        (a.message c i s bnh payload).session addr = a.session addr) ∧
      (closesLast s bnh → (a.message c i s bnh payload).session i.hostname = none) ∧
      (¬ closesLast s bnh → ∃ devices, (a.message c i s bnh payload).session i.hostname =
        some ⟨s.conns, s.opens + balance bnh, devices⟩) := by
  rw [message, deliver, balance, closesLast]
  dsimp only
  rw [i.known_hostname]
  split
  case isTrue hlen =>
    have hne : ¬ (bnh.len = 1 ∧ s.opens - 1 = 0) := by
      rw [hlen]
      exact fun h => absurd h.1 (by decide)
    exact ⟨fun addr haddr => update_of_ne haddr _ _, fun h => absurd h hne,
      fun _ => ⟨_, update_self _ _ _⟩⟩
  case isFalse =>
  split
  case isFalse hlen =>
    rw [add_zero]
    exact ⟨fun addr haddr => update_of_ne haddr _ _, fun h => absurd h.1 hlen,
      fun _ => ⟨_, update_self _ _ _⟩⟩
  case isTrue hlen =>
    split
    case isTrue hzero =>
      exact ⟨fun addr haddr => update_of_ne haddr _ _, fun _ => update_self _ _ _,
        fun h => absurd ⟨hlen, hzero⟩ h⟩
    case isFalse hzero =>
      rw [← sub_eq_add_neg]
      exact ⟨fun addr haddr => update_of_ne haddr _ _, fun h => absurd h.2 hzero,
        fun _ => ⟨_, update_self _ _ _⟩⟩

end Sessions

/-- The pointers of the server lead to the sessions, each host having its own. -/
structure Represents {κ : Type} (ns : NetServer κ) (a : Sessions κ) (host : UInt32 → ℕ) : Prop where
  session : ∀ addr s, a.session addr = some s → host addr ∈ ns.chList ∧ ∃ ds,
    ns.ch (host addr) = some ⟨addr, s.conns, ds, s.opens⟩ ∧
      List.Forall₂ (fun d dev => ns.dpp d = some ⟨dev, host addr⟩) ds s.devices
  chList : ∀ p ∈ ns.chList, ∃ addr s, a.session addr = some s ∧ host addr = p
  nodup : ns.chList.Nodup
  chs : ∀ p ∈ ns.chList, p < ns.chs
  dpps : ∀ d dpp, ns.dpp d = some dpp → d < ns.dpps
  conn : ∀ c, ns.conn c =
    (a.info c).map fun i => ⟨host i.hostname, i.ncpus, i.connectTime⟩
  member : ∀ addr s, a.session addr = some s → ∀ c ∈ s.conns,
    ∃ i, a.info c = some i ∧ i.hostname = addr
  distinct : ∀ addr s, a.session addr = some s → s.conns.Nodup
  known : ∀ c i, a.info c = some i → ∃ s, a.session i.hostname = some s ∧ c ∈ s.conns
  names : ∀ addr s, a.session addr = some s → (s.devices.map Device.butsName).Nodup
  connList : ∀ c, c ∈ ns.connList ↔ (a.info c).isSome
  connNodup : ns.connList.Nodup
  files : ns.files = a.files

namespace Represents

variable {κ : Type} {ns : NetServer κ} {a : Sessions κ} {host : UInt32 → ℕ} {addr : UInt32}
  {s : Session κ} {c : κ} {i : ConnInfo} {bnh : BlktraceNetHdr} {payload : List UInt8}

theorem host_inj (h : Represents ns a host) {addr' : UInt32} {s' : Session κ}
    (hs : a.session addr = some s) (hs' : a.session addr' = some s')
    (heq : host addr = host addr') : addr = addr' := by
  obtain ⟨-, ds, hch, -⟩ := h.session addr s hs
  obtain ⟨-, ds', hch', -⟩ := h.session addr' s' hs'
  rw [heq, hch'] at hch
  exact (congrArg ClHost.clInAddr (Option.some_inj.mp hch)).symm

theorem netServer : Represents (NetServer.netServer : NetServer κ) Sessions.empty fun _ => 0 where
  session addr s hs := by cases hs
  chList p hp := by cases hp
  nodup := List.nodup_nil
  chs p hp := by cases hp
  dpps d dpp hd := by cases hd
  conn c := rfl
  member addr s hs := by cases hs
  distinct addr s hs := by cases hs
  known c i hi := by cases hi
  names addr s hs := by cases hs
  connList c := by simp [NetServer.netServer, Sessions.empty]
  connNodup := List.nodup_nil
  files := rfl

theorem netFindClientHost (h : Represents ns a host) (addr : UInt32) {ps : List ℕ}
    (hps : ps ⊆ ns.chList) :
    (a.session addr = none → ns.netFindClientHost addr ps = some none) ∧
      ((a.session addr).isSome → host addr ∈ ps →
        ns.netFindClientHost addr ps = some (some (host addr))) := by
  induction ps with
  | nil => exact ⟨fun _ => rfl, fun _ hmem => by cases hmem⟩
  | cons p ps ih =>
    obtain ⟨hnone, hsome⟩ := ih fun q hq => hps (List.mem_cons_of_mem p hq)
    obtain ⟨addr', s', hs', rfl⟩ := h.chList p (hps List.mem_cons_self)
    obtain ⟨-, ds, hch, -⟩ := h.session addr' s' hs'
    have hstep : ns.netFindClientHost addr (host addr' :: ps) =
        if addr' = addr then some (some (host addr')) else ns.netFindClientHost addr ps := by
      rw [NetServer.netFindClientHost, hch]
      rfl
    rw [hstep]
    refine ⟨fun hs => ?_, fun hs hmem => ?_⟩
    · have hne : addr' ≠ addr := by
        rintro rfl
        rw [hs] at hs'
        cases hs'
      rw [if_neg hne]
      exact hnone hs
    · by_cases haddr : addr' = addr
      · rw [if_pos haddr, haddr]
      · rw [if_neg haddr]
        refine hsome hs ?_
        obtain hmem | hmem := List.mem_cons.mp hmem
        · obtain ⟨s, hs⟩ := Option.isSome_iff_exists.mp hs
          exact absurd (h.host_inj hs hs' hmem).symm haddr
        · exact hmem

theorem put (h : Represents ns a host) (hs : a.session addr = some s) {s' : Session κ}
    {dpp' : ℕ → Option Devpath} {dpps' : ℕ} {ds : List ℕ} (hconns : s'.conns = s.conns)
    (hds : List.Forall₂ (fun d dev => dpp' d = some ⟨dev, host addr⟩) ds s'.devices)
    (hframe : ∀ d dev q, q ≠ host addr → ns.dpp d = some ⟨dev, q⟩ → dpp' d = some ⟨dev, q⟩)
    (hdpps : ∀ d dpp, dpp' d = some dpp → d < dpps')
    (hnames : (s'.devices.map Device.butsName).Nodup) :
    Represents
      { ns with
        ch := update ns.ch (host addr) (some ⟨addr, s'.conns, ds, s'.opens⟩)
        dpp := dpp'
        dpps := dpps' }
      (a.put addr s') host :=
  { h with
    session := fun addr' t ht => by
      obtain ⟨rfl, rfl⟩ | ⟨haddr, hold⟩ := Sessions.put_cases ht
      · exact ⟨(h.session addr' s hs).1, ds, update_self _ _ _, hds⟩
      · obtain ⟨hmem, ds', hch, hds'⟩ := h.session addr' t hold
        have hne : host addr' ≠ host addr := fun heq => haddr (h.host_inj hold hs heq)
        refine ⟨hmem, ds', (update_of_ne hne _ _).trans hch, ?_⟩
        exact hds'.imp fun d dev hd => hframe d dev (host addr') hne hd
    chList := fun p hp => by
      obtain ⟨addr', t, ht, rfl⟩ := h.chList p hp
      by_cases haddr : addr' = addr
      · subst haddr
        exact ⟨addr', s', update_self _ _ _, rfl⟩
      · exact ⟨addr', t, (update_of_ne haddr _ _).trans ht, rfl⟩
    dpps := hdpps
    member := fun addr' t ht => by
      obtain ⟨rfl, rfl⟩ | ⟨-, hold⟩ := Sessions.put_cases ht
      · rw [hconns]
        exact h.member addr' s hs
      · exact h.member addr' t hold
    distinct := fun addr' t ht => by
      obtain ⟨rfl, rfl⟩ | ⟨-, hold⟩ := Sessions.put_cases ht
      · rw [hconns]
        exact h.distinct addr' s hs
      · exact h.distinct addr' t hold
    known := fun c i hi => by
      obtain ⟨t, ht, hmem⟩ := h.known c i hi
      by_cases haddr : i.hostname = addr
      · rw [haddr, hs] at ht
        cases ht
        rw [haddr]
        exact ⟨s', update_self _ _ _, by rw [hconns]; exact hmem⟩
      · exact ⟨t, (update_of_ne haddr _ _).trans ht, hmem⟩
    names := fun addr' t ht => by
      obtain ⟨-, rfl⟩ | ⟨-, hold⟩ := Sessions.put_cases ht
      · exact hnames
      · exact h.names addr' t hold }

theorem netAddClientHost (h : Represents ns a host) (hs : a.session addr = none) :
    Represents (ns.netAddClientHost addr) (a.put addr ⟨[], 0, []⟩) (update host addr ns.chs) :=
  have hother : ∀ c i, a.info c = some i → i.hostname ≠ addr := by
    rintro c i hi rfl
    obtain ⟨t, ht, -⟩ := h.known c i hi
    rw [hs] at ht
    cases ht
  { h with
    session := fun addr' t ht => by
      obtain ⟨rfl, rfl⟩ | ⟨haddr, hold⟩ := Sessions.put_cases ht
      · rw [update_self]
        exact ⟨List.mem_append_right _ List.mem_cons_self, [], update_self _ _ _, .nil⟩
      · obtain ⟨hmem, ds, hch, hds⟩ := h.session addr' t hold
        have hne : host addr' ≠ ns.chs := (h.chs _ hmem).ne
        rw [update_of_ne haddr]
        exact ⟨List.mem_append_left _ hmem, ds, (update_of_ne hne _ _).trans hch, hds⟩
    chList := fun p hp => by
      obtain hp | hp := List.mem_append.mp hp
      · obtain ⟨addr', t, ht, rfl⟩ := h.chList p hp
        have haddr : addr' ≠ addr := by
          rintro rfl
          rw [hs] at ht
          cases ht
        exact ⟨addr', t, (update_of_ne haddr _ _).trans ht, update_of_ne haddr _ _⟩
      · obtain rfl := List.mem_singleton.mp hp
        exact ⟨addr, _, update_self _ _ _, update_self _ _ _⟩
    nodup := by
      refine List.Nodup.append h.nodup (List.nodup_singleton _) ?_
      rintro p hp hp'
      obtain rfl := List.mem_singleton.mp hp'
      exact absurd (h.chs _ hp) (lt_irrefl _)
    chs := fun p hp => by
      obtain hp | hp := List.mem_append.mp hp
      · exact (h.chs p hp).trans (Nat.lt_succ_self _)
      · obtain rfl := List.mem_singleton.mp hp
        exact Nat.lt_succ_self _
    conn := fun c => by
      refine (h.conn c).trans ?_
      cases hi : a.info c with
      | none => simp [Sessions.put, hi]
      | some i => simp [Sessions.put, hi, update_of_ne (hother c i hi)]
    member := fun addr' t ht => by
      obtain ⟨-, rfl⟩ | ⟨-, hold⟩ := Sessions.put_cases ht
      · rintro c hc
        cases hc
      · exact h.member addr' t hold
    distinct := fun addr' t ht => by
      obtain ⟨-, rfl⟩ | ⟨-, hold⟩ := Sessions.put_cases ht
      · exact List.nodup_nil
      · exact h.distinct addr' t hold
    known := fun c i hi => by
      obtain ⟨t, ht, hmem⟩ := h.known c i hi
      exact ⟨t, (update_of_ne (hother c i hi) _ _).trans ht, hmem⟩
    names := fun addr' t ht => by
      obtain ⟨-, rfl⟩ | ⟨-, hold⟩ := Sessions.put_cases ht
      · exact List.nodup_nil
      · exact h.names addr' t hold }

theorem findDpp {p : ℕ} {ds : List ℕ} {devs : List Device}
    (hds : List.Forall₂ (fun d dev => ns.dpp d = some ⟨dev, p⟩) ds devs) (bnh : BlktraceNetHdr)
    (time : ℤ) :
    (bnh.butsName ∈ devs.map Device.butsName → ∃ d dev, ns.findDpp bnh time ds = some (.inl d) ∧
        d ∈ ds ∧ ns.dpp d = some ⟨dev, p⟩ ∧ dev.butsName = bnh.butsName) ∧
      (bnh.butsName ∉ devs.map Device.butsName →
        ns.findDpp bnh time ds = some (.inr (newTime bnh.clId time devs))) := by
  induction hds generalizing time with
  | nil => exact ⟨fun hmem => (nomatch hmem), fun _ => rfl⟩
  | @cons d dev ds devs hd hds ih =>
    have hstep : ns.findDpp bnh time (d :: ds) =
        if dev.butsName = bnh.butsName then some (.inl d)
        else ns.findDpp bnh (if dev.clId = bnh.clId then dev.clConnectTime else time) ds := by
      rw [NetServer.findDpp, hd]
      rfl
    rw [hstep, List.map_cons, List.mem_cons]
    by_cases hname : dev.butsName = bnh.butsName
    · rw [if_pos hname]
      refine ⟨fun _ => ⟨d, dev, rfl, List.mem_cons_self, hd, hname⟩, fun hnot => ?_⟩
      exact absurd (.inl hname.symm) hnot
    · rw [if_neg hname]
      obtain ⟨hfound, hnew⟩ := ih (if dev.clId = bnh.clId then dev.clConnectTime else time)
      refine ⟨fun hmem => ?_, fun hnot => ?_⟩
      · obtain heq | hmem := hmem
        · exact absurd heq.symm hname
        · obtain ⟨d', dev', hfind, hd', hdev'⟩ := hfound hmem
          exact ⟨d', dev', hfind, List.mem_cons_of_mem d hd', hdev'⟩
      · exact hnew fun hmem => hnot (.inr hmem)

theorem notMem_of_new (h : Represents ns a host) (hc : a.info c = none)
    (hs : a.session addr = some s) : c ∉ s.conns := by
  intro hmem
  obtain ⟨i, hi, -⟩ := h.member addr s hs c hmem
  rw [hc] at hi
  cases hi

theorem distinct_append (h : Represents ns a host) (hs : a.session addr = some s)
    (hc : a.info c = none) : (s.conns ++ [c]).Nodup := by
  refine List.Nodup.append (h.distinct addr s hs) (List.nodup_singleton _) ?_
  rintro c' hc' hmem
  obtain rfl := List.mem_singleton.mp hmem
  exact h.notMem_of_new hc hs hc'

theorem connNodup_append (h : Represents ns a host) (hc : a.info c = none) :
    (ns.connList ++ [c]).Nodup := by
  refine List.Nodup.append h.connNodup (List.nodup_singleton _) ?_
  rintro c' hc' hmem
  obtain rfl := List.mem_singleton.mp hmem
  have hinfo := (h.connList c').mp hc'
  rw [hc] at hinfo
  cases hinfo

variable [DecidableEq κ]

theorem accept_eq (hs : a.session addr = some s) (c : κ) (time : ℤ) :
    a.accept addr c time =
      { a.put addr { s with conns := s.conns ++ [c] } with
        info := update a.info c (some ⟨addr, -1, time⟩) } := by
  rw [Sessions.accept, hs]
  rfl

theorem member_accept (h : Represents ns a host) (hs : a.session addr = some s)
    (hc : a.info c = none) (time : ℤ) {addr' : UInt32} {t : Session κ}
    (ht : (a.put addr { s with conns := s.conns ++ [c] }).session addr' = some t) :
    ∀ c' ∈ t.conns,
      ∃ i, update a.info c (some ⟨addr, -1, time⟩) c' = some i ∧ i.hostname = addr' := by
  have hold : ∀ addr' t, a.session addr' = some t → ∀ c' ∈ t.conns,
      ∃ i, update a.info c (some ⟨addr, -1, time⟩) c' = some i ∧ i.hostname = addr' := by
    intro addr' t hold c' hc'
    have hne : c' ≠ c := by
      rintro rfl
      exact h.notMem_of_new hc hold hc'
    rw [update_of_ne hne]
    exact h.member addr' t hold c' hc'
  intro c' hc'
  obtain ⟨rfl, rfl⟩ | ⟨-, ht⟩ := Sessions.put_cases ht
  · obtain hc' | hc' := List.mem_append.mp hc'
    · exact hold addr' s hs c' hc'
    · obtain rfl := List.mem_singleton.mp hc'
      exact ⟨_, update_self _ _ _, rfl⟩
  · exact hold addr' t ht c' hc'

theorem known_accept (h : Represents ns a host) (hs : a.session addr = some s) (time : ℤ) {c' : κ}
    (hi : update a.info c (some ⟨addr, -1, time⟩) c' = some i) :
    ∃ t, (a.put addr { s with conns := s.conns ++ [c] }).session i.hostname = some t ∧
      c' ∈ t.conns := by
  by_cases hc' : c' = c
  · subst hc'
    rw [update_self] at hi
    cases hi
    exact ⟨_, update_self _ _ _, List.mem_append_right _ List.mem_cons_self⟩
  · rw [update_of_ne hc'] at hi
    obtain ⟨t, ht, hmem⟩ := h.known c' i hi
    by_cases haddr : i.hostname = addr
    · rw [haddr, hs] at ht
      cases ht
      rw [haddr]
      exact ⟨_, update_self _ _ _, List.mem_append_left _ hmem⟩
    · exact ⟨t, (update_of_ne haddr _ _).trans ht, hmem⟩

theorem chAddConnection (h : Represents ns a host) (hs : a.session addr = some s)
    (hc : a.info c = none) (time : ℤ) :
    ∃ ns', ns.chAddConnection (host addr) c time = some ns' ∧
      Represents ns' (a.accept addr c time) host := by
  obtain ⟨hmem, ds, hch, hds⟩ := h.session addr s hs
  have hout : ns.chAddConnection (host addr) c time = some { ns with
      conn := update ns.conn c (some ⟨host addr, -1, time⟩)
      ch := update ns.ch (host addr) (some ⟨addr, s.conns ++ [c], ds, s.opens⟩)
      connList := ns.connList ++ [c] } := by
    rw [NetServer.chAddConnection, hch]
    rfl
  refine ⟨_, hout, ?_⟩
  rw [accept_eq hs]
  exact {
    h with
    session := fun addr' t ht => by
      obtain ⟨rfl, rfl⟩ | ⟨haddr, hold⟩ := Sessions.put_cases ht
      · exact ⟨hmem, ds, update_self _ _ _, hds⟩
      · obtain ⟨hmem', ds', hch', hds'⟩ := h.session addr' t hold
        have hne : host addr' ≠ host addr := fun heq => haddr (h.host_inj hold hs heq)
        exact ⟨hmem', ds', (update_of_ne hne _ _).trans hch', hds'⟩
    chList := fun p hp => by
      obtain ⟨addr', t, ht, rfl⟩ := h.chList p hp
      by_cases haddr : addr' = addr
      · subst haddr
        exact ⟨addr', _, update_self _ _ _, rfl⟩
      · exact ⟨addr', t, (update_of_ne haddr _ _).trans ht, rfl⟩
    conn := fun c' => by
      by_cases hc' : c' = c
      · subst hc'
        simp
      · simpa [update_of_ne hc'] using h.conn c'
    member := fun addr' t ht => h.member_accept hs hc time ht
    distinct := fun addr' t ht => by
      obtain ⟨-, rfl⟩ | ⟨-, hold⟩ := Sessions.put_cases ht
      · exact h.distinct_append hs hc
      · exact h.distinct addr' t hold
    known := fun c' i hi => h.known_accept hs time hi
    names := fun addr' t ht => by
      obtain ⟨-, rfl⟩ | ⟨-, hold⟩ := Sessions.put_cases ht
      · exact h.names addr s hs
      · exact h.names addr' t hold
    connList := fun c' => by
      by_cases hc' : c' = c
      · subst hc'
        simp
      · simpa [hc', update_of_ne hc'] using h.connList c'
    connNodup := h.connNodup_append hc }

theorem netAddConnection (h : Represents ns a host) (hc : a.info c = none) (addr : UInt32)
    (time : ℤ) :
    ∃ ns' host', ns.netAddConnection addr c time = some ns' ∧
      Represents ns' (a.accept addr c time) host' := by
  obtain ⟨hfind, hfind'⟩ := h.netFindClientHost addr (List.Subset.refl ns.chList)
  cases hs : a.session addr with
  | none =>
    have hput : Represents (ns.netAddClientHost addr) (a.put addr ⟨[], 0, []⟩)
      (update host addr ns.chs) := h.netAddClientHost hs
    have hself : (a.put addr ⟨[], 0, []⟩).session addr = some ⟨[], 0, []⟩ := update_self _ _ _
    obtain ⟨ns', hns', hrep⟩ := hput.chAddConnection hself hc time
    rw [update_self] at hns'
    have haccept : (a.put addr ⟨[], 0, []⟩).accept addr c time = a.accept addr c time := by
      rw [Sessions.accept, Sessions.accept, hself, hs]
      simp [Sessions.put]
    refine ⟨ns', _, ?_, haccept ▸ hrep⟩
    rw [NetServer.netAddConnection, hfind hs]
    exact hns'
  | some s =>
    obtain ⟨ns', hns', hrep⟩ := h.chAddConnection hs hc time
    refine ⟨ns', host, ?_, hrep⟩
    rw [NetServer.netAddConnection, hfind' (by rw [hs]; rfl) (h.session addr s hs).1]
    exact hns'

theorem setInfo (h : Represents ns a host) (hi : a.info c = some i) (bnh : BlktraceNetHdr) :
    Represents
      { ns with
        conn := update ns.conn c (some ⟨host i.hostname, (i.known bnh).ncpus, i.connectTime⟩) }
      { a with info := update a.info c (some (i.known bnh)) } host :=
  { h with
    conn := fun c' => by
      by_cases hc' : c' = c
      · subst hc'
        simp
      · simpa [update_of_ne hc'] using h.conn c'
    member := fun addr t ht c' hc' => by
      obtain ⟨i', hi', hhost⟩ := h.member addr t ht c' hc'
      by_cases heq : c' = c
      · subst heq
        rw [hi] at hi'
        cases hi'
        exact ⟨_, update_self _ _ _, (i.known_hostname bnh).trans hhost⟩
      · exact ⟨i', (update_of_ne heq _ _).trans hi', hhost⟩
    known := fun c' i' hi' => by
      by_cases hc' : c' = c
      · subst hc'
        have hself : update a.info c' (some (i.known bnh)) c' = some i' := hi'
        rw [update_self] at hself
        cases hself
        rw [i.known_hostname]
        exact h.known c' i hi
      · have hold : update a.info c (some (i.known bnh)) c' = some i' := hi'
        rw [update_of_ne hc'] at hold
        exact h.known c' i' hold
    connList := fun c' => by
      by_cases hc' : c' = c
      · subst hc'
        simpa [hi] using h.connList c'
      · simpa [update_of_ne hc'] using h.connList c' }

end Represents

section Lists

variable {dpp : ℕ → Option Devpath} {p d : ℕ} {ds : List ℕ} {devs : List Device} {dev : Device}

theorem forall₂_update (hds : List.Forall₂ (fun e dev => dpp e = some (⟨dev, p⟩ : Devpath)) ds devs)
    (hd : d ∉ ds) (o : Option Devpath) :
    List.Forall₂ (fun e dev => update dpp d o e = some (⟨dev, p⟩ : Devpath)) ds devs := by
  induction hds with
  | nil => exact .nil
  | @cons e dev es devs he hes ih =>
    have hne : d ≠ e := by
      rintro rfl
      exact hd List.mem_cons_self
    have hnot : d ∉ es := fun hin => hd (List.mem_cons_of_mem e hin)
    exact .cons ((update_of_ne (Ne.symm hne) _ _).trans he) (ih hnot)

theorem exists_dev (hds : List.Forall₂ (fun e dev => dpp e = some (⟨dev, p⟩ : Devpath)) ds devs)
    (hmem : d ∈ ds) : ∃ dev ∈ devs, dpp d = some ⟨dev, p⟩ := by
  induction hds with
  | nil => cases hmem
  | @cons e dev es devs he hes ih =>
    obtain rfl | hmem := List.mem_cons.mp hmem
    · exact ⟨dev, List.mem_cons_self, he⟩
    · obtain ⟨dev', hdev', hd⟩ := ih hmem
      exact ⟨dev', List.mem_cons_of_mem _ hdev', hd⟩

theorem mem_names (hds : List.Forall₂ (fun e dev => dpp e = some (⟨dev, p⟩ : Devpath)) ds devs)
    (hd : dpp d = some ⟨dev, p⟩) (hmem : d ∈ ds) : dev.butsName ∈ devs.map Device.butsName := by
  obtain ⟨dev', hdev', hd'⟩ := exists_dev hds hmem
  rw [hd] at hd'
  cases hd'
  exact List.mem_map_of_mem hdev'

theorem nodup_of_names (hds : List.Forall₂ (fun e dev => dpp e = some (⟨dev, p⟩ : Devpath)) ds devs)
    (hnames : (devs.map Device.butsName).Nodup) : ds.Nodup := by
  induction hds with
  | nil => exact List.nodup_nil
  | @cons e dev es devs he hes ih =>
    obtain ⟨hnot, hnodup⟩ := List.nodup_cons.mp hnames
    exact List.nodup_cons.mpr ⟨fun hin => hnot (mem_names hes he hin), ih hnodup⟩

theorem forall₂_onDevice
    (hds : List.Forall₂ (fun e dev => dpp e = some (⟨dev, p⟩ : Devpath)) ds devs)
    (hnames : (devs.map Device.butsName).Nodup) (hd : dpp d = some ⟨dev, p⟩) (hmem : d ∈ ds)
    (f : Device → Device) :
    List.Forall₂ (fun e dev' => update dpp d (some ⟨f dev, p⟩) e = some (⟨dev', p⟩ : Devpath)) ds
      (onDevice dev.butsName f devs) := by
  induction hds with
  | nil => cases hmem
  | @cons e dev' es devs he hes ih =>
    obtain ⟨hnot, hnodup⟩ := List.nodup_cons.mp hnames
    rw [onDevice, List.map_cons]
    by_cases hed : d = e
    · subst hed
      rw [hd] at he
      cases he
      have hrest : d ∉ es := fun hin => hnot (mem_names hes hd hin)
      have hsame : onDevice dev.butsName f devs = devs := onDevice_of_notMem hnot
      rw [onDevice] at hsame
      rw [if_pos rfl, hsame]
      exact .cons (update_self _ _ _) (forall₂_update hes hrest _)
    · have hin : d ∈ es := (List.mem_cons.mp hmem).resolve_left hed
      have hne : dev'.butsName ≠ dev.butsName := by
        intro heq
        rw [heq] at hnot
        exact hnot (mem_names hes hd hin)
      rw [if_neg hne]
      exact .cons ((update_of_ne (Ne.symm hed) _ _).trans he) (ih hnodup hin)

end Lists

namespace Represents

variable {κ : Type} {ns : NetServer κ} {a : Sessions κ} {host : UInt32 → ℕ} {addr : UInt32}
  {s : Session κ} {c : κ} {i : ConnInfo} {bnh : BlktraceNetHdr} {payload : List UInt8}
  {ds : List ℕ} {d : ℕ} {dev : Device}

theorem member_iff (h : Represents ns a host) (hs : a.session addr = some s)
    (hi : a.info c = some i) : c ∈ s.conns ↔ i.hostname = addr := by
  refine ⟨fun hc => ?_, fun hhost => ?_⟩
  · obtain ⟨i', hi', hhost⟩ := h.member addr s hs c hc
    rw [hi] at hi'
    cases hi'
    exact hhost
  · obtain ⟨t, ht, hc⟩ := h.known c i hi
    rw [hhost, hs] at ht
    cases ht
    exact hc

theorem put_put {s' : Session κ} : (a.put addr s).put addr s' = a.put addr s' := by
  simp [Sessions.put]

theorem put_session : (a.put addr s).session addr = some s := update_self _ _ _

theorem put_same (hs : a.session addr = some s) : a.put addr s = a := by
  rw [Sessions.put, ← hs, update_eq_self]

theorem putDevice (h : Represents ns a host) (hs : a.session addr = some s)
    (hds : List.Forall₂ (fun e dev => ns.dpp e = some ⟨dev, host addr⟩) ds s.devices)
    (hd : ns.dpp d = some ⟨dev, host addr⟩) (hmem : d ∈ ds) {name : String}
    (hname : dev.butsName = name) (f : Device → Device)
    (hf : ∀ dev, (f dev).butsName = dev.butsName) (opens : ℤ) :
    Represents
      { ns with
        ch := update ns.ch (host addr) (some ⟨addr, s.conns, ds, opens⟩)
        dpp := update ns.dpp d (some ⟨f dev, host addr⟩) }
      (a.put addr ⟨s.conns, opens, onDevice name f s.devices⟩) host := by
  subst hname
  have hnames := h.names addr s hs
  have hds' := forall₂_onDevice hds hnames hd hmem f
  refine @put κ ns a host addr s h hs ⟨s.conns, opens, onDevice dev.butsName f s.devices⟩ _ _ ds rfl
    hds' ?_ ?_ ?_
  · rintro e dev' q hq he
    have hne : e ≠ d := by
      rintro rfl
      rw [hd] at he
      exact hq (congrArg Devpath.ch (Option.some_inj.mp he)).symm
    rw [update_of_ne hne]
    exact he
  · rintro e dpp he
    rw [update_apply] at he
    split at he
    case isTrue hed =>
      rw [hed]
      exact h.dpps d _ hd
    case isFalse => exact h.dpps e dpp he
  · rw [onDevice_names hf]
    exact hnames

theorem ncFindDpp (h : Represents ns a host) (hs : a.session i.hostname = some s)
    (bnh : BlktraceNetHdr) :
    ∃ ns' ds d dev, ns.ncFindDpp ⟨host i.hostname, i.ncpus, i.connectTime⟩ bnh = some (ns', d) ∧
      Represents ns' (a.put i.hostname { s with devices := ensureDevice i bnh s.devices }) host ∧
      ns'.ch (host i.hostname) = some ⟨i.hostname, s.conns, ds, s.opens⟩ ∧
      List.Forall₂ (fun e dev => ns'.dpp e = some ⟨dev, host i.hostname⟩) ds
        (ensureDevice i bnh s.devices) ∧
      d ∈ ds ∧ ns'.dpp d = some ⟨dev, host i.hostname⟩ ∧ dev.butsName = bnh.butsName := by
  obtain ⟨-, ds, hch, hds⟩ := h.session i.hostname s hs
  obtain ⟨hfound, hnew⟩ := findDpp hds bnh i.connectTime
  rw [ensureDevice]
  split
  case isTrue hmem =>
    obtain ⟨d, dev, hfind, hd, hdpp, hname⟩ := hfound hmem
    refine ⟨ns, ds, d, dev, ?_, ?_, hch, hds, hd, hdpp, hname⟩
    · rw [NetServer.ncFindDpp, hch]
      dsimp only [Option.bind_eq_bind, Option.bind_some]
      rw [hfind]
      rfl
    · rw [put_same hs]
      exact h
  case isFalse hnot =>
    have hnone : bnh.butsName ∉ s.devices.map Device.butsName := hnot
    let dev := newDevice i bnh (newTime bnh.clId i.connectTime s.devices)
    have hold : List.Forall₂ (fun e dev' => update ns.dpp ns.dpps
        (some ⟨dev, host i.hostname⟩) e = some ⟨dev', host i.hostname⟩) ds s.devices :=
      hds.imp fun e dev' he => (update_of_ne (h.dpps e _ he).ne _ _).trans he
    have hds' : List.Forall₂ (fun e dev' => update ns.dpp ns.dpps
        (some ⟨dev, host i.hostname⟩) e = some ⟨dev', host i.hostname⟩) (ds ++ [ns.dpps])
        (s.devices ++ [dev]) := List.rel_append hold (.cons (update_self _ _ _) .nil)
    have hnames : ((s.devices ++ [dev]).map Device.butsName).Nodup := by
      rw [List.map_append]
      refine List.Nodup.append (h.names _ s hs) (List.nodup_singleton _) ?_
      rintro name hname hname'
      obtain rfl := List.mem_singleton.mp hname'
      exact hnone hname
    have hput := @put κ ns a host i.hostname s h hs ⟨s.conns, s.opens, s.devices ++ [dev]⟩ _
      (ns.dpps + 1) _ rfl hds' ?_ ?_ hnames
    · refine ⟨_, ds ++ [ns.dpps], ns.dpps, dev, ?_, hput, update_self _ _ _, hds', by simp,
        update_self _ _ _, rfl⟩
      rw [NetServer.ncFindDpp, hch]
      dsimp only [Option.bind_eq_bind, Option.bind_some]
      rw [hnew hnone]
      dsimp only [Option.bind_some]
      rw [NetServer.ncAddDpp]
      dsimp only
      rw [hch]
      rfl
    · rintro e dev' q - he
      exact (update_of_ne (h.dpps e _ he).ne _ _).trans he
    · rintro e dpp he
      rw [update_apply] at he
      split at he
      case isTrue hed =>
        rw [hed]
        exact Nat.lt_succ_self _
      case isFalse => exact (h.dpps e dpp he).trans (Nat.lt_succ_self _)

end Represents

namespace NetServer

variable {κ : Type} {ns : NetServer κ} {p : ℕ} {addr : UInt32} {opens : ℤ}

theorem deviceDone_all {ds : List ℕ} {devs : List Device} {cs : List κ}
    (hch : ns.ch p = some ⟨addr, cs, ds, opens⟩)
    (hds : List.Forall₂ (fun e dev => ns.dpp e = some ⟨dev, p⟩) ds devs) (hnodup : ds.Nodup)
    (ncpus : ℤ) :
    ds.foldlM (deviceDone p ncpus) ns = some { ns with
      dpp := fun e => if e ∈ ds then none else ns.dpp e
      ch := update ns.ch p (some ⟨addr, cs, [], opens⟩)
      files := ns.files ++ devs.map fun dev => (dev, ncpus) } := by
  induction ds generalizing ns devs with
  | nil =>
    cases hds
    have hsame : update ns.ch p (some ⟨addr, cs, [], opens⟩) = ns.ch := by rw [← hch, update_eq_self]
    simp [hsame]
  | cons d ds ih =>
    cases hds with
    | @cons _ dev _ devs hd hds =>
      obtain ⟨hnot, hnodup'⟩ := List.nodup_cons.mp hnodup
      have hdone : deviceDone p ncpus ns d = some { ns with
          dpp := update ns.dpp d none
          ch := update ns.ch p (some ⟨addr, cs, ds, opens⟩)
          files := ns.files ++ [(dev, ncpus)] } := by
        rw [deviceDone, hch]
        dsimp only [Option.bind_eq_bind, Option.bind_some]
        rw [hd]
        simp
      have hself : update ns.ch p (some ⟨addr, cs, ds, opens⟩) p = some ⟨addr, cs, ds, opens⟩ :=
        update_self _ _ _
      rw [List.foldlM_cons, hdone]
      dsimp only [Option.bind_eq_bind, Option.bind_some]
      rw [ih hself (forall₂_update hds hnot none) hnodup']
      have hdpp : (fun e => if e ∈ ds then none else update ns.dpp d none e) =
          fun e => if e ∈ d :: ds then none else ns.dpp e := by
        funext e
        by_cases he : e = d
        · simp [he]
        · simp [he]
      simp [hdpp]

variable [DecidableEq κ]

theorem chRemConnection_all {ds : List ℕ} {cs : List κ}
    (hch : ns.ch p = some ⟨addr, cs, ds, opens⟩) (hcs : ∀ c ∈ cs, (ns.conn c).isSome)
    (hnodup : cs.Nodup) :
    cs.foldlM (chRemConnection p) ns = some { ns with
      conn := fun c => if c ∈ cs then none else ns.conn c
      ch := update ns.ch p (some ⟨addr, [], ds, opens⟩)
      connList := ns.connList.diff cs } := by
  induction cs generalizing ns with
  | nil =>
    have hsame : update ns.ch p (some ⟨addr, [], ds, opens⟩) = ns.ch := by rw [← hch, update_eq_self]
    simp [hsame]
  | cons c cs ih =>
    obtain ⟨hnot, hnodup'⟩ := List.nodup_cons.mp hnodup
    obtain ⟨nc, hnc⟩ := Option.isSome_iff_exists.mp (hcs c List.mem_cons_self)
    have hdone : chRemConnection p ns c = some { ns with
        conn := update ns.conn c none
        ch := update ns.ch p (some ⟨addr, cs, ds, opens⟩)
        connList := ns.connList.erase c } := by
      rw [chRemConnection, hch]
      dsimp only [Option.bind_eq_bind, Option.bind_some]
      rw [hnc]
      simp
    have hself : update ns.ch p (some ⟨addr, cs, ds, opens⟩) p = some ⟨addr, cs, ds, opens⟩ :=
      update_self _ _ _
    have hcs' : ∀ c' ∈ cs, (update ns.conn c none c').isSome := by
      rintro c' hc'
      have hne : c' ≠ c := by
        rintro rfl
        exact hnot hc'
      rw [update_of_ne hne]
      exact hcs c' (List.mem_cons_of_mem c hc')
    rw [List.foldlM_cons, hdone]
    dsimp only [Option.bind_eq_bind, Option.bind_some]
    rw [ih hself hcs' hnodup']
    have hconn : (fun c' => if c' ∈ cs then none else update ns.conn c none c') =
        fun c' => if c' ∈ c :: cs then none else ns.conn c' := by
      funext c'
      by_cases hc' : c' = c
      · simp [hc']
      · simp [hc']
    simp [hconn]

theorem netChRemove_eq {ds : List ℕ} {devs : List Device} {cs : List κ}
    (hch : ns.ch p = some ⟨addr, cs, ds, opens⟩)
    (hds : List.Forall₂ (fun e dev => ns.dpp e = some ⟨dev, p⟩) ds devs) (hdnodup : ds.Nodup)
    (hcs : ∀ c ∈ cs, (ns.conn c).isSome) (hnodup : cs.Nodup) (ncpus : ℤ) :
    ns.netChRemove p ncpus = some { ns with
      connList := ns.connList.diff cs
      chList := ns.chList.erase p
      conn := fun c => if c ∈ cs then none else ns.conn c
      ch := update ns.ch p none
      dpp := fun e => if e ∈ ds then none else ns.dpp e
      files := ns.files ++ devs.map fun dev => (dev, ncpus) } := by
  have hdevices := deviceDone_all hch hds hdnodup ncpus
  have hself : update ns.ch p (some ⟨addr, cs, [], opens⟩) p = some ⟨addr, cs, [], opens⟩ :=
    update_self _ _ _
  have hrem := @chRemConnection_all κ { ns with
      dpp := fun e => if e ∈ ds then none else ns.dpp e
      ch := update ns.ch p (some ⟨addr, cs, [], opens⟩)
      files := ns.files ++ devs.map fun dev => (dev, ncpus) } p addr opens _ [] cs hself hcs hnodup
  rw [netChRemove, hch]
  dsimp only [Option.bind_eq_bind, Option.bind_some]
  rw [hdevices]
  dsimp only [Option.bind_some]
  rw [hrem]
  simp

end NetServer

namespace Represents

variable {κ : Type} [DecidableEq κ] {ns : NetServer κ} {a : Sessions κ} {host : UInt32 → ℕ}
  {addr : UInt32} {s : Session κ} {c : κ} {i : ConnInfo}

theorem netChRemove (h : Represents ns a host) (hs : a.session addr = some s) (ncpus : ℤ) :
    ∃ ns', ns.netChRemove (host addr) ncpus = some ns' ∧
      Represents ns' (a.remove addr s ncpus) host := by
  obtain ⟨hmem, ds, hch, hds⟩ := h.session addr s hs
  have hconns : ∀ c ∈ s.conns, (ns.conn c).isSome := by
    rintro c hc
    obtain ⟨i, hi, -⟩ := h.member addr s hs c hc
    rw [h.conn c, hi]
    rfl
  have hremove := NetServer.netChRemove_eq hch hds (nodup_of_names hds (h.names addr s hs)) hconns
    (h.distinct addr s hs) ncpus
  have hother : ∀ addr' t, (a.remove addr s ncpus).session addr' = some t →
      addr' ≠ addr ∧ a.session addr' = some t ∧ host addr' ≠ host addr := by
    rintro addr' t ht
    have hold : update a.session addr none addr' = some t := ht
    rw [update_apply] at hold
    split at hold
    case isTrue => cases hold
    case isFalse haddr =>
      exact ⟨haddr, hold, fun heq => haddr (h.host_inj hold hs heq)⟩
  refine ⟨_, hremove, {
    session := fun addr' t ht => ?_
    chList := fun p hp => ?_
    nodup := h.nodup.erase _
    chs := fun p hp => h.chs p (List.mem_of_mem_erase hp)
    dpps := fun d dpp hd => ?_
    conn := fun c => ?_
    member := fun addr' t ht c hc => ?_
    distinct := fun addr' t ht => h.distinct addr' t (hother addr' t ht).2.1
    known := fun c i hi => ?_
    names := fun addr' t ht => h.names addr' t (hother addr' t ht).2.1
    connList := fun c => ?_
    connNodup := h.connNodup.diff
    files := ?_ }⟩
  · obtain ⟨-, hold, hne⟩ := hother addr' t ht
    obtain ⟨hmem', ds', hch', hds'⟩ := h.session addr' t hold
    refine ⟨h.nodup.mem_erase_iff.mpr ⟨hne, hmem'⟩, ds', (update_of_ne hne _ _).trans hch', ?_⟩
    refine hds'.imp fun e dev he => ?_
    have hnot : e ∉ ds := by
      intro hin
      obtain ⟨dev', -, he'⟩ := exists_dev hds hin
      rw [he] at he'
      exact hne (congrArg Devpath.ch (Option.some_inj.mp he'))
    exact (if_neg hnot).trans he
  · obtain ⟨hne, hp⟩ := h.nodup.mem_erase_iff.mp hp
    obtain ⟨addr', t, ht, rfl⟩ := h.chList p hp
    have haddr : addr' ≠ addr := fun heq => hne (congrArg host heq)
    exact ⟨addr', t, (update_of_ne haddr _ _).trans ht, rfl⟩
  · have hd' : (if d ∈ ds then none else ns.dpp d) = some dpp := hd
    split at hd'
    case isTrue => cases hd'
    case isFalse => exact h.dpps d dpp hd'
  · rw [Sessions.remove]
    dsimp only
    split
    · rfl
    · exact h.conn c
  · obtain ⟨haddr, hold, -⟩ := hother addr' t ht
    obtain ⟨i, hi, hhost⟩ := h.member addr' t hold c hc
    have hnot : c ∉ s.conns := by
      rw [h.member_iff hs hi, hhost]
      exact haddr
    exact ⟨i, (if_neg hnot).trans hi, hhost⟩
  · have hi' : (if c ∈ s.conns then none else a.info c) = some i := hi
    split at hi'
    case isTrue => cases hi'
    case isFalse hnot =>
      obtain ⟨t, ht, hc⟩ := h.known c i hi'
      have haddr : i.hostname ≠ addr := fun heq => hnot ((h.member_iff hs hi').mpr heq)
      exact ⟨t, (update_of_ne haddr _ _).trans ht, hc⟩
  · rw [h.connNodup.mem_sdiff_iff, h.connList c, Sessions.remove]
    dsimp only
    split
    case isTrue hc => simp [hc]
    case isFalse hc => simp [hc]
  · rw [Sessions.remove, ← h.files]

theorem put_remove {s' : Session κ} (ncpus : ℤ) :
    (a.put addr s).remove addr s' ncpus = a.remove addr s' ncpus := by
  simp [Sessions.put, Sessions.remove]

section Deliver

variable {ds : List ℕ} {d : ℕ} {dev : Device}

theorem deliver (h : Represents ns (a.put i.hostname s) host)
    (hch : ns.ch (host i.hostname) = some ⟨i.hostname, s.conns, ds, s.opens⟩)
    (hds : List.Forall₂ (fun e dev => ns.dpp e = some ⟨dev, host i.hostname⟩) ds s.devices)
    (hmem : d ∈ ds) (hd : ns.dpp d = some ⟨dev, host i.hostname⟩) {bnh : BlktraceNetHdr}
    (hname : dev.butsName = bnh.butsName) (payload : List UInt8) :
    ∃ ns', (if bnh.len = 0 then ns.opened (host i.hostname)
        else if bnh.len = 1 then ns.closed ⟨host i.hostname, i.ncpus, i.connectTime⟩ d bnh
        else ns.netClientReadData d bnh payload) = some ns' ∧
      Represents ns' (a.deliver i s bnh payload) host := by
  rw [Sessions.deliver]
  split
  case isTrue =>
    have hput := @put κ ns _ host i.hostname s h put_session { s with opens := s.opens + 1 } _ _ _ rfl
      hds (fun _ _ _ _ he => he) h.dpps (h.names _ s put_session)
    rw [put_put] at hput
    refine ⟨_, ?_, hput⟩
    rw [NetServer.opened, hch]
    rfl
  case isFalse =>
  split
  case isTrue =>
    have hput := h.putDevice put_session hds hd hmem hname
      (fun dev => { dev with drops := bnh.cpu.toUInt64 }) (fun _ => rfl) (s.opens - 1)
    rw [put_put] at hput
    have hclosed : ns.closed ⟨host i.hostname, i.ncpus, i.connectTime⟩ d bnh =
        let ns' := { ns with
          dpp := update ns.dpp d (some ⟨{ dev with drops := bnh.cpu.toUInt64 }, host i.hostname⟩)
          ch := update ns.ch (host i.hostname) (some ⟨i.hostname, s.conns, ds, s.opens - 1⟩) }
        if s.opens - 1 = 0 then ns'.netChRemove (host i.hostname) i.ncpus else some ns' := by
      rw [NetServer.closed, hd]
      dsimp only [Option.bind_eq_bind, Option.bind_some]
      rw [hch]
      rfl
    rw [hclosed]
    dsimp only
    split
    case isTrue =>
      obtain ⟨ns', hns', hremove⟩ := hput.netChRemove put_session i.ncpus
      rw [put_remove] at hremove
      exact ⟨ns', hns', hremove⟩
    case isFalse => exact ⟨_, rfl, hput⟩
  case isFalse =>
    have hput := h.putDevice put_session hds hd hmem hname (·.received bnh payload) (fun _ => rfl)
      s.opens
    rw [put_put, ← hch, update_eq_self] at hput
    refine ⟨_, ?_, hput⟩
    rw [NetServer.netClientReadData, hd]
    rfl

end Deliver

theorem netClientData (h : Represents ns a host) (hi : a.info c = some i) (bnh : BlktraceNetHdr)
    (payload : List UInt8) :
    ∃ ns' s, ns.netClientData c bnh payload = some ns' ∧ a.session i.hostname = some s ∧
      Represents ns' (a.message c i s bnh payload) host := by
  obtain ⟨s, hs, hc⟩ := h.known c i hi
  have hinfo := h.setInfo hi bnh
  have hconn : ns.conn c = some ⟨host i.hostname, i.ncpus, i.connectTime⟩ := by
    rw [h.conn c, hi]
    rfl
  have hknown : (if i.ncpus = -1 then ⟨host i.hostname, asInt bnh.maxCpus, i.connectTime⟩
      else ⟨host i.hostname, i.ncpus, i.connectTime⟩ : ClConn) =
      ⟨host i.hostname, (i.known bnh).ncpus, i.connectTime⟩ := by
    rw [ConnInfo.known]
    split <;> rfl
  have hs' : ({ a with info := update a.info c (some (i.known bnh)) } : Sessions κ).session
      (i.known bnh).hostname = some s := by
    rw [i.known_hostname]
    exact hs
  obtain ⟨ns', ds, d, dev, hfind, hrep, hch, hds, hd, hdpp, hname⟩ := hinfo.ncFindDpp hs' bnh
  obtain ⟨ns'', hns'', hrep'⟩ := hrep.deliver hch hds hd hdpp hname payload
  refine ⟨ns'', s, ?_, hs, hrep'⟩
  rw [NetServer.netClientData, hconn]
  dsimp only [Option.bind_eq_bind, Option.bind_some]
  rw [hknown]
  rw [i.known_hostname, i.known_connectTime] at hfind hns''
  rw [hfind]
  exact hns''

end Represents

end SBlktrace
