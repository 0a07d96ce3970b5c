import SBlktrace.HostLifetime
import Mathlib

namespace SBlktrace

open Function

def Device.belongs (dev : Device) (r : ClientRun) (name : String) : Bool :=
  dev.hostname = r.hostname && dev.clId = r.clId && dev.butsName = name

def contents (r : ClientRun) (name : String) (cpu : UInt32) (devices : List Device) : List UInt8 :=
  ((devices.filter fun dev => dev.belongs r name).map fun dev => dev.ios cpu).flatten

def NetServer.hostDevices {κ : Type} (ns : NetServer κ) (p : ℕ) : List Device :=
  match ns.ch p with
  | none => []
  | some ch => ch.devpaths.filterMap fun d => (ns.dpp d).map Devpath.toDevice

def NetServer.devices {κ : Type} (ns : NetServer κ) : List Device :=
  ns.files.map Prod.fst ++ ns.chList.flatMap ns.hostDevices

def NetServer.stored {κ : Type} (ns : NetServer κ) (r : ClientRun) (name : String) (cpu : UInt32) :
    List UInt8 :=
  contents r name cpu ns.devices

def Sessions.stored {κ : Type} (a : Sessions κ) (r : ClientRun) (name : String) (cpu : UInt32) :
    List UInt8 :=
  contents r name cpu (a.files.map Prod.fst) ++
    contents r name cpu ((a.session r.hostname).elim [] Session.devices)

section Contents

variable {r : ClientRun} {name : String} {cpu : UInt32} {dev : Device} {devices : List Device}

@[simp] theorem contents_nil : contents r name cpu [] = [] := rfl

@[simp] theorem contents_append (devices devices' : List Device) :
    contents r name cpu (devices ++ devices') =
      contents r name cpu devices ++ contents r name cpu devices' := by
  simp [contents]

@[simp] theorem contents_cons (dev : Device) (devices : List Device) :
    contents r name cpu (dev :: devices) =
      (if dev.belongs r name then dev.ios cpu else []) ++ contents r name cpu devices := by
  rw [contents, List.filter_cons]
  split
  · rfl
  · rfl

theorem contents_eq_nil (h : ∀ dev ∈ devices, dev.belongs r name = false) :
    contents r name cpu devices = [] := by
  have hnone : devices.filter (fun dev => dev.belongs r name) = [] :=
    List.filter_eq_nil_iff.mpr fun dev hdev => by simp [h dev hdev]
  rw [contents, hnone]
  rfl

theorem contents_onDevice {f : Device → Device} {name' : String}
    (hbelongs : ∀ dev, (f dev).belongs r name = dev.belongs r name)
    (hios : ∀ dev, (f dev).ios cpu = dev.ios cpu) :
    contents r name cpu (onDevice name' f devices) = contents r name cpu devices := by
  induction devices with
  | nil => rfl
  | cons dev devices ih =>
    rw [onDevice] at ih ⊢
    rw [List.map_cons, contents_cons, contents_cons, ih]
    split
    · rw [hbelongs, hios]
    · rfl

theorem contents_ensureDevice (i : ConnInfo) (bnh : BlktraceNetHdr) :
    contents r name cpu (ensureDevice i bnh devices) = contents r name cpu devices := by
  rw [ensureDevice]
  split
  · rfl
  · have hios : (newDevice i bnh (newTime bnh.clId i.connectTime devices)).ios cpu = [] := rfl
    rw [contents_append, contents_cons, hios, ite_self, contents_nil, List.append_nil,
      List.append_nil]

theorem contents_received {bnh : BlktraceNetHdr} {payload : List UInt8} (hmem : dev ∈ devices)
    (hname : dev.butsName = bnh.butsName) (hnames : (devices.map Device.butsName).Nodup) :
    contents r name cpu (onDevice bnh.butsName (·.received bnh payload) devices) =
      contents r name cpu devices ++
        if dev.belongs r name = true ∧ cpu = bnh.cpu then payload else [] := by
  induction devices with
  | nil => cases hmem
  | cons dev' devices ih =>
    obtain ⟨hnot, hnodup⟩ := List.nodup_cons.mp hnames
    rw [onDevice, List.map_cons, contents_cons, contents_cons]
    by_cases heq : dev'.butsName = bnh.butsName
    · have hdev : dev = dev' := by
        obtain hdev | hdev := List.mem_cons.mp hmem
        · exact hdev
        · exact absurd (List.mem_map.mpr ⟨dev, hdev, hname.trans heq.symm⟩) hnot
      subst hdev
      have hrest : onDevice bnh.butsName (·.received bnh payload) devices = devices := by
        apply onDevice_of_notMem
        rw [← heq]
        exact hnot
      rw [onDevice] at hrest
      have hnone : dev.belongs r name = true → contents r name cpu devices = [] := by
        intro hbelongs
        apply contents_eq_nil
        rintro dev'' hdev''
        have hother : dev''.butsName ≠ dev.butsName := by
          intro hsame
          exact hnot (List.mem_map.mpr ⟨dev'', hdev'', hsame⟩)
        simp only [Device.belongs, Bool.and_eq_true, decide_eq_true_eq] at hbelongs
        simp [Device.belongs, ← hbelongs.2, hother]
      rw [hrest, if_pos heq]
      have hsame : (dev.received bnh payload).belongs r name = dev.belongs r name := rfl
      rw [hsame]
      by_cases hbelongs : dev.belongs r name = true
      · rw [if_pos hbelongs, if_pos hbelongs, hnone hbelongs]
        by_cases hcpu : cpu = bnh.cpu
        · simp [Device.received, hcpu, hbelongs]
        · simp [Device.received, hcpu]
      · rw [if_neg hbelongs, if_neg hbelongs, if_neg fun h => hbelongs h.1]
        simp
    · have hin : dev ∈ devices := by
        obtain hdev | hdev := List.mem_cons.mp hmem
        · rw [hdev] at hname
          exact absurd hname heq
        · exact hdev
      have hrest := ih hin hnodup
      rw [onDevice] at hrest
      rw [if_neg heq, hrest, List.append_assoc]

end Contents

theorem ensureDevice_names {i : ConnInfo} {bnh : BlktraceNetHdr} {devices : List Device}
    (h : (devices.map Device.butsName).Nodup) :
    ((ensureDevice i bnh devices).map Device.butsName).Nodup := by
  rw [ensureDevice]
  split
  case isTrue => exact h
  case isFalse hnot =>
    rw [List.map_append]
    refine List.Nodup.append h (List.nodup_singleton _) ?_
    rintro name hname hname'
    obtain rfl := List.mem_singleton.mp hname'
    exact hnot hname

theorem exists_ensureDevice (i : ConnInfo) (bnh : BlktraceNetHdr) (devices : List Device) :
    ∃ dev ∈ ensureDevice i bnh devices, dev.butsName = bnh.butsName := by
  rw [ensureDevice]
  split
  case isTrue hmem => exact List.mem_map.mp hmem
  case isFalse =>
    exact ⟨newDevice i bnh (newTime bnh.clId i.connectTime devices), by simp, rfl⟩

theorem subset_ensureDevice (i : ConnInfo) (bnh : BlktraceNetHdr) (devices : List Device) :
    devices ⊆ ensureDevice i bnh devices := by
  rw [ensureDevice]
  split
  · exact List.Subset.refl _
  · exact List.subset_append_left _ _

theorem mem_ensureDevice {i : ConnInfo} {bnh : BlktraceNetHdr} {devices : List Device} {dev : Device}
    (h : dev ∈ ensureDevice i bnh devices) :
    dev ∈ devices ∨ dev = newDevice i bnh (newTime bnh.clId i.connectTime devices) := by
  rw [ensureDevice] at h
  split at h
  case isTrue => exact .inl h
  case isFalse =>
    obtain h | h := List.mem_append.mp h
    · exact .inl h
    · exact .inr (List.mem_singleton.mp h)

namespace Sessions

variable {κ : Type} {a : Sessions κ} {addr : UInt32} {s : Session κ} {r : ClientRun} {name : String}
  {cpu : UInt32}

theorem stored_put : (a.put addr s).stored r name cpu =
    contents r name cpu (a.files.map Prod.fst) ++
      if r.hostname = addr then contents r name cpu s.devices
      else contents r name cpu ((a.session r.hostname).elim [] Session.devices) := by
  rw [stored, put]
  dsimp only
  by_cases haddr : r.hostname = addr
  · rw [if_pos haddr, haddr, update_self]
    rfl
  · rw [if_neg haddr, update_of_ne haddr]

theorem stored_put_congr {s' : Session κ}
    (h : contents r name cpu s.devices = contents r name cpu s'.devices) :
    (a.put addr s).stored r name cpu = (a.put addr s').stored r name cpu := by
  rw [stored_put, stored_put, h]

theorem stored_remove [DecidableEq κ] (hhost : ∀ dev ∈ s.devices, dev.hostname = addr) (ncpus : ℤ) :
    (a.remove addr s ncpus).stored r name cpu = (a.put addr s).stored r name cpu := by
  have hfiles : (a.files ++ s.devices.map fun dev => (dev, ncpus)).map Prod.fst =
      a.files.map Prod.fst ++ s.devices := by simp [comp_def]
  rw [stored_put, stored, remove]
  dsimp only
  rw [hfiles, contents_append]
  by_cases haddr : r.hostname = addr
  · rw [if_pos haddr, haddr, update_self]
    simp
  · have hnone : contents r name cpu s.devices = [] := by
      apply contents_eq_nil
      rintro dev hdev
      simp [Device.belongs, hhost dev hdev, Ne.symm haddr]
    rw [if_neg haddr, update_of_ne haddr, hnone, List.append_nil]

theorem stored_accept [DecidableEq κ] (a : Sessions κ) (addr : UInt32) (c : κ) (time : ℤ) :
    (a.accept addr c time).stored r name cpu = a.stored r name cpu := by
  have hsame : (a.accept addr c time).stored r name cpu =
      (a.put addr { (a.session addr).getD ⟨[], 0, []⟩ with
        conns := ((a.session addr).getD ⟨[], 0, []⟩).conns ++ [c] }).stored r name cpu := rfl
  rw [hsame, stored_put, stored]
  congr 1
  split
  case isTrue haddr =>
    rw [haddr]
    cases a.session addr with
    | none => rfl
    | some s => rfl
  case isFalse => rfl

theorem stored_message [DecidableEq κ] {c : κ} {i : ConnInfo} {bnh : BlktraceNetHdr}
    {payload : List UInt8} {dev : Device} (hs : a.session i.hostname = some s)
    (hhost : ∀ dev ∈ s.devices, dev.hostname = i.hostname)
    (hnames : (s.devices.map Device.butsName).Nodup)
    (hdev : dev ∈ ensureDevice (i.known bnh) bnh s.devices) (hname : dev.butsName = bnh.butsName) :
    (a.message c i s bnh payload).stored r name cpu = a.stored r name cpu ++
      if (bnh.len ≠ 0 ∧ bnh.len ≠ 1) ∧ dev.belongs r name = true ∧ cpu = bnh.cpu then payload
      else [] := by
  have hhost' : ∀ dev ∈ ensureDevice (i.known bnh) bnh s.devices, dev.hostname = i.hostname := by
    rintro dev hdev
    obtain hdev | rfl := mem_ensureDevice hdev
    · exact hhost dev hdev
    · exact i.known_hostname bnh
  have hstored : a.stored r name cpu =
      ({ a with info := update a.info c (some (i.known bnh)) }.put i.hostname
        { s with devices := ensureDevice (i.known bnh) bnh s.devices }).stored r name cpu := by
    rw [stored_put, contents_ensureDevice, stored]
    congr 1
    split
    case isTrue haddr =>
      rw [haddr, hs]
      rfl
    case isFalse => rfl
  rw [message, deliver, i.known_hostname]
  by_cases hopen : bnh.len = 0
  · have hnot : ¬ ((bnh.len ≠ 0 ∧ bnh.len ≠ 1) ∧ dev.belongs r name = true ∧ cpu = bnh.cpu) :=
      fun h => h.1.1 hopen
    rw [if_pos hopen, if_neg hnot, List.append_nil, hstored]
    exact stored_put_congr rfl
  rw [if_neg hopen]
  by_cases hclose : bnh.len = 1
  · have hnot : ¬ ((bnh.len ≠ 0 ∧ bnh.len ≠ 1) ∧ dev.belongs r name = true ∧ cpu = bnh.cpu) :=
      fun h => h.1.2 hclose
    have hdrops : contents r name cpu (onDevice bnh.butsName
        (fun dev => { dev with drops := bnh.cpu.toUInt64 }) (ensureDevice (i.known bnh) bnh s.devices)) =
        contents r name cpu (ensureDevice (i.known bnh) bnh s.devices) :=
      contents_onDevice (fun _ => rfl) fun _ => rfl
    rw [if_pos hclose, if_neg hnot, List.append_nil, hstored]
    dsimp only
    split
    case isTrue =>
      rw [stored_remove]
      · exact stored_put_congr hdrops
      · rintro dev hdev
        obtain ⟨dev', hdev', rfl⟩ := List.mem_map.mp hdev
        dsimp only
        split
        · exact hhost' dev' hdev'
        · exact hhost' dev' hdev'
    case isFalse => exact stored_put_congr hdrops
  · rw [if_neg hclose, hstored, stored_put, stored_put,
      contents_received hdev hname (ensureDevice_names hnames)]
    dsimp only
    by_cases haddr : r.hostname = i.hostname
    · simp [haddr, hopen, hclose]
    · have hnot : dev.belongs r name = false := by
        simp [Device.belongs, hhost' dev hdev, Ne.symm haddr]
      simp [haddr, hnot]

end Sessions

def NetServer.deviceOf {κ : Type} [DecidableEq κ] (ns : NetServer κ) (id : κ)
    (bnh : BlktraceNetHdr) : Option Devpath := do
  let nc ← ns.conn id
  let nc := if nc.ncpus = -1 then { nc with ncpus := asInt bnh.maxCpus } else nc
  let (ns, d) ← { ns with conn := update ns.conn id (some nc) }.ncFindDpp nc bnh
  ns.dpp d

theorem exists_dpp {p : ℕ} {dpp : ℕ → Option Devpath} {ds : List ℕ} {devs : List Device}
    {dev : Device} (hds : List.Forall₂ (fun e dev => dpp e = some (⟨dev, p⟩ : Devpath)) ds devs)
    (hmem : dev ∈ devs) : ∃ d ∈ ds, dpp d = some ⟨dev, p⟩ := by
  induction hds with
  | nil => cases hmem
  | @cons d dev' ds devs hd hds ih =>
    obtain rfl | hmem := List.mem_cons.mp hmem
    · exact ⟨d, List.mem_cons_self, hd⟩
    · obtain ⟨d', hd', hdpp⟩ := ih hmem
      exact ⟨d', List.mem_cons_of_mem _ hd', hdpp⟩

namespace Represents

variable {κ : Type} {ns : NetServer κ} {a : Sessions κ} {host : UInt32 → ℕ} {addr : UInt32}
  {s : Session κ} {r : ClientRun} {name : String} {cpu : UInt32}

theorem hostDevices (h : Represents ns a host) (hs : a.session addr = some s) :
    ns.hostDevices (host addr) = s.devices := by
  obtain ⟨-, ds, hch, hds⟩ := h.session addr s hs
  rw [NetServer.hostDevices, hch]
  dsimp only
  generalize s.devices = devices at hds ⊢
  clear hch
  induction hds with
  | nil => rfl
  | cons hd _ ih => rw [List.filterMap_cons, hd, Option.map_some, ih]

theorem contents_hosts (h : Represents ns a host)
    (hhost : ∀ addr s, a.session addr = some s → ∀ dev ∈ s.devices, dev.hostname = addr)
    {ps : List ℕ} (hps : ps ⊆ ns.chList) (hnodup : ps.Nodup) :
    contents r name cpu (ps.flatMap ns.hostDevices) =
      if host r.hostname ∈ ps then
        contents r name cpu ((a.session r.hostname).elim [] Session.devices)
      else [] := by
  induction ps with
  | nil => rfl
  | cons p ps ih =>
    obtain ⟨hnot, hnodup'⟩ := List.nodup_cons.mp hnodup
    obtain ⟨addr, s, hs, rfl⟩ := h.chList p (hps List.mem_cons_self)
    rw [List.flatMap_cons, contents_append, h.hostDevices hs,
      ih (fun q hq => hps (List.mem_cons_of_mem _ hq)) hnodup']
    by_cases haddr : addr = r.hostname
    · subst haddr
      rw [if_neg hnot, if_pos List.mem_cons_self, hs, List.append_nil]
      rfl
    · have hnone : contents r name cpu s.devices = [] := by
        apply contents_eq_nil
        rintro dev hdev
        simp [Device.belongs, hhost addr s hs dev hdev, haddr]
      rw [hnone, List.nil_append]
      by_cases hsame : host r.hostname = host addr
      · have hsession : a.session r.hostname = none := by
          rw [Option.eq_none_iff_forall_ne_some]
          rintro s' hs'
          exact haddr (h.host_inj hs hs' hsame.symm)
        rw [hsame, if_neg hnot, if_pos List.mem_cons_self, hsession]
        rfl
      · simp [hsame]

theorem stored (h : Represents ns a host)
    (hhost : ∀ addr s, a.session addr = some s → ∀ dev ∈ s.devices, dev.hostname = addr) :
    ns.stored r name cpu = a.stored r name cpu := by
  rw [NetServer.stored, NetServer.devices, contents_append, h.files,
    h.contents_hosts hhost (List.Subset.refl _) h.nodup, Sessions.stored]
  congr 1
  cases hs : a.session r.hostname with
  | none => simp
  | some s => rw [if_pos (h.session _ s hs).1]

variable [DecidableEq κ] {c : κ} {i : ConnInfo} {bnh : BlktraceNetHdr}

theorem deviceOf (h : Represents ns a host) (hi : a.info c = some i)
    (hs : a.session i.hostname = some s) {dpp : Devpath} (hdpp : ns.deviceOf c bnh = some dpp) :
    dpp.toDevice ∈ ensureDevice (i.known bnh) bnh s.devices ∧ dpp.butsName = bnh.butsName := by
  have hconn : ns.conn c = some ⟨host i.hostname, i.ncpus, i.connectTime⟩ := by
    rw [h.conn c, hi]
    rfl
  have hknown : (if i.ncpus = -1 then ⟨host i.hostname, asInt bnh.maxCpus, i.connectTime⟩
      else ⟨host i.hostname, i.ncpus, i.connectTime⟩ : ClConn) =
      ⟨host i.hostname, (i.known bnh).ncpus, i.connectTime⟩ := by
    rw [ConnInfo.known]
    split <;> rfl
  have hs' : ({ a with info := update a.info c (some (i.known bnh)) } : Sessions κ).session
      (i.known bnh).hostname = some s := by
    rw [i.known_hostname]
    exact hs
  obtain ⟨ns', ds, d, dev, hfind, -, -, hds, hd, hdev, hname⟩ := (h.setInfo hi bnh).ncFindDpp hs' bnh
  rw [i.known_hostname, i.known_connectTime] at hfind
  rw [NetServer.deviceOf, hconn] at hdpp
  dsimp only [Option.bind_eq_bind, Option.bind_some] at hdpp
  rw [hknown, hfind] at hdpp
  dsimp only [Option.bind_some] at hdpp
  obtain ⟨dev', hdev', hsame⟩ := exists_dev hds hd
  rw [hdpp] at hdev hsame
  cases hdev
  cases hsame
  exact ⟨hdev', hname⟩

end Represents

namespace Sessions

variable {κ : Type} [DecidableEq κ] {a : Sessions κ} {addr : UInt32} {s t : Session κ} {c : κ}
  {i : ConnInfo} {bnh : BlktraceNetHdr} {payload : List UInt8}

theorem deliver_devices (ht : (a.deliver i s bnh payload).session addr = some t) :
    addr ≠ i.hostname ∧ a.session addr = some t ∨
      addr = i.hostname ∧ ∀ dev ∈ t.devices, ∃ dev' ∈ s.devices,
        dev.hostname = dev'.hostname ∧ dev.clId = dev'.clId ∧ dev.ncpus = dev'.ncpus := by
  have hkept : ∀ (f : Device → Device),
      (∀ dev, (f dev).hostname = dev.hostname ∧ (f dev).clId = dev.clId ∧
        (f dev).ncpus = dev.ncpus) →
      ∀ dev ∈ onDevice bnh.butsName f s.devices, ∃ dev' ∈ s.devices,
        dev.hostname = dev'.hostname ∧ dev.clId = dev'.clId ∧ dev.ncpus = dev'.ncpus := by
    rintro f hf dev hdev
    obtain ⟨dev', hdev', rfl⟩ := List.mem_map.mp hdev
    refine ⟨dev', hdev', ?_⟩
    split
    · exact hf dev'
    · exact ⟨rfl, rfl, rfl⟩
  rw [deliver] at ht
  split at ht
  case isTrue =>
    obtain ⟨haddr, rfl⟩ | hold := put_cases ht
    · exact .inr ⟨haddr, fun dev hdev => ⟨dev, hdev, rfl, rfl, rfl⟩⟩
    · exact .inl hold
  case isFalse =>
  split at ht
  case isFalse =>
    obtain ⟨haddr, rfl⟩ | hold := put_cases ht
    · exact .inr ⟨haddr, hkept _ fun dev => ⟨rfl, rfl, rfl⟩⟩
    · exact .inl hold
  case isTrue =>
    dsimp only at ht
    split at ht
    case isFalse =>
      obtain ⟨haddr, rfl⟩ | hold := put_cases ht
      · exact .inr ⟨haddr, hkept _ fun dev => ⟨rfl, rfl, rfl⟩⟩
      · exact .inl hold
    case isTrue =>
      have hold : update a.session i.hostname none addr = some t := ht
      rw [update_apply] at hold
      split at hold
      case isTrue => cases hold
      case isFalse haddr => exact .inl ⟨haddr, hold⟩

theorem message_known {c' : κ} {i' : ConnInfo}
    (h : (a.message c i s bnh payload).info c' = some i') :
    c' = c ∧ i' = i.known bnh ∨ a.info c' = some i' := by
  have hupdate : update a.info c (some (i.known bnh)) c' = some i' := deliver_info h
  rw [update_apply] at hupdate
  split at hupdate
  case isFalse => exact .inr hupdate
  case isTrue hc => exact .inl ⟨hc, (Option.some_inj.mp hupdate).symm⟩

end Sessions

def OwnDevice {κ ρ : Type} (cl : Clients κ ρ) (addr : UInt32) (dev : Device) : Prop :=
  dev.hostname = addr ∧ ∀ r, (cl.client r).hostname = addr → (cl.client r).clId = dev.clId →
    dev.ncpus = asInt (cl.client r).ncpus

structure Routing {κ ρ : Type} (cl : Clients κ ρ) (a : Sessions κ) : Prop where
  devices : ∀ addr s, a.session addr = some s → ∀ dev ∈ s.devices, OwnDevice cl addr dev
  known : ∀ c i, a.info c = some i → i.ncpus = -1 ∨ i.ncpus = asInt (cl.client (cl.run c)).ncpus

def KnownCpus {κ ρ : Type} (cl : Clients κ ρ) : Prop :=
  ∀ c name cpu payload, .data name cpu payload ∈ cl.script c →
    (cpu.toNat : ℤ) < asInt (cl.client (cl.run c)).ncpus

def DistinctRuns {κ ρ : Type} (cl : Clients κ ρ) : Prop :=
  ∀ r r', (cl.client r).hostname = (cl.client r').hostname →
    (cl.client r).clId = (cl.client r').clId → r = r'

namespace Routing

variable {κ ρ : Type} {cl : Clients κ ρ} {a : Sessions κ} {c : κ} {i : ConnInfo} {s : Session κ}
  {m : ClientMsg}

theorem empty (cl : Clients κ ρ) : Routing cl Sessions.empty where
  devices addr s hs := by cases hs
  known c i hi := by cases hi

theorem hostname (h : Routing cl a) (addr : UInt32) (s : Session κ) (hs : a.session addr = some s)
    (dev : Device) (hdev : dev ∈ s.devices) : dev.hostname = addr :=
  (h.devices addr s hs dev hdev).1

theorem header_maxCpus (cl : Clients κ ρ) (c : κ) (m : ClientMsg) :
    (cl.header c m).maxCpus = (cl.client (cl.run c)).ncpus := by
  cases m <;> rfl

theorem header_clId (cl : Clients κ ρ) (c : κ) (m : ClientMsg) :
    (cl.header c m).clId = (cl.client (cl.run c)).clId := by
  cases m <;> rfl

theorem known_ncpus (h : Routing cl a) (hi : a.info c = some i) (m : ClientMsg) :
    (i.known (cl.header c m)).ncpus = asInt (cl.client (cl.run c)).ncpus := by
  rw [ConnInfo.known]
  split
  case isTrue => rw [← header_maxCpus cl c m]
  case isFalse hnot =>
    obtain hnone | hknown := h.known c i hi
    · exact absurd hnone hnot
    · exact hknown

theorem ensureDevice (h : Routing cl a) (hdistinct : DistinctRuns cl) (hi : a.info c = some i)
    (hhost : i.hostname = cl.hostname c) (hs : a.session (cl.hostname c) = some s) {dev : Device}
    (hdev : dev ∈ ensureDevice (i.known (cl.header c m)) (cl.header c m) s.devices) :
    OwnDevice cl (cl.hostname c) dev := by
  obtain hdev | rfl := mem_ensureDevice hdev
  · exact h.devices _ s hs dev hdev
  · refine ⟨(i.known_hostname _).trans hhost, fun r haddr hclId => ?_⟩
    have hrun : r = cl.run c := by
      apply hdistinct r (cl.run c) haddr
      exact hclId.trans (header_clId cl c m)
    rw [hrun]
    exact h.known_ncpus hi m

variable [DecidableEq κ]

theorem accept (h : Routing cl a) (addr : UInt32) (c : κ) (time : ℤ) :
    Routing cl (a.accept addr c time) where
  devices addr' t ht dev hdev := by
    obtain ⟨rfl, rfl⟩ | ⟨-, hold⟩ := Sessions.put_cases (show (a.put addr
      { (a.session addr).getD ⟨[], 0, []⟩ with
        conns := ((a.session addr).getD ⟨[], 0, []⟩).conns ++ [c] }).session addr' = some t from ht)
    · cases hs : a.session addr' with
      | none =>
        rw [hs] at hdev
        cases hdev
      | some s =>
        rw [hs] at hdev
        exact h.devices addr' s hs dev hdev
    · exact h.devices addr' t hold dev hdev
  known c' i hi := by
    have hupdate : update a.info c (some ⟨addr, -1, time⟩) c' = some i := hi
    rw [update_apply] at hupdate
    split at hupdate
    case isTrue =>
      cases hupdate
      exact .inl rfl
    case isFalse => exact h.known c' i hupdate

theorem message (h : Routing cl a) (hdistinct : DistinctRuns cl) (hi : a.info c = some i)
    (hhost : i.hostname = cl.hostname c) (hs : a.session (cl.hostname c) = some s) (m : ClientMsg) :
    Routing cl (a.message c i s (cl.header c m) m.payload) where
  devices addr t ht dev hdev := by
    obtain ⟨-, hold⟩ | ⟨haddr, hkept⟩ := Sessions.deliver_devices ht
    · exact h.devices addr t hold dev hdev
    · obtain ⟨dev', hdev', hsame, hclId, hncpus⟩ := hkept dev hdev
      rw [i.known_hostname, hhost] at haddr
      rw [haddr, OwnDevice, hsame, hclId, hncpus]
      exact h.ensureDevice hdistinct hi hhost hs hdev'
  known c' i' hi' := by
    obtain ⟨rfl, rfl⟩ | hold := Sessions.message_known hi'
    · exact .inr (h.known_ncpus hi m)
    · exact h.known c' i' hold

end Routing

def ClientMsg.bytes (name : String) (cpu : UInt32) : ClientMsg → List UInt8
  | opens _ _ => []
  | data name' cpu' payload => if name' = name ∧ cpu' = cpu then payload else []
  | closes _ _ => []

namespace World

variable {κ ρ : Type}

def sent [DecidableEq ρ] (cl : Clients κ ρ) (w : World κ) (r : ρ) (name : String) (cpu : UInt32) :
    List UInt8 :=
  (w.got.map fun p => if cl.run p.1 = r then p.2.bytes name cpu else []).flatten

def Exact [DecidableEq ρ] (cl : Clients κ ρ) (w : World κ) : Prop :=
  ∀ r name cpu, w.server.stored (cl.client r) name cpu = w.sent cl r name cpu

def InBounds [DecidableEq κ] (cl : Clients κ ρ) (step : World κ × WorldAction κ × World κ) : Prop :=
  ∀ c name cpu payload rest, step.2.1 = .message c →
    step.1.todo c = .data name cpu payload :: rest →
    ∀ dpp, step.1.server.deviceOf c (cl.header c (.data name cpu payload)) = some dpp →
      (cpu.toNat : ℤ) < dpp.ncpus

/-- Data finds no device of its name on its host that another run has opened. -/
def Routed (cl : Clients κ ρ) (step : World κ × WorldAction κ × World κ) : Prop :=
  ∀ c name cpu payload rest, step.2.1 = .message c →
    step.1.todo c = .data name cpu payload :: rest →
    ∀ nc ch, step.1.server.conn c = some nc → step.1.server.ch nc.ch = some ch →
      ∀ d ∈ ch.devpaths, ∀ dpp, step.1.server.dpp d = some dpp → dpp.butsName = name →
        dpp.clId = (cl.client (cl.run c)).clId

variable {cl : Clients κ ρ} {w : World κ} {a : Sessions κ} {host : UInt32 → ℕ} {c : κ}
  {m : ClientMsg} {rest : List ClientMsg} {i : ConnInfo} {s : Session κ}

theorem bytes_of_header (hm : m ∈ cl.script c) {dev : Device}
    (hname : dev.butsName = (cl.header c m).butsName) (r : ClientRun) (name : String) (cpu : UInt32) :
    (if ((cl.header c m).len ≠ 0 ∧ (cl.header c m).len ≠ 1) ∧ dev.belongs r name = true ∧
        cpu = (cl.header c m).cpu then m.payload else []) =
      if dev.hostname = r.hostname ∧ dev.clId = r.clId then m.bytes name cpu else [] := by
  obtain ⟨hopen, hclose⟩ := header_len hm
  rw [Device.belongs]
  cases m with
  | opens name' cpu' => simp [ClientMsg.bytes, ClientMsg.payload]
  | closes name' drops => simp [ClientMsg.bytes, ClientMsg.payload]
  | data name' cpu' payload =>
    have hlen : (cl.header c (.data name' cpu' payload)).len ≠ 0 ∧
        (cl.header c (.data name' cpu' payload)).len ≠ 1 :=
      ⟨fun h => Bool.false_ne_true (hopen.mp h), fun h => Bool.false_ne_true (hclose.mp h)⟩
    have hcpu : (cl.header c (.data name' cpu' payload)).cpu = cpu' := rfl
    have hname' : dev.butsName = name' := hname
    rw [hcpu, hname', ClientMsg.bytes, ClientMsg.payload, ← ite_and]
    apply if_congr _ rfl rfl
    simp only [Bool.and_eq_true, decide_eq_true_eq]
    constructor
    · rintro ⟨-, ⟨⟨hhost, hclId⟩, hsame⟩, rfl⟩
      exact ⟨⟨hhost, hclId⟩, hsame, rfl⟩
    · rintro ⟨⟨hhost, hclId⟩, hsame, rfl⟩
      exact ⟨hlen, ⟨⟨hhost, hclId⟩, hsame⟩, rfl⟩

theorem routed_iff (h : Inv cl w a host) (hi : a.info c = some i) (hhost : i.hostname = cl.hostname c)
    (hs : a.session (cl.hostname c) = some s) (htodo : w.todo c = m :: rest) (w' : World κ) :
    Routed cl (w, .message c, w') ↔ ∀ name cpu payload, m = .data name cpu payload →
      ∀ dev ∈ s.devices, dev.butsName = name → dev.clId = (cl.client (cl.run c)).clId := by
  obtain ⟨-, ds, hch, hds⟩ := h.represents.session _ s hs
  have hconn : w.server.conn c = some ⟨host (cl.hostname c), i.ncpus, i.connectTime⟩ := by
    rw [h.represents.conn c, hi, Option.map_some, hhost]
  constructor
  · rintro hrouted name cpu payload rfl dev hdev hname
    obtain ⟨d, hd, hdpp⟩ := exists_dpp hds hdev
    exact hrouted c name cpu payload rest rfl htodo _ _ hconn hch d hd _ hdpp hname
  · rintro hall c' name cpu payload rest' hact htodo' nc ch hnc hch' d hd dpp hdpp hname
    cases hact
    rw [htodo] at htodo'
    cases htodo'
    rw [hconn] at hnc
    cases hnc
    rw [hch] at hch'
    cases hch'
    obtain ⟨dev, hdev, hdpp'⟩ := exists_dev hds hd
    rw [hdpp'] at hdpp
    cases hdpp
    exact hall name cpu payload rfl dev hdev hname

theorem exact_start [DecidableEq ρ] (cl : Clients κ ρ) : Exact cl (start cl) := fun _ _ _ => rfl

section Routing

variable [DecidableEq κ] {ns : NetServer κ}

theorem Runs.routing {steps : List (World κ × WorldAction κ × World κ)} (h : Runs cl steps w)
    (hdistinct : DistinctRuns cl) : ∃ a host, Inv cl w a host ∧ Routing cl a := by
  induction h with
  | start => exact ⟨_, _, inv_start cl, Routing.empty cl⟩
  | step steps w w' act _ hstep ih =>
    obtain ⟨a, host, h, hr⟩ := ih
    cases hstep with
    | accept c time ns hnew hns =>
      obtain ⟨host', h'⟩ := h.accept hnew hns
      exact ⟨_, host', h', hr.accept _ c time⟩
    | message c m rest ns hc htodo hclose hns =>
      obtain ⟨i, s, hi, hhost, hs, -, h'⟩ := h.message hc htodo hns (w.got ++ [(c, m)])
      exact ⟨_, host, h', hr.message hdistinct hi hhost hs m⟩

theorem stored_after (h : Inv cl w a host) (hr : Routing cl a) (hdistinct : DistinctRuns cl)
    (hc : c ∈ w.server.connList) (htodo : w.todo c = m :: rest)
    (hns : w.server.netClientData c (cl.header c m) m.payload = some ns)
    (hi : a.info c = some i) (hs : a.session (cl.hostname c) = some s) {dev : Device}
    (hdev : dev ∈ ensureDevice (i.known (cl.header c m)) (cl.header c m) s.devices)
    (hname : dev.butsName = (cl.header c m).butsName) (r : ClientRun) (name : String) (cpu : UInt32) :
    ns.stored r name cpu = w.server.stored r name cpu ++
      if dev.hostname = r.hostname ∧ dev.clId = r.clId then m.bytes name cpu else [] := by
  obtain ⟨i', s', hi', hhost, hs', -, h'⟩ := h.message hc htodo hns w.got
  rw [hi] at hi'
  cases hi'
  rw [hs] at hs'
  cases hs'
  have hr' := hr.message hdistinct hi hhost hs m
  have hstored : ns.stored r name cpu =
      (a.message c i s (cl.header c m) m.payload).stored r name cpu := h'.represents.stored hr'.hostname
  rw [← hhost] at hs
  rw [hstored, h.represents.stored hr.hostname, Sessions.stored_message hs (hr.hostname _ s hs)
    (h.represents.names _ s hs) hdev hname, bytes_of_header (h.mem_script htodo) hname]

variable [DecidableEq ρ]

theorem sent_after (r : ρ) (name : String) (cpu : UInt32) :
    (after w ns c rest (w.got ++ [(c, m)])).sent cl r name cpu =
      w.sent cl r name cpu ++ if cl.run c = r then m.bytes name cpu else [] := by
  simp [sent, after]

theorem exact_after_iff (h : Inv cl w a host) (hr : Routing cl a) (hdistinct : DistinctRuns cl)
    (hexact : Exact cl w) (hc : c ∈ w.server.connList) (htodo : w.todo c = m :: rest)
    (hns : w.server.netClientData c (cl.header c m) m.payload = some ns)
    (hi : a.info c = some i) (hhost : i.hostname = cl.hostname c)
    (hs : a.session (cl.hostname c) = some s) {dev : Device}
    (hdev : dev ∈ ensureDevice (i.known (cl.header c m)) (cl.header c m) s.devices)
    (hname : dev.butsName = (cl.header c m).butsName) :
    Exact cl (after w ns c rest (w.got ++ [(c, m)])) ↔ ∀ name cpu payload,
      m = .data name cpu payload → dev.clId = (cl.client (cl.run c)).clId := by
  have hown := hr.ensureDevice hdistinct hi hhost hs hdev
  have hafter : ∀ r name cpu, (ns.stored (cl.client r) name cpu =
      (after w ns c rest (w.got ++ [(c, m)])).sent cl r name cpu ↔
        (if dev.hostname = (cl.client r).hostname ∧ dev.clId = (cl.client r).clId then m.bytes name cpu
          else []) = if cl.run c = r then m.bytes name cpu else []) := by
    rintro r name cpu
    rw [stored_after h hr hdistinct hc htodo hns hi hs hdev hname, sent_after, hexact r name cpu]
    exact List.append_right_inj _
  constructor
  · rintro hall name cpu payload rfl
    have hbytes := (hafter (cl.run c) name cpu).mp (hall (cl.run c) name cpu)
    by_contra hother
    have hpayload : payload = [] := by
      rw [if_neg fun hsame => hother hsame.2, if_pos rfl] at hbytes
      simpa [ClientMsg.bytes] using hbytes.symm
    have hlen := ((cl.valid c).data _ (h.mem_script htodo) name cpu payload rfl).1
    rw [hpayload] at hlen
    exact absurd hlen (by decide)
  · rintro hdata r name cpu
    refine (hafter r name cpu).mpr ?_
    cases m with
    | opens name' cpu' => simp [ClientMsg.bytes]
    | closes name' drops => simp [ClientMsg.bytes]
    | data name' cpu' payload =>
      apply if_congr _ rfl rfl
      rw [hown.1, hdata name' cpu' payload rfl]
      constructor
      · rintro ⟨hsame, hclId⟩
        exact hdistinct _ _ hsame hclId
      · rintro rfl
        exact ⟨rfl, rfl⟩

theorem message_iff (h : Inv cl w a host) (hr : Routing cl a) (hdistinct : DistinctRuns cl)
    (hcpus : KnownCpus cl) (hexact : Exact cl w) (hc : c ∈ w.server.connList)
    (htodo : w.todo c = m :: rest)
    (hns : w.server.netClientData c (cl.header c m) m.payload = some ns) :
    (Exact cl (after w ns c rest (w.got ++ [(c, m)])) ∧
        InBounds cl (w, .message c, after w ns c rest (w.got ++ [(c, m)]))) ↔
      Routed cl (w, .message c, after w ns c rest (w.got ++ [(c, m)])) := by
  obtain ⟨i, s, hi, hhost, hs, -, -⟩ := h.message hc htodo hns w.got
  obtain ⟨dev, hdev, hname⟩ :=
    exists_ensureDevice (i.known (cl.header c m)) (cl.header c m) s.devices
  have hnames : ((ensureDevice (i.known (cl.header c m)) (cl.header c m) s.devices).map
      Device.butsName).Nodup := ensureDevice_names (h.represents.names _ s hs)
  have hown := hr.ensureDevice hdistinct hi hhost hs hdev
  rw [exact_after_iff h hr hdistinct hexact hc htodo hns hi hhost hs hdev hname,
    routed_iff h hi hhost hs htodo]
  constructor
  · rintro ⟨hdata, -⟩ name cpu payload rfl dev' hdev' hname'
    have hsame : dev' = dev := List.inj_on_of_nodup_map hnames
      (subset_ensureDevice _ _ _ hdev') hdev (hname'.trans hname.symm)
    rw [hsame]
    exact hdata name cpu payload rfl
  · rintro hall
    have hdata : ∀ name cpu payload, m = .data name cpu payload →
        dev.clId = (cl.client (cl.run c)).clId := by
      rintro name cpu payload rfl
      obtain hold | rfl := mem_ensureDevice hdev
      · exact hall name cpu payload rfl dev hold hname
      · exact Routing.header_clId cl c _
    refine ⟨hdata, ?_⟩
    rintro c' name cpu payload rest' hact htodo' dpp hdpp
    cases hact
    rw [htodo] at htodo'
    cases htodo'
    rw [← hhost] at hs
    obtain ⟨hmem, hname'⟩ := h.represents.deviceOf hi hs hdpp
    have hsame : dpp.toDevice = dev :=
      List.inj_on_of_nodup_map hnames hmem hdev (hname'.trans hname.symm)
    have hncpus := hown.2 (cl.run c) rfl (hdata name cpu payload rfl).symm
    rw [hsame, hncpus]
    exact hcpus c name cpu payload (h.mem_script htodo)

theorem step_iff {w' : World κ} {act : WorldAction κ} (h : Inv cl w a host) (hr : Routing cl a)
    (hdistinct : DistinctRuns cl) (hcpus : KnownCpus cl) (hexact : Exact cl w)
    (hstep : Step cl w act w') :
    Exact cl w' ∧ InBounds cl (w, act, w') ↔ Routed cl (w, act, w') := by
  cases hstep with
  | accept c time ns hnew hns =>
    obtain ⟨host', h'⟩ := h.accept hnew hns
    have hr' := hr.accept (cl.hostname c) c time
    have hafter : Exact cl { w with server := ns, accepted := update w.accepted c true } := by
      rintro r name cpu
      have hsent : sent cl { w with server := ns, accepted := update w.accepted c true } r name cpu =
        w.sent cl r name cpu := rfl
      rw [hsent, ← hexact r name cpu, h'.represents.stored hr'.hostname, Sessions.stored_accept,
        h.represents.stored hr.hostname]
    exact ⟨fun _ _ _ _ _ _ hact => (nomatch hact), fun _ => ⟨hafter, fun _ _ _ _ _ hact =>
      (nomatch hact)⟩⟩
  | message c m rest ns hc htodo hclose hns =>
    exact message_iff h hr hdistinct hcpus hexact hc htodo hns

end Routing

def sharedDevice : Clients Bool Bool where
  run := id
  client r := ⟨1, if r then 8 else 7, if r then 2 else 1⟩
  script c := if c then [.opens "sda" 0, .data "sda" 1 [1, 2], .closes "sda" 0]
    else [.opens "sda" 0, .closes "sda" 0]
  valid c := by
    cases c
    · exact ⟨rfl, ⟨_, rfl, rfl⟩, by simp⟩
    · exact ⟨rfl, ⟨_, rfl, rfl⟩, by simp⟩

theorem sharedDevice_distinct : DistinctRuns sharedDevice := by
  rintro (_ | _) (_ | _) - h
  · rfl
  · exact absurd h (by decide)
  · exact absurd h (by decide)
  · rfl

theorem sharedDevice_cpus : KnownCpus sharedDevice := by
  rintro (_ | _) name cpu payload h
  · simp [sharedDevice] at h
  · obtain ⟨rfl, rfl, rfl⟩ : name = "sda" ∧ cpu = 1 ∧ payload = [1, 2] := by
      simpa [sharedDevice] using h
    decide

end World

end SBlktrace
