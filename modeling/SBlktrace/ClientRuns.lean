import SBlktrace.ServerSessions
import Mathlib

namespace SBlktrace

open Function

inductive ClientMsg where
  | opens (name : String) (cpu : UInt32)
  | data (name : String) (cpu : UInt32) (payload : List UInt8)
  | closes (name : String) (drops : UInt32)
deriving DecidableEq

namespace ClientMsg

def isOpen : ClientMsg → Bool
  | opens _ _ => true
  | data _ _ _ => false
  | closes _ _ => false

def isClose : ClientMsg → Bool
  | opens _ _ => false
  | data _ _ _ => false
  | closes _ _ => true

def payload : ClientMsg → List UInt8
  | opens _ _ => []
  | data _ _ payload => payload
  | closes _ _ => []

end ClientMsg

structure ClientRun where
  hostname : UInt32
  clId : UInt32
  ncpus : UInt32

def ClientRun.netSendHeader (r : ClientRun) (cpu : UInt32) (butsName : String) (len : UInt32) :
    BlktraceNetHdr :=
  ⟨butsName, cpu, r.ncpus, len, r.clId⟩

def ClientRun.header (r : ClientRun) : ClientMsg → BlktraceNetHdr
  | .opens name cpu => r.netSendHeader cpu name 0
  | .data name cpu payload => r.netSendHeader cpu name (UInt32.ofNat payload.length)
  | .closes name drops => r.netSendHeader drops name 1

/-- A connection sends as many opens as closes, a close last, and data of more than one byte. -/
structure ValidScript (script : List ClientMsg) : Prop where
  balanced : script.countP ClientMsg.isOpen = script.countP ClientMsg.isClose
  last : ∃ m ∈ script.getLast?, m.isClose = true
  data : ∀ m ∈ script, ∀ name cpu payload, m = .data name cpu payload →
    1 < payload.length ∧ payload.length < 2 ^ 32

structure Clients (κ ρ : Type) where
  run : κ → ρ
  client : ρ → ClientRun
  script : κ → List ClientMsg
  valid : ∀ c, ValidScript (script c)

namespace Clients

variable {κ ρ : Type}

def hostname (cl : Clients κ ρ) (c : κ) : UInt32 := (cl.client (cl.run c)).hostname

def header (cl : Clients κ ρ) (c : κ) (m : ClientMsg) : BlktraceNetHdr :=
  (cl.client (cl.run c)).header m

end Clients

/-- The server, the connections that were made, and the messages that it still has to get, or has
got. -/
structure World (κ : Type) where
  server : NetServer κ
  accepted : κ → Bool
  todo : κ → List ClientMsg
  got : List (κ × ClientMsg)

inductive WorldAction (κ : Type) where
  | accept (c : κ) (time : ℤ)
  | message (c : κ)

namespace World

variable {κ ρ : Type}

def start (cl : Clients κ ρ) : World κ := ⟨NetServer.netServer, fun _ => false, cl.script, []⟩

section Steps

variable [DecidableEq κ]

/-- The server accepts a connection, or handles the next message of one that it has not closed. A
run sends a close when all of its opens were acknowledged. -/
inductive Step (cl : Clients κ ρ) : World κ → WorldAction κ → World κ → Prop
  | accept (w : World κ) (c : κ) (time : ℤ) (ns : NetServer κ) (hnew : w.accepted c = false)
      (hns : w.server.netAddConnection (cl.hostname c) c time = some ns) :
      Step cl w (.accept c time) { w with server := ns, accepted := update w.accepted c true }
  | message (w : World κ) (c : κ) (m : ClientMsg) (rest : List ClientMsg) (ns : NetServer κ)
      (hc : c ∈ w.server.connList) (htodo : w.todo c = m :: rest)
      (hclose : m.isClose = true → ∀ c', cl.run c' = cl.run c →
        (w.todo c').countP ClientMsg.isOpen = 0)
      (hns : w.server.netClientData c (cl.header c m) m.payload = some ns) :
      Step cl w (.message c)
        { w with
          server := ns
          todo := update w.todo c rest
          got := w.got ++ [(c, m)] }

inductive Runs (cl : Clients κ ρ) : List (World κ × WorldAction κ × World κ) → World κ → Prop
  | start : Runs cl [] (start cl)
  | step (steps : List (World κ × WorldAction κ × World κ)) (w w' : World κ) (a : WorldAction κ)
      (hruns : Runs cl steps w) (hstep : Step cl w a w') : Runs cl (steps ++ [(w, a, w')]) w'

end Steps

structure Inv (cl : Clients κ ρ) (w : World κ) (a : Sessions κ) (host : UInt32 → ℕ) : Prop where
  represents : Represents w.server a host
  hostname : ∀ c i, a.info c = some i → i.hostname = cl.hostname c
  accepted : ∀ c i, a.info c = some i → w.accepted c = true
  suffix : ∀ c, w.todo c <:+ cl.script c
  unsent : ∀ c, w.accepted c = false → w.todo c = cl.script c

variable {cl : Clients κ ρ} {w w' : World κ} {a : Sessions κ} {host : UInt32 → ℕ}

theorem inv_start (cl : Clients κ ρ) : Inv cl (start cl) Sessions.empty fun _ => 0 where
  represents := Represents.netServer
  hostname c i hi := by cases hi
  accepted c i hi := by cases hi
  suffix c := List.suffix_refl _
  unsent c _ := rfl

theorem Inv.info_none (h : Inv cl w a host) {c : κ} (hc : w.accepted c = false) :
    a.info c = none := by
  cases hi : a.info c with
  | none => rfl
  | some i =>
    rw [h.accepted c i hi] at hc
    cases hc

theorem Inv.session (h : Inv cl w a host) {c : κ} (hc : c ∈ w.server.connList) :
    ∃ i s, a.info c = some i ∧ i.hostname = cl.hostname c ∧
      a.session (cl.hostname c) = some s ∧ c ∈ s.conns := by
  obtain ⟨i, hi⟩ := Option.isSome_iff_exists.mp ((h.represents.connList c).mp hc)
  obtain ⟨s, hs, hmem⟩ := h.represents.known c i hi
  have hhost := h.hostname c i hi
  rw [hhost] at hs
  exact ⟨i, s, hi, hhost, hs, hmem⟩

variable [DecidableEq κ]

theorem Inv.accept (h : Inv cl w a host) {c : κ} {time : ℤ} {ns : NetServer κ}
    (hnew : w.accepted c = false)
    (hns : w.server.netAddConnection (cl.hostname c) c time = some ns) :
    ∃ host', Inv cl { w with server := ns, accepted := update w.accepted c true }
      (a.accept (cl.hostname c) c time) host' := by
  obtain ⟨ns', host', hns', hrep⟩ := h.represents.netAddConnection (h.info_none hnew)
    (cl.hostname c) time
  rw [hns] at hns'
  cases hns'
  refine ⟨host', hrep, fun c' i hi => ?_, fun c' i hi => ?_, h.suffix, fun c' hc' => ?_⟩
  · by_cases hc' : c' = c
    · subst hc'
      have hself : update a.info c' (some ⟨cl.hostname c', -1, time⟩) c' = some i := hi
      rw [update_self] at hself
      cases hself
      rfl
    · exact h.hostname c' i ((update_of_ne hc' _ _).symm.trans hi)
  · by_cases hc' : c' = c
    · subst hc'
      exact update_self _ _ _
    · exact (update_of_ne hc' _ _).trans (h.accepted c' i ((update_of_ne hc' _ _).symm.trans hi))
  · by_cases heq : c' = c
    · subst heq
      exact h.unsent c' hnew
    · exact h.unsent c' ((update_of_ne heq _ _).symm.trans hc')

theorem Inv.message (h : Inv cl w a host) {c : κ} {m : ClientMsg} {rest : List ClientMsg}
    {ns : NetServer κ} (hc : c ∈ w.server.connList) (htodo : w.todo c = m :: rest)
    (hns : w.server.netClientData c (cl.header c m) m.payload = some ns) (got : List (κ × ClientMsg)) :
    ∃ i s, a.info c = some i ∧ i.hostname = cl.hostname c ∧
      a.session (cl.hostname c) = some s ∧ c ∈ s.conns ∧
      Inv cl { w with server := ns, todo := update w.todo c rest, got := got }
        (a.message c i s (cl.header c m) m.payload) host := by
  obtain ⟨i, s, hi, hhost, hs, hmem⟩ := h.session hc
  obtain ⟨ns', s', hns', hs', hrep⟩ := h.represents.netClientData hi (cl.header c m) m.payload
  rw [hns] at hns'
  cases hns'
  rw [hhost, hs] at hs'
  cases hs'
  refine ⟨i, s, hi, hhost, hs, hmem, hrep, fun c' i' hi' => ?_, fun c' i' hi' => ?_, fun c' => ?_,
    fun c' hc' => ?_⟩
  · obtain ⟨i₀, hi₀, hsame⟩ := Sessions.message_info hi hi'
    rw [hsame]
    exact h.hostname c' i₀ hi₀
  · obtain ⟨i₀, hi₀, -⟩ := Sessions.message_info hi hi'
    exact h.accepted c' i₀ hi₀
  · change update w.todo c rest c' <:+ cl.script c'
    by_cases heq : c' = c
    · subst heq
      have hsuffix := h.suffix c'
      rw [htodo] at hsuffix
      rw [update_self]
      exact (List.suffix_cons m rest).trans hsuffix
    · rw [update_of_ne heq]
      exact h.suffix c'
  · have hne : c' ≠ c := by
      rintro rfl
      rw [h.accepted c' i hi] at hc'
      cases hc'
    exact (update_of_ne hne _ _).trans (h.unsent c' hc')

end World

end SBlktrace
